import NumLang.Data.Reader
import NumLang.Data.Writer
import NumLang.Pipeline

/-!
Passes, configurations, context tags and events as plain data.
-/

namespace NumLang

def Operator.ofData? (d : Data) : Option Operator := do
  let name := (d.elt 1).text?
  match d.elt 0 with
  | .text "op0" => return .constant
  | .text "op1" => return .unary (← UnaryOp.ofName? (← name))
  | .text "op2" => return .binary (← BinaryOp.ofName? (← name))
  | .text "op3" => return .ternary (← TernaryOp.ofName? (← name))
  | .text "opn" => return .nary (← NaryOp.ofName? (← name))
  | _ => none

def ContextTag.ofData? : Data → Option ContextTag
  | .text "default" => some .default
  | .text "unknown" => some .unknown
  | d => (Context.ofData? d).map .known

def ContextTag.toData : ContextTag → Data
  | .known c => c.toData
  | tag => .text tag.text

namespace Config

def setField (config : Config) (name : String) (d : Data) : Option Config := do
  match name with
  | "max_iterations" => return { config with maxIterations := ← d.size? }
  | "parallel" => return { config with parallel := ← d.bool? }
  | "inlining" => return { config with inlining := ← d.bool? }
  | "inline_threshold" => return { config with inlineThreshold := ← d.size? }
  | "constant_folding" => return { config with constantFolding := ← d.bool? }
  | "copy_propagation" => return { config with copyPropagation := ← d.bool? }
  | "dead_code_elimination" => return { config with deadCodeElimination := ← d.bool? }
  | "simplify_if" => return { config with simplifyIf := ← d.bool? }
  | "context_lifting" => return { config with contextLifting := ← d.bool? }
  | _ => none

def ofData? : Data → Option Config
  | .null => some {}
  | .record fields => fields.foldlM (fun config (name, d) => config.setField name d) {}
  | _ => none

def toData (config : Config) : Data :=
  .record [("max_iterations", .nat config.maxIterations), ("parallel", .bool config.parallel),
    ("inlining", .bool config.inlining), ("inline_threshold", .nat config.inlineThreshold),
    ("constant_folding", .bool config.constantFolding),
    ("copy_propagation", .bool config.copyPropagation),
    ("dead_code_elimination", .bool config.deadCodeElimination),
    ("simplify_if", .bool config.simplifyIf), ("context_lifting", .bool config.contextLifting)]

end Config

def Evaluator.ofData? (d : Data) : Option Evaluator := do
  if d.isNull then return .exact
  if !d.isRecord then none
  return .constant (← (d.field "value").optional? HostValue.ofData?) (← (d.field "compare").optional? Data.bool?)

namespace BundleTargets

def add (targets : BundleTargets) : Data → Option BundleTargets
  | .text "while" => some { targets with loops := true }
  | .text "for" => some { targets with each := true }
  | .text "if" => some { targets with branches := true }
  | _ => none

def ofData? (d : Data) : Option BundleTargets := do
  if d.isNull then return {} else (← d.list?).foldlM add ⟨false, false, false⟩

end BundleTargets

def Leftover.ofData? : Data → Option Leftover
  | .null | .text "strict" => some .strict
  | .text "epilogue" => some .epilogue
  | _ => none

/-- Reads what is given for the variables; the types by name do not count beside the types of arguments. -/
def Specialize.ofData? (types contexts args : Data) : Option Specialize := do
  let types ← types.table? Ann.ofData?
  let contexts ← contexts.table? Context.ofData?
  let args ← args.optional? (Data.listOf? Ann.ofData?)
  return ⟨if args.isSome then ∅ else types, contexts, args⟩

def Pass.ofData? (d : Data) : Option Pass := do
  match d.elt 0 with
  | .text "const_fold" => return constantFolding (← Evaluator.ofData? (d.elt 1))
  | .text "copy_propagate" => return copyPropagation
  | .text "dead_code" => return deadCode
  | .text "simplify_if" => return branchMerging
  | .text "lift_context" => return contextLifting
  | .text "inline" => return inlining (← (d.elt 1).optional? Data.size?)
  | .text "unroll" =>
    return unrolling ⟨← (d.elt 1).size?, ← Leftover.ofData? (d.elt 2), ← (d.elt 3).optional? Data.size?⟩
  | .text "mono" => return specialization (← Specialize.ofData? (d.elt 1) (d.elt 2) (d.elt 3))
  | .text "bundle" => return bundling (← BundleTargets.ofData? (d.elt 1))
  | .text "noop" => return noop
  | _ => none

def EventKind.ofData? (d : Data) : Option EventKind := do ofText? (← d.text?)

def Event.ofData? (node : Option NodeId) (d : Data) : Option Event := do
  return {
    kind := ← EventKind.ofData? (d.field "kind")
    function := ← (d.field "function").optional? Data.text?
    node := node
    pass := ← (d.field "pass").optional? Data.text?
    message := (← (d.field "message").optional? Data.text?).getD ""
  }

def Event.toData (label : NodeId → String) (shown : String → String) (e : Event) : Data :=
  .list [.text e.kind.text, .ofOption .text e.function, .ofOption (.text <| label ·) e.node,
    .ofOption .text e.pass, .text (shown e.message)]

/-- What can be named: operators, relations, rounding modes, kinds of events, passes and the defaults. -/
def namesData : Data :=
  let passes : List Pass := [.constantFolding, .copyPropagation, .deadCode, .branchMerging, .contextLifting,
    .inlining, .bundling, .specialization {}, .noop, .unrolling { factor := 2 }]
  .record [("nullary", .texts (Constant.all.map (·.name))), ("unary", .texts (UnaryOp.all.map (·.name))),
    ("binary", .texts (BinaryOp.all.map (·.name))), ("ternary", .texts (TernaryOp.all.map (·.name))),
    ("nary", .texts (NaryOp.all.map (·.name))), ("compare", .texts (Relation.all.map (·.symbol))),
    ("rounding", .texts (RoundingMode.all.map (·.text))), ("events", .texts (EventKind.all.map (·.text))),
    ("passes", .ofList (fun p => .texts [p.name, p.description]) passes),
    ("default_pipeline", .texts ((Pipeline.ofConfig {}).passes.map (·.name))),
    ("config", Config.toData {})]

end NumLang
