import NumLang.Node

/-!
Events: what passes have done to a program, in order.
-/

namespace NumLang

inductive EventKind where
  /-- An operator was replaced by its value. -/
  | constantFolded
  /-- The use of a copy was replaced by what was copied. -/
  | copyPropagated
  /-- A dead assignment was removed. -/
  | assignmentRemoved
  /-- An unreachable or redundant statement was removed. -/
  | statementRemoved
  /-- A free name that is not used was dropped. -/
  | freeVarPruned
  /-- A branch became statements in a row. -/
  | ifSimplified
  | loopUnrolled
  /-- A call was replaced by the body of what is called. -/
  | callInlined
  /-- A rounding context was given a name at the top. -/
  | contextLifted
  /-- An annotation was made concrete. -/
  | monomorphized
  /-- Names that meet in a join were put into one tuple. -/
  | variablesBundled
  /-- A rule was applied. -/
  | ruleApplied
  | warning
  | info
deriving DecidableEq, Repr, Inhabited

namespace EventKind

def all : List EventKind :=
  [.constantFolded, .copyPropagated, .assignmentRemoved, .statementRemoved, .freeVarPruned, .ifSimplified,
    .loopUnrolled, .callInlined, .contextLifted, .monomorphized, .variablesBundled, .ruleApplied,
    .warning, .info]

def text : EventKind → String
  | .constantFolded => "constant_folded"
  | .copyPropagated => "copy_propagated"
  | .assignmentRemoved => "assignment_removed"
  | .statementRemoved => "statement_removed"
  | .freeVarPruned => "free_var_pruned"
  | .ifSimplified => "if_simplified"
  | .loopUnrolled => "loop_unrolled"
  | .callInlined => "call_inlined"
  | .contextLifted => "context_lifted"
  | .monomorphized => "monomorphized"
  | .variablesBundled => "variables_bundled"
  | .ruleApplied => "rewrite_applied"
  | .warning => "warning"
  | .info => "info"

def ofText? (s : String) : Option EventKind := all.find? (·.text == s)

end EventKind

/-- Something that happened, and where. -/
structure Event where
  kind : EventKind
  function : Option String := none
  node : Option NodeId := none
  pass : Option String := none
  message : String := ""
deriving DecidableEq, Repr, Inhabited

def Event.text (e : Event) : String :=
  "[" ++ e.kind.text ++ "]"
    ++ (match e.pass with | some pass => " " ++ pass | none => "")
    ++ (match e.function with | some function => " in `" ++ function ++ "`" | none => "")
    ++ (match e.node with | some node => " at " ++ node.text | none => "")
    ++ (if e.message.isEmpty then "" else ": " ++ e.message)

abbrev EventLog := List Event

namespace EventLog

def count (log : EventLog) (kind : EventKind) : Nat := log.countP (·.kind = kind)

def has (log : EventLog) (kind : EventKind) : Bool := log.any (·.kind = kind)

def summary (log : EventLog) : String :=
  let counts := EventKind.all.filterMap fun kind =>
    let n := count log kind
    if n = 0 then none else some (kind.text ++ ": " ++ toString n)
  if counts.isEmpty then "no changes" else ", ".intercalate counts

def sizeText (log : EventLog) : String := "EventLog \x7b events: " ++ toString log.length ++ " \x7d"

end EventLog

end NumLang
