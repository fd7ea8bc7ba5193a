import NumLang.Error
import NumLang.Tree.Names
import NumLang.Flow.Definition

/-!
Reaching definitions: which definition of each name is in force at every statement and block.
-/

namespace NumLang

namespace Flow

abbrev Env := NameMap Place

/-- A definition together with its place. -/
structure Record where
  place : Place
  definition : Definition Place
deriving Repr, Inhabited

/-- The environments before and after a statement or block. -/
structure Span (κ : Type) where
  before : NameMap κ
  after : NameMap κ

/-- What the walk over a part of a program has found: definitions in order of creation, and the environments
of statements and blocks. -/
structure Notes where
  records : List Record := []
  stmts : List (NodeId × Span Place) := []
  blocks : List (NodeId × Span Place) := []

instance : Append Notes where
  append a b := ⟨a.records ++ b.records, a.stmts ++ b.stmts, a.blocks ++ b.blocks⟩

def bindNames (site : Site) : (slot : Nat) → List Name → Env → Env × List Record
  | _, [], env => (env, [])
  | slot, n :: rest, env =>
    let place := Place.binder site.node slot
    let (after, records) := bindNames site (slot + 1) rest (env.insert n place)
    (after, ⟨place, .assign n site (env.get? n)⟩ :: records)

def firstRepeated (seen : List Name) : List Name → Option Name
  | [] => none
  | n :: rest => if n ∈ seen then some n else firstRepeated (n :: seen) rest

def checkDistinct (site : NodeId) (target : Binder) : Except Error Unit :=
  match firstRepeated [] target.names with
  | some n => throw (.malformed (.boundTwice n site))
  | none => pure ()

def checkAllDistinct (site : NodeId) : List Binder → Except Error Unit
  | [] => pure ()
  | target :: rest => do
    checkDistinct site target
    checkAllDistinct site rest

mutual

def checkArity (site : NodeId) : Binder → Expr → Except Error Unit
  | .tuple parts, .tuple _ values =>
    if parts.length ≠ values.length then throw (.arityMismatch site parts.length values.length)
    else checkArities site parts values
  | _, _ => pure ()

def checkArities (site : NodeId) : List Binder → List Expr → Except Error Unit
  | b :: bs, v :: vs => do
    checkArity site b v
    checkArities site bs vs
  | _, _ => pure ()

end

mutual

def ofExpr (env : Env) : Expr → Except Error (List Record)
  | .var node name => if env.contains name then pure [] else throw (.undefinedName name node.id)
  | .lit .. | .const .. => pure []
  | .unary _ _ _ arg => ofExpr env arg
  | .binary _ _ _ lhs rhs => do return (← ofExpr env lhs) ++ (← ofExpr env rhs)
  | .ternary _ _ _ first second third => do
    return (← ofExpr env first) ++ (← ofExpr env second) ++ (← ofExpr env third)
  | .nary _ _ _ args | .compare _ _ args | .tuple _ args | .list _ args => ofExprs env args
  | .call _ _ _ args kwargs | .context _ _ args kwargs => do
    return (← ofExprs env args) ++ (← ofKeyed env kwargs)
  | .comprehension node targets iterables elt => do
    let outer ← ofExprs env iterables
    checkAllDistinct node.id targets
    let (inside, bound) := bindNames ⟨.comprehension, node.id⟩ 0 (Binder.namesAll targets) env
    return outer ++ bound ++ (← ofExpr inside elt)
  | .index _ value position => do return (← ofExpr env value) ++ (← ofExpr env position)
  | .slice _ value start stop => do
    return (← ofExpr env value) ++ (← ofOption env start) ++ (← ofOption env stop)
  | .update _ value path elt => do
    return (← ofExpr env value) ++ (← ofExprs env path) ++ (← ofExpr env elt)
  | .cond _ test ift iff => do return (← ofExpr env test) ++ (← ofExpr env ift) ++ (← ofExpr env iff)

def ofExprs (env : Env) : List Expr → Except Error (List Record)
  | [] => pure []
  | e :: rest => do return (← ofExpr env e) ++ (← ofExprs env rest)

def ofKeyed (env : Env) : List (String × Expr) → Except Error (List Record)
  | [] => pure []
  | (_, e) :: rest => do return (← ofExpr env e) ++ (← ofKeyed env rest)

def ofOption (env : Env) : Option Expr → Except Error (List Record)
  | none => pure []
  | some e => ofExpr env e

end

/-- The environment at the head of a loop, and after it: each carried name is a join there. -/
def loopHead (site : NodeId) (carried : NameSet) (env : Env) : Env :=
  env.mapValues fun n place => if n ∈ carried then .join site n else place

def loopJoins (site : NodeId) (carried : NameSet) (env bodyOut : Env) : List Record :=
  (env.entries.filter (·.1 ∈ carried)).map fun (n, entering) =>
    ⟨.join site n, .join n site entering ((bodyOut.get? n).getD (.join site n))⟩

def guardedPlace (site : NodeId) (bodyOut : Env) (n : Name) (before : Place) : Place :=
  match bodyOut.get? n with
  | some after => if after = before then before else .join site n
  | none => before

def guardedJoins (site : NodeId) (env bodyOut : Env) : List Record :=
  env.entries.filterMap fun (n, before) =>
    match bodyOut.get? n with
    | some after => if after = before then none else some ⟨.join site n, .join n site before after⟩
    | none => none

def branchEnv (site : NodeId) (iftOut iffOut : Env) : Env :=
  iftOut.filterMap fun n lhs => (iffOut.get? n).map fun rhs => if lhs = rhs then lhs else .join site n

def branchJoins (site : NodeId) (iftOut iffOut : Env) : List Record :=
  iftOut.entries.filterMap fun (n, lhs) =>
    match iffOut.get? n with
    | some rhs => if lhs = rhs then none else some ⟨.join site n, .join n site lhs rhs⟩
    | none => none

def noteStmt (id : NodeId) (before after : Env) (inside : Notes) : Env × Notes :=
  (after, inside ++ { stmts := [(id, ⟨before, after⟩)] })

mutual

def ofStmt (env : Env) : Stmt → Except Error (Env × Notes)
  | .assign node target _ value => do
    let inner ← ofExpr env value
    checkDistinct node.id target
    checkArity node.id target value
    let (after, bound) := bindNames ⟨.stmt, node.id⟩ 0 target.names env
    return noteStmt node.id env after { records := inner ++ bound }
  | .store node name path value => do
    if !env.contains name then throw (.undefinedName name node.id)
    let first ← ofExprs env path
    let inner ← ofExpr env value
    let (after, bound) := bindNames ⟨.stmt, node.id⟩ 0 [name] env
    return noteStmt node.id env after { records := first ++ inner ++ bound }
  | .when node test body => do
    let inner ← ofExpr env test
    let (bodyOut, notes) ← ofBlock env body
    let after := env.mapValues (guardedPlace node.id bodyOut)
    return noteStmt node.id env after
      ({ records := inner } ++ notes ++ { records := guardedJoins node.id env bodyOut })
  | .branch node test ift iff => do
    let inner ← ofExpr env test
    let (iftOut, iftNotes) ← ofBlock env ift
    let (iffOut, iffNotes) ← ofBlock env iff
    return noteStmt node.id env (branchEnv node.id iftOut iffOut)
      ({ records := inner } ++ iftNotes ++ iffNotes ++ { records := branchJoins node.id iftOut iffOut })
  | .loop node test body => do
    let carried := body.assigned
    let head := loopHead node.id carried env
    let inner ← ofExpr head test
    let (bodyOut, notes) ← ofBlock head body
    return noteStmt node.id env head
      ({ records := inner } ++ notes ++ { records := loopJoins node.id carried env bodyOut })
  | .each node target iterable body => do
    let inner ← ofExpr env iterable
    checkDistinct node.id target
    let carried := body.assigned ∪ OrdSet.ofList target.names
    let head := loopHead node.id carried env
    let (bodyIn, bound) := bindNames ⟨.stmt, node.id⟩ 0 target.names head
    let (bodyOut, notes) ← ofBlock bodyIn body
    return noteStmt node.id env head
      ({ records := inner ++ bound } ++ notes ++ { records := loopJoins node.id carried env bodyOut })
  | .scope node name ctx body => do
    let inner ← ofExpr env ctx
    let (inside, bound) := bindNames ⟨.stmt, node.id⟩ 0 name.toList env
    let (after, notes) ← ofBlock inside body
    return noteStmt node.id env after ({ records := inner ++ bound } ++ notes)
  | .assert node test msg => do
    let inner ← ofExpr env test
    return noteStmt node.id env env { records := inner ++ (← ofOption env msg) }
  | .effect node value | .ret node value => do
    return noteStmt node.id env env { records := ← ofExpr env value }
  | .skip node => return noteStmt node.id env env {}

def ofBlock (env : Env) : Block → Except Error (Env × Notes)
  | ⟨id, stmts⟩ => do
    let (after, notes) ← ofStmts env stmts
    return (after, notes ++ { blocks := [(id, ⟨env, after⟩)] })

def ofStmts (env : Env) : List Stmt → Except Error (Env × Notes)
  | [] => return (env, {})
  | s :: rest => do
    let (middle, first) ← ofStmt env s
    let (after, others) ← ofStmts middle rest
    return (after, first ++ others)

end

end Flow

/-- The reaching definitions of a function or block. Definitions are numbered in order of creation, the
joins at the head of a loop after those of its body. -/
structure Reaching where
  defs : List (Definition DefId)
  stmts : NodeMap (Flow.Span DefId)
  blocks : NodeMap (Flow.Span DefId)
  entry : NameMap DefId
  exit : NameMap DefId

namespace Reaching

def number (records : List Flow.Record) (place : Place) : DefId := records.findIdx (·.place = place)

def numberEnv (records : List Flow.Record) (env : Flow.Env) : NameMap DefId :=
  env.mapValues fun _ place => number records place

def numberSpans (records : List Flow.Record) (spans : List (NodeId × Flow.Span Place)) :
    NodeMap (Flow.Span DefId) :=
  OrdMap.ofList (spans.map fun (id, span) =>
    (id, ⟨numberEnv records span.before, numberEnv records span.after⟩))

def ofNotes (entry exit : Flow.Env) (notes : Flow.Notes) : Reaching where
  defs := notes.records.map fun record => record.definition.map (number notes.records)
  stmts := numberSpans notes.records notes.stmts
  blocks := numberSpans notes.records notes.blocks
  entry := numberEnv notes.records entry
  exit := numberEnv notes.records exit

def bindParams : List Param → Flow.Env → Flow.Env × List Flow.Record
  | [], env => (env, [])
  | p :: rest, env =>
    let (middle, first) := Flow.bindNames ⟨.param, p.id⟩ 0 p.name.toList env
    let (after, others) := bindParams rest middle
    (after, first ++ others)

def bindInputs (site : NodeId) (names : List Name) (env : Flow.Env) : Flow.Env × List Flow.Record :=
  Flow.bindNames ⟨.free, site⟩ 0 (names.filter fun n => !env.contains n) env

def ofWalk (entry : Flow.Env) (records : List Flow.Record) (body : Block) : Except Error Reaching := do
  let (exit, notes) ← Flow.ofBlock entry body
  return ofNotes entry exit ({ records := records } ++ notes)

/-- The definitions in force in a function; its parameters and free names are defined at its start. -/
def ofFunc (f : Func) : Except Error Reaching :=
  let (env, params) := bindParams f.params ∅
  let (entry, free) := bindInputs f.id f.freeVars.toList env
  ofWalk entry (params ++ free) f.body

/-- The definitions in force in a block by itself, with the given names defined at its start. -/
def ofBlock (b : Block) (inputs : List Name) : Except Error Reaching :=
  let (entry, records) := bindInputs b.id (inputs.eraseDups) ∅
  ofWalk entry records b

variable (r : Reaching)

def size : Nat := r.defs.length

def def? (d : DefId) : Option (Definition DefId) := r.defs[d]?

def select (p : Definition DefId → Bool) : List DefId :=
  (r.defs.zipIdx.filter (fun entry => p entry.1)).map Prod.snd

def defsOf (n : Name) : List DefId := r.select (·.name = n)

def names : NameSet := OrdSet.ofList (r.defs.map (·.name))

def before? (stmt : NodeId) : Option (NameMap DefId) := (r.stmts.get? stmt).map (·.before)

def after? (stmt : NodeId) : Option (NameMap DefId) := (r.stmts.get? stmt).map (·.after)

/-- The environment at the start of a block; for the body of a loop, with the joins at the head of it. -/
def blockStart? (block : NodeId) : Option (NameMap DefId) := (r.blocks.get? block).map (·.before)

def blockEnd? (block : NodeId) : Option (NameMap DefId) := (r.blocks.get? block).map (·.after)

def reaching? (stmt : NodeId) (n : Name) : Option DefId := (r.before? stmt).bind (·.get? n)

def joinsAt (site : NodeId) : List DefId := r.select fun d => d.isJoin && d.site = site

def defsAt (site : NodeId) : List DefId := r.select fun d => !d.isJoin && d.site = site

def defAt? (site : NodeId) (n : Name) : Option DefId :=
  (r.defsAt site).find? fun d => (r.def? d).any (·.name = n)

def isJoinSource (d : DefId) : Bool :=
  r.defs.zipIdx.any fun (definition, index) => index ≠ d && d ∈ definition.sources

def joinCount : Nat := r.defs.countP (·.isJoin)

end Reaching

end NumLang
