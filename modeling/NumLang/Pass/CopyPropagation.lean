import NumLang.Flow.Uses
import NumLang.Pass.Basic
import NumLang.Tree.Rebuild

/-!
Copy propagation: the use of a copy becomes a use of what was copied, if that still has the same value there.
-/

namespace NumLang

namespace CopyPropagation

/-- An assignment of a variable to another one. -/
structure Copy where
  /-- The definition that it makes. -/
  definition : DefId
  stmt : NodeId
  target : Name
  source : Name
  /-- The definition of the source that it reads. -/
  sourceDef : DefId

def copy? (r : Reaching) : Stmt → Option Copy
  | .assign node (.name target) none (.var _ source) => do
    if source = target then none
    else return ⟨← r.defAt? node.id target, node.id, target, source, ← r.reaching? node.id source⟩
  | _ => none

def copies (f : Func) (r : Reaching) : List Copy :=
  (OrdMap.ofList ((f.body.all.filterMap (copy? r)).map fun c => (c.definition, c))).values

def maxChain : Nat := 64

/-- Extends a chain of sources, the last one first, by what its last source is a copy of. -/
def extend (all : List Copy) : (fuel : Nat) → Copy → List (Name × DefId) → List (Name × DefId)
  | 0, _, chain => chain
  | fuel + 1, current, chain =>
    match all.find? (·.definition = current.sourceDef) with
    | none => chain
    | some next =>
      if chain.any (·.2 = next.sourceDef) then chain
      else extend all fuel next ((next.source, next.sourceDef) :: chain)

def sources (all : List Copy) (c : Copy) : List (Name × DefId) :=
  extend all maxChain c [(c.source, c.sourceDef)]

/-- The use of a copy and what it becomes. -/
structure Replacement where
  copy : Copy
  use : NodeId
  name : Name
  definition : DefId

def replacement? (u : Uses) (all : List Copy) (c : Copy) (site : UseSite) : Option Replacement :=
  if site.kind = .var then
    ((sources all c).find? fun (name, d) => ((u.envAtUse? site.node).bind (·.get? name)) = some d).map
      fun (name, d) => ⟨c, site.node, name, d⟩
  else none

/-- What to do in one round. -/
structure Plan where
  replacements : List Replacement
  removals : List Copy

namespace Plan

def isEmpty (plan : Plan) : Bool := plan.replacements.isEmpty && plan.removals.isEmpty

def ofUses (f : Func) (u : Uses) : Plan :=
  let all := copies f u.reach
  let replacements := all.flatMap fun c => (u.usesOf c.definition).toList.filterMap (replacement? u all c)
  let isComplete (c : Copy) : Bool :=
    (u.usesOf c.definition).toList.all (fun site => (replacement? u all c site).isSome)
      && !u.reach.isJoinSource c.definition
  let isTargeted (c : Copy) : Bool := replacements.any (·.definition = c.definition)
  ⟨replacements, all.filter fun c => isComplete c && !isTargeted c⟩

def noteAll (plan : Plan) : Edit Unit := do
  for r in plan.replacements do
    Edit.noteAt .copyPropagated r.use ("`" ++ r.copy.target.text ++ "` -> `" ++ r.name.text ++ "`")
  for c in plan.removals do
    Edit.noteAt .assignmentRemoved c.stmt ("copy `" ++ c.target.text ++ " = " ++ c.source.text ++ "`")

def name? (plan : Plan) (use : NodeId) : Option Name :=
  (plan.replacements.reverse.find? (·.use = use)).map (·.name)

def removes (plan : Plan) (stmt : NodeId) : Bool := plan.removals.any (·.stmt = stmt)

def hooks (plan : Plan) : Rebuild Edit where
  block _ usual := do
    let b ← usual
    if b.stmts.isEmpty then return { b with stmts := [← Edit.skip] } else return b
  stmt s usual := do
    if plan.removes s.id then return [] else return [← usual]
  expr e usual :=
    match e, plan.name? e.id with
    | .var node _, some name => return .var node name
    | _, _ => usual

end Plan

def maxRounds : Nat := 64

def rounds : (fuel : Nat) → Func → Edit Func
  | 0, f => return f
  | fuel + 1, f => do
    let plan := Plan.ofUses f (← Uses.ofFunc f)
    if plan.isEmpty then return f
    plan.noteAll
    rounds fuel (← plan.hooks.onFunc f)

end CopyPropagation

def Pass.copyPropagation : Pass :=
  ofEdit "copy-propagate" "Replaces uses of copies with their sources and removes dead copies"
    (CopyPropagation.rounds CopyPropagation.maxRounds)

end NumLang
