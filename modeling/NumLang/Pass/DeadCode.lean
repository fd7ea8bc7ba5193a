import NumLang.Flow.Effects
import NumLang.Flow.Reachability
import NumLang.Flow.Uses
import NumLang.Pass.Basic
import NumLang.Tree.Printer
import NumLang.Tree.Rebuild

/-!
Removal of dead code: assignments of pure values that nothing needs, statements that are never reached, branches that
do nothing, statements that do nothing next to others, and free names that are not mentioned.
-/

namespace NumLang

namespace DeadCode

def reads (u : Uses) (stmt : NodeId) : List DefId :=
  (u.uses.filter (·.site.stmt = stmt)).map (·.definition)

def isRoot : Stmt → Bool
  | .assign _ _ _ value => !value.isPure
  | _ => true

def needs (u : Uses) (d : DefId) : List DefId :=
  match u.reach.def? d with
  | some (.join _ _ lhs rhs) => [lhs, rhs]
  | some (.assign _ ⟨.stmt, site⟩ _) => reads u site
  | _ => []

def live (f : Func) (u : Uses) : OrdSet DefId :=
  u.reach.closure (needs u) ((f.body.all.filter isRoot).flatMap fun s => reads u s.id)

def isDead (u : Uses) (live : OrdSet DefId) : Stmt → Bool
  | .assign node _ _ value => value.isPure && (u.reach.defsAt node.id).all (· ∉ live)
  | _ => false

/-- The statements of a block that come after its end is reached. A block that is never entered keeps its
statements. -/
def cutOff (r : Reachability) (b : Block) : List NodeId :=
  match b.stmts with
  | [] => []
  | first :: _ =>
    if r.isReachable first.id then (b.stmts.map (·.id)).filter fun id => !r.isReachable id else []

/-- The statements to be removed. -/
structure Plan where
  unreachable : List NodeId
  dead : List NodeId

def Plan.ofFunc (f : Func) : Except Error Plan := do
  let u ← Uses.ofFunc f
  let r := Reachability.ofFunc f
  return ⟨f.body.allBlocks.flatMap (cutOff r), (f.body.all.filter (isDead u (live f u))).map (·.id)⟩

def isSkip : Stmt → Bool
  | .skip _ => true
  | _ => false

def isEmptyBranch : Stmt → Bool
  | .when _ test body => body.stmts.all isSkip && test.isPure
  | .branch _ test ift iff => ift.stmts.all isSkip && iff.stmts.all isSkip && test.isPure
  | _ => false

def noteRemoved (kind : EventKind) (why : String) (s : Stmt) : Edit Unit :=
  Edit.noteAt kind s.id (why ++ ": " ++ s.shortText)

def dropRedundant (stmts : List Stmt) : Edit (List Stmt) := do
  let (kept, dropped) := if stmts.all isSkip then (stmts.take 1, stmts.drop 1)
    else (stmts.filter (!isSkip ·), stmts.filter isSkip)
  for s in dropped do noteRemoved .statementRemoved "redundant" s
  return kept

def Plan.hooks (plan : Plan) : Rebuild Edit where
  block _ usual := do
    let b ← usual
    let stmts ← dropRedundant b.stmts
    if stmts.isEmpty then return { b with stmts := [← Edit.skip] } else return { b with stmts := stmts }
  stmt s usual := do
    if s.id ∈ plan.unreachable then
      noteRemoved .statementRemoved "unreachable" s
      return []
    if s.id ∈ plan.dead then
      noteRemoved .assignmentRemoved "dead" s
      return []
    let s ← usual
    if isEmptyBranch s then
      noteRemoved .statementRemoved "empty branch" s
      return []
    return [s]

def rounds : (fuel : Nat) → Func → Edit Func
  | 0, f => return f
  | fuel + 1, f => do
    let before := (← get).changes.length
    let f ← (← Plan.ofFunc f).hooks.onFunc f
    if (← get).changes.length = before then return f
    rounds fuel f

/-- Drops the free names that the body does not mention, and the values captured for them. -/
def pruneFree (f : Func) : Edit Func := do
  let mentioned := f.body.referenced ∪ f.body.called
  for n in f.freeVars.toList do
    if n ∉ mentioned then Edit.note .freeVarPruned none ("`" ++ n.text ++ "`")
  let kept := f.freeVars.filter (· ∈ mentioned)
  return { f with freeVars := kept, env := f.env.filter fun key _ => kept.toList.any (·.base = key) }

def edit (f : Func) : Edit Func := do pruneFree (← rounds (f.body.all.length + 1) f)

end DeadCode

def Pass.deadCode : Pass :=
  ofEdit "dead-code-eliminate" "Removes dead assignments, unreachable statements and unused free variables"
    DeadCode.edit

end NumLang
