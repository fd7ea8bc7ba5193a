import NumLang.Flow.Effects
import NumLang.Pass.Basic
import NumLang.Tree.Rebuild
import NumLang.Tree.Rename

/-!
Branches become statements in a row: both arms are carried out on new names, and each name that is defined afterwards
is then chosen by the test.
-/

namespace NumLang

namespace BranchMerging

def isStraight (b : Block) : Bool :=
  b.stmts.all fun
    | .assign _ _ _ value => value.isPure
    | .skip _ => true
    | _ => false

/-- The assignments of an arm with new names for what they assign, after those in the table. -/
def speculate (table : NameMap Name) : List Stmt → Edit (List Stmt × NameMap Name)
  | [] => return ([], table)
  | .assign node target ann value :: rest => do
    let value := value.rename table.toRenaming
    let table ← Edit.refreshNames table target.names
    let (stmts, last) ← speculate table rest
    return (.assign node (target.rename table.toRenaming) ann value :: stmts, last)
  | _ :: rest => speculate table rest

/-- What a name is chosen from after the branch: its last names in the arms, or the name itself, if an arm
does not assign it and it is defined before. -/
def choices? (before : NameSet) (ift iff : NameMap Name) (n : Name) : Option (Name × Name) :=
  match ift.get? n, iff.get? n with
  | some t, some f => some (t, f)
  | some t, none => if n ∈ before then some (t, n) else none
  | none, some f => if n ∈ before then some (n, f) else none
  | none, none => none

def choose (test n taken other : Name) : Edit Stmt := do
  let test ← Edit.var test
  let ift ← Edit.var taken
  let iff ← Edit.var other
  let value := Expr.cond (← Edit.node) test ift iff
  Edit.assign (.name n) value

def locate (loc : Option Loc) : List Stmt → List Stmt
  | [] => []
  | s :: rest => (if s.loc.isNone then s.withNode { s.node with loc := loc } else s) :: rest

/-- The test as a name that neither arm assigns, and the assignment to it if it is a new one. -/
def nameTest (assigned : NameSet) (test : Expr) : Edit (Name × List Stmt) := do
  match test.asVar?.filter (· ∉ assigned) with
  | some n => return (n, [])
  | none =>
    let n ← Edit.freshName "t"
    return (n, [← Edit.assign (.name n) test])

def merge (r : Reaching) (node : Node) (test : Expr) (ift iff : Block) : Edit (List Stmt) := do
  let assigned := ift.assigned ∪ iff.assigned
  let (testName, head) ← nameTest assigned test
  let (iftStmts, iftNames) ← speculate ∅ ift.stmts
  let (iffStmts, iffNames) ← speculate ∅ iff.stmts
  let before : NameSet := ((r.before? node.id).map (·.keys)).getD ∅
  let merges ← assigned.toList.filterMapM fun n => do
    match choices? before iftNames iffNames n with
    | some (taken, other) => return some (← choose testName n taken other)
    | none => return none
  let out := locate node.loc (head ++ iftStmts ++ iffStmts ++ merges)
  let out ← if out.isEmpty then pure [← Edit.skip] else pure out
  Edit.noteAt .ifSimplified node.id (toString assigned.size ++ " names merged")
  return out

def hooks (r : Reaching) : Rebuild Edit where
  stmt _ usual := do
    match ← usual with
    | .when node test body =>
      if isStraight body then merge r node test body ⟨body.id, []⟩ else return [.when node test body]
    | .branch node test ift iff =>
      if isStraight ift && isStraight iff then merge r node test ift iff
      else return [.branch node test ift iff]
    | s => return [s]

def edit (f : Func) : Edit Func := do (hooks (← Reaching.ofFunc f)).onFunc f

end BranchMerging

def Pass.branchMerging : Pass :=
  ofEdit "simplify-if" "Speculates both arms of an if and merges the results with conditional expressions"
    BranchMerging.edit

end NumLang
