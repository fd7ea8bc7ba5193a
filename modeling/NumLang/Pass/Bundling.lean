import NumLang.Pass.Basic
import NumLang.Tree.Rebuild
import NumLang.Tree.Rename

/-!
Bundling: where several names meet in a join of a loop or a branch, they are packed into one tuple, which alone is
carried over the join.
-/

namespace NumLang

/-- Which statements are changed. -/
structure BundleTargets where
  loops : Bool := true
  each : Bool := true
  branches : Bool := true
deriving DecidableEq, Repr, Inhabited

namespace Bundling

def pack (bundle : Name) (names : List Name) : Edit Stmt := do
  let elts ← names.mapM Edit.var
  let value := Expr.tuple (← Edit.node) elts
  Edit.assign (.name bundle) value

def unpack (names : List Name) (bundle : Name) : Edit Stmt := do
  let value ← Edit.var bundle
  Edit.assign (.tuple (names.map .name)) value

def project (bundle : Name) (names : List Name) : Rebuild Edit where
  expr e usual :=
    match e with
    | .var _ n =>
      match names.idxOf? n with
      | some i => do
        let value ← Edit.var bundle
        let position ← Edit.nat i
        return .index (← Edit.node) value position
      | none => usual
    | _ => usual

/-- Renames those of the names that a block assigns, and gives all under their new names. -/
def renameArm (names : List Name) (body : Block) : Edit (List Name × Block) := do
  let table ← Edit.refreshNames ∅ (names.filter (· ∈ body.assigned))
  return (names.map table.toRenaming, body.rename table.toRenaming)

def append (body : Block) (s : Stmt) : Block := { body with stmts := body.stmts ++ [s] }

def loopBody (bundle : Name) (inner : List Name) (body : Block) : Edit Block := do
  let first ← unpack inner bundle
  let last ← pack bundle inner
  return { body with stmts := first :: body.stmts ++ [last] }

def noteBundle (site : NodeId) (names : List Name) (bundle : Name) : Edit Unit :=
  Edit.noteAt .variablesBundled site
    ("(" ++ ", ".intercalate (names.map Name.text) ++ ") into `" ++ bundle.text ++ "`")

def enclose (names : List Name) (bundle : Name) (s : Stmt) : Edit (List Stmt) := do
  noteBundle s.id names bundle
  let first ← pack bundle names
  return [first, s, ← unpack names bundle]

def carried (body : Block) (before : NameSet) : List Name := (body.assigned ∩ before).toList

def merged (ift iff : Block) (before : NameSet) : List Name :=
  (ift.assigned ∪ iff.assigned).toList.filter fun n =>
    n ∈ before || (n ∈ ift.assigned && n ∈ iff.assigned)

def bundle (targets : BundleTargets) (before : NameSet) (s : Stmt) : Edit (List Stmt) := do
  match s with
  | .loop node test body =>
    let names := carried body before
    if !targets.loops || names.length < 2 then return [s]
    let bundle ← Edit.freshName "b"
    let (inner, body) ← renameArm names body
    let test ← (project bundle names).onExpr test
    let body ← loopBody bundle inner body
    enclose names bundle (.loop node test body)
  | .each node target iterable body =>
    let names := carried body before
    if !targets.each || target.names.any (· ∈ before) || names.length < 2 then return [s]
    let bundle ← Edit.freshName "b"
    let (inner, body) ← renameArm names body
    let body ← loopBody bundle inner body
    enclose names bundle (.each node target iterable body)
  | .when node test body =>
    let names := carried body before
    if !targets.branches || names.length < 2 then return [s]
    let bundle ← Edit.freshName "b"
    let (inner, body) ← renameArm names body
    let last ← pack bundle inner
    enclose names bundle (.when node test (append body last))
  | .branch node test ift iff =>
    let names := merged ift iff before
    if !targets.branches || names.length < 2 then return [s]
    let bundle ← Edit.freshName "b"
    let (iftNames, ift) ← renameArm names ift
    let (iffNames, iff) ← renameArm names iff
    let iftLast ← pack bundle iftNames
    let iffLast ← pack bundle iffNames
    noteBundle node.id names bundle
    return [.branch node test (append ift iftLast) (append iff iffLast), ← unpack names bundle]
  | _ => return [s]

def hooks (targets : BundleTargets) (r : Reaching) : Rebuild Edit where
  stmt _ usual := do
    let s ← usual
    bundle targets (((r.before? s.id).map (·.keys)).getD ∅) s

def edit (targets : BundleTargets) (f : Func) : Edit Func := do
  (hooks targets (← Reaching.ofFunc f)).onFunc f

end Bundling

def Pass.bundling (targets : BundleTargets := {}) : Pass :=
  ofEdit "bundle" "Packs the names merged by a loop or branch into a single tuple" (Bundling.edit targets)

end NumLang
