import NumLang.Tree.Basic

/-!
Which statements control can reach, and from which blocks it can go on.
-/

namespace NumLang

def Expr.truth? : Expr → Option Bool
  | .lit _ (.bool b) => some b
  | _ => none

mutual

def Stmt.goesOn : Stmt → Bool → Bool
  | .ret .., _ => false
  | .assert _ test _, here => here && test.truth? ≠ some false
  | .when _ test body, here =>
    match test.truth? with
    | some true => body.goesOn here
    | _ => here
  | .branch _ test ift iff, here =>
    ift.goesOn (here && test.truth? ≠ some false) || iff.goesOn (here && test.truth? ≠ some true)
  | .loop _ test _, here => here && test.truth? ≠ some true
  | .each .., here => here
  | .scope _ _ _ body, here => body.goesOn here
  | .assign .., here | .store .., here | .effect .., here | .skip .., here => here

def Block.goesOn : Block → Bool → Bool
  | ⟨_, stmts⟩, here => Stmt.goesOnAll stmts here

def Stmt.goesOnAll : List Stmt → Bool → Bool
  | [], here => here
  | s :: rest, here => Stmt.goesOnAll rest (s.goesOn here)

end

/-- Whether control reaches a statement. -/
structure Reached where
  stmt : NodeId
  reached : Bool
deriving Repr, Inhabited

/-- The answers for statements, in document order, and for blocks. -/
structure ReachNotes where
  stmts : List Reached := []
  blocks : List (NodeId × Bool) := []

instance : Append ReachNotes where
  append a b := ⟨a.stmts ++ b.stmts, a.blocks ++ b.blocks⟩

mutual

def Stmt.reach (s : Stmt) (here : Bool) : ReachNotes :=
  { stmts := [⟨s.id, here⟩] } ++
    match s with
    | .when _ test body | .loop _ test body => body.reach (here && test.truth? ≠ some false)
    | .branch _ test ift iff =>
      ift.reach (here && test.truth? ≠ some false) ++ iff.reach (here && test.truth? ≠ some true)
    | .each _ _ _ body | .scope _ _ _ body => body.reach here
    | .assign .. | .store .. | .assert .. | .effect .. | .ret .. | .skip .. => {}

def Block.reach : Block → Bool → ReachNotes
  | ⟨id, stmts⟩, here => Stmt.reachAll stmts here ++ { blocks := [(id, Stmt.goesOnAll stmts here)] }

def Stmt.reachAll : List Stmt → Bool → ReachNotes
  | [], _ => {}
  | s :: rest, here => s.reach here ++ Stmt.reachAll rest (s.goesOn here)

end

/-- What control reaches in a function. -/
structure Reachability where
  stmts : List Reached
  blocks : NodeMap Bool
  /-- Whether control can come to the end of the body. -/
  fallsThrough : Bool

namespace Reachability

def ofFunc (f : Func) : Reachability :=
  let notes := f.body.reach true
  ⟨notes.stmts, OrdMap.ofList notes.blocks, f.body.goesOn true⟩

variable (r : Reachability)

def isReachable (stmt : NodeId) : Bool := r.stmts.any fun entry => entry.stmt = stmt && entry.reached

def blockFallsThrough (block : NodeId) : Bool := (r.blocks.get? block).getD false

def unreachable : List NodeId := (r.stmts.map (·.stmt)).filter fun id => !r.isReachable id

end Reachability

end NumLang
