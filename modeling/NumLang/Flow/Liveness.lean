import NumLang.Tree.Names

/-!
Live names: those whose value at a point may still be read.
-/

namespace NumLang

namespace Expr

mutual

def uses : Expr → NameSet
  | .var _ name => OrdSet.singleton name
  | .lit .. | .const .. => ∅
  | .unary _ _ _ arg => arg.uses
  | .binary _ _ _ lhs rhs => lhs.uses ∪ rhs.uses
  | .ternary _ _ _ first second third => first.uses ∪ second.uses ∪ third.uses
  | .nary _ _ _ args | .compare _ _ args | .tuple _ args | .list _ args => usesAll args
  | .call _ _ _ args kwargs | .context _ _ args kwargs => usesAll args ∪ usesKeyed kwargs
  | .comprehension _ targets iterables elt => usesAll iterables ∪ (elt.uses \ Binder.nameSet targets)
  | .index _ value position => value.uses ∪ position.uses
  | .slice _ value start stop => value.uses ∪ usesOption start ∪ usesOption stop
  | .update _ value path elt => value.uses ∪ usesAll path ∪ elt.uses
  | .cond _ test ift iff => test.uses ∪ ift.uses ∪ iff.uses

def usesAll : List Expr → NameSet
  | [] => ∅
  | e :: rest => e.uses ∪ usesAll rest

def usesKeyed : List (String × Expr) → NameSet
  | [] => ∅
  | (_, e) :: rest => e.uses ∪ usesKeyed rest

def usesOption : Option Expr → NameSet
  | none => ∅
  | some e => e.uses

end

end Expr

mutual

def Stmt.liveIn : Stmt → NameSet → NameSet
  | .assign _ target _ value, out => (out \ OrdSet.ofList target.names) ∪ value.uses
  | .store _ name path value, out => out.insert name ∪ Expr.usesAll path ∪ value.uses
  | .when _ test body, out => body.liveIn out ∪ out ∪ test.uses
  | .branch _ test ift iff, out => ift.liveIn out ∪ iff.liveIn out ∪ test.uses
  | .loop _ test body, out =>
    let tested := out ∪ test.uses
    tested ∪ body.liveIn tested
  | .each _ target iterable body, out =>
    out ∪ (body.liveIn out \ OrdSet.ofList target.names) ∪ iterable.uses
  | .scope _ name ctx body, out => (body.liveIn out \ OrdSet.ofList name.toList) ∪ ctx.uses
  | .assert _ test msg, out => out ∪ test.uses ∪ Expr.usesOption msg
  | .effect _ value, out => out ∪ value.uses
  | .ret _ value, _ => value.uses
  | .skip _, out => out

def Block.liveIn : Block → NameSet → NameSet
  | ⟨_, stmts⟩, out => Stmt.liveInAll stmts out

def Stmt.liveInAll : List Stmt → NameSet → NameSet
  | [], out => out
  | s :: rest, out => s.liveIn (Stmt.liveInAll rest out)

end

def Stmt.liveBodyOut : Stmt → NameSet → NameSet
  | .loop _ test body, out =>
    let tested := out ∪ test.uses
    tested ∪ body.liveIn tested
  | .each _ target _ body, out => out ∪ (body.liveIn out \ OrdSet.ofList target.names)
  | _, out => out

/-- The names live before and after a statement. -/
structure Live where
  stmt : NodeId
  before : NameSet
  after : NameSet

mutual

def Stmt.live (s : Stmt) (out : NameSet) : List Live :=
  ⟨s.id, s.liveIn out, out⟩ ::
    match s with
    | .when _ _ body | .scope _ _ _ body => body.live out
    | .branch _ _ ift iff => ift.live out ++ iff.live out
    | .loop _ _ body | .each _ _ _ body => body.live (s.liveBodyOut out)
    | .assign .. | .store .. | .assert .. | .effect .. | .ret .. | .skip .. => []

def Block.live : Block → NameSet → List Live
  | ⟨_, stmts⟩, out => Stmt.liveAll stmts out

def Stmt.liveAll : List Stmt → NameSet → List Live
  | [], _ => []
  | s :: rest, out => s.live (Stmt.liveInAll rest out) ++ Stmt.liveAll rest out

end

/-- The live names of a function: at its start and at each statement. -/
structure Liveness where
  entry : NameSet
  stmts : List Live

namespace Liveness

def ofFunc (f : Func) : Liveness := ⟨f.body.liveIn ∅, f.body.live ∅⟩

def at? (l : Liveness) (stmt : NodeId) : Option Live := l.stmts.find? (·.stmt = stmt)

def isLiveAfter (l : Liveness) (stmt : NodeId) (n : Name) : Bool := (l.at? stmt).any (n ∈ ·.after)

end Liveness

end NumLang
