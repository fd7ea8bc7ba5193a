import NumLang.Tree.Basic

/-!
The walk over a program: everything in it in the order in which it is come by.
-/

namespace NumLang

/-- A stop of the walk; a left side is met at the statement or comprehension that binds it. -/
inductive Stop where
  | func (f : Func)
  | block (b : Block)
  | stmt (s : Stmt)
  | expr (e : Expr)
  | binder (target : Binder) (site : NodeId)

mutual

def Expr.walk : Expr → List Stop
  | e@(.var ..) | e@(.lit ..) | e@(.const ..) => [.expr e]
  | e@(.unary _ _ _ arg) => .expr e :: arg.walk
  | e@(.binary _ _ _ lhs rhs) => .expr e :: (lhs.walk ++ rhs.walk)
  | e@(.ternary _ _ _ first second third) => .expr e :: (first.walk ++ (second.walk ++ third.walk))
  | e@(.nary _ _ _ args) | e@(.compare _ _ args) | e@(.tuple _ args) | e@(.list _ args) =>
    .expr e :: Expr.walkAll args
  | e@(.call _ _ _ args kwargs) | e@(.context _ _ args kwargs) =>
    .expr e :: (Expr.walkAll args ++ Expr.walkKeyed kwargs)
  | e@(.comprehension node targets iterables elt) =>
    .expr e :: (Expr.walkAll iterables ++ (targets.map (.binder · node.id) ++ elt.walk))
  | e@(.index _ value position) => .expr e :: (value.walk ++ position.walk)
  | e@(.slice _ value start stop) => .expr e :: (value.walk ++ (Expr.walkOption start ++ Expr.walkOption stop))
  | e@(.update _ value path elt) => .expr e :: (value.walk ++ (Expr.walkAll path ++ elt.walk))
  | e@(.cond _ test ift iff) => .expr e :: (test.walk ++ (ift.walk ++ iff.walk))

def Expr.walkAll : List Expr → List Stop
  | [] => []
  | e :: rest => e.walk ++ Expr.walkAll rest

def Expr.walkKeyed : List (String × Expr) → List Stop
  | [] => []
  | (_, e) :: rest => e.walk ++ Expr.walkKeyed rest

def Expr.walkOption : Option Expr → List Stop
  | none => []
  | some e => e.walk

end

mutual

def Stmt.walk : Stmt → List Stop
  | s@(.assign node target _ value) => .stmt s :: (value.walk ++ [.binder target node.id])
  | s@(.store _ _ path value) => .stmt s :: (Expr.walkAll path ++ value.walk)
  | s@(.when _ test body) | s@(.loop _ test body) => .stmt s :: (test.walk ++ body.walk)
  | s@(.branch _ test ift iff) => .stmt s :: (test.walk ++ (ift.walk ++ iff.walk))
  | s@(.each node target iterable body) =>
    .stmt s :: (iterable.walk ++ (.binder target node.id :: body.walk))
  | s@(.scope _ _ ctx body) => .stmt s :: (ctx.walk ++ body.walk)
  | s@(.assert _ test msg) => .stmt s :: (test.walk ++ Expr.walkOption msg)
  | s@(.effect _ value) | s@(.ret _ value) => .stmt s :: value.walk
  | s@(.skip _) => [.stmt s]

def Block.walk : Block → List Stop
  | b@⟨_, stmts⟩ => .block b :: Stmt.walkAll stmts

def Stmt.walkAll : List Stmt → List Stop
  | [] => []
  | s :: rest => s.walk ++ Stmt.walkAll rest

end

def Func.walk (f : Func) : List Stop := .func f :: f.body.walk

end NumLang
