import NumLang.Tree.Basic

/-!
Renaming: a change of every occurrence of a name, where it is bound, read or called.
-/

namespace NumLang

namespace Expr

mutual

def rename (f : Name → Name) : Expr → Expr
  | .var node name => .var node (f name)
  | .lit node value => .lit node value
  | .const node op spelling => .const node op spelling
  | .unary node op spelling arg => .unary node op spelling (arg.rename f)
  | .binary node op spelling lhs rhs => .binary node op spelling (lhs.rename f) (rhs.rename f)
  | .ternary node op spelling first second third =>
    .ternary node op spelling (first.rename f) (second.rename f) (third.rename f)
  | .nary node op spelling args => .nary node op spelling (renameAll f args)
  | .compare node ops args => .compare node ops (renameAll f args)
  | .call node func callee args kwargs => .call node (f func) callee (renameAll f args) (renameKeyed f kwargs)
  | .tuple node elts => .tuple node (renameAll f elts)
  | .list node elts => .list node (renameAll f elts)
  | .comprehension node targets iterables elt =>
    .comprehension node (Binder.renameAll f targets) (renameAll f iterables) (elt.rename f)
  | .index node value position => .index node (value.rename f) (position.rename f)
  | .slice node value start stop => .slice node (value.rename f) (renameOption f start) (renameOption f stop)
  | .update node value path elt => .update node (value.rename f) (renameAll f path) (elt.rename f)
  | .cond node test ift iff => .cond node (test.rename f) (ift.rename f) (iff.rename f)
  | .context node ctor args kwargs => .context node ctor (renameAll f args) (renameKeyed f kwargs)

def renameAll (f : Name → Name) : List Expr → List Expr
  | [] => []
  | e :: rest => e.rename f :: renameAll f rest

def renameKeyed (f : Name → Name) : List (String × Expr) → List (String × Expr)
  | [] => []
  | (key, e) :: rest => (key, e.rename f) :: renameKeyed f rest

def renameOption (f : Name → Name) : Option Expr → Option Expr
  | none => none
  | some e => some (e.rename f)

end

end Expr

mutual

def Stmt.rename (f : Name → Name) : Stmt → Stmt
  | .assign node target ann value => .assign node (target.rename f) ann (value.rename f)
  | .store node name path value => .store node (f name) (Expr.renameAll f path) (value.rename f)
  | .when node test body => .when node (test.rename f) (body.rename f)
  | .branch node test ift iff => .branch node (test.rename f) (ift.rename f) (iff.rename f)
  | .loop node test body => .loop node (test.rename f) (body.rename f)
  | .each node target iterable body => .each node (target.rename f) (iterable.rename f) (body.rename f)
  | .scope node name ctx body => .scope node (name.map f) (ctx.rename f) (body.rename f)
  | .assert node test msg => .assert node (test.rename f) (Expr.renameOption f msg)
  | .effect node value => .effect node (value.rename f)
  | .ret node value => .ret node (value.rename f)
  | .skip node => .skip node

def Block.rename (f : Name → Name) : Block → Block
  | ⟨id, stmts⟩ => ⟨id, Stmt.renameAll f stmts⟩

def Stmt.renameAll (f : Name → Name) : List Stmt → List Stmt
  | [] => []
  | s :: rest => s.rename f :: Stmt.renameAll f rest

end

def NameMap.toRenaming (m : NameMap Name) (n : Name) : Name := (m.get? n).getD n

end NumLang
