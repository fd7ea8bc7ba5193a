import NumLang.Tree.Basic

/-!
Rebuilding a program bottom up.
-/

namespace NumLang

/-- What to do at each kind of node. -/
structure Rebuild (m : Type → Type) [Monad m] where
  expr : Expr → m Expr → m Expr := fun _ usual => usual
  stmt : Stmt → m Stmt → m (List Stmt) := fun _ usual => do return [← usual]
  block : Block → m Block → m Block := fun _ usual => usual
  name : Name → m Name := pure

namespace Rebuild

variable {m : Type → Type} [Monad m]

mutual

def onBinder (hooks : Rebuild m) : Binder → m Binder
  | .wildcard => return .wildcard
  | .name n => do return .name (← hooks.name n)
  | .tuple parts => do return .tuple (← onBinders hooks parts)

def onBinders (hooks : Rebuild m) : List Binder → m (List Binder)
  | [] => return []
  | b :: rest => do return (← onBinder hooks b) :: (← onBinders hooks rest)

end

mutual

def onExpr (hooks : Rebuild m) : Expr → m Expr
  | e@(.var node name) => hooks.expr e do return .var node (← hooks.name name)
  | e@(.lit ..) => hooks.expr e (return e)
  | e@(.const ..) => hooks.expr e (return e)
  | e@(.unary node op spelling arg) => hooks.expr e do return .unary node op spelling (← onExpr hooks arg)
  | e@(.binary node op spelling lhs rhs) => hooks.expr e do
    return .binary node op spelling (← onExpr hooks lhs) (← onExpr hooks rhs)
  | e@(.ternary node op spelling first second third) => hooks.expr e do
    return .ternary node op spelling (← onExpr hooks first) (← onExpr hooks second) (← onExpr hooks third)
  | e@(.nary node op spelling args) => hooks.expr e do return .nary node op spelling (← onExprs hooks args)
  | e@(.compare node ops args) => hooks.expr e do return .compare node ops (← onExprs hooks args)
  | e@(.call node func callee args kwargs) => hooks.expr e do
    let args ← onExprs hooks args
    let kwargs ← onKeyed hooks kwargs
    return .call node (← hooks.name func) callee args kwargs
  | e@(.tuple node elts) => hooks.expr e do return .tuple node (← onExprs hooks elts)
  | e@(.list node elts) => hooks.expr e do return .list node (← onExprs hooks elts)
  | e@(.comprehension node targets iterables elt) => hooks.expr e do
    let iterables ← onExprs hooks iterables
    let targets ← onBinders hooks targets
    return .comprehension node targets iterables (← onExpr hooks elt)
  | e@(.index node value position) => hooks.expr e do
    return .index node (← onExpr hooks value) (← onExpr hooks position)
  | e@(.slice node value start stop) => hooks.expr e do
    return .slice node (← onExpr hooks value) (← onOption hooks start) (← onOption hooks stop)
  | e@(.update node value path elt) => hooks.expr e do
    return .update node (← onExpr hooks value) (← onExprs hooks path) (← onExpr hooks elt)
  | e@(.cond node test ift iff) => hooks.expr e do
    return .cond node (← onExpr hooks test) (← onExpr hooks ift) (← onExpr hooks iff)
  | e@(.context node ctor args kwargs) => hooks.expr e do
    return .context node ctor (← onExprs hooks args) (← onKeyed hooks kwargs)

def onExprs (hooks : Rebuild m) : List Expr → m (List Expr)
  | [] => return []
  | e :: rest => do return (← onExpr hooks e) :: (← onExprs hooks rest)

def onKeyed (hooks : Rebuild m) : List (String × Expr) → m (List (String × Expr))
  | [] => return []
  | (key, e) :: rest => do return (key, ← onExpr hooks e) :: (← onKeyed hooks rest)

def onOption (hooks : Rebuild m) : Option Expr → m (Option Expr)
  | none => return none
  | some e => do return some (← onExpr hooks e)

end

def onName? (hooks : Rebuild m) : Option Name → m (Option Name)
  | none => return none
  | some n => do return some (← hooks.name n)

mutual

def onStmt (hooks : Rebuild m) : Stmt → m (List Stmt)
  | s@(.assign node target ann value) => hooks.stmt s do
    let value ← hooks.onExpr value
    return .assign node (← hooks.onBinder target) ann value
  | s@(.store node name path value) => hooks.stmt s do
    let path ← hooks.onExprs path
    let value ← hooks.onExpr value
    return .store node (← hooks.name name) path value
  | s@(.when node test body) => hooks.stmt s do
    return .when node (← hooks.onExpr test) (← onBlock hooks body)
  | s@(.branch node test ift iff) => hooks.stmt s do
    return .branch node (← hooks.onExpr test) (← onBlock hooks ift) (← onBlock hooks iff)
  | s@(.loop node test body) => hooks.stmt s do
    return .loop node (← hooks.onExpr test) (← onBlock hooks body)
  | s@(.each node target iterable body) => hooks.stmt s do
    let iterable ← hooks.onExpr iterable
    return .each node (← hooks.onBinder target) iterable (← onBlock hooks body)
  | s@(.scope node name ctx body) => hooks.stmt s do
    let ctx ← hooks.onExpr ctx
    return .scope node (← hooks.onName? name) ctx (← onBlock hooks body)
  | s@(.assert node test msg) => hooks.stmt s do
    return .assert node (← hooks.onExpr test) (← hooks.onOption msg)
  | s@(.effect node value) => hooks.stmt s do return .effect node (← hooks.onExpr value)
  | s@(.ret node value) => hooks.stmt s do return .ret node (← hooks.onExpr value)
  | s@(.skip _) => hooks.stmt s (return s)

def onBlock (hooks : Rebuild m) : Block → m Block
  | b@⟨id, stmts⟩ => hooks.block b do return ⟨id, ← onStmts hooks stmts⟩

def onStmts (hooks : Rebuild m) : List Stmt → m (List Stmt)
  | [] => return []
  | s :: rest => do return (← onStmt hooks s) ++ (← onStmts hooks rest)

end

def onFunc (hooks : Rebuild m) (f : Func) : m Func := do return { f with body := ← hooks.onBlock f.body }

end Rebuild

end NumLang
