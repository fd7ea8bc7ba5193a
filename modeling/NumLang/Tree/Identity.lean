import NumLang.Tree.Basic

/-!
The identities of the nodes of a program and copies with new identities.
-/

namespace NumLang

abbrev Supply := StateM Nat

namespace Supply

def fresh : Supply NodeId := fun next => (⟨next⟩, next + 1)

def renew (node : Node) : Supply Node := do return { node with id := ← fresh }

end Supply

open Supply

mutual

def Expr.ids : Expr → List NodeId
  | .var node _ | .lit node _ | .const node _ _ => [node.id]
  | .unary node _ _ arg => node.id :: arg.ids
  | .binary node _ _ lhs rhs => node.id :: (lhs.ids ++ rhs.ids)
  | .ternary node _ _ first second third => node.id :: (first.ids ++ (second.ids ++ third.ids))
  | .nary node _ _ args | .compare node _ args | .tuple node args | .list node args => node.id :: Expr.idsAll args
  | .call node _ _ args kwargs | .context node _ args kwargs =>
    node.id :: (Expr.idsAll args ++ Expr.idsKeyed kwargs)
  | .comprehension node _ iterables elt => node.id :: (Expr.idsAll iterables ++ elt.ids)
  | .index node value position => node.id :: (value.ids ++ position.ids)
  | .slice node value start stop => node.id :: (value.ids ++ (Expr.idsOption start ++ Expr.idsOption stop))
  | .update node value path elt => node.id :: (value.ids ++ (Expr.idsAll path ++ elt.ids))
  | .cond node test ift iff => node.id :: (test.ids ++ (ift.ids ++ iff.ids))

def Expr.idsAll : List Expr → List NodeId
  | [] => []
  | e :: rest => e.ids ++ Expr.idsAll rest

def Expr.idsKeyed : List (String × Expr) → List NodeId
  | [] => []
  | (_, e) :: rest => e.ids ++ Expr.idsKeyed rest

def Expr.idsOption : Option Expr → List NodeId
  | none => []
  | some e => e.ids

end

mutual

def Stmt.ids : Stmt → List NodeId
  | .assign node _ _ value | .effect node value | .ret node value => node.id :: value.ids
  | .store node _ path value => node.id :: (Expr.idsAll path ++ value.ids)
  | .when node test body | .loop node test body => node.id :: (test.ids ++ body.ids)
  | .branch node test ift iff => node.id :: (test.ids ++ (ift.ids ++ iff.ids))
  | .each node _ iterable body => node.id :: (iterable.ids ++ body.ids)
  | .scope node _ ctx body => node.id :: (ctx.ids ++ body.ids)
  | .assert node test msg => node.id :: (test.ids ++ Expr.idsOption msg)
  | .skip node => [node.id]

def Block.ids : Block → List NodeId
  | ⟨id, stmts⟩ => id :: Stmt.idsAll stmts

def Stmt.idsAll : List Stmt → List NodeId
  | [] => []
  | s :: rest => s.ids ++ Stmt.idsAll rest

end

def Func.ids (f : Func) : List NodeId := f.id :: (f.params.map (·.id) ++ f.body.ids)

mutual

def Expr.refresh : Expr → Supply Expr
  | .var node name => do return .var (← renew node) name
  | .lit node value => do return .lit (← renew node) value
  | .const node op spelling => do return .const (← renew node) op spelling
  | .unary node op spelling arg => do return .unary (← renew node) op spelling (← arg.refresh)
  | .binary node op spelling lhs rhs => do
    return .binary (← renew node) op spelling (← lhs.refresh) (← rhs.refresh)
  | .ternary node op spelling first second third => do
    return .ternary (← renew node) op spelling (← first.refresh) (← second.refresh) (← third.refresh)
  | .nary node op spelling args => do return .nary (← renew node) op spelling (← Expr.refreshAll args)
  | .compare node ops args => do return .compare (← renew node) ops (← Expr.refreshAll args)
  | .call node func callee args kwargs => do
    return .call (← renew node) func callee (← Expr.refreshAll args) (← Expr.refreshKeyed kwargs)
  | .tuple node elts => do return .tuple (← renew node) (← Expr.refreshAll elts)
  | .list node elts => do return .list (← renew node) (← Expr.refreshAll elts)
  | .comprehension node targets iterables elt => do
    return .comprehension (← renew node) targets (← Expr.refreshAll iterables) (← elt.refresh)
  | .index node value position => do return .index (← renew node) (← value.refresh) (← position.refresh)
  | .slice node value start stop => do
    return .slice (← renew node) (← value.refresh) (← Expr.refreshOption start) (← Expr.refreshOption stop)
  | .update node value path elt => do
    return .update (← renew node) (← value.refresh) (← Expr.refreshAll path) (← elt.refresh)
  | .cond node test ift iff => do
    return .cond (← renew node) (← test.refresh) (← ift.refresh) (← iff.refresh)
  | .context node ctor args kwargs => do
    return .context (← renew node) ctor (← Expr.refreshAll args) (← Expr.refreshKeyed kwargs)

def Expr.refreshAll : List Expr → Supply (List Expr)
  | [] => return []
  | e :: rest => do return (← e.refresh) :: (← Expr.refreshAll rest)

def Expr.refreshKeyed : List (String × Expr) → Supply (List (String × Expr))
  | [] => return []
  | (key, e) :: rest => do return (key, ← e.refresh) :: (← Expr.refreshKeyed rest)

def Expr.refreshOption : Option Expr → Supply (Option Expr)
  | none => return none
  | some e => do return some (← e.refresh)

end

mutual

def Stmt.refresh : Stmt → Supply Stmt
  | .assign node target ann value => do return .assign (← renew node) target ann (← value.refresh)
  | .store node name path value => do
    return .store (← renew node) name (← Expr.refreshAll path) (← value.refresh)
  | .when node test body => do return .when (← renew node) (← test.refresh) (← body.refresh)
  | .branch node test ift iff => do
    return .branch (← renew node) (← test.refresh) (← ift.refresh) (← iff.refresh)
  | .loop node test body => do return .loop (← renew node) (← test.refresh) (← body.refresh)
  | .each node target iterable body => do
    return .each (← renew node) target (← iterable.refresh) (← body.refresh)
  | .scope node name ctx body => do return .scope (← renew node) name (← ctx.refresh) (← body.refresh)
  | .assert node test msg => do
    return .assert (← renew node) (← test.refresh) (← Expr.refreshOption msg)
  | .effect node value => do return .effect (← renew node) (← value.refresh)
  | .ret node value => do return .ret (← renew node) (← value.refresh)
  | .skip node => do return .skip (← renew node)

def Block.refresh : Block → Supply Block
  | ⟨_, stmts⟩ => do return ⟨← fresh, ← Stmt.refreshAll stmts⟩

def Stmt.refreshAll : List Stmt → Supply (List Stmt)
  | [] => return []
  | s :: rest => do return (← s.refresh) :: (← Stmt.refreshAll rest)

end

def Param.refreshAll : List Param → Supply (List Param)
  | [] => return []
  | p :: rest => do return { p with id := ← fresh } :: (← Param.refreshAll rest)

def Func.refresh (f : Func) : Supply Func := do
  return { f with id := ← fresh, params := ← Param.refreshAll f.params, body := ← f.body.refresh }

end NumLang
