import NumLang.Flow.Effects
import NumLang.Pass.Basic
import NumLang.Tree.Rebuild
import NumLang.Tree.Rename

/-!
Inlining: in place of a call, the body of the function is carried out on new names before the statement that holds the
call, and its result is kept in a new name.
-/

namespace NumLang

namespace Inlining

/-- What is known while calls are replaced. -/
structure State where
  /-- The names bound in the function and in what was put into it. -/
  bound : NameSet
  /-- The statements that go before the current one. -/
  prelude : List Stmt := []
  /-- The expression that is all that the current statement evaluates. -/
  root : Option NodeId := none
  /-- The free names of what was put in, and the values captured for them. -/
  freeVars : NameSet := ∅
  env : OrdMap String HostValue := ∅

abbrev Inline := StateT State Edit

mutual

def returns : Stmt → Nat
  | .ret .. => 1
  | .when _ _ body | .loop _ _ body | .each _ _ _ body | .scope _ _ _ body => returnsIn body
  | .branch _ _ ift iff => returnsIn ift + returnsIn iff
  | .assign .. | .store .. | .assert .. | .effect .. | .skip _ => 0

def returnsIn : Block → Nat
  | ⟨_, stmts⟩ => returnsAll stmts

def returnsAll : List Stmt → Nat
  | [] => 0
  | s :: rest => returns s + returnsAll rest

end

def splitReturn? (stmts : List Stmt) : Option (List Stmt × Expr) :=
  match stmts.getLast? with
  | some (.ret _ value) => some (stmts.dropLast, value)
  | _ => none

/-- Whether two free names of one spelling could mean different things: the caller or what was put into it
uses the spelling, with another captured value than the function. -/
def clashes (caller callee : Func) (s : State) (key : String) : Bool :=
  let isRead := (caller.freeVars.toList ++ s.freeVars.toList).any (·.base = key)
  let value := (caller.env.get? key).or (s.env.get? key)
  (isRead || value.isSome) && value ≠ callee.env.get? key

def obstacle? (caller : Func) (threshold : Nat) (callee : Func) (s : State) : Option String :=
  if (splitReturn? callee.body.stmts).isNone || returnsIn callee.body ≠ 1 then some "multiple exits"
  else if threshold < callee.body.all.length then some "above threshold"
  else if callee.freeVars.toList.any (· ∈ s.bound) then some "free variable captured"
  else if callee.freeVars.toList.any (fun n => clashes caller callee s n.base) then
    some "free variable shadowed"
  else none

def isInlinable (caller : Func) (threshold : Nat) (callee : Func) : Inline Bool := do
  if callee.name = caller.name then return false
  match obstacle? caller threshold callee (← get) with
  | none => return true
  | some why =>
    Edit.trace ("not inlining `" ++ callee.name ++ "`: " ++ why)
    return false

def emit (stmts : List Stmt) : Inline Unit := modify fun s => { s with prelude := s.prelude ++ stmts }

def bindNames (names : List Name) : Inline Unit :=
  modify fun s => { s with bound := s.bound.insertAll names }

def bindParams (table : NameMap Name) : List Param → List Expr → Inline Unit
  | p :: params, arg :: args => do
    let target := match p.name with
      | some n => Binder.name (table.toRenaming n)
      | none => Binder.wildcard
    emit [← Edit.assign target arg]
    bindParams table params args
  | _, _ => return ()

/-- Puts the body of a function before the current statement; the call becomes the name of its result. -/
def inline (site : NodeId) (callee : Func) (args : List Expr) : Inline Expr := do
  if args.length ≠ callee.params.length then
    throw (.arityMismatch site callee.params.length args.length)
  for n in callee.freeVars.toList do Edit.reserveName n
  let own := OrdSet.ofList callee.paramNames ∪ callee.body.bound
  let table ← Edit.refreshNames ∅ own.toList
  bindNames table.values
  bindParams table callee.params args
  let body ← Edit.supplied callee.body.refresh
  match splitReturn? (body.rename table.toRenaming).stmts with
  | none => throw (.malformed (.missingReturn callee.name))
  | some (stmts, value) =>
    let result ← Edit.freshName "tmp"
    bindNames [result]
    let stmts := stmts ++ [← Edit.assign (.name result) value]
    match callee.ctx with
    | some c =>
      let ctx ← Edit.lit (.host (.context c))
      let body ← Edit.block stmts
      emit [.scope (← Edit.node) none ctx body]
    | none => emit stmts
    modify fun s => { s with
      freeVars := s.freeVars ∪ callee.freeVars
      env := callee.env.insertAll s.env.entries }
    Edit.noteAt .callInlined site ("`" ++ callee.name ++ "` into `" ++ result.text ++ "`")
    Edit.var result

def isOpaque : Expr → Bool
  | .cond .. | .comprehension .. => true
  | .nary _ op _ _ => op = .and || op = .or
  | .compare _ _ args => 2 < args.length
  | _ => false

def onExpr (caller : Func) (threshold : Nat) (e : Expr) (usual : Inline Expr) : Inline Expr := do
  if isOpaque e then return e
  let isRoot := (← get).root = some e.id
  match ← usual with
  | .call node name (some (.function callee)) args [] =>
    if (← isInlinable caller threshold callee) && (isRoot || callee.isPure) then inline node.id callee args
    else return .call node name (some (.function callee)) args []
  | e => return e

def withPrelude (root : Option NodeId) (action : Inline Stmt) : Inline (List Stmt) := do
  let outer ← get
  set { outer with prelude := [], root := root }
  let made ← action
  let inner ← get
  set { inner with prelude := outer.prelude, root := outer.root }
  return inner.prelude ++ [made]

mutual

/-- Replaces calls in a statement. The test of a loop is evaluated more than once and stays. -/
def onStmt (hooks : Rebuild Inline) : Stmt → Inline (List Stmt)
  | .loop node test body => withPrelude none do return .loop node test (← onBlock hooks body)
  | .when node test body => withPrelude none do
    let test ← hooks.onExpr test
    return .when node test (← onBlock hooks body)
  | .branch node test ift iff => withPrelude none do
    let test ← hooks.onExpr test
    let ift ← onBlock hooks ift
    return .branch node test ift (← onBlock hooks iff)
  | .each node target iterable body => withPrelude none do
    let iterable ← hooks.onExpr iterable
    return .each node target iterable (← onBlock hooks body)
  | .scope node name ctx body => withPrelude none do
    let ctx ← hooks.onExpr ctx
    return .scope node name ctx (← onBlock hooks body)
  | .assign node target ann value => withPrelude (some value.id) do
    return .assign node target ann (← hooks.onExpr value)
  | .store node name path value => withPrelude none do
    let path ← hooks.onExprs path
    return .store node name path (← hooks.onExpr value)
  | .assert node test message => withPrelude none do
    let test ← hooks.onExpr test
    return .assert node test (← hooks.onOption message)
  | .effect node value => withPrelude (some value.id) do return .effect node (← hooks.onExpr value)
  | .ret node value => withPrelude (some value.id) do return .ret node (← hooks.onExpr value)
  | .skip node => return [.skip node]

def onBlock (hooks : Rebuild Inline) : Block → Inline Block
  | ⟨id, stmts⟩ => do return ⟨id, ← onStmts hooks stmts⟩

def onStmts (hooks : Rebuild Inline) : List Stmt → Inline (List Stmt)
  | [] => return []
  | s :: rest => do return (← onStmt hooks s) ++ (← onStmts hooks rest)

end

def edit (threshold : Nat) (f : Func) : Edit Func := do
  let hooks : Rebuild Inline := { expr := onExpr f threshold }
  let (body, s) ← (onBlock hooks f.body).run { bound := OrdSet.ofList f.paramNames ∪ f.body.bound }
  return { f with
    body := body
    freeVars := f.freeVars ∪ s.freeVars
    env := s.env.insertAll f.env.entries }

end Inlining

/-- Replaces calls; the configuration says how large a function may be unless `threshold` does. -/
def Pass.inlining (threshold : Option Nat := none) : Pass where
  name := "func-inline"
  description := "Replaces calls of small user-defined functions with their bodies"
  applies f := !f.body.called.isEmpty
  run config := Edit.perform "func-inline" (Inlining.edit (threshold.getD config.inlineThreshold))

end NumLang
