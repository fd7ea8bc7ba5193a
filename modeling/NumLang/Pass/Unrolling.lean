import NumLang.Pass.Basic
import NumLang.Tree.Rebuild
import NumLang.Tree.Rename

/-!
Unrolling: a loop over a list goes through several elements at a time, with a copy of its body for each.
-/

namespace NumLang

/-- What happens to elements that are left over. -/
inductive Leftover where
  /-- There must not be any. -/
  | strict
  /-- A second loop goes through them. -/
  | epilogue
deriving DecidableEq, Repr, Inhabited

def Leftover.text : Leftover → String
  | .strict => "Strict"
  | .epilogue => "Epilogue"

/-- How to unroll, and which loop; all if none is given. -/
structure Unroll where
  factor : Nat
  leftover : Leftover := .strict
  loop : Option Nat := none
deriving DecidableEq, Repr, Inhabited

namespace Unrolling

def loops (b : Block) : List NodeId :=
  b.all.filterMap fun
    | .each node .. => some node.id
    | _ => none

def element (list index : Name) (offset : Nat) : Edit Expr := do
  let first ← Edit.var index
  let position ← if offset = 0 then pure first else do
    let offset ← Edit.nat offset
    pure (Expr.binary (← Edit.node) .add none first offset)
  let list ← Edit.var list
  return .index (← Edit.node) list position

/-- The body of a loop for one element. Its target has new names, unless it is defined before the loop and so
can be seen after it. -/
def copy (r : Reaching) (site : NodeId) (target : Binder) (body : Block) (list index : Name) (offset : Nat) :
    Edit (List Stmt) := do
  let isVisible := target.names.any fun n => (r.reaching? site n).isSome
  let table ← if isVisible then pure ∅ else Edit.refreshNames ∅ target.names
  let first ← Edit.assign (target.rename table.toRenaming) (← element list index offset)
  let body ← Edit.supplied body.refresh
  return first :: (body.rename table.toRenaming).stmts

def remainder (length : Name) (factor : Nat) : Edit Expr := do
  let a ← Edit.var length
  let b ← Edit.nat factor
  return .binary (← Edit.node) .fmod (some "fmod") a b

def bound (u : Unroll) (length : Name) : Edit (Expr × Stmt) := do
  match u.leftover with
  | .strict =>
    let rest ← remainder length u.factor
    let zero ← Edit.nat 0
    let test := Expr.compare (← Edit.node) [.eq] [rest, zero]
    let check := Stmt.assert (← Edit.node) test none
    return (← Edit.var length, check)
  | .epilogue =>
    let main ← Edit.freshName "m"
    let whole ← Edit.var length
    let rest ← remainder length u.factor
    let value := Expr.binary (← Edit.node) .sub none whole rest
    let stmt ← Edit.assign (.name main) value
    return (← Edit.var main, stmt)

def epilogue (r : Reaching) (site : NodeId) (target : Binder) (body : Block) (list length : Name)
    (start : Expr) : Edit Stmt := do
  let index ← Edit.freshName "i"
  let stmts ← copy r site target body list index 0
  let stop ← Edit.var length
  let range := Expr.binary (← Edit.node) .range (some "range") start stop
  let body ← Edit.block stmts
  return .each (← Edit.node) (.name index) range body

/-- The statements that take the place of a loop. The end of the first loop is the start of the second. -/
def unroll (u : Unroll) (r : Reaching) (node : Node) (target : Binder) (iterable : Expr) (body : Block) :
    Edit (List Stmt) := do
  let list ← Edit.freshName "t"
  let length ← Edit.freshName "n"
  let index ← Edit.freshName "i"
  let keep ← Edit.assign (.name list) iterable
  let value := Expr.unary (← Edit.node) .len (some "len") (← Edit.var list)
  let measure ← Edit.assign (.name length) value
  let (stop, check) ← bound u length
  let copies ← (List.range u.factor).mapM fun offset => copy r node.id target body list index offset
  let zero ← Edit.nat 0
  let step ← Edit.nat u.factor
  let range := Expr.ternary (← Edit.node) .range (some "range") zero stop step
  let main := Stmt.each (← Edit.node node.loc) (.name index) range (← Edit.block copies.flatten)
  let rest ← match u.leftover with
    | .strict => pure []
    | .epilogue => do pure [← epilogue r node.id target body list length stop]
  Edit.noteAt .loopUnrolled node.id ("by " ++ toString u.factor ++ " (" ++ u.leftover.text ++ ")")
  return [keep, measure, check, main] ++ rest

def hooks (u : Unroll) (selected : List NodeId) (r : Reaching) : Rebuild Edit where
  stmt _ usual := do
    match ← usual with
    | .each node target iterable body =>
      if node.id ∈ selected then unroll u r node target iterable body
      else return [.each node target iterable body]
    | s => return [s]

def select (u : Unroll) (f : Func) : Except Error (List NodeId) :=
  let all := loops f.body
  match u.loop with
  | none => pure all
  | some i =>
    match all[i]? with
    | some id => pure [id]
    | none => throw (.noSuchLoop f.name all.length i)

def edit (u : Unroll) (f : Func) : Edit Func := do
  if u.factor = 0 then throw .zeroFactor
  let selected ← select u f
  if u.factor = 1 || selected.isEmpty then return f
  (hooks u selected (← Reaching.ofFunc f)).onFunc f

end Unrolling

def Pass.unrolling (u : Unroll) : Pass :=
  ofEdit "for-unroll" "Unrolls for loops by a constant factor" (Unrolling.edit u)

end NumLang
