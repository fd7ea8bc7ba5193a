import NumLang.Error
import NumLang.Tree.Equivalence
import NumLang.Tree.Identity
import NumLang.Tree.Names

/-!
Patterns of rules.
-/

namespace NumLang

/-- A part of a program that a pattern can describe. -/
inductive Fragment where
  | expr (e : Expr)
  | stmts (l : List Stmt)

namespace Fragment

def isExpr : Fragment → Bool
  | .expr _ => true
  | .stmts _ => false

def window : Fragment → Nat
  | .expr _ => 0
  | .stmts l => l.length

def equiv : Fragment → Fragment → Bool
  | .expr a, .expr b => a.equiv b
  | .stmts as, .stmts bs => Stmt.equivAll as bs
  | _, _ => false

def refresh : Fragment → Supply Fragment
  | .expr e => do return .expr (← e.refresh)
  | .stmts l => do return .stmts (← Stmt.refreshAll l)

end Fragment

structure Pattern where
  name : String
  /-- What stands for any expression, in the order of the parameters. -/
  vars : List Name
  /-- What stands for a name. -/
  free : NameSet
  body : Fragment

namespace Pattern

def readVars (func : String) (seen : List Name) : List Param → Except Error (List Name)
  | [] => pure seen
  | p :: rest =>
    match p.name with
    | none => throw (.invalidPattern func .wildcardVariable)
    | some n =>
      if n ∈ seen then throw (.invalidPattern func (.repeatedVariable n))
      else readVars func (seen ++ [n]) rest

def build (f : Func) (vars : List Name) (body : Fragment) : Pattern where
  name := f.name
  vars := vars
  free := (f.body.bound ∪ f.body.referenced).filter (· ∉ vars)
  body := body

def ofExprFunc (f : Func) : Except Error Pattern := do
  let vars ← readVars f.name [] f.params
  match f.body.stmts with
  | [.effect _ e] => return build f vars (.expr e)
  | _ => throw (.invalidPattern f.name .notOneEffect)

def ofStmtFunc (f : Func) : Except Error Pattern := do
  let vars ← readVars f.name [] f.params
  if f.body.stmts.isEmpty then throw (.invalidPattern f.name .noBody)
  return build f vars (.stmts f.body.stmts)

/-- A pattern for an expression, if the body is only that, and for statements otherwise. -/
def ofFunc (f : Func) : Except Error Pattern :=
  match f.body.stmts with
  | [.effect ..] => ofExprFunc f
  | _ => ofStmtFunc f

def isVar (p : Pattern) (n : Name) : Bool := n ∈ p.vars

def isFree (p : Pattern) (n : Name) : Bool := n ∈ p.free

end Pattern

end NumLang
