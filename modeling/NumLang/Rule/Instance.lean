import NumLang.NameSupply
import NumLang.Rule.Pattern
import NumLang.Tree.Rebuild

/-!
Instances of patterns: expressions in place of the variables and names in place of the free names.
-/

namespace NumLang

/-- What variables and free names of a pattern stand for. -/
structure Capture where
  exprs : NameMap Expr := ∅
  names : NameMap Name := ∅
deriving Inhabited

namespace Pattern

/-- The name that a name of the pattern becomes. Where a variable stands in the place of a name, it has to
stand for a variable. -/
def instanceName (p : Pattern) (c : Capture) (n : Name) : Except Error Name :=
  if p.isVar n then
    match (c.exprs.get? n).bind Expr.asVar? with
    | some target => pure target
    | none => throw (.unboundVariable n)
  else pure ((c.names.get? n).getD n)

def instantiate (p : Pattern) (c : Capture) : Rebuild (Except Error) where
  expr e usual :=
    match e with
    | .var _ n =>
      if p.isVar n then
        match c.exprs.get? n with
        | some e => pure e
        | none => throw (.unboundVariable n)
      else usual
    | _ => usual
  name n := p.instanceName c n

def instance? (p : Pattern) (c : Capture) : Except Error Fragment :=
  match p.body with
  | .expr e => do return .expr (← (p.instantiate c).onExpr e)
  | .stmts l => do return .stmts (← (p.instantiate c).onStmts l)

def nameFree (c : Capture) : List Name → NameSupply → NameMap Name × NameSupply
  | [], supply => (∅, supply)
  | n :: rest, supply =>
    let (target, supply) := match c.names.get? n with
      | some target => (target, supply)
      | none => supply.refresh n
    let (names, supply) := nameFree c rest supply
    (names.insert n target, supply)

def freshInstance (p : Pattern) (c : Capture) (supply : NameSupply) : Except Error Fragment × NameSupply :=
  let (names, supply) := nameFree c p.free.toList supply
  (p.instance? { c with names := names }, supply)

end Pattern

end NumLang
