import NumLang.Typing.Ty

/-!
Unification of types. A solution is a list of bindings, each made after those behind it, so that it is applied
from the oldest binding to the newest.
-/

namespace NumLang

namespace Ty

mutual

def subst (f : Nat → Ty) : Ty → Ty
  | .bool => .bool
  | .real => .real
  | .context => .context
  | .tuple elts => .tuple (substAll f elts)
  | .list elt => .list (elt.subst f)
  | .function params ret => .function (substAll f params) (ret.subst f)
  | .var v => f v

def substAll (f : Nat → Ty) : List Ty → List Ty
  | [] => []
  | t :: rest => t.subst f :: substAll f rest

end

def replace (t : Ty) (v : Nat) (value : Ty) : Ty := t.subst fun w => if w = v then value else .var w

/-- A first difference between two types. -/
inductive Difference where
  /-- It goes away if the variable stands for the type. -/
  | solvable (v : Nat) (t : Ty)
  /-- Nothing makes these two equal. -/
  | clash (expected actual : Ty)

mutual

def difference? : Ty → Ty → Option Difference
  | .var v, .var w => if v = w then none else some (.solvable v (.var w))
  | .var v, t => some (if v ∈ t.varList then .clash (.var v) t else .solvable v t)
  | t, .var v => some (if v ∈ t.varList then .clash t (.var v) else .solvable v t)
  | .bool, .bool | .real, .real | .context, .context => none
  | .tuple as, .tuple bs =>
    if as.length = bs.length then differenceAll? as bs else some (.clash (.tuple as) (.tuple bs))
  | .list a, .list b => difference? a b
  | .function as a, .function bs b =>
    if as.length = bs.length then (differenceAll? as bs).or (difference? a b)
    else some (.clash (.function as a) (.function bs b))
  | a, b => some (.clash a b)

def differenceAll? : List Ty → List Ty → Option Difference
  | a :: as, b :: bs => (difference? a b).or (differenceAll? as bs)
  | _, _ => none

end

end Ty

abbrev Solution := List (Nat × Ty)

namespace Solution

def resolve (s : Solution) (t : Ty) : Ty := s.foldr (fun binding t => t.replace binding.1 binding.2) t

def solve : (fuel : Nat) → Ty → Ty → Except (Ty × Ty) Solution
  | 0, a, b => .error (a, b)
  | fuel + 1, a, b =>
    match a.difference? b with
    | none => .ok []
    | some (.clash a b) => .error (a, b)
    | some (.solvable v t) => do return (← solve fuel (a.replace v t) (b.replace v t)) ++ [(v, t)]

/-- Extends the bindings so that two types become equal. Every step removes a variable from the two types, so
the number of those in them bounds the steps. -/
def unify (s : Solution) (expected actual : Ty) : Except (Ty × Ty) Solution := do
  let a := s.resolve expected
  let b := s.resolve actual
  return (← solve ((a.varList ++ b.varList).length + 1) a b) ++ s

end Solution

end NumLang
