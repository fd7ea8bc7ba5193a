import NumLang.Ordered.Map

/-!
Names of variables and functions: a spelling, with a counter when the name was made up by a tool.
-/

namespace NumLang

/-- A name: a spelling and, for a made-up name, a counter. -/
structure Name where
  base : String
  counter : Option Nat := none
deriving DecidableEq, Repr, Inhabited

namespace Name

instance : Ord Name := ⟨compareLex (compareOn Name.base) (compareOn Name.counter)⟩

instance : Std.TransOrd Name :=
  inferInstanceAs (Std.TransCmp (compareLex (compareOn Name.base) (compareOn Name.counter)))

instance : Std.LawfulEqOrd Name where
  eq_of_compare {a b} same := by
    have parts : compareOn Name.base a b = .eq ∧ compareOn Name.counter a b = .eq := by
      simpa [compare, compareLex] using same
    obtain ⟨base, counter⟩ := parts
    have base := Std.LawfulEqOrd.eq_of_compare (α := String) base
    have counter := Std.LawfulEqOrd.eq_of_compare (α := Option Nat) counter
    cases a
    cases b
    simp_all

def text (n : Name) : String :=
  match n.counter with
  | none => n.base
  | some k => n.base ++ "_" ++ toString k

def isGenerated (n : Name) : Bool := n.counter.isSome

end Name

abbrev NameSet := OrdSet Name
abbrev NameMap := OrdMap Name

/-- The left side of a binding: nothing, a name, or a tuple of such. -/
inductive Binder where
  | wildcard
  | name (n : Name)
  | tuple (parts : List Binder)
deriving Repr, Inhabited

namespace Binder

mutual

def names : Binder → List Name
  | .wildcard => []
  | .name n => [n]
  | .tuple parts => namesAll parts

def namesAll : List Binder → List Name
  | [] => []
  | b :: rest => b.names ++ namesAll rest

end

mutual

def rename (f : Name → Name) : Binder → Binder
  | .wildcard => .wildcard
  | .name n => .name (f n)
  | .tuple parts => .tuple (renameAll f parts)

def renameAll (f : Name → Name) : List Binder → List Binder
  | [] => []
  | b :: rest => b.rename f :: renameAll f rest

end

mutual

def same : Binder → Binder → Bool
  | .wildcard, .wildcard => true
  | .name m, .name n => m = n
  | .tuple ms, .tuple ns => sameAll ms ns
  | _, _ => false

def sameAll : List Binder → List Binder → Bool
  | [], [] => true
  | m :: ms, n :: ns => m.same n && sameAll ms ns
  | _, _ => false

end

mutual

theorem same_iff (a b : Binder) : a.same b = true ↔ a = b := by
  cases a <;> cases b <;> simp [same, sameAll_iff]

theorem sameAll_iff (as bs : List Binder) : sameAll as bs = true ↔ as = bs := by
  cases as <;> cases bs <;> simp [sameAll, same_iff, sameAll_iff]

end

instance : DecidableEq Binder := fun a b => decidable_of_iff _ (same_iff a b)

def asName? : Binder → Option Name
  | .name n => some n
  | _ => none

def nameSet (targets : List Binder) : NameSet := OrdSet.ofList (namesAll targets)

end Binder

end NumLang
