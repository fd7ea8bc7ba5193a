import Mathlib.Data.Rat.Cast.Defs
import NumLang.Proofs.Renaming

/-!
The reference evaluator with lists: list displays, lengths, elements by position, ranges of whole numbers, and
remainders of whole numbers.
-/

namespace NumLang

namespace Value

def asInt? : Value → Option Int
  | .number r => if r.den = 1 then some r.num else none
  | _ => none

def stepCount (start stop step : Int) : Nat :=
  if 0 < step then ((stop - start + step - 1) / step).toNat else ((start - stop - step - 1) / -step).toNat

def range? (start stop step : Int) : Option Value :=
  if step = 0 then none
  else some (.list ((List.range (stepCount start stop step)).map fun (i : Nat) => .number (start + i * step : Int)))

end Value

/-- The value of an operator on values, lists among them. A remainder has the sign of what is divided. -/
def Form.onLists? (form : Form) (args : List Value) : Option Value :=
  match form, args with
  | .list, elts => some (.list elts)
  | .unary .len, [.list elts] => some (.number elts.length)
  | .index, [.list elts, position] => do elts[← (← position.asInt?).toNat?]?
  | .binary .fmod, [a, b] => do
    let a ← a.asInt?
    let b ← b.asInt?
    if b = 0 then none else return .number (a.tmod b : Int)
  | .binary .range, [start, stop] => do Value.range? (← start.asInt?) (← stop.asInt?) 1
  | .ternary .range, [start, stop, step] => do
    Value.range? (← start.asInt?) (← stop.asInt?) (← step.asInt?)
  | form, args => form.operate? id args

variable {V C : Type}

namespace Machine

def lists : Machine Value Unit := { withLists with apply := fun _ form args => form.onLists? args }

/-- A machine that counts and knows lists. -/
structure Counts (m : Machine V C) (number : Nat → V) (list : List V → V) : Prop where
  literal : ∀ n : Nat, m.literal (.integer n) = some (number n)
  elements : ∀ v vs, m.elements v = some vs ↔ v = list vs
  len : ∀ c vs, m.apply c (.unary .len) [list vs] = some (number vs.length)
  index : ∀ c vs i, m.apply c .index [list vs, number i] = vs[i]?
  add : ∀ c a b, m.apply c (.binary .add) [number a, number b] = some (number (a + b))
  sub : ∀ c a b, b ≤ a → m.apply c (.binary .sub) [number a, number b] = some (number (a - b))
  fmod : ∀ c a b, 0 < b → m.apply c (.binary .fmod) [number a, number b] = some (number (a % b))
  eq : ∀ c a b, (m.apply c (.compare [.eq]) [number a, number b]).bind m.truth = some (decide (a = b))
  range : ∀ c start count, m.apply c (.binary .range) [number start, number (start + count)] =
    some (list ((List.range count).map fun i => number (start + i)))
  stepped : ∀ c count step, 0 < step → m.apply c (.ternary .range) [number 0, number (count * step), number step] =
    some (list ((List.range count).map fun i => number (i * step)))

end Machine

namespace Value

theorem asInt?_natCast (n : Nat) : (Value.number n).asInt? = some (n : Int) := by
  simp [asInt?]

theorem lt_stepCount (positive : 0 < step) (i : Nat) : i < stepCount start stop step ↔ start + i * step < stop := by
  rw [stepCount, if_pos positive, Int.lt_toNat, ← Int.add_one_le_iff, Int.le_ediv_iff_mul_le positive, Int.add_mul]
  omega

theorem stepCount_one (start count : Nat) : stepCount start (start + count : Nat) 1 = count := by
  apply eq_of_forall_lt_iff
  intro i
  rw [lt_stepCount (by decide)]
  omega

theorem stepCount_mul (count : Nat) (positive : 0 < step) : stepCount 0 (count * step : Nat) step = count := by
  apply eq_of_forall_lt_iff
  intro i
  rw [lt_stepCount (by omega), Int.zero_add]
  exact_mod_cast Nat.mul_lt_mul_right positive

end Value

theorem Machine.shaped_lists : Machine.lists.Shaped where
  name _ _ := rfl
  rename target ρ v := by cases target <;> rfl

theorem Machine.counts_lists : Machine.lists.Counts (fun n => .number n) .list where
  literal n := by simp [lists, withLists, reference, Literal.value?, HostValue.int, Value.ofHost]
  elements v vs := by
    cases v <;> simp [lists, withLists, Value.asList?]
  len c vs := rfl
  index c vs i := by
    show ((Value.number i).asInt?.bind fun j => j.toNat?.bind fun k => vs[k]?) = _
    rw [Value.asInt?_natCast]
    rfl
  add c a b := congrArg (some ∘ Value.number) (Nat.cast_add a b).symm
  sub c a b less := congrArg (some ∘ Value.number) (Nat.cast_sub less).symm
  fmod c a b positive := by
    simp only [lists, Form.onLists?, Value.asInt?_natCast, Option.bind_eq_bind, bind_some]
    rw [if_neg (by omega), ← Int.ofNat_tmod, Int.cast_natCast]
    rfl
  eq c a b := by
    show some (decide (Value.number (a : Rat) = Value.number b) && true) = _
    simp only [Value.number.injEq, Nat.cast_inj, Bool.and_true]
  range c start count := by
    simp only [lists, Form.onLists?, Value.asInt?_natCast, Option.bind_eq_bind, bind_some, Value.range?,
      Value.stepCount_one]
    simp
  stepped c count step positive := by
    have zero : (Value.number ((0 : Nat) : Rat)).asInt? = some 0 := Value.asInt?_natCast 0
    simp only [lists, Form.onLists?, Value.asInt?_natCast, zero, Option.bind_eq_bind, bind_some, Value.range?,
      Value.stepCount_mul count positive]
    rw [if_neg (by omega)]
    simp

namespace Lists

/-- The execution of a function for the given arguments. Free names hold nothing. -/
def exec (f : Func) (args : List Value) : Option (Outcome Value Unit) :=
  Machine.lists.execFunc () Reference.fuel f (fun _ => none) args

/-- The value that a function returns for the given arguments. -/
def run (f : Func) (args : List Value) : Option Value :=
  Machine.lists.run () Reference.fuel f (fun _ => none) args

end Lists

/-! ### Tuples -/

namespace Binder

mutual

def spread? : Binder → Value → Option (List Value)
  | .wildcard, _ => some []
  | .name _, v => some [v]
  | .tuple parts, .tuple elts => spreadAll? parts elts
  | .tuple _, _ => none

def spreadAll? : List Binder → List Value → Option (List Value)
  | [], [] => some []
  | b :: rest, v :: others => do return (← spread? b v) ++ (← spreadAll? rest others)
  | _, _ => none

end

mutual

theorem spread?_rename (ρ : Name → Name) : (b : Binder) → (v : Value) → (b.rename ρ).spread? v = b.spread? v
  | .wildcard, _ | .name _, _ => rfl
  | .tuple parts, v => by
    cases v with
    | tuple elts => exact spreadAll?_rename ρ parts elts
    | _ => rfl

theorem spreadAll?_rename (ρ : Name → Name) :
    (bs : List Binder) → (vs : List Value) → spreadAll? (renameAll ρ bs) vs = spreadAll? bs vs
  | [], _ => rfl
  | b :: rest, [] => rfl
  | b :: rest, v :: others => by
    simp only [renameAll, spreadAll?, spread?_rename ρ b, spreadAll?_rename ρ rest]

end

theorem spreadAll?_names {ns : List Name} {vs : List Value} (fits : vs.length = ns.length) :
    spreadAll? (ns.map .name) vs = some vs := by
  induction ns generalizing vs with
  | nil => rw [List.length_eq_zero_iff.mp fits]; rfl
  | cons n rest ih =>
    cases vs with
    | nil => cases fits
    | cons v others => simp [spreadAll?, spread?, ih (Nat.succ.inj fits)]

end Binder

def Value.replace? : Value → List Value → Value → Option Value
  | _, [], v => some v
  | .list elts, position :: path, v => do
    let i ← (← position.asInt?).toNat?
    return .list (elts.set i (← (← elts[i]?).replace? path v))
  | _, _ :: _, _ => none

def Form.onTuples? (form : Form) (args : List Value) : Option Value :=
  match form, args with
  | .tuple, elts => some (.tuple elts)
  | .index, [.tuple elts, position] => do elts[← (← position.asInt?).toNat?]?
  | form, args => form.onLists? args

namespace Machine

def tuples : Machine Value Unit :=
  { lists with
    apply := fun _ form args => form.onTuples? args
    spread := Binder.spread?
    replace := Value.replace? }

/-- A machine that counts and knows tuples. -/
structure Groups (m : Machine V C) (number : Nat → V) (tuple : List V → V) : Prop where
  literal : ∀ n : Nat, m.literal (.integer n) = some (number n)
  gather : ∀ c vs, m.apply c .tuple vs = some (tuple vs)
  index : ∀ c vs i, m.apply c .index [tuple vs, number i] = vs[i]?
  spread : ∀ (ns : List Name) (vs : List V), vs.length = ns.length →
    m.spread (.tuple (ns.map .name)) (tuple vs) = some vs

theorem shaped_tuples : tuples.Shaped where
  name _ _ := rfl
  rename target ρ v := target.spread?_rename ρ v

theorem groups_tuples : tuples.Groups (fun n => .number n) .tuple where
  literal := counts_lists.literal
  gather _ _ := rfl
  index c vs i := by
    have whole : ((i : Int)).toNat? = some i := rfl
    simp [tuples, Form.onTuples?, Value.asInt?_natCast, whole]
  spread _ _ fits := Binder.spreadAll?_names fits

end Machine

namespace Tuples

/-- The value that a function returns for the given arguments. Free names hold nothing. -/
def run (f : Func) (args : List Value) : Option Value :=
  Machine.tuples.run () Reference.fuel f (fun _ => none) args

end Tuples

end NumLang
