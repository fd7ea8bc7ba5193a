import Mathlib.Algebra.Order.Ring.Abs
import Mathlib.Algebra.Order.Ring.Rat
import Mathlib.Data.Sign.Basic
import Mathlib.Tactic.Linarith
import Mathlib.Tactic.Ring
import NumLang.Proofs.Rounded

/-!
The exact evaluator: what it computes where nothing is rounded, and that it computes no numbers elsewhere.
-/

namespace NumLang

/-- What division leaves of a number, with the sign of that number. -/
structure Remainder (a b r : Rat) : Prop where
  multiple : ∃ k : Int, a - r = k * b
  small : |r| < |b|
  signed : r = 0 ∨ SignType.sign r = SignType.sign a

def Relation.Holds (a b : Rat) : Relation → Prop
  | .lt => a < b
  | .le => a ≤ b
  | .ge => a ≥ b
  | .gt => a > b
  | .eq => a = b
  | .ne => a ≠ b

/-- Each of the relations holds between neighbours. -/
def Chained (ops : List Relation) (nums : List Rat) : Prop :=
  ∀ x ∈ ops.zip (nums.zip nums.tail), x.1.Holds x.2.1 x.2.2

namespace Exact

variable {a b r : Rat} {op : Operator} {tag : ContextTag}

theorem exists_truncate (q : Rat) :
    ∃ k : Int, truncate q = k ∧ |q - k| < 1 ∧ (q - k = 0 ∨ SignType.sign (q - k) = SignType.sign q) := by
  unfold truncate
  split
  case isTrue negative =>
    have above := Rat.le_ceil (x := q)
    have below := Rat.ceil_lt (x := q)
    refine ⟨q.ceil, rfl, abs_lt.mpr ⟨by linarith, by linarith⟩, ?_⟩
    rcases above.eq_or_lt with same | less
    · exact .inl (sub_eq_zero.mpr same)
    · exact .inr (by rw [sign_neg (sub_neg.mpr less), sign_neg negative])
  case isFalse positive =>
    have below := Rat.floor_le q
    have above := Rat.lt_floor_add_one q
    have start : (0 : Rat) ≤ q.floor := by exact_mod_cast Rat.le_floor_iff.mpr (not_lt.mp positive)
    push_cast at above
    refine ⟨q.floor, rfl, abs_lt.mpr ⟨by linarith, by linarith⟩, ?_⟩
    rcases below.eq_or_lt with same | less
    · exact .inl (sub_eq_zero.mpr same.symm)
    · exact .inr (by rw [sign_pos (sub_pos.mpr less), sign_pos (start.trans_lt less)])

theorem remainder_truncate (a : Rat) (nonzero : b ≠ 0) : Remainder a b (a - b * truncate (a / b)) := by
  obtain ⟨k, found, small, signed⟩ := exists_truncate (a / b)
  have scaled : a - b * k = b * (a / b - k) := by rw [mul_sub, mul_div_cancel₀ _ nonzero]
  rw [found]
  constructor
  · exact ⟨k, by ring⟩
  · rw [scaled, abs_mul]
    exact mul_lt_of_lt_one_right (abs_pos.mpr nonzero) small
  · rw [scaled]
    rcases signed with same | signed
    · exact .inl (by rw [same, mul_zero])
    · exact .inr (by rw [sign_mul, signed, ← sign_mul, mul_div_cancel₀ _ nonzero])

theorem natPower_eq (a : Rat) (n : Nat) : natPower a n = a ^ n := by
  induction n with
  | zero => rw [natPower, pow_zero]
  | succ n ih => rw [natPower, ih, pow_succ]

theorem power?_eq_some_iff :
    power? a b = some r ↔ ∃ n : Int, b = n ∧ n.natAbs ≤ 64 ∧ (a ≠ 0 ∨ 0 ≤ n) ∧ r = a ^ n := by
  simp only [power?, natPower_eq, Bool.or_eq_true, decide_eq_true_eq]
  by_cases whole : b.den = 1
  · obtain ⟨n, rfl⟩ : ∃ n : Int, b = n := ⟨b.num, ((Rat.den_eq_one_iff b).mp whole).symm⟩
    simp only [Rat.den_intCast, Rat.num_intCast, Int.cast_inj, exists_eq_left']
    cases n with
    | ofNat n => simp [maxExponent, eq_comm (a := r)]
    | negSucc n => simp [maxExponent, zpow_negSucc, eq_comm (a := r)]
  · rw [if_pos (.inl whole)]
    constructor
    · intro found
      cases found
    · rintro ⟨n, rfl, _⟩
      exact absurd (Rat.den_intCast n) whole

theorem arithmetic?_min (nums : List Rat) : arithmetic? (.nary .min) nums = nums.min? := by
  cases nums <;> rfl

theorem arithmetic?_max (nums : List Rat) : arithmetic? (.nary .max) nums = nums.max? := by
  cases nums <;> rfl

theorem value?_eq_some_iff (op : Operator) (nums : List Rat) (v : HostValue)
    (arithmetic : op ∉ [.unary .not, .nary .and, .nary .or]) :
    value? op (nums.map .number) (.known .real) = some v ↔ ∃ r, arithmetic? op nums = some r ∧ v = .number r := by
  have all : (nums.map HostValue.number).mapM HostValue.asNumber? = some nums := by
    induction nums with
    | nil => rfl
    | cons a rest ih => simp [HostValue.asNumber?, ih]
  simp [value?_of_arithmetic arithmetic, isExact, all, Option.bind_eq_some_iff, eq_comm (a := v)]

theorem holds_iff (op : Relation) : holds a b op = true ↔ op.Holds a b := by
  cases op <;> simp [holds, Relation.Holds]

instance (op : Relation) : Decidable (op.Holds a b) := decidable_of_iff _ (holds_iff op)

instance (ops : List Relation) (nums : List Rat) : Decidable (Chained ops nums) :=
  inferInstanceAs (Decidable (∀ x ∈ _, _))

theorem compare?_number (ops : List Relation) (nums : List Rat) :
    compare? ops (nums.map .number) (.known .real) =
      if nums.length = ops.length + 1 then some (decide (Chained ops nums)) else none := by
  induction ops generalizing nums with
  | nil => rcases nums with _ | ⟨a, _ | ⟨b, rest⟩⟩ <;> simp [compare?, Chained]
  | cons op ops ih =>
    rcases nums with _ | ⟨a, _ | ⟨b, rest⟩⟩
    · simp [compare?]
    · simp [compare?]
    · have chained : Chained (op :: ops) (a :: b :: rest) ↔ op.Holds a b ∧ Chained ops (b :: rest) :=
        List.forall_mem_cons
      have later := ih (b :: rest)
      rw [List.map_cons] at later
      by_cases fits : rest.length = ops.length <;> simp [compare?, related?, isExact, later, chained, fits, ← holds_iff]

theorem compare?_eq_none (rounds : tag ≠ .known .real) (near : [.number a, .number b] <:+: args) :
    compare? ops args tag = none := by
  fun_induction compare? ops args tag with
  | case1 => simp [List.infix_cons_iff] at near
  | case2 op ops x y rest tag ih =>
    rcases List.infix_cons_iff.mp near with first | later
    · simp only [List.cons_prefix_cons] at first
      obtain ⟨rfl, rfl, _⟩ := first
      simp [related?, isExact, rounds]
    · simp [ih rounds later]
  | case3 => rfl

end Exact

open Exact in
/-- Where nothing is rounded, the exact evaluator computes remainders, powers, quotients, extremes and comparisons as
they are. Elsewhere it knows no operator but those of logic, and no comparison of numbers. -/
theorem Evaluator.exact_values :
    (∀ a b : Rat, b ≠ 0 → ∃ r, exact.apply (.binary .fmod) [.number a, .number b] (.known .real) = some (.number r) ∧
      Remainder a b r) ∧
    (∀ a b v, exact.apply (.binary .pow) [.number a, .number b] (.known .real) = some v ↔
      ∃ n : Int, b = n ∧ n.natAbs ≤ 64 ∧ (a ≠ 0 ∨ 0 ≤ n) ∧ v = .number (a ^ n)) ∧
    (∀ a b v, exact.apply (.binary .div) [.number a, .number b] (.known .real) = some v ↔
      b ≠ 0 ∧ v = .number (a / b)) ∧
    (∀ (nums : List Rat) v, exact.apply (.nary .min) (nums.map .number) (.known .real) = some v ↔
      ∃ m, IsLeast {x | x ∈ nums} m ∧ v = .number m) ∧
    (∀ (nums : List Rat) v, exact.apply (.nary .max) (nums.map .number) (.known .real) = some v ↔
      ∃ m, IsGreatest {x | x ∈ nums} m ∧ v = .number m) ∧
    (∀ ops (nums : List Rat), exact.compare ops (nums.map .number) (.known .real) =
      if nums.length = ops.length + 1 then some (decide (Chained ops nums)) else none) ∧
    ∀ tag, tag ≠ .known .real →
      (∀ op args, op ∉ [.unary .not, .nary .and, .nary .or] → exact.apply op args tag = none) ∧
      ∀ ops args a b, [.number a, .number b] <:+: args → exact.compare ops args tag = none := by
  refine ⟨fun a b nonzero => ?_, fun a b v => ?_, fun a b v => ?_, fun nums v => ?_, fun nums v => ?_,
    compare?_number, fun tag rounds => ⟨fun op args arithmetic => ?_, fun ops args a b near => ?_⟩⟩
  · exact ⟨_, (value?_eq_some_iff (.binary .fmod) [a, b] _ (by decide)).mpr ⟨_, if_neg nonzero, rfl⟩,
      remainder_truncate a nonzero⟩
  · refine (value?_eq_some_iff (.binary .pow) [a, b] v (by decide)).trans ?_
    simp only [arithmetic?, binary?, power?_eq_some_iff]
    grind
  · refine (value?_eq_some_iff (.binary .div) [a, b] v (by decide)).trans ?_
    simp [arithmetic?, binary?, and_assoc]
  · refine (value?_eq_some_iff (.nary .min) nums v (by decide)).trans ?_
    simp only [arithmetic?_min, List.min?_eq_some_iff]
    rfl
  · refine (value?_eq_some_iff (.nary .max) nums v (by decide)).trans ?_
    simp only [arithmetic?_max, List.max?_eq_some_iff]
    rfl
  · exact (value?_of_arithmetic arithmetic args).trans (if_neg (by simp [isExact, rounds]))
  · exact compare?_eq_none rounds near

end NumLang
