import NumLang.Proofs.Semantics

/-!
Computations that take fuel.
-/

namespace NumLang

variable {cost limit : Nat} {α β V : Type}

/-- A computation from an amount of fuel to a value and what is left of the fuel. -/
structure Fueled (α : Type) where
  run : Nat → Option (α × Nat)
  /-- It takes a certain amount, whatever else there is. -/
  spare : ∀ {n a rest}, run n = some (a, rest) → ∃ cost, n = cost + rest ∧ ∀ more, run (cost + more) = some (a, more)

namespace Fueled

def Gives (x : Fueled α) (cost : Nat) (a : α) : Prop := ∀ more, x.run (cost + more) = some (a, more)

theorem ext {x y : Fueled α} (same : ∀ n, x.run n = y.run n) : x = y := by
  obtain ⟨f, _⟩ := x
  obtain ⟨g, _⟩ := y
  cases (funext same : f = g)
  rfl

instance : Monad Fueled where
  pure a := ⟨fun n => some (a, n), by
    rintro n b rest ⟨⟩
    exact ⟨0, (Nat.zero_add n).symm, fun more => by rw [Nat.zero_add]⟩⟩
  bind x k := ⟨fun n => (x.run n).bind fun (a, rest) => (k a).run rest, by
    intro n b rest result
    obtain ⟨⟨a, middle⟩, first, second⟩ := bind_eq_some_iff.mp result
    obtain ⟨cost, rfl, ran⟩ := x.spare first
    obtain ⟨cost', rfl, ran'⟩ := (k a).spare second
    refine ⟨cost + cost', (Nat.add_assoc _ _ _).symm, fun more => ?_⟩
    rw [Nat.add_assoc, ran]
    exact ran' more⟩

instance : LawfulMonad Fueled := LawfulMonad.mk' Fueled
  (fun x => ext fun n => by
    change (x.run n).bind _ = x.run n
    cases x.run n <;> rfl)
  (fun _ _ => ext fun _ => rfl)
  (fun x f g => ext fun n => by
    change ((x.run n).bind _).bind _ = (x.run n).bind _
    cases x.run n <;> rfl)

def demand (x : Option α) : Fueled α where
  run n := x.map (·, n)
  spare := by
    intro n a rest result
    obtain ⟨_, rfl, same⟩ := map_eq_some_iff.mp result
    cases same
    exact ⟨0, (Nat.zero_add n).symm, fun more => by rw [Nat.zero_add]; rfl⟩

def spend : Fueled Unit where
  run
    | 0 => none
    | n + 1 => some ((), n)
  spare := by
    intro n a rest result
    cases n with
    | zero => nomatch result
    | succ n =>
      cases result
      exact ⟨1, Nat.add_comm _ 1, fun more => by rw [Nat.add_comm]⟩

section Gives

variable {x : Fueled α} {k : α → Fueled β} {a : α} {b : β}

theorem gives_of_run (ran : x.run n = some (a, rest)) : ∃ cost, n = cost + rest ∧ x.Gives cost a :=
  x.spare ran

theorem gives_pure : (pure a : Fueled α).Gives cost a' ↔ cost = 0 ∧ a' = a := by
  constructor
  · intro given
    obtain ⟨rfl, none⟩ := Prod.mk.inj (Option.some.inj (given 0))
    exact ⟨none, rfl⟩
  · rintro ⟨rfl, rfl⟩ more
    rw [Nat.zero_add]
    rfl

theorem gives_demand {x : Option α} : (demand x).Gives cost a ↔ cost = 0 ∧ x = some a := by
  constructor
  · intro given
    obtain ⟨_, found, same⟩ := map_eq_some_iff.mp (given 0)
    obtain ⟨rfl, none⟩ := Prod.mk.inj same
    exact ⟨none, found⟩
  · rintro ⟨rfl, rfl⟩ more
    rw [Nat.zero_add]
    rfl

theorem gives_spend : spend.Gives cost () ↔ cost = 1 := by
  constructor
  · intro given
    have one := given 0
    cases cost with
    | zero => cases one
    | succ n =>
      cases one
      rfl
  · rintro rfl more
    rw [Nat.add_comm]
    rfl

theorem gives_bind : (x >>= k).Gives cost b ↔
    ∃ first rest a, cost = first + rest ∧ x.Gives first a ∧ (k a).Gives rest b := by
  constructor
  · intro given
    obtain ⟨⟨a, middle⟩, head, tail⟩ := bind_eq_some_iff.mp (given 0)
    obtain ⟨first, whole, head⟩ := x.spare head
    obtain ⟨rest, last, tail⟩ := (k a).spare tail
    exact ⟨first, rest, a, by omega, head, tail⟩
  · rintro ⟨first, rest, a, rfl, head, tail⟩ more
    refine bind_eq_some_iff.mpr ⟨(a, rest + more), ?_, tail more⟩
    rw [Nat.add_assoc]
    exact head (rest + more)

end Gives

end Fueled

/-- How statements end. -/
inductive Ending (V : Type) where
  | next (σ : Store V)
  | ret (v : V)

namespace Fueled

def follow (x : Fueled (Ending V)) (k : Store V → Fueled (Ending V)) : Fueled (Ending V) := do
  match ← x with
  | .next σ => k σ
  | .ret v => return .ret v

def forEach (body : V → Store V → Fueled (Ending V)) : List V → Store V → Fueled (Ending V)
  | [], σ => return .next σ
  | v :: rest, σ => (body v σ).follow (forEach body rest)

section Loops

variable (test : Store V → Fueled Bool) (body : Store V → Fueled (Ending V))

def rounds : Nat → Store V → Fueled (Ending V)
  | limit, σ => do
    if ← test σ then
      match limit with
      | 0 => demand none
      | limit + 1 => do
        spend
        (body σ).follow (rounds limit)
    else return .next σ

variable {test body}

theorem gives_follow {x : Fueled (Ending V)} :
    (x.follow k).Gives cost r ↔ (∃ first rest σ, cost = first + rest ∧ x.Gives first (.next σ) ∧ (k σ).Gives rest r) ∨ ∃
    v, r = .ret v ∧ x.Gives cost (.ret v) := by
  rw [follow, gives_bind]
  constructor
  · rintro ⟨first, rest, σ | v, rfl, head, tail⟩
    · exact .inl ⟨first, rest, σ, rfl, head, tail⟩
    · obtain ⟨rfl, rfl⟩ := gives_pure.mp tail
      exact .inr ⟨v, rfl, head⟩
  · rintro (⟨first, rest, σ, rfl, head, tail⟩ | ⟨v, rfl, head⟩)
    · exact ⟨first, rest, .next σ, rfl, head, tail⟩
    · exact ⟨cost, 0, .ret v, rfl, head, gives_pure.mpr ⟨rfl, rfl⟩⟩

/-- How a loop goes: it stops, or it takes a round and then returns or goes on. -/
inductive Loops (test : Store V → Fueled Bool) (body : Store V → Fueled (Ending V)) :
    Store V → Nat → Ending V → Prop where
  | stop {σ cost} (fails : (test σ).Gives cost false) : Loops test body σ cost (.next σ)
  | leave {σ cost taken v} (holds : (test σ).Gives cost true) (round : (body σ).Gives taken (.ret v)) :
    Loops test body σ (cost + (1 + taken)) (.ret v)
  | again {σ σ' cost taken later r} (holds : (test σ).Gives cost true) (round : (body σ).Gives taken (.next σ'))
    (rest : Loops test body σ' later r) : Loops test body σ (cost + (1 + (taken + later))) r

theorem loops_of_rounds (given : (rounds test body limit σ).Gives cost r) : Loops test body σ cost r := by
  induction limit generalizing σ cost with
  | zero =>
    unfold rounds at given
    obtain ⟨first, rest, holds, rfl, tested, given⟩ := gives_bind.mp given
    cases holds with
    | true => nomatch (gives_demand.mp given).2
    | false =>
      obtain ⟨rfl, rfl⟩ := gives_pure.mp given
      exact .stop tested
  | succ limit ih =>
    unfold rounds at given
    obtain ⟨first, rest, holds, rfl, tested, given⟩ := gives_bind.mp given
    cases holds with
    | true =>
      obtain ⟨one, left, _, rfl, spent, gone⟩ := gives_bind.mp given
      obtain rfl := gives_spend.mp spent
      rcases gives_follow.mp gone with ⟨taken, later, σ', rfl, round, others⟩ | ⟨v, rfl, round⟩
      · exact .again tested round (ih others)
      · exact .leave tested round
    | false =>
      obtain ⟨rfl, rfl⟩ := gives_pure.mp given
      exact .stop tested

theorem Loops.rounds (loops : Loops test body σ cost r) (enough : cost ≤ limit) :
    (rounds test body limit σ).Gives cost r := by
  induction loops generalizing limit with
  | stop fails =>
    unfold Fueled.rounds
    exact gives_bind.mpr ⟨_, 0, false, rfl, fails, gives_pure.mpr ⟨rfl, rfl⟩⟩
  | leave holds round =>
    obtain ⟨limit, rfl⟩ : ∃ fewer, limit = fewer + 1 := ⟨limit - 1, by omega⟩
    unfold Fueled.rounds
    refine gives_bind.mpr ⟨_, _, true, rfl, holds, gives_bind.mpr ⟨1, _, (), rfl, gives_spend.mpr rfl, ?_⟩⟩
    exact gives_follow.mpr (.inr ⟨_, rfl, round⟩)
  | again holds round _ ih =>
    obtain ⟨limit, rfl⟩ : ∃ fewer, limit = fewer + 1 := ⟨limit - 1, by omega⟩
    unfold Fueled.rounds
    refine gives_bind.mpr ⟨_, _, true, rfl, holds, gives_bind.mpr ⟨1, _, (), rfl, gives_spend.mpr rfl, ?_⟩⟩
    exact gives_follow.mpr (.inl ⟨_, _, _, rfl, round, ih (by omega)⟩)

end Loops

/-- Carries out a body as long as a test holds. As each round takes fuel, its amount at the start bounds the number
of rounds. -/
def repeatWhile (test : Store V → Fueled Bool) (body : Store V → Fueled (Ending V)) (σ : Store V) :
    Fueled (Ending V) where
  run n := (rounds test body n σ).run n
  spare := by
    intro n r rest ran
    obtain ⟨cost, rfl, given⟩ := gives_of_run ran
    exact ⟨cost, rfl, fun more => (loops_of_rounds given).rounds (Nat.le_add_right cost more) more⟩

theorem gives_repeatWhile : (repeatWhile test body σ).Gives cost r ↔ Loops test body σ cost r := by
  constructor
  · intro given
    have ran : (rounds test body cost σ).run cost = some (r, 0) := given 0
    obtain ⟨cost', rfl, once⟩ := gives_of_run ran
    exact loops_of_rounds once
  · exact fun loops more => loops.rounds (Nat.le_add_right cost more) more

def Couples (Q : α → β → Prop) (x : Fueled α) (y : Fueled β) : Prop :=
  ∀ cost a, x.Gives cost a → ∃ b, y.Gives cost b ∧ Q a b

section Couples

variable {γ δ : Type} {Q : α → β → Prop} {P : γ → δ → Prop} {x : Fueled α} {y : Fueled β}

theorem couples_pure (holds : Q a b) : Couples Q (pure a) (pure b) := by
  intro cost a' given
  obtain ⟨rfl, rfl⟩ := gives_pure.mp given
  exact ⟨b, gives_pure.mpr ⟨rfl, rfl⟩, holds⟩

theorem couples_demand {x : Option α} {y : Option β} (same : ∀ a, x = some a → ∃ b, y = some b ∧ Q a b) :
    Couples Q (demand x) (demand y) := by
  intro cost a given
  obtain ⟨rfl, found⟩ := gives_demand.mp given
  obtain ⟨b, found', holds⟩ := same a found
  exact ⟨b, gives_demand.mpr ⟨rfl, found'⟩, holds⟩

theorem couples_stuck : Couples Q (demand none) y := fun _ _ given => nomatch (gives_demand.mp given).2

theorem couples_refl (x : Fueled α) : Couples Eq x x := fun _ a given => ⟨a, given, rfl⟩

theorem Couples.bind (first : Couples Q x y) (rest : ∀ a b, Q a b → Couples P (k a) (l b)) :
    Couples P (x >>= k) (y >>= l) := by
  intro cost c given
  obtain ⟨taken, left, a, rfl, head, tail⟩ := gives_bind.mp given
  obtain ⟨b, head', holds⟩ := first taken a head
  obtain ⟨d, tail', ends⟩ := rest a b holds left c tail
  exact ⟨d, gives_bind.mpr ⟨taken, left, b, rfl, head', tail'⟩, ends⟩

theorem Couples.with {y : Fueled α} (first : Couples Eq x y) (rest : ∀ a, Couples P (k a) (l a)) :
    Couples P (x >>= k) (y >>= l) :=
  first.bind fun a _ same => same ▸ rest a

end Couples

end Fueled

def Ending.Rel (R : Store V → Store V → Prop) : Ending V → Ending V → Prop
  | .next σ, .next τ => R σ τ
  | .ret v, .ret w => v = w
  | _, _ => False

namespace Fueled

variable {R S : Store V → Store V → Prop}

theorem Couples.follow {x y : Fueled (Ending V)} (first : Couples (Ending.Rel R) x y)
    (rest : ∀ σ τ, R σ τ → Couples (Ending.Rel S) (k σ) (l τ)) : Couples (Ending.Rel S) (x.follow k) (y.follow l) := by
  refine first.bind fun a b holds => ?_
  match a, b, holds with
  | .next σ, .next τ, holds => exact rest σ τ holds
  | .ret v, .ret w, same => exact couples_pure same

theorem couples_forEach (round : ∀ v σ τ, R σ τ → Couples (Ending.Rel R) (body v σ) (body' v τ)) (vs : List V)
    (start : R σ τ) : Couples (Ending.Rel R) (forEach body vs σ) (forEach body' vs τ) := by
  induction vs generalizing σ τ with
  | nil => exact couples_pure start
  | cons v rest ih => exact (round v σ τ start).follow fun σ τ holds => ih holds

theorem couples_repeatWhile (tests : ∀ σ τ, R σ τ → Couples Eq (test σ) (test' τ))
    (round : ∀ σ τ, R σ τ → Couples (Ending.Rel R) (body σ) (body' τ)) (start : R σ τ) :
    Couples (Ending.Rel R) (repeatWhile test body σ) (repeatWhile test' body' τ) := by
  intro cost r given
  simp only [gives_repeatWhile] at given ⊢
  induction given generalizing τ with
  | stop fails =>
    obtain ⟨_, fails', rfl⟩ := tests _ τ start _ _ fails
    exact ⟨.next τ, .stop fails', start⟩
  | leave holds taken =>
    obtain ⟨_, holds', rfl⟩ := tests _ τ start _ _ holds
    obtain ⟨r, taken', ends⟩ := round _ τ start _ _ taken
    match r, ends with
    | .ret w, same => exact ⟨.ret w, .leave holds' taken', same⟩
  | again holds taken _ ih =>
    obtain ⟨_, holds', rfl⟩ := tests _ τ start _ _ holds
    obtain ⟨r, taken', ends⟩ := round _ τ start _ _ taken
    match r, ends with
    | .next τ', holds =>
      obtain ⟨r', rest, ends⟩ := ih holds
      exact ⟨r', .again holds' taken' rest, ends⟩

end Fueled

end NumLang
