/-!
Finite sets of an ordered type, kept as strictly increasing lists.
-/

namespace NumLang

/-- A finite set of an ordered type, listed in increasing order. -/
structure OrdSet (α : Type) [Ord α] where
  toList : List α
  increasing : toList.Pairwise (fun a b => compare a b = .lt)
deriving DecidableEq

namespace OrdSet

variable {α β : Type} [Ord α] [Ord β]

def insertList (a : α) : List α → List α
  | [] => [a]
  | b :: rest =>
    match compare a b with
    | .lt => a :: b :: rest
    | .eq => b :: rest
    | .gt => b :: insertList a rest

theorem forall_insertList {p : α → Prop} {a : α} {l : List α} (head : p a) (rest : ∀ b ∈ l, p b) :
    ∀ b ∈ insertList a l, p b := by
  induction l with
  | nil => simpa [insertList] using head
  | cons c l ih =>
    have tail := ih fun b member => rest b (List.mem_cons_of_mem c member)
    have first := rest c List.mem_cons_self
    simp only [insertList]
    split
    · intro b member
      rcases List.mem_cons.mp member with rfl | member
      · exact head
      · exact rest b member
    · exact rest
    · intro b member
      rcases List.mem_cons.mp member with rfl | member
      · exact first
      · exact tail b member

theorem increasing_insertList [Std.TransOrd α] {a : α} {l : List α}
    (increasing : l.Pairwise (fun a b => compare a b = .lt)) :
    (insertList a l).Pairwise (fun a b => compare a b = .lt) := by
  induction l with
  | nil => simp [insertList]
  | cons c l ih =>
    obtain ⟨below, tail⟩ := List.pairwise_cons.mp increasing
    simp only [insertList]
    split
    · rename_i less
      refine List.pairwise_cons.mpr ⟨?_, increasing⟩
      intro b member
      rcases List.mem_cons.mp member with rfl | member
      · exact less
      · exact Std.TransCmp.lt_trans less (below b member)
    · exact increasing
    · rename_i greater
      exact List.pairwise_cons.mpr
        ⟨forall_insertList (Std.OrientedCmp.lt_of_gt greater) below, ih tail⟩

def empty : OrdSet α := ⟨[], .nil⟩

instance : EmptyCollection (OrdSet α) := ⟨empty⟩
instance : Inhabited (OrdSet α) := ⟨empty⟩
instance : Membership α (OrdSet α) := ⟨fun s a => a ∈ s.toList⟩

instance [DecidableEq α] (a : α) (s : OrdSet α) : Decidable (a ∈ s) :=
  inferInstanceAs (Decidable (a ∈ s.toList))

def isEmpty (s : OrdSet α) : Bool := s.toList.isEmpty
def size (s : OrdSet α) : Nat := s.toList.length

def filter (p : α → Bool) (s : OrdSet α) : OrdSet α := ⟨s.toList.filter p, s.increasing.filter p⟩

def inter [DecidableEq α] (s t : OrdSet α) : OrdSet α := s.filter (fun a => a ∈ t)
def diff [DecidableEq α] (s t : OrdSet α) : OrdSet α := s.filter (fun a => a ∉ t)

instance [DecidableEq α] : Inter (OrdSet α) := ⟨inter⟩
instance [DecidableEq α] : SDiff (OrdSet α) := ⟨diff⟩

theorem mem_def {a : α} {s : OrdSet α} : a ∈ s ↔ a ∈ s.toList := Iff.rfl

@[simp] theorem not_mem_empty (a : α) : a ∉ (∅ : OrdSet α) := nofun

@[simp] theorem mem_filter {p : α → Bool} {s : OrdSet α} {a : α} : a ∈ s.filter p ↔ a ∈ s ∧ p a = true :=
  List.mem_filter

@[simp] theorem mem_inter [DecidableEq α] {s t : OrdSet α} {a : α} : a ∈ s ∩ t ↔ a ∈ s ∧ a ∈ t := by
  show a ∈ s.filter (fun a => a ∈ t) ↔ _
  simp

@[simp] theorem mem_diff [DecidableEq α] {s t : OrdSet α} {a : α} : a ∈ s \ t ↔ a ∈ s ∧ a ∉ t := by
  show a ∈ s.filter (fun a => a ∉ t) ↔ _
  simp

theorem mem_insertList [Std.LawfulEqOrd α] {a b : α} {l : List α} : b ∈ insertList a l ↔ b = a ∨ b ∈ l := by
  induction l with
  | nil => simp [insertList]
  | cons c l ih =>
    simp only [insertList]
    split
    · simp
    · rename_i same
      have := Std.LawfulEqOrd.eq_of_compare same
      simp [this]
    · simp only [List.mem_cons, ih]
      exact or_left_comm

variable [Std.TransOrd α] [Std.TransOrd β]

def insert (a : α) (s : OrdSet α) : OrdSet α :=
  ⟨insertList a s.toList, increasing_insertList s.increasing⟩

def insertAll (l : List α) (s : OrdSet α) : OrdSet α := l.foldl (fun set a => set.insert a) s

def ofList (l : List α) : OrdSet α := insertAll l ∅
def singleton (a : α) : OrdSet α := insert a ∅
def union (s t : OrdSet α) : OrdSet α := insertAll t.toList s

instance : Union (OrdSet α) := ⟨union⟩

def map (f : α → β) (s : OrdSet α) : OrdSet β := ofList (s.toList.map f)

variable [Std.LawfulEqOrd α] [Std.LawfulEqOrd β]

@[simp] theorem mem_insert {a b : α} {s : OrdSet α} : b ∈ s.insert a ↔ b = a ∨ b ∈ s := mem_insertList

@[simp] theorem mem_insertAll {l : List α} {s : OrdSet α} {a : α} : a ∈ insertAll l s ↔ a ∈ l ∨ a ∈ s := by
  induction l generalizing s with
  | nil => simp [insertAll]
  | cons c l ih =>
    have step : insertAll (c :: l) s = insertAll l (s.insert c) := rfl
    rw [step, ih]
    simp only [mem_insert, List.mem_cons]
    exact ⟨fun h => by rcases h with h | h | h <;> simp [h], fun h => by rcases h with (h | h) | h <;> simp [h]⟩

@[simp] theorem mem_ofList {l : List α} {a : α} : a ∈ ofList l ↔ a ∈ l := by simp [ofList]

@[simp] theorem mem_singleton {a b : α} : b ∈ singleton a ↔ b = a := by simp [singleton]

@[simp] theorem mem_union {s t : OrdSet α} {a : α} : a ∈ s ∪ t ↔ a ∈ s ∨ a ∈ t := by
  show a ∈ insertAll t.toList s ↔ _
  rw [mem_insertAll]
  exact or_comm

omit [Std.TransOrd α] [Std.LawfulEqOrd α] in
@[simp] theorem mem_map {f : α → β} {s : OrdSet α} {b : β} : b ∈ s.map f ↔ ∃ a ∈ s, f a = b := by
  rw [map, mem_ofList, List.mem_map]
  exact Iff.rfl

theorem ext {s t : OrdSet α} (same : ∀ a, a ∈ s ↔ a ∈ t) : s = t := by
  obtain ⟨l, hl⟩ := s
  obtain ⟨m, hm⟩ := t
  have lists : l = m := by
    induction l generalizing m with
    | nil =>
      cases m with
      | nil => rfl
      | cons b m => exact nomatch (same b).mpr List.mem_cons_self
    | cons a l ih =>
      obtain ⟨belowA, tailA⟩ := List.pairwise_cons.mp hl
      cases m with
      | nil => exact nomatch (same a).mp List.mem_cons_self
      | cons b m =>
        obtain ⟨belowB, tailB⟩ := List.pairwise_cons.mp hm
        have heads : a = b := by
          rcases List.mem_cons.mp ((same a).mp List.mem_cons_self) with eq | member
          · exact eq
          rcases List.mem_cons.mp ((same b).mpr List.mem_cons_self) with eq | other
          · exact eq.symm
          have := Std.TransCmp.lt_trans (belowB a member) (belowA b other)
          simp [Std.ReflCmp.compare_self] at this
        subst heads
        refine congrArg (a :: ·) (ih tailA m tailB fun c => ?_)
        have noSelf : ∀ c, compare a c = .lt → c ≠ a := by
          rintro c less rfl
          simp [Std.ReflCmp.compare_self] at less
        constructor
        · intro member
          rcases List.mem_cons.mp ((same c).mp (List.mem_cons_of_mem a member)) with eq | found
          · exact absurd eq (noSelf c (belowA c member))
          · exact found
        · intro member
          rcases List.mem_cons.mp ((same c).mpr (List.mem_cons_of_mem a member)) with eq | found
          · exact absurd eq (noSelf c (belowB c member))
          · exact found
  subst lists
  rfl

end OrdSet

end NumLang
