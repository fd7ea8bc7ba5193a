import NumLang.Ordered.Set

/-!
Finite maps from an ordered type, kept as association lists with strictly increasing keys.
-/

namespace NumLang

/-- A finite map, listed in increasing order of keys. -/
structure OrdMap (κ α : Type) [Ord κ] where
  entries : List (κ × α)
  increasing : entries.Pairwise (fun a b => compare a.1 b.1 = .lt)
deriving DecidableEq

namespace OrdMap

variable {κ α β : Type} [Ord κ]

def insertEntry (key : κ) (value : α) : List (κ × α) → List (κ × α)
  | [] => [(key, value)]
  | entry :: rest =>
    match compare key entry.1 with
    | .lt => (key, value) :: entry :: rest
    | .eq => (key, value) :: rest
    | .gt => entry :: insertEntry key value rest

theorem forall_insertEntry {p : κ → Prop} {key : κ} {value : α} {l : List (κ × α)} (head : p key)
    (rest : ∀ b ∈ l, p b.1) : ∀ b ∈ insertEntry key value l, p b.1 := by
  induction l with
  | nil => simpa [insertEntry] using head
  | cons c l ih =>
    have first := rest c List.mem_cons_self
    have others := fun b member => rest b (List.mem_cons_of_mem c member)
    simp only [insertEntry]
    split
    · intro b member
      rcases List.mem_cons.mp member with rfl | member
      · exact head
      · exact rest b member
    · intro b member
      rcases List.mem_cons.mp member with rfl | member
      · exact head
      · exact others b member
    · intro b member
      rcases List.mem_cons.mp member with rfl | member
      · exact first
      · exact ih others b member

theorem increasing_insertEntry [Std.TransOrd κ] {key : κ} {value : α} {l : List (κ × α)}
    (increasing : l.Pairwise (fun a b => compare a.1 b.1 = .lt)) :
    (insertEntry key value l).Pairwise (fun a b => compare a.1 b.1 = .lt) := by
  induction l with
  | nil => simp [insertEntry]
  | cons c l ih =>
    obtain ⟨below, tail⟩ := List.pairwise_cons.mp increasing
    simp only [insertEntry]
    split
    · rename_i less
      refine List.pairwise_cons.mpr ⟨?_, increasing⟩
      intro b member
      rcases List.mem_cons.mp member with rfl | member
      · exact less
      · exact Std.TransCmp.lt_trans less (below b member)
    · rename_i same
      exact List.pairwise_cons.mpr
        ⟨fun b member => Std.TransCmp.lt_of_eq_of_lt same (below b member), tail⟩
    · rename_i greater
      exact List.pairwise_cons.mpr
        ⟨forall_insertEntry (p := fun k => compare c.1 k = .lt) (Std.OrientedCmp.lt_of_gt greater) below,
          ih tail⟩

def empty : OrdMap κ α := ⟨[], .nil⟩

instance : EmptyCollection (OrdMap κ α) := ⟨empty⟩
instance : Inhabited (OrdMap κ α) := ⟨empty⟩

def isEmpty (m : OrdMap κ α) : Bool := m.entries.isEmpty
def size (m : OrdMap κ α) : Nat := m.entries.length
def values (m : OrdMap κ α) : List α := m.entries.map Prod.snd

def get? [DecidableEq κ] (m : OrdMap κ α) (key : κ) : Option α := m.entries.lookup key
def contains [DecidableEq κ] (m : OrdMap κ α) (key : κ) : Bool := (m.get? key).isSome

def keys (m : OrdMap κ α) : OrdSet κ := ⟨m.entries.map Prod.fst, List.pairwise_map.mpr m.increasing⟩

def filter (p : κ → α → Bool) (m : OrdMap κ α) : OrdMap κ α :=
  ⟨m.entries.filter (fun entry => p entry.1 entry.2), m.increasing.filter _⟩

def mapValues (f : κ → α → β) (m : OrdMap κ α) : OrdMap κ β :=
  ⟨m.entries.map (fun entry => (entry.1, f entry.1 entry.2)), List.pairwise_map.mpr m.increasing⟩

def filterMap (f : κ → α → Option β) (m : OrdMap κ α) : OrdMap κ β where
  entries := m.entries.filterMap fun entry => (f entry.1 entry.2).map (entry.1, ·)
  increasing := by
    refine List.pairwise_filterMap.mpr (m.increasing.imp ?_)
    intro a b less x hx y hy
    obtain ⟨_, _, rfl⟩ := Option.map_eq_some_iff.mp hx
    obtain ⟨_, _, rfl⟩ := Option.map_eq_some_iff.mp hy
    exact less

def erase [DecidableEq κ] (key : κ) (m : OrdMap κ α) : OrdMap κ α := m.filter (fun k _ => k ≠ key)

variable [Std.TransOrd κ]

def insert (key : κ) (value : α) (m : OrdMap κ α) : OrdMap κ α :=
  ⟨insertEntry key value m.entries, increasing_insertEntry m.increasing⟩

def insertAll (l : List (κ × α)) (m : OrdMap κ α) : OrdMap κ α :=
  l.foldl (fun map entry => map.insert entry.1 entry.2) m

def ofList (l : List (κ × α)) : OrdMap κ α := insertAll l ∅

def modify [DecidableEq κ] (key : κ) (f : Option α → α) (m : OrdMap κ α) : OrdMap κ α :=
  m.insert key (f (m.get? key))

omit [Std.TransOrd κ] in
@[simp] theorem get?_empty [DecidableEq κ] (key : κ) : (∅ : OrdMap κ α).get? key = none := rfl

omit [Ord κ] [Std.TransOrd κ] in
theorem lookup_cons_eq_ite [DecidableEq κ] (entry : κ × α) (l : List (κ × α)) (key : κ) :
    (entry :: l).lookup key = if key = entry.1 then some entry.2 else l.lookup key := by
  obtain ⟨name, value⟩ := entry
  by_cases same : key = name
  · simp [same]
  · have : (key == name) = false := by simpa using same
    simp [List.lookup_cons, same, this]

omit [Std.TransOrd κ] in
theorem lookup_insertEntry [DecidableEq κ] [Std.LawfulEqOrd κ] (key other : κ) (value : α)
    (l : List (κ × α)) :
    (insertEntry key value l).lookup other = if other = key then some value else l.lookup other := by
  induction l with
  | nil => simp [insertEntry, lookup_cons_eq_ite]
  | cons c l ih =>
    simp only [insertEntry]
    split
    · rw [lookup_cons_eq_ite]
    · rename_i eq
      rw [lookup_cons_eq_ite, lookup_cons_eq_ite, ← Std.LawfulEqOrd.eq_of_compare eq]
      split <;> rfl
    · rename_i greater
      have differ : key ≠ c.1 := by
        rintro rfl
        simp [Std.ReflCmp.compare_self] at greater
      rw [lookup_cons_eq_ite, lookup_cons_eq_ite, ih]
      by_cases same : other = key
      · simp [same, differ]
      · simp [same]

@[simp] theorem get?_insert [DecidableEq κ] [Std.LawfulEqOrd κ] (m : OrdMap κ α) (key other : κ)
    (value : α) : (m.insert key value).get? other = if other = key then some value else m.get? other :=
  lookup_insertEntry key other value m.entries

end OrdMap

end NumLang
