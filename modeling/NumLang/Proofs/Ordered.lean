import NumLang.Ordered.Map

/-!
Lookup in ordered maps.
-/

namespace NumLang

namespace OrdSet

variable {α : Type} [Ord α]

theorem nodup_toList [Std.ReflCmp (compare : α → α → Ordering)] (s : OrdSet α) : s.toList.Nodup := by
  refine s.increasing.imp ?_
  rintro a b less rfl
  simp [Std.ReflCmp.compare_self] at less

end OrdSet

namespace OrdMap

variable {κ α β : Type} [DecidableEq κ] {l : List (κ × α)} {key : κ} {value : α} {entry : κ × α}

theorem mem_of_lookup (found : l.lookup key = some value) : (key, value) ∈ l := by
  induction l with
  | nil => simp at found
  | cons entry l ih =>
    rw [lookup_cons_eq_ite] at found
    split at found
    · rename_i same
      simp only [Option.some.injEq] at found
      subst same found
      exact List.mem_cons_self
    · exact List.mem_cons_of_mem _ (ih found)

theorem lookup_of_mem (distinct : (l.map Prod.fst).Nodup) (mem : (key, value) ∈ l) : l.lookup key = some value := by
  induction l with
  | nil => simp at mem
  | cons entry l ih =>
    obtain ⟨fresh, rest⟩ := List.nodup_cons.mp distinct
    rw [lookup_cons_eq_ite]
    rcases List.mem_cons.mp mem with rfl | mem
    · simp
    · have differ : key ≠ entry.1 := by
        rintro rfl
        exact fresh (List.mem_map.mpr ⟨_, mem, rfl⟩)
      simp [differ, ih rest mem]

theorem lookup_map (f : κ → α → β) (l : List (κ × α)) (key : κ) :
    (l.map fun entry => (entry.1, f entry.1 entry.2)).lookup key = (l.lookup key).map (f key) := by
  induction l with
  | nil => simp
  | cons entry l ih =>
    rw [List.map_cons, lookup_cons_eq_ite, lookup_cons_eq_ite, ih]
    by_cases same : key = entry.1 <;> simp [same]

variable [Ord κ]

@[simp] theorem get?_mapValues (f : κ → α → β) (m : OrdMap κ α) (key : κ) :
    (m.mapValues f).get? key = (m.get? key).map (f key) :=
  lookup_map f m.entries key

theorem contains_mapValues (f : κ → α → β) (m : OrdMap κ α) (key : κ) :
    (m.mapValues f).contains key = m.contains key := by
  simp [contains]

theorem mem_of_get? {m : OrdMap κ α} (found : m.get? key = some value) :
    (key, value) ∈ m.entries :=
  mem_of_lookup found

variable [Std.TransOrd κ]

omit [DecidableEq κ] in
theorem nodup_keys (m : OrdMap κ α) : (m.entries.map Prod.fst).Nodup :=
  m.keys.nodup_toList

variable {m : OrdMap κ α}

theorem get?_eq_some_iff : m.get? key = some value ↔ (key, value) ∈ m.entries :=
  ⟨mem_of_get?, lookup_of_mem m.nodup_keys⟩

theorem mem_keys : key ∈ m.keys ↔ m.contains key = true := by
  rw [contains, Option.isSome_iff_exists, OrdSet.mem_def]
  simp only [keys, List.mem_map, get?_eq_some_iff, Prod.exists, exists_and_right, exists_eq_right]

theorem get?_filterMap (f : κ → α → Option β) (m : OrdMap κ α) (key : κ) :
    (m.filterMap f).get? key = (m.get? key).bind (f key) := by
  apply Option.ext
  intro value
  rw [get?_eq_some_iff, Option.bind_eq_some_iff]
  simp only [filterMap, List.mem_filterMap, Option.map_eq_some_iff, Prod.mk.injEq, get?_eq_some_iff]
  constructor
  · rintro ⟨⟨k, old⟩, mem, made, kept, rfl, rfl⟩
    exact ⟨old, mem, kept⟩
  · rintro ⟨old, mem, kept⟩
    exact ⟨(key, old), mem, value, kept, rfl, rfl⟩

omit [DecidableEq κ] in
theorem mem_entries_insert (mem : entry ∈ (m.insert key value).entries) : entry = (key, value) ∨ entry ∈ m.entries := by
  obtain ⟨entries, increasing⟩ := m
  change entry ∈ insertEntry key value entries at mem
  induction entries with
  | nil => exact .inl (List.mem_singleton.mp mem)
  | cons first rest ih =>
    simp only [insertEntry] at mem
    split at mem
    · exact List.mem_cons.mp mem
    · exact (List.mem_cons.mp mem).imp_right (List.mem_cons_of_mem _)
    · rcases List.mem_cons.mp mem with rfl | later
      · exact .inr List.mem_cons_self
      · exact (ih (List.pairwise_cons.mp increasing).2 later).imp_right (List.mem_cons_of_mem _)

omit [DecidableEq κ] in
theorem mem_of_mem_ofList (mem : entry ∈ (ofList l).entries) : entry ∈ l := by
  have general : ∀ (l : List (κ × α)) (m : OrdMap κ α), entry ∈ (insertAll l m).entries →
      entry ∈ l ∨ entry ∈ m.entries := by
    intro l
    induction l with
    | nil => exact fun _ mem => .inr mem
    | cons first rest ih =>
      intro m mem
      rcases ih _ mem with later | earlier
      · exact .inl (List.mem_cons_of_mem _ later)
      · rcases mem_entries_insert earlier with rfl | earlier
        · exact .inl List.mem_cons_self
        · exact .inr earlier
  rcases general l ∅ mem with listed | none
  · exact listed
  · cases none

variable [Std.LawfulEqOrd κ]

theorem get?_insertAll_of_notMem (absent : key ∉ l.map Prod.fst) : (insertAll l m).get? key = m.get? key := by
  induction l generalizing m with
  | nil => rfl
  | cons entry l ih =>
    simp only [List.map_cons, List.mem_cons, not_or] at absent
    have step : insertAll (entry :: l) m = insertAll l (m.insert entry.1 entry.2) := rfl
    rw [step, ih absent.2, get?_insert]
    simp [absent.1]

theorem get?_insertAll_of_mem (distinct : (l.map Prod.fst).Nodup) (mem : (key, value) ∈ l) :
    (insertAll l m).get? key = some value := by
  induction l generalizing m with
  | nil => simp at mem
  | cons entry l ih =>
    obtain ⟨fresh, rest⟩ := List.nodup_cons.mp distinct
    have step : insertAll (entry :: l) m = insertAll l (m.insert entry.1 entry.2) := rfl
    rw [step]
    rcases List.mem_cons.mp mem with rfl | mem
    · rw [get?_insertAll_of_notMem fresh]
      simp
    · exact ih rest mem

theorem get?_ofList_iff (distinct : (l.map Prod.fst).Nodup) : (ofList l).get? key = some value ↔ (key, value) ∈ l := by
  constructor
  · intro found
    by_cases present : key ∈ l.map Prod.fst
    · obtain ⟨⟨k, other⟩, mem, rfl⟩ := List.mem_map.mp present
      have := get?_insertAll_of_mem (m := ∅) distinct mem
      rw [ofList, this] at found
      cases found
      exact mem
    · rw [ofList, get?_insertAll_of_notMem present] at found
      simp at found
  · exact get?_insertAll_of_mem distinct

end OrdMap

end NumLang
