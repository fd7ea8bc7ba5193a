import Mathlib.Data.List.Perm.Subperm
import NumLang.Proofs.Editing
import NumLang.Tree.Rename

/-!
Names that an edit draws.
-/

namespace NumLang

variable {base : String} {n : Name}

namespace NameSupply

theorem taken_of_firstFree {used : NameSet} (taken : (⟨base, some (firstFree used base tries k)⟩ : Name) ∈ used) :
    ∀ i ≤ tries, (⟨base, some (k + i)⟩ : Name) ∈ used := by
  induction tries generalizing k with
  | zero =>
    intro i small
    rw [Nat.le_zero.mp small]
    exact taken
  | succ tries ih =>
    rw [firstFree] at taken
    split at taken
    · rename_i here
      intro i small
      cases i with
      | zero => exact here
      | succ i =>
        have later := ih taken i (by omega)
        rwa [Nat.add_assoc, Nat.add_comm 1] at later
    · contradiction

theorem fresh_notMem (supply : NameSupply) (base : String) : (supply.fresh base).1 ∉ supply.used := by
  intro taken
  have all := taken_of_firstFree taken
  -- There would be one more name in use than there are.
  have inside : (List.range (supply.used.size + 1)).map
      (fun i => (⟨base, some ((supply.counters.get? base).getD 0 + i)⟩ : Name)) ⊆ supply.used.toList := by
    intro n mem
    obtain ⟨i, small, rfl⟩ := mem_map.mp mem
    exact all i (by have := List.mem_range.mp small; omega)
  have distinct : ((List.range (supply.used.size + 1)).map
      (fun i => (⟨base, some ((supply.counters.get? base).getD 0 + i)⟩ : Name))).Nodup := by
    refine List.nodup_range.map fun i j same => ?_
    simpa using same
  have length := (List.subperm_of_subset distinct inside).length_le
  simp only [length_map, List.length_range] at length
  exact absurd length (Nat.not_succ_le_self _)

end NameSupply

namespace Edit

variable {α β : Type} {s s' t : State}

def Nameless (x : Edit α) : Prop := ∀ s a s', Makes x s a s' → s'.names = s.names

theorem nameless_pure (a : α) : Nameless (pure a : Edit α) := by
  intro s b s' made
  rw [(makes_pure.mp made).2]

theorem Nameless.bind (first : Nameless x) (rest : ∀ a, Nameless (k a)) : Nameless (x >>= k) := by
  intro s b s' made
  obtain ⟨a, t, head, tail⟩ := makes_bind.mp made
  exact (rest a t b s' tail).trans (first s a t head)

theorem nameless_supplied (make : Supply α) : Nameless (supplied make) := by
  intro s a s' made
  cases made
  rfl

theorem makes_supplied (made : Makes (supplied make) s a s') : a = (make s.session.next).1 ∧ s'.names = s.names := by
  cases made
  exact ⟨rfl, rfl⟩

theorem nameless_node (loc : Option Loc) : Nameless (node loc) :=
  (nameless_supplied _).bind fun _ => nameless_pure _

theorem nameless_note (kind : EventKind) (site : Option NodeId) (message : String) :
    Nameless (note kind site message) := by
  intro s a s' made
  cases made
  rfl

theorem makes_node {n : Node} (made : Makes (node loc) s n s') : n.loc = loc ∧ s'.names = s.names := by
  have names := nameless_node loc s n s' made
  cases made
  exact ⟨rfl, names⟩

theorem makes_made {make : Node → α} (made : Makes (do return make (← node none)) s a s') :
    (∃ node, a = make node) ∧ s'.names = s.names := by
  obtain ⟨node, drawn, rfl⟩ := makes_bind_pure made
  exact ⟨⟨node, rfl⟩, (makes_node drawn).2⟩

theorem makes_bind_node (made : Makes (node loc >>= k) s b s') :
    ∃ n t, t.names = s.names ∧ Makes (k n) t b s' := by
  obtain ⟨n, t, drawn, made⟩ := makes_bind.mp made
  exact ⟨n, t, (makes_node drawn).2, made⟩

theorem makes_bind_made {β : Type} {make : Node → α} {k : α → Edit β} {b : β}
    (made : Makes ((do return make (← node none)) >>= k) s b s') :
    ∃ node t, t.names = s.names ∧ Makes (k (make node)) t b s' := by
  obtain ⟨_, t, drawn, made⟩ := makes_bind.mp made
  obtain ⟨⟨node, rfl⟩, names⟩ := makes_made drawn
  exact ⟨node, t, names, made⟩

theorem makes_block {b : Block} (made : Makes (block stmts) s b s') : b.stmts = stmts ∧ s'.names = s.names := by
  obtain ⟨id, drawn, rfl⟩ := makes_bind_pure made
  exact ⟨rfl, nameless_supplied _ _ _ _ drawn⟩

def Grows (s s' : State) : Prop := ∀ n ∈ s.names.used, n ∈ s'.names.used

theorem Grows.refl (s : State) : Grows s s := fun _ => id

theorem Grows.trans (first : Grows s t) (second : Grows t s') : Grows s s' :=
  fun n mem => second n (first n mem)

theorem grows_of_eq (same : s'.names = s.names) : Grows s s' := by
  intro n mem
  rwa [same]

theorem grows_reserveName (made : Makes (reserveName n) s u s') : Grows s s' := by
  cases made
  exact fun x mem => OrdSet.mem_insert.mpr (.inr mem)

theorem makes_freshName (made : Makes (freshName base) s n s') : n ∉ s.names.used ∧ n ∈ s'.names.used ∧ Grows s s' := by
  cases made
  refine ⟨s.names.fresh_notMem base, ?_, fun x mem => ?_⟩
  · exact OrdSet.mem_insert.mpr (.inl rfl)
  · exact OrdSet.mem_insert.mpr (.inr mem)

end Edit

/-- The new names in a table are in use, but none of the names that were; different names have different ones. -/
structure NameMap.Fresh (table : NameMap Name) (old : Name → Prop) (s : Edit.State) : Prop where
  drawn : ∀ n x, table.get? n = some x → ¬ old x ∧ x ∈ s.names.used
  distinct : ∀ m n x, table.get? m = some x → table.get? n = some x → m = n

namespace NameMap.Fresh

variable {table : NameMap Name} {old : Name → Prop} {s s' : Edit.State}

theorem empty (old : Name → Prop) (s : Edit.State) : Fresh ∅ old s :=
  ⟨nofun, nofun⟩

theorem mono (fresh : table.Fresh old s) (grows : Edit.Grows s s') : table.Fresh old s' :=
  ⟨fun n x found => ⟨(fresh.drawn n x found).1, grows x (fresh.drawn n x found).2⟩, fresh.distinct⟩

theorem injective (fresh : table.Fresh old s) (here : old m) (there : old n)
    (same : table.toRenaming m = table.toRenaming n) : m = n := by
  unfold NameMap.toRenaming at same
  cases left : table.get? m with
  | none =>
    cases right : table.get? n with
    | none => simpa [left, right] using same
    | some y =>
      simp only [left, right, Option.getD_none, getD_some] at same
      exact absurd (same ▸ here) (fresh.drawn n y right).1
  | some x =>
    cases right : table.get? n with
    | none =>
      simp only [left, right, Option.getD_none, getD_some] at same
      exact absurd (same ▸ there) (fresh.drawn m x left).1
    | some y =>
      simp only [left, right, getD_some] at same
      subst same
      exact fresh.distinct m n x left right

theorem insert (fresh : table.Fresh old s) (used : ∀ n, old n → n ∈ s.names.used)
    (made : Edit.Makes (Edit.freshName base) s x s') : NameMap.Fresh (table.insert n x) old s' := by
  obtain ⟨unused, taken, grows⟩ := Edit.makes_freshName made
  constructor
  · intro m y found
    rw [OrdMap.get?_insert] at found
    split at found
    · cases found
      exact ⟨fun was => unused (used x was), taken⟩
    · exact (fresh.mono grows).drawn m y found
  · intro m m' y left right
    rw [OrdMap.get?_insert] at left right
    split at left
    · rename_i here
      cases left
      split at right
      · rename_i there
        rw [here, there]
      · exact absurd (fresh.drawn m' x right).2 unused
    · split at right
      · cases right
        exact absurd (fresh.drawn m x left).2 unused
      · exact fresh.distinct m m' y left right

end NameMap.Fresh

namespace Edit

variable {s s' : State}

/-- Renaming adds new names for the given ones and leaves the others as they are. -/
theorem makes_refreshNames {table table' : NameMap Name} (fresh : table.Fresh old s)
    (used : ∀ n, old n → n ∈ s.names.used) (made : Makes (refreshNames table names) s table' s') :
    table'.Fresh old s' ∧ Grows s s' ∧ (∀ n ∈ names, ∃ x, table'.get? n = some x ∧ x ∉ s.names.used) ∧ ∀ n ∉ names,
    table'.get? n = table.get? n := by
  induction names generalizing s table with
  | nil =>
    obtain ⟨rfl, rfl⟩ := makes_pure.mp made
    exact ⟨fresh, .refl _, nofun, fun _ _ => rfl⟩
  | cons n rest ih =>
    rw [refreshNames, List.foldlM_cons] at made
    obtain ⟨longer, t, first, made⟩ := makes_bind.mp made
    obtain ⟨x, drawn, rfl⟩ := makes_bind_pure first
    obtain ⟨unused, _, grows⟩ := makes_freshName drawn
    obtain ⟨fresh, later, covered, kept⟩ := ih (fresh.insert used drawn) (fun n was => grows n (used n was)) made
    refine ⟨fresh, grows.trans later, ?_, ?_⟩
    · intro m mem
      by_cases again : m ∈ rest
      · obtain ⟨y, found, new⟩ := covered m again
        exact ⟨y, found, fun was => new (grows y was)⟩
      · rcases mem_cons.mp mem with rfl | later
        · refine ⟨x, ?_, unused⟩
          rw [kept m again, OrdMap.get?_insert, if_pos rfl]
        · exact absurd later again
    · intro m absent
      simp only [mem_cons, not_or] at absent
      rw [kept m absent.2, OrdMap.get?_insert, if_neg absent.1]

end Edit

end NumLang
