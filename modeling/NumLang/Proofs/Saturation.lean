import Mathlib.Data.List.Perm.Subperm
import Mathlib.Logic.Relation
import NumLang.Flow.Closure
import NumLang.Proofs.Ordered

/-!
The closure of a step relation between definitions is all that steps lead to.
-/

open Relation (ReflTransGen)

namespace NumLang

variable {e : DefId}

namespace OrdSet

variable {s t : OrdSet DefId}

theorem size_le_of_bounded (bounded : ∀ d ∈ s, d ≤ bound) : s.size ≤ bound + 1 := by
  have inside : s.toList ⊆ List.range (bound + 1) := by
    intro d mem
    exact List.mem_range.mpr (Nat.lt_succ_of_le (bounded d mem))
  simpa [size] using (List.subperm_of_subset s.nodup_toList inside).length_le

theorem size_le_of_subset (subset : ∀ d ∈ s, d ∈ t) : s.size ≤ t.size :=
  (List.subperm_of_subset s.nodup_toList subset).length_le

theorem mem_of_size_le (subset : ∀ d ∈ s, d ∈ t) (small : t.size ≤ s.size) (mem : d ∈ t) : d ∈ s := by
  have part : s.toList.Subperm t.toList := List.subperm_of_subset s.nodup_toList subset
  exact (part.perm_of_length_le small).mem_iff.mpr mem

end OrdSet

variable {next : DefId → List DefId}

def grow (next : DefId → List DefId) (seen : OrdSet DefId) : OrdSet DefId :=
  OrdSet.insertAll (seen.toList.flatMap next) seen

variable {d : DefId} {seen : OrdSet DefId} {bound rounds : Nat}

theorem mem_grow_of_mem (mem : d ∈ seen) : d ∈ grow next seen :=
  OrdSet.mem_insertAll.mpr (.inr mem)

theorem mem_grow_of_step (mem : d ∈ seen) (step : e ∈ next d) : e ∈ grow next seen :=
  OrdSet.mem_insertAll.mpr (.inl (List.mem_flatMap.mpr ⟨d, mem, step⟩))

theorem grow_bounded (inside : ∀ d, ∀ e ∈ next d, e ≤ bound) (bounded : ∀ d ∈ seen, d ≤ bound) :
    ∀ d ∈ grow next seen, d ≤ bound := by
  intro d mem
  rcases OrdSet.mem_insertAll.mp mem with step | earlier
  · obtain ⟨e, _, step⟩ := List.mem_flatMap.mp step
    exact inside e d step
  · exact bounded d earlier

theorem closed_of_size_le (small : (grow next seen).size ≤ seen.size) (mem : d ∈ seen) : ∀ e ∈ next d, e ∈ seen := by
  intro e step
  exact OrdSet.mem_of_size_le (fun _ => mem_grow_of_mem) small (mem_grow_of_step mem step)

theorem saturate_succ (rounds : Nat) (seen : OrdSet DefId) :
    saturate next (rounds + 1) seen =
      if (grow next seen).size = seen.size then seen else saturate next rounds (grow next seen) := rfl

theorem mem_saturate_of_mem (mem : d ∈ seen) : d ∈ saturate next rounds seen := by
  induction rounds generalizing seen with
  | zero => exact mem
  | succ rounds ih =>
    rw [saturate_succ]
    split
    · exact mem
    · exact ih (mem_grow_of_mem mem)

theorem reached_of_mem_saturate (mem : d ∈ saturate next rounds seen) :
    ∃ start ∈ seen, ReflTransGen (fun d e => e ∈ next d) start d := by
  induction rounds generalizing seen with
  | zero => exact ⟨d, mem, .refl⟩
  | succ rounds ih =>
    rw [saturate_succ] at mem
    split at mem
    · exact ⟨d, mem, .refl⟩
    · obtain ⟨e, found, reached⟩ := ih mem
      rcases OrdSet.mem_insertAll.mp found with step | earlier
      · obtain ⟨start, listed, step⟩ := List.mem_flatMap.mp step
        exact ⟨start, listed, .head step reached⟩
      · exact ⟨e, earlier, reached⟩

theorem saturate_closed (inside : ∀ d, ∀ e ∈ next d, e ≤ bound) (bounded : ∀ d ∈ seen, d ≤ bound)
    (enough : bound + 1 ≤ rounds + seen.size) (mem : d ∈ saturate next rounds seen) :
    ∀ e ∈ next d, e ∈ saturate next rounds seen := by
  have limit := OrdSet.size_le_of_bounded (grow_bounded inside bounded)
  induction rounds generalizing seen with
  | zero =>
    have small : (grow next seen).size ≤ seen.size := by omega
    exact closed_of_size_le small mem
  | succ rounds ih =>
    rw [saturate_succ] at mem ⊢
    by_cases still : (grow next seen).size = seen.size
    · rw [if_pos still] at mem ⊢
      exact closed_of_size_le (Nat.le_of_eq still) mem
    · rw [if_neg still] at mem ⊢
      have larger : seen.size ≤ (grow next seen).size := OrdSet.size_le_of_subset fun _ => mem_grow_of_mem
      have bounded := grow_bounded inside bounded
      exact ih bounded (by omega) mem (OrdSet.size_le_of_bounded (grow_bounded inside bounded))

namespace Reaching

variable {r : Reaching} {start : List DefId}

theorem mem_closure_of_mem (mem : d ∈ start) : d ∈ r.closure next start :=
  mem_saturate_of_mem (OrdSet.mem_ofList.mpr mem)

theorem closure_closed (inside : ∀ d, ∀ e ∈ next d, e ≤ r.size) (bounded : ∀ d ∈ start, d ≤ r.size) (mem : d ∈ r.closure next start) : ∀ e ∈ next d, e ∈ r.closure next start := by
  cases start with
  | nil =>
    have stays : ∀ rounds, saturate next rounds ∅ = ∅ := by
      intro rounds
      cases rounds with
      | zero => rfl
      | succ rounds =>
        rw [saturate_succ]
        exact if_pos rfl
    rw [closure, OrdSet.ofList, OrdSet.insertAll, List.foldl_nil, stays] at mem
    cases mem
  | cons first rest =>
    refine saturate_closed inside (fun e listed => bounded e (OrdSet.mem_ofList.mp listed)) ?_ mem
    have nonempty : 0 < (OrdSet.ofList (first :: rest)).size :=
      List.length_pos_of_mem (OrdSet.mem_ofList.mpr List.mem_cons_self)
    rw [List.length_cons]
    omega

theorem mem_closure_iff (inside : ∀ d, ∀ e ∈ next d, e ≤ r.size) (bounded : d ≤ r.size) :
    e ∈ r.closure next [d] ↔ ReflTransGen (fun d e => e ∈ next d) d e := by
  constructor
  · intro mem
    obtain ⟨start, listed, reached⟩ := reached_of_mem_saturate mem
    cases List.mem_singleton.mp (OrdSet.mem_ofList.mp listed)
    exact reached
  · intro reached
    induction reached with
    | refl => exact mem_closure_of_mem List.mem_cons_self
    | tail _ step ih => exact closure_closed inside (by simpa using bounded) ih _ step

end Reaching

end NumLang
