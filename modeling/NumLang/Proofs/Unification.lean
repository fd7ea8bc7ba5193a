import NumLang.Proofs.Walk
import NumLang.Typing.Unify

/-!
Unification is sound. A solution is triangular: what a variable is bound to mentions neither the variable nor any that
was bound before.
-/

namespace NumLang

namespace Ty

variable {f g : Nat → Ty} {w : Nat} {a b u : Ty}

theorem substAll_eq_map (f : Nat → Ty) (ts : List Ty) : substAll f ts = ts.map (·.subst f) := by
  induction ts with
  | nil => rfl
  | cons t rest ih => rw [substAll, ih, map_cons]

theorem length_of_substAll {as bs : List Ty} (equal : substAll f as = substAll g bs) : as.length = bs.length := by
  simpa [substAll_eq_map] using congrArg List.length equal

mutual

theorem subst_subst (f g : Nat → Ty) : (t : Ty) → (t.subst f).subst g = t.subst fun v => (f v).subst g
  | .bool | .real | .context | .var _ => rfl
  | .tuple elts => by simp only [subst, substAll_substAll f g elts]
  | .list elt => by simp only [subst, subst_subst f g elt]
  | .function params ret => by simp only [subst, substAll_substAll f g params, subst_subst f g ret]

theorem substAll_substAll (f g : Nat → Ty) : (ts : List Ty) →
    substAll g (substAll f ts) = substAll (fun v => (f v).subst g) ts
  | [] => rfl
  | t :: rest => by simp only [substAll, subst_subst f g t, substAll_substAll f g rest]

end

mutual

theorem subst_congr : (t : Ty) → (∀ v ∈ t.varList, f v = g v) → t.subst f = t.subst g
  | .bool, _ | .real, _ | .context, _ => rfl
  | .var v, same => same v mem_cons_self
  | .tuple elts, same => by simp only [subst, substAll_congr elts same]
  | .list elt, same => by simp only [subst, subst_congr elt same]
  | .function params ret, same => by
    obtain ⟨left, right⟩ := forall_mem_append.mp same
    simp only [subst, substAll_congr params left, subst_congr ret right]

theorem substAll_congr : (ts : List Ty) → (∀ v ∈ varLists ts, f v = g v) → substAll f ts = substAll g ts
  | [], _ => rfl
  | t :: rest, same => by
    obtain ⟨left, right⟩ := forall_mem_append.mp same
    simp only [substAll, subst_congr t left, substAll_congr rest right]

end

mutual

theorem subst_var : (t : Ty) → t.subst .var = t
  | .bool | .real | .context | .var _ => rfl
  | .tuple elts => by simp only [subst, substAll_var elts]
  | .list elt => by simp only [subst, subst_var elt]
  | .function params ret => by simp only [subst, substAll_var params, subst_var ret]

theorem substAll_var : (ts : List Ty) → substAll .var ts = ts
  | [] => rfl
  | t :: rest => by simp only [substAll, subst_var t, substAll_var rest]

end

mutual

theorem mem_varList_subst : (t : Ty) → (w ∈ (t.subst f).varList ↔ ∃ v ∈ t.varList, w ∈ (f v).varList)
  | .bool | .real | .context => by simp [subst, varList]
  | .var v => by simp [subst, varList]
  | .tuple elts => by simpa [subst, varList] using mem_varLists_subst elts
  | .list elt => by simpa [subst, varList] using mem_varList_subst elt
  | .function params ret => by
    simp [subst, varList, mem_varLists_subst params, mem_varList_subst ret, or_and_right, exists_or]

theorem mem_varLists_subst :
    (ts : List Ty) → (w ∈ varLists (substAll f ts) ↔ ∃ v ∈ varLists ts, w ∈ (f v).varList)
  | [] => by simp [substAll, varLists]
  | t :: rest => by
    simp [substAll, varLists, mem_varList_subst t, mem_varLists_subst rest, or_and_right, exists_or]

end

variable {t value : Ty} {v : Nat}

theorem replace_of_notMem (absent : v ∉ t.varList) : t.replace v value = t := by
  calc t.replace v value
    _ = t.subst .var := subst_congr t fun w mem => if_neg (ne_of_mem_of_not_mem mem absent)
    _ = t := subst_var t

theorem mem_varList_replace (mem : w ∈ (t.replace v value).varList) (absent : v ∉ value.varList) :
    w ≠ v ∧ (w ∈ t.varList ∨ w ∈ value.varList) := by
  obtain ⟨x, inside, mem⟩ := (mem_varList_subst t).mp mem
  split at mem
  · exact ⟨fun same => absent (same ▸ mem), .inr mem⟩
  · cases mem_singleton.mp mem
    exact ⟨‹_›, .inl inside⟩

theorem subst_replace (bound : φ v = value.subst φ) : (t.replace v value).subst φ = t.subst φ := by
  rw [replace, subst_subst]
  refine subst_congr t fun w _ => ?_
  split
  · rename_i same
    rw [same, bound]
  · rfl

def Solvable (vars : List Nat) (v : Nat) (t : Ty) : Prop := v ∈ vars ∧ v ∉ t.varList ∧ t.varList ⊆ vars

/-- The variable is gone from both sides, and what came in its place was on one of them. -/
theorem Solvable.mem_replace (found : Solvable (a.varList ++ b.varList) v t)
    (mem : w ∈ (a.replace v t).varList ++ (b.replace v t).varList) : w ≠ v ∧ w ∈ a.varList ++ b.varList := by
  obtain ⟨_, absent, vars⟩ := found
  rcases mem_append.mp mem with mem | mem <;>
    obtain ⟨other, inside | inside⟩ := mem_varList_replace mem absent <;> grind

section Differences

variable {φ : Nat → Ty} {vars wider : List Nat} {same other : (Nat → Ty) → Prop} {equal less : Prop}
  {x y : Option Difference}

mutual

theorem sizeOf_le_subst : (t : Ty) → v ∈ t.varList → sizeOf (φ v) ≤ sizeOf (t.subst φ)
  | .var w, mem => by
    cases mem_singleton.mp mem
    exact Nat.le_refl _
  | .tuple elts, mem => by
    have := sizeOf_le_substAll elts mem
    simp only [subst, tuple.sizeOf_spec]
    omega
  | .list elt, mem => by
    have := sizeOf_le_subst elt mem
    simp only [subst, list.sizeOf_spec]
    omega
  | .function params ret, mem => by
    simp only [subst, function.sizeOf_spec]
    rcases mem_append.mp mem with mem | mem
    · have := sizeOf_le_substAll params mem
      omega
    · have := sizeOf_le_subst ret mem
      omega
  | .bool, mem | .real, mem | .context, mem => nomatch mem

theorem sizeOf_le_substAll : (ts : List Ty) → v ∈ varLists ts → sizeOf (φ v) ≤ sizeOf (substAll φ ts)
  | t :: rest, mem => by
    simp only [substAll, List.cons.sizeOf_spec]
    rcases mem_append.mp mem with mem | mem
    · have := sizeOf_le_subst t mem
      omega
    · have := sizeOf_le_substAll rest mem
      omega
  | [], mem => nomatch mem

end

theorem ne_subst_of_mem (mem : v ∈ t.varList) (compound : ∀ w, t ≠ .var w) : φ v ≠ t.subst φ := by
  intro equal
  have size := congrArg sizeOf equal
  cases t with
  | var w => exact compound w rfl
  | tuple elts =>
    have := sizeOf_le_substAll (φ := φ) elts mem
    simp only [subst, tuple.sizeOf_spec] at size
    omega
  | list elt =>
    have := sizeOf_le_subst (φ := φ) elt mem
    simp only [subst, list.sizeOf_spec] at size
    omega
  | function params ret =>
    simp only [subst, function.sizeOf_spec] at size
    rcases mem_append.mp mem with mem | mem
    · have := sizeOf_le_substAll (φ := φ) params mem
      omega
    · have := sizeOf_le_subst (φ := φ) ret mem
      omega
  | _ => cases mem

/-- What a difference tells: that nothing makes two sides the same, or what a variable stands for wherever they are. -/
def Difference.Tells (vars : List Nat) (same : (Nat → Ty) → Prop) : Difference → Prop
  | .clash .. => ∀ φ, ¬ same φ
  | .solvable v t => Solvable vars v t ∧ ∀ φ, same φ → φ v = t.subst φ

def Explains (vars : List Nat) (same : (Nat → Ty) → Prop) (equal : Prop) : Option Difference → Prop
  | none => equal
  | some d => d.Tells vars same

theorem Explains.imp (explains : Explains vars same equal x) (sub : vars ⊆ wider) (weaker : ∀ φ, other φ → same φ)
    (stronger : equal → less) : Explains wider other less x := by
  rcases x with _ | (⟨v, t⟩ | _)
  · exact stronger explains
  · obtain ⟨⟨inside, absent, below⟩, bound⟩ := explains
    exact ⟨⟨sub inside, absent, List.Subset.trans below sub⟩, fun φ holds => bound φ (weaker φ holds)⟩
  · exact fun φ holds => explains φ (weaker φ holds)

theorem Explains.or (first : Explains vars same less x) (second : Explains vars same equal y) :
    Explains vars same (less ∧ equal) (x.or y) := by
  cases x with
  | none => exact second.imp (List.Subset.refl _) (fun _ => id) fun equal => ⟨first, equal⟩
  | some d => exact first

theorem explains_ite (compound : ∀ w, t ≠ .var w) (sub : v :: t.varList ⊆ vars) (binds : ∀ φ, same φ → φ v = t.subst φ) :
    Explains vars same equal (some (if v ∈ t.varList then .clash a b else .solvable v t)) := by
  split
  · exact fun φ holds => ne_subst_of_mem ‹_› compound (binds φ holds)
  · exact ⟨⟨sub mem_cons_self, ‹_›, fun _ mem => sub (mem_cons_of_mem _ mem)⟩, binds⟩

mutual

theorem explains_difference? : (a b : Ty) →
    Explains (a.varList ++ b.varList) (fun φ => a.subst φ = b.subst φ) (a = b) (a.difference? b)
  | .var v, b => by
    cases b with
    | var w =>
      unfold difference?
      split
      · exact congrArg var ‹_›
      · exact ⟨⟨mem_cons_self, by simpa [varList], List.subset_cons_self _ _⟩, fun _ => id⟩
    | _ => exact explains_ite nofun (List.Subset.refl _) fun _ => id
  | .bool, b | .real, b | .context, b => by
    cases b with
    | var w => exact explains_ite nofun (by simp [varList]) fun _ => Eq.symm
    | _ => first | rfl | exact nofun
  | .list a, b => by
    cases b with
    | var w => exact explains_ite nofun (by simp [varList]) fun _ => Eq.symm
    | list b => exact (explains_difference? a b).imp (List.Subset.refl _) (fun _ => list.inj) (congrArg list)
    | _ => exact nofun
  | .tuple as, b => by
    cases b with
    | var w => exact explains_ite nofun (by simp [varList]) fun _ => Eq.symm
    | tuple bs =>
      unfold difference?
      split
      · exact (explains_differenceAll? as bs).imp (List.Subset.refl _) (fun _ => tuple.inj) fun same => by rw [same ‹_›]
      · exact fun φ equal => ‹¬ _› (length_of_substAll (tuple.inj equal))
    | _ => exact nofun
  | .function as a, b => by
    cases b with
    | var w => exact explains_ite nofun (by simp [varList]) fun _ => Eq.symm
    | function bs b =>
      unfold difference?
      split
      · refine (((explains_differenceAll? as bs).imp ?_ (fun _ equal => (function.inj equal).1) id).or
          ((explains_difference? a b).imp ?_ (fun _ equal => (function.inj equal).2) id)).imp (List.Subset.refl _)
          (fun _ => id) fun both => by rw [both.1 ‹_›, both.2]
        all_goals grind [varList]
      · exact fun φ equal => ‹¬ _› (length_of_substAll (function.inj equal).1)
    | _ => exact nofun

theorem explains_differenceAll? : (as bs : List Ty) → Explains (varLists as ++ varLists bs)
    (fun φ => substAll φ as = substAll φ bs) (as.length = bs.length → as = bs) (differenceAll? as bs)
  | a :: as, b :: bs => by
    refine (((explains_difference? a b).imp ?_ (fun _ equal => (List.cons.inj equal).1) id).or
      ((explains_differenceAll? as bs).imp ?_ (fun _ equal => (List.cons.inj equal).2) id)).imp (List.Subset.refl _)
      (fun _ => id) fun both length => by rw [both.1, both.2 (Nat.succ.inj length)]
    all_goals grind [varLists]
  | [], [] => fun _ => rfl
  | [], _ :: _ | _ :: _, [] => nofun

end

theorem tells_of_difference? {d : Difference} (found : a.difference? b = some d) :
    d.Tells (a.varList ++ b.varList) fun φ => a.subst φ = b.subst φ := by
  have explains := explains_difference? a b
  rwa [found] at explains

end Differences

end Ty

namespace Solution

def domain (s : Solution) : List Nat := s.map Prod.fst

def Models (φ : Nat → Ty) (s : Solution) : Prop := ∀ binding ∈ s, φ binding.1 = binding.2.subst φ

def Triangular : Solution → Prop
  | [] => True
  | (v, t) :: older => v ∉ t.varList ∧ (∀ w ∈ v :: t.varList, w ∉ domain older) ∧ Triangular older

section

variable {s : Solution} {φ : Nat → Ty} {t : Ty}

theorem Models.of_append (models : Models φ (newer ++ s)) : Models φ newer ∧ Models φ s :=
  forall_mem_append.mp models

theorem Models.subst_resolve (models : Models φ s) : (s.resolve t).subst φ = t.subst φ := by
  induction s with
  | nil => rfl
  | cons binding older ih =>
    obtain ⟨bound, models⟩ := forall_mem_cons.mp models
    calc ((resolve older t).replace binding.1 binding.2).subst φ
      _ = (resolve older t).subst φ := Ty.subst_replace bound
      _ = t.subst φ := ih models

theorem resolve_eq_subst (s : Solution) (t : Ty) : s.resolve t = t.subst fun v => s.resolve (.var v) := by
  induction s with
  | nil => exact (Ty.subst_var t).symm
  | cons binding older ih =>
    change (resolve older t).replace _ _ = _
    rw [ih, Ty.replace, Ty.subst_subst]
    rfl

theorem resolve_of_unbound (unbound : ∀ w ∈ t.varList, w ∉ s.domain) : s.resolve t = t := by
  induction s with
  | nil => rfl
  | cons binding older ih =>
    have untouched := ih fun w mem bound => unbound w mem (mem_cons_of_mem _ bound)
    change (resolve older t).replace _ _ = _
    rw [untouched, Ty.replace_of_notMem fun mem => unbound _ mem mem_cons_self]

theorem Triangular.notMem_domain (triangular : s.Triangular) (mem : w ∈ (s.resolve t).varList) : w ∉ s.domain := by
  induction s with
  | nil => nofun
  | cons binding older ih =>
    obtain ⟨absent, unbound, triangular⟩ := triangular
    obtain ⟨other, mem⟩ := Ty.mem_varList_replace mem absent
    rintro bound
    rcases mem_cons.mp bound with same | bound
    · exact other same
    · rcases mem with mem | mem
      · exact ih triangular mem bound
      · exact unbound w (mem_cons_of_mem _ mem) bound

theorem Triangular.resolve_of_mem (triangular : s.Triangular) (mem : (v, t) ∈ s) :
    s.resolve (.var v) = s.resolve t := by
  induction s with
  | nil => cases mem
  | cons binding older ih =>
    obtain ⟨absent, unbound, triangular⟩ := triangular
    change (resolve older (.var v)).replace _ _ = (resolve older t).replace _ _
    rcases mem_cons.mp mem with rfl | mem
    · have first : resolve older (.var v) = .var v :=
        resolve_of_unbound fun w same => unbound w (mem_singleton.mp same ▸ mem_cons_self)
      have second : resolve older t = t := resolve_of_unbound fun w inside => unbound w (mem_cons_of_mem _ inside)
      rw [first, second, Ty.replace_of_notMem absent]
      exact if_pos rfl
    · rw [ih triangular mem]

def model (s : Solution) (θ : Nat → Ty) (v : Nat) : Ty := (s.resolve (.var v)).subst θ

theorem subst_model (s : Solution) (θ : Nat → Ty) (t : Ty) : t.subst (s.model θ) = (s.resolve t).subst θ := by
  rw [resolve_eq_subst, Ty.subst_subst]
  rfl

theorem Triangular.models_model (triangular : s.Triangular) (θ : Nat → Ty) : Models (s.model θ) s := by
  rintro ⟨v, t⟩ mem
  calc s.model θ v
    _ = (s.resolve t).subst θ := by rw [model, triangular.resolve_of_mem mem]
    _ = t.subst (s.model θ) := (subst_model s θ t).symm

end

variable {a b : Ty} {s extended : Solution} {fuel : Nat} {new : Solution} {φ : Nat → Ty}

theorem triangular_solve (solved : solve fuel a b = .ok new) (triangular : s.Triangular)
    (unbound : ∀ w ∈ a.varList ++ b.varList, w ∉ s.domain) : (new ++ s).Triangular := by
  induction fuel generalizing a b s new with
  | zero => cases solved
  | succ fuel ih =>
    unfold solve at solved
    split at solved
    · cases solved
      exact triangular
    · cases solved
    · rename_i v t found
      obtain ⟨newer, rest, result⟩ := bind_ok.mp solved
      cases result
      have solvable := (Ty.tells_of_difference? found).1
      have ⟨inside, absent, vars⟩ := solvable
      rw [append_assoc]
      have fresh : ∀ w ∈ v :: t.varList, w ∉ s.domain :=
        forall_mem_cons.mpr ⟨unbound v inside, fun w mem => unbound w (vars mem)⟩
      refine ih rest ⟨absent, fresh, triangular⟩ fun w mem bound => ?_
      have kept := solvable.mem_replace mem
      rcases mem_cons.mp bound with same | bound
      · exact kept.1 same
      · exact unbound w kept.2 bound

theorem subst_eq_of_solve (solved : solve fuel a b = .ok new) (models : Models φ new) : a.subst φ = b.subst φ := by
  induction fuel generalizing a b new with
  | zero => cases solved
  | succ fuel ih =>
    unfold solve at solved
    split at solved
    · rename_i none
      have explains := Ty.explains_difference? a b
      rw [none] at explains
      rw [show a = b from explains]
    · cases solved
    · rename_i v t _
      obtain ⟨newer, rest, result⟩ := bind_ok.mp solved
      cases result
      obtain ⟨models, bound⟩ := models.of_append
      have holds : φ v = t.subst φ := bound (v, t) mem_cons_self
      calc a.subst φ
        _ = (a.replace v t).subst φ := (Ty.subst_replace holds).symm
        _ = (b.replace v t).subst φ := ih rest models
        _ = b.subst φ := Ty.subst_replace holds

variable (unified : s.unify a b = .ok extended)

include unified

theorem suffix_unify : s <:+ extended := by
  obtain ⟨new, _, result⟩ := bind_ok.mp unified
  cases result
  exact List.suffix_append new s

theorem triangular_unify (triangular : s.Triangular) : extended.Triangular := by
  obtain ⟨new, solved, result⟩ := bind_ok.mp unified
  cases result
  refine triangular_solve solved triangular fun w mem => ?_
  rcases mem_append.mp mem with mem | mem <;> exact triangular.notMem_domain mem

theorem subst_eq_of_unify (models : Models φ extended) : a.subst φ = b.subst φ := by
  obtain ⟨new, solved, result⟩ := bind_ok.mp unified
  cases result
  obtain ⟨newer, older⟩ := models.of_append
  calc a.subst φ
    _ = (s.resolve a).subst φ := older.subst_resolve.symm
    _ = (s.resolve b).subst φ := subst_eq_of_solve solved newer
    _ = b.subst φ := older.subst_resolve

end Solution

end NumLang
