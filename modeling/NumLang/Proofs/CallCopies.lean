import NumLang.Proofs.Calls
import NumLang.Proofs.Copying

/-!
Copies of statements, as the evaluator with calls carries them out.
-/

namespace NumLang

variable {V : Type}

/-- The second store holds under new names what the first one holds, which is nothing but names of its own; and
under certain other names it holds what a third store holds. -/
structure Mirrors (own : Name → Prop) (ρ : Name → Name) (old : Name → Prop) (base σ τ : Store V) : Prop where
  seen : ∀ n v, σ.value? n = some v → own n ∧ τ.value? (ρ n) = some v
  kept : ∀ n v, old n → base.value? n = some v → τ.value? n = some v

/-- New names are different for different names, and none of those that must not be touched. -/
structure Hygienic (own : Name → Prop) (ρ : Name → Name) (old : Name → Prop) : Prop where
  apart : Apart own ρ
  new : ∀ n, own n → ¬ old (ρ n)

namespace Mirrors

variable {own old : Name → Prop} {ρ : Name → Name} {base σ τ : Store V}

theorem write (hygienic : Hygienic own ρ old) (mirrors : Mirrors own ρ old base σ τ) {names : List Name}
    {values : List V} (fits : values.length = names.length) (inside : ∀ n ∈ names, own n) (site site' : Site) :
    Mirrors own ρ old base (σ.writeAll site (names.zip values)) (τ.writeAll site' ((names.map ρ).zip values)) := by
  induction names generalizing values σ τ with
  | nil => exact mirrors
  | cons first rest ih =>
    cases values with
    | nil => simp at fits
    | cons v values =>
      have here := inside first mem_cons_self
      refine ih ⟨fun n w held => ?_, fun n w must held => ?_⟩ (by simpa using fits)
        fun n later => inside n (mem_cons_of_mem _ later)
      · by_cases again : n = first
        · subst again
          exact ⟨here, by simpa using held⟩
        · rw [Store.value?_insert, if_neg again] at held
          obtain ⟨mine, held⟩ := mirrors.seen n w held
          have differ : ρ n ≠ ρ first := fun equal => again (hygienic.apart n first mine here equal)
          exact ⟨mine, by rwa [Store.value?_insert, if_neg differ]⟩
      · have differ : n ≠ ρ first := fun equal => hygienic.new first here (equal ▸ must)
        rw [Store.value?_insert, if_neg differ]
        exact mirrors.kept n w must held

end Mirrors

open Fueled

namespace Machine

variable {m : Machine V Unit} {ρ : Name → Name}

section Expressions

variable {σ τ : Store V}

theorem compute_form {e : Expr} (formed : e.form? = some form) (σ : Store V) :
    m.compute e σ = m.computeAll e.children σ >>= fun vs => .demand (m.apply () form vs) := by
  cases e with
  | context _ _ _ kwargs =>
    cases kwargs with
    | nil =>
      cases formed
      rw [Expr.children, map_nil, append_nil]
      rfl
    | cons => cases formed
  | var | lit | cond | call | comprehension | slice | update => cases formed
  | _ =>
    cases formed
    simp only [computeAll, Expr.children, bind_assoc, pure_bind]
    rfl

theorem compute_call {e : Expr} {f : Func} {count : Nat} (called : e.callee? = some (f, count)) (σ : Store V) :
    m.compute e σ = m.computeAll e.children σ >>= m.call f := by
  obtain ⟨node, func, args, rfl, _⟩ := Expr.callee?_eq_some called
  rw [Expr.children, map_nil, append_nil]
  rfl

theorem compute_valueless {e : Expr} (valueless : e.isValueless = true) (called : e.callee? = none) (σ : Store V) :
    m.compute e σ = .demand none := by
  cases e with
  | context _ _ _ kwargs =>
    cases kwargs with
    | nil => cases valueless
    | cons => rfl
  | call _ _ callee _ kwargs =>
    match callee, kwargs with
    | some (.function f), [] => cases called
    | none, _ | some (.external _), _ | some (.function _), _ :: _ => rfl
  | comprehension | slice | update => rfl
  | _ => cases valueless

theorem couples_computeAll_of (related : Forall₂ R es es')
    (each : ∀ e ∈ es, ∀ e', R e e' → Couples Eq (m.compute e σ) (m.compute e' τ)) :
    Couples Eq (m.computeAll es σ) (m.computeAll es' τ) := by
  induction related with
  | nil => exact couples_refl _
  | cons first _ ih =>
    obtain ⟨here, later⟩ := forall_mem_cons.mp each
    exact (here _ first).with fun _ => (ih later).with fun _ => couples_refl _

/-- A copy of an expression has its value, where the new names hold what the names hold. -/
theorem couples_compute (reads : ∀ n v, σ.value? n = some v → τ.value? (ρ n) = some v) (e : Expr) (copy : e.Copy ρ e') :
    Couples Eq (m.compute e σ) (m.compute e' τ) := by
  induction e using Expr.byChildren generalizing e' with
  | step e ih =>
    have parts := couples_computeAll_of copy.alike.children fun part mem _ copied => ih part mem copied
    cases e.valued with
    | @var _ n =>
      obtain ⟨_, _ | _⟩ := copy
      exact couples_demand fun v held => ⟨v, reads n v held, rfl⟩
    | lit =>
      obtain ⟨_, _ | _⟩ := copy
      exact couples_refl _
    | cond =>
      obtain ⟨_, _ | ⟨left, _ | ⟨middle, _ | ⟨right, _ | _⟩⟩⟩⟩ := copy
      simp only [Expr.children, forall_mem_cons] at ih
      refine ((ih.1 left).with fun _ => couples_refl _).with fun holds => ?_
      cases holds with
      | true => exact ih.2.1 middle
      | false => exact ih.2.2.1 right
    | form formed =>
      rw [compute_form formed, compute_form (copy.alike.form.trans formed)]
      exact parts.with fun _ => couples_refl _
    | none valueless =>
      cases called : e.callee? with
      | none =>
        rw [compute_valueless valueless called]
        exact couples_stuck
      | some call =>
        rw [compute_call called, compute_call (copy.alike.callee.trans called)]
        exact parts.with fun _ => couples_refl _

theorem couples_computeAll (reads : ∀ n v, σ.value? n = some v → τ.value? (ρ n) = some v)
    (copy : Forall₂ (Expr.Copy ρ) es es') : Couples Eq (m.computeAll es σ) (m.computeAll es' τ) :=
  couples_computeAll_of copy fun e _ _ copied => couples_compute reads e copied

theorem couples_more (more : ∀ n v, σ.value? n = some v → τ.value? n = some v) (e : Expr) :
    Couples Eq (m.compute e σ) (m.compute e τ) :=
  couples_compute more e e.copy_self

theorem gives_more (given : (m.compute e σ).Gives cost v) (more : ∀ n v, σ.value? n = some v → τ.value? n = some v) :
    (m.compute e τ).Gives cost v := by
  obtain ⟨_, given, rfl⟩ := couples_more more e cost v given
  exact given

end Expressions

section Statements

variable {own old : Name → Prop} {base : Store V}

theorem couples_put (shaped : m.Shaped) (hygienic : Hygienic own ρ old) {target : Binder}
    (inside : ∀ n ∈ target.names, own n) (site site' : Site) (v : V) (mirrors : Mirrors own ρ old base σ τ) :
    Couples (Mirrors own ρ old base) (m.put target site v σ) (m.put (target.rename ρ) site' v τ) := by
  refine (couples_demand fun writes written => ?_ : Couples (fun writes writes' => ∃ values : List V,
    values.length = target.names.length ∧ writes = target.names.zip values ∧
      writes' = (target.names.map ρ).zip values) _ _).bind ?_
  · obtain ⟨values, fits, rfl, again⟩ := writes_copy (ρ := ρ) shaped (toOption_eq_some.mp written)
    exact ⟨_, toOption_eq_some.mpr again, values, fits, rfl, rfl⟩
  · rintro _ _ ⟨values, fits, rfl, rfl⟩
    exact couples_pure (mirrors.write hygienic fits inside site site')

theorem couples_decided (same : Couples Eq x y) : Couples Eq (m.decided x) (m.decided y) :=
  same.with fun _ => couples_refl _

mutual

theorem couples_perform (shaped : m.Shaped) (hygienic : Hygienic own ρ old) (s : Stmt) (copy : s.Copy ρ s')
    (inside : ∀ n ∈ s.all.flatMap Stmt.binds, own n) (mirrors : Mirrors own ρ old base σ τ) :
    Couples (Ending.Rel (Mirrors own ρ old base)) (m.perform s σ) (m.perform s' τ) := by
  have reads := fun (σ τ : Store V) (mirrors : Mirrors own ρ old base σ τ) n v held => (mirrors.seen n v held).2
  rw [Stmt.all_eq, flatMap_cons, List.flatMap_assoc, forall_mem_append] at inside
  have deeper := fun b mem n bound => inside.2 n (mem_flatMap.mpr ⟨b, mem, bound⟩)
  cases s with
  | assign _ target _ value =>
    obtain ⟨_, _, rfl, part⟩ := copy
    refine (couples_compute (reads σ τ mirrors) value part).with fun v => ?_
    exact (couples_put shaped hygienic inside.1 _ _ v mirrors).bind fun _ _ mirrors => couples_pure mirrors
  | store _ name path value =>
    obtain ⟨_, _, _, rfl, places, part⟩ := copy
    refine (couples_computeAll (reads σ τ mirrors) places).with fun steps => ?_
    refine (couples_compute (reads σ τ mirrors) value part).with fun elt => ?_
    refine (couples_demand fun list held => ⟨list, reads σ τ mirrors name list held, rfl⟩ :
      Couples Eq _ _).with fun list => ?_
    refine (couples_refl _).with fun v => couples_pure ?_
    exact (mirrors.write hygienic rfl inside.1 _ _ :
      Mirrors own ρ old base (σ.writeAll _ ([name].zip [v])) (τ.writeAll _ (([name].map ρ).zip [v])))
  | when _ test body =>
    obtain ⟨_, _, _, rfl, part, within⟩ := copy
    refine (couples_decided (couples_compute (reads σ τ mirrors) test part)).with fun holds => ?_
    cases holds with
    | true => exact couples_performBlock shaped hygienic body within (deeper body mem_cons_self) mirrors
    | false => exact couples_pure mirrors
  | branch _ test ift iff =>
    obtain ⟨_, _, _, _, rfl, part, left, right⟩ := copy
    refine (couples_decided (couples_compute (reads σ τ mirrors) test part)).with fun holds => ?_
    cases holds with
    | true => exact couples_performBlock shaped hygienic ift left (deeper ift mem_cons_self) mirrors
    | false => exact couples_performBlock shaped hygienic iff right (deeper iff (mem_cons_of_mem _ mem_cons_self)) mirrors
  | loop _ test body =>
    obtain ⟨_, _, _, rfl, part, within⟩ := copy
    refine couples_repeatWhile (fun σ τ mirrors => ?_) (fun σ τ mirrors => ?_) mirrors
    · exact couples_decided (couples_compute (reads σ τ mirrors) test part)
    · exact couples_performBlock shaped hygienic body within (deeper body mem_cons_self) mirrors
  | each _ target iterable body =>
    obtain ⟨_, _, _, rfl, part, within⟩ := copy
    refine (couples_compute (reads σ τ mirrors) iterable part).with fun v => (couples_refl _).with fun elements => ?_
    refine couples_forEach (fun v σ τ mirrors => ?_) elements mirrors
    exact (couples_put shaped hygienic inside.1 _ _ v mirrors).bind fun _ _ mirrors =>
      couples_performBlock shaped hygienic body within (deeper body mem_cons_self) mirrors
  | scope _ name ctx body =>
    obtain ⟨_, _, _, rfl, _, within⟩ := copy
    cases name with
    | none => exact couples_performBlock shaped hygienic body within (deeper body mem_cons_self) mirrors
    | some n => exact couples_stuck
  | assert _ test msg =>
    obtain ⟨_, _, _, rfl, part, _⟩ := copy
    refine (couples_decided (couples_compute (reads σ τ mirrors) test part)).with fun holds => ?_
    cases holds with
    | true => exact couples_pure mirrors
    | false => exact couples_stuck
  | effect _ value =>
    obtain ⟨_, _, rfl, part⟩ := copy
    exact (couples_compute (reads σ τ mirrors) value part).with fun _ => couples_pure mirrors
  | ret _ value =>
    obtain ⟨_, _, rfl, part⟩ := copy
    exact (couples_compute (reads σ τ mirrors) value part).with fun _ => couples_pure rfl
  | skip =>
    obtain ⟨_, rfl⟩ := copy
    exact couples_pure mirrors
termination_by structural s

theorem couples_performBlock (shaped : m.Shaped) (hygienic : Hygienic own ρ old) (b : Block) (copy : b.Copy ρ b')
    (inside : ∀ n ∈ b.all.flatMap Stmt.binds, own n) (mirrors : Mirrors own ρ old base σ τ) :
    Couples (Ending.Rel (Mirrors own ρ old base)) (m.performBlock b σ) (m.performBlock b' τ) := by
  obtain ⟨id, stmts⟩ := b
  obtain ⟨id', stmts'⟩ := b'
  exact couples_performAll shaped hygienic stmts copy inside mirrors

theorem couples_performAll (shaped : m.Shaped) (hygienic : Hygienic own ρ old) (stmts : List Stmt)
    (copy : Stmt.CopyAll ρ stmts stmts') (inside : ∀ n ∈ (Stmt.allOf stmts).flatMap Stmt.binds, own n)
    (mirrors : Mirrors own ρ old base σ τ) :
    Couples (Ending.Rel (Mirrors own ρ old base)) (m.performAll stmts σ) (m.performAll stmts' τ) := by
  cases stmts with
  | nil =>
    cases copy
    exact couples_pure mirrors
  | cons s rest =>
    obtain ⟨_, _, rfl, head, tail⟩ := copy
    simp only [Stmt.allOf, flatMap_append, forall_mem_append] at inside
    exact (couples_perform shaped hygienic s head inside.1 mirrors).follow fun _ _ mirrors =>
      couples_performAll shaped hygienic rest tail inside.2 mirrors

end

end Statements

end Machine

end NumLang
