import NumLang.Proofs.CallCopies
import NumLang.Proofs.Hoisting

/-!
One call that is inlined.
-/

namespace NumLang

variable {later : Nat} {e : Expr} {V : Type}

namespace Fueled

def GoesOn (x : Fueled (Ending V)) : Prop := ∀ cost r, x.Gives cost r → ∃ σ, r = .next σ

theorem goesOn_pure (σ : Store V) : GoesOn (pure (.next σ)) := by
  intro cost r given
  exact ⟨σ, (gives_pure.mp given).2⟩

theorem goesOn_stuck : GoesOn (demand none : Fueled (Ending V)) := fun _ _ given => nomatch (gives_demand.mp given).2

theorem goesOn_bind {α : Type} (x : Fueled α) {k : α → Fueled (Ending V)} (rest : ∀ a, GoesOn (k a)) :
    GoesOn (x >>= k) := by
  intro cost r given
  obtain ⟨_, left, a, _, _, tail⟩ := gives_bind.mp given
  exact rest a left r tail

theorem GoesOn.follow {x : Fueled (Ending V)} (first : GoesOn x) (rest : ∀ σ, GoesOn (k σ)) : GoesOn (x.follow k) := by
  intro cost r given
  rcases gives_follow.mp given with ⟨_, left, σ, _, _, tail⟩ | ⟨v, _, returned⟩
  · exact rest σ left r tail
  · obtain ⟨σ, same⟩ := first cost (.ret v) returned
    cases same

theorem goesOn_forEach (round : ∀ v σ, GoesOn (body v σ)) (vs : List V) (σ : Store V) : GoesOn (forEach body vs σ) := by
  induction vs generalizing σ with
  | nil => exact goesOn_pure σ
  | cons v rest ih => exact (round v σ).follow ih

theorem goesOn_repeatWhile (round : ∀ σ, GoesOn (body σ)) (σ : Store V) : GoesOn (repeatWhile test body σ) := by
  intro cost r given
  rw [gives_repeatWhile] at given
  induction given with
  | stop => exact ⟨_, rfl⟩
  | leave _ taken =>
    obtain ⟨σ, same⟩ := round _ _ _ taken
    cases same
  | again _ _ _ ih => exact ih

theorem follow_assoc (x : Fueled (Ending V)) (k l : Store V → Fueled (Ending V)) :
    (x.follow k).follow l = x.follow fun σ => (k σ).follow l := by
  unfold follow
  rw [bind_assoc]
  congr
  funext r
  cases r with
  | next σ => rfl
  | ret v => rw [pure_bind]

end Fueled

open Fueled

namespace Machine

variable (m : Machine V Unit) {σ : Store V} {cost : Nat}

theorem performAll_append (first others : List Stmt) (σ : Store V) :
    m.performAll (first ++ others) σ = (m.performAll first σ).follow (m.performAll others) := by
  induction first generalizing σ with
  | nil => rw [performAll, follow, pure_bind, nil_append]
  | cons s rest ih => simp only [cons_append, performAll, ih, follow_assoc]

variable {m}

theorem gives_append (head : (m.performAll first σ).Gives cost (.next τ)) (tail : (m.performAll others τ).Gives later r)
    : (m.performAll (first ++ others) σ).Gives (cost + later) r := by
  rw [performAll_append]
  exact gives_follow.mpr (.inl ⟨cost, later, τ, rfl, head, tail⟩)

theorem performAll_single (s : Stmt) (σ : Store V) : m.performAll [s] σ = m.perform s σ := by
  change (m.perform s σ).follow (fun σ => pure (.next σ)) = _
  unfold follow
  rw [← bind_pure (m.perform s σ), bind_assoc]
  congr
  funext r
  rw [pure_bind]
  cases r <;> rfl

theorem gives_put (shaped : m.Shaped) (n : Name) (site : Site) (v : V) (σ : Store V) :
    (m.put (.name n) site v σ).Gives 0 (σ.insert n ⟨v, site⟩) := by
  refine gives_bind.mpr ⟨0, 0, [(n, v)], rfl, ?_, gives_pure.mpr ⟨rfl, rfl⟩⟩
  exact gives_demand.mpr ⟨rfl, toOption_eq_some.mpr (writes_name shaped n v)⟩

theorem gives_assign (shaped : m.Shaped) (computed : (m.compute e σ).Gives cost v) (node : Node) (n : Name) :
    (m.performAll [.assign node (.name n) none e] σ).Gives cost (.next (σ.insert n ⟨v, ⟨.stmt, node.id⟩⟩)) := by
  rw [performAll_single]
  refine gives_bind.mpr ⟨cost, 0, v, rfl, computed, ?_⟩
  exact gives_bind.mpr ⟨0, 0, _, rfl, gives_put shaped n _ v σ, gives_pure.mpr ⟨rfl, rfl⟩⟩

end Machine

namespace Inlining

section Body

variable {m : Machine V Unit} {own old : Name → Prop} {ρ : Name → Name} {base : Store V} {init' : List Stmt}
  {node' : Node} {value' : Expr}

mutual

theorem goesOn_perform (s : Stmt) (none : returns s = 0) (σ : Store V) : GoesOn (m.perform s σ) := by
  cases s with
  | assign => exact goesOn_bind _ fun _ => goesOn_bind _ fun _ => goesOn_pure _
  | store =>
    exact goesOn_bind _ fun _ => goesOn_bind _ fun _ => goesOn_bind _ fun _ => goesOn_bind _ fun _ => goesOn_pure _
  | when _ _ body =>
    refine goesOn_bind _ fun holds => ?_
    cases holds with
    | true => exact goesOn_performBlock body none σ
    | false => exact goesOn_pure σ
  | branch _ _ ift iff =>
    have both : returnsIn ift = 0 ∧ returnsIn iff = 0 := Nat.add_eq_zero_iff.mp none
    refine goesOn_bind _ fun holds => ?_
    cases holds with
    | true => exact goesOn_performBlock ift both.1 σ
    | false => exact goesOn_performBlock iff both.2 σ
  | loop _ _ body => exact goesOn_repeatWhile (goesOn_performBlock body none) σ
  | each _ _ _ body =>
    refine goesOn_bind _ fun _ => goesOn_bind _ fun vs => goesOn_forEach (fun v σ => ?_) vs σ
    exact goesOn_bind _ fun σ => goesOn_performBlock body none σ
  | scope _ name _ body =>
    cases name with
    | none => exact goesOn_performBlock body none σ
    | some n => exact goesOn_stuck
  | assert =>
    refine goesOn_bind _ fun holds => ?_
    cases holds with
    | true => exact goesOn_pure σ
    | false => exact goesOn_stuck
  | effect => exact goesOn_bind _ fun _ => goesOn_pure σ
  | ret => cases none
  | skip => exact goesOn_pure σ
termination_by structural s

theorem goesOn_performBlock (b : Block) (none : returnsIn b = 0) (σ : Store V) : GoesOn (m.performBlock b σ) := by
  obtain ⟨id, stmts⟩ := b
  exact goesOn_performAll stmts none σ

theorem goesOn_performAll (stmts : List Stmt) (none : returnsAll stmts = 0) (σ : Store V) :
    GoesOn (m.performAll stmts σ) := by
  cases stmts with
  | nil => exact goesOn_pure σ
  | cons s rest =>
    have both : returns s = 0 ∧ returnsAll rest = 0 := Nat.add_eq_zero_iff.mp none
    exact (goesOn_perform s both.1 σ).follow fun σ => goesOn_performAll rest both.2 σ

end

theorem returnsAll_append (first others : List Stmt) :
    returnsAll (first ++ others) = returnsAll first + returnsAll others := by
  induction first with
  | nil => exact (Nat.zero_add _).symm
  | cons s rest ih => simp only [cons_append, returnsAll, ih, Nat.add_assoc]

theorem copy_last (copy : Stmt.CopyAll ρ stmts (init' ++ [s'])) :
    ∃ init, ∃ s : Stmt, stmts = init ++ [s] ∧ Stmt.CopyAll ρ init init' ∧ s.Copy ρ s' := by
  induction init' generalizing stmts with
  | nil =>
    cases stmts with
    | nil => cases copy
    | cons s rest =>
      obtain ⟨_, _, same, head, tail⟩ := copy
      cases same
      cases rest with
      | nil => exact ⟨[], s, rfl, rfl, head⟩
      | cons => obtain ⟨_, _, same, _⟩ := tail; nomatch same
  | cons first others ih =>
    cases stmts with
    | nil => cases copy
    | cons s rest =>
      obtain ⟨_, _, same, head, tail⟩ := copy
      cases same
      obtain ⟨init, last, rfl, before, here⟩ := ih tail
      exact ⟨s :: init, last, rfl, ⟨_, _, rfl, head, before⟩, here⟩

theorem copy_ret {s : Stmt} (copy : s.Copy ρ (.ret node' value')) :
    ∃ node value, s = .ret node value ∧ value.Copy ρ value' := by
  cases s with
  | ret node value =>
    obtain ⟨_, _, same, part⟩ := copy
    cases same
    exact ⟨node, value, rfl, part⟩
  | _ => simp [Stmt.Copy] at copy

/-- A copy of a body whose only return comes last: what is before it goes on, and then the value of the return is
what the body returns. -/
theorem gives_body (shaped : m.Shaped) (hygienic : Hygienic own ρ old) {body body' : Block} (copy : body.Copy ρ body')
    (inside : ∀ n ∈ body.all.flatMap Stmt.binds, own n) (single : returnsIn body = 1)
    (whole : body'.stmts = init' ++ [Stmt.ret node' value']) (mirrors : Mirrors own ρ old base σ τ)
    (returned : (m.performBlock body σ).Gives cost (.ret v)) :
    ∃ before last σ' τ', cost = before + last ∧ (m.performAll init' τ).Gives before (.next τ') ∧ Mirrors own ρ old base
    σ' τ' ∧ (m.compute value' τ').Gives last v := by
  obtain ⟨id, stmts⟩ := body
  have copies : Stmt.CopyAll ρ stmts (init' ++ [Stmt.ret node' value']) := whole ▸ copy
  obtain ⟨init, s, rfl, before, here⟩ := copy_last copies
  obtain ⟨node, value, rfl, part⟩ := copy_ret here
  have none : returnsAll init = 0 := by
    simpa [returnsIn, returnsAll_append, returnsAll, returns] using single
  simp only [Block.all, Stmt.allOf_append, flatMap_append, forall_mem_append] at inside
  change (m.performAll (init ++ [Stmt.ret node value]) σ).Gives cost (.ret v) at returned
  rw [m.performAll_append] at returned
  rcases gives_follow.mp returned with ⟨first, last, σ', rfl, head, tail⟩ | ⟨w, _, early⟩
  · obtain ⟨r, head', ends⟩ := Machine.couples_performAll shaped hygienic init before inside.1 mirrors first _ head
    cases r with
    | ret => cases ends
    | next τ' =>
      have mirrors' : Mirrors own ρ old base σ' τ' := ends
      rw [Machine.performAll_single] at tail
      obtain ⟨taken, _, _, rfl, computed, result⟩ := gives_bind.mp tail
      obtain ⟨rfl, same⟩ := gives_pure.mp result
      cases same
      obtain ⟨_, computed', rfl⟩ := Machine.couples_compute (fun n w held => (mirrors'.seen n w held).2) value part
        taken v computed
      exact ⟨first, taken, σ', τ', rfl, head', mirrors', computed'⟩
  · obtain ⟨σ', same⟩ := goesOn_performAll init none σ cost _ early
    cases same

end Body

/-! ### Stores with names in use -/

def only (used : NameSet) (σ : Store V) : Store V := σ.filterMap fun n cell => if n ∈ used then some cell else none

variable {used : NameSet} {σ τ : Store V}

theorem value?_only (used : NameSet) (σ : Store V) (n : Name) :
    (only used σ).value? n = if n ∈ used then σ.value? n else none := by
  rw [only, Store.value?, OrdMap.get?_filterMap]
  split
  · cases found : σ.get? n <;> simp [Store.value?, found]
  · cases σ.get? n <;> rfl

def Extends (used : NameSet) (σ τ : Store V) : Prop := ∀ n v, n ∈ used → σ.value? n = some v → τ.value? n = some v

theorem Extends.refl (used : NameSet) (σ : Store V) : Extends used σ σ := fun _ _ _ => id

theorem Extends.trans (first : Extends used σ τ) (second : Extends more τ υ) (grows : ∀ n ∈ used, n ∈ more) :
    Extends used σ υ :=
  fun n v known held => second n v (grows n known) (first n v known held)

theorem Extends.only (more : Extends used σ τ) (held : (only used σ).value? n = some v) :
    n ∈ used ∧ τ.value? n = some v := by
  rw [value?_only] at held
  split at held
  · rename_i known
    exact ⟨known, more n v known held⟩
  · cases held

/-! ### The statements for a call -/

section Splice

variable {m : Machine V Unit} {own old : Name → Prop} {ρ : Name → Name} {next cost : Nat} {args : List Expr}
  {stmts : List Stmt} {vs : List V}

/-- The arguments are computed one after the other and are found under the new names of the parameters. -/
theorem gives_passes (shaped : m.Shaped) (hygienic : Hygienic own ρ old) {params : List Param}
    (passes : Forall₂ (Passes next ρ) (params.zip args) stmts) (fits : args.length = params.length)
    (inside : ∀ n ∈ params.filterMap (·.name), own n) {base part σ σ' : Store V}
    (below : ∀ n v, part.value? n = some v → old n ∧ base.value? n = some v)
    (computed : (m.computeAll args part).Gives cost vs) (bound : Machine.bindArgs params vs σ = some σ')
    (mirrors : Mirrors own ρ old base σ τ) :
    ∃ τ', (m.performAll stmts τ).Gives cost (.next τ') ∧ Mirrors own ρ old base σ' τ' := by
  induction params generalizing args stmts σ τ cost vs with
  | nil =>
    cases List.eq_nil_of_length_eq_zero fits
    cases passes
    obtain ⟨rfl, rfl⟩ := gives_pure.mp computed
    cases bound
    exact ⟨τ, gives_pure.mpr ⟨rfl, rfl⟩, mirrors⟩
  | cons p params ih =>
    obtain ⟨arg, args, rfl⟩ := List.exists_cons_of_length_eq_add_one fits
    obtain ⟨first, _, v, rfl, head, tail⟩ := gives_bind.mp computed
    obtain ⟨rest, _, vs', rfl, others, result⟩ := gives_bind.mp tail
    obtain ⟨rfl, rfl⟩ := gives_pure.mp result
    unfold Machine.bindArgs at bound
    cases named : p.name with
    | none =>
      rw [named] at bound
      cases bound
    | some n =>
      rw [named] at bound
      rw [List.filterMap_cons_some named, forall_mem_cons] at inside
      cases passes with
      | cons passed passes =>
        obtain ⟨node, rfl, _⟩ := passed
        have again := Machine.gives_more head fun x w held => mirrors.kept x w (below x w held).1 (below x w held).2
        have assigned := Machine.gives_assign shaped again node (ρ n)
        have mirrors' : Mirrors own ρ old base (σ.writeAll ⟨.param, p.id⟩ ([n].zip [v]))
            (τ.writeAll ⟨.stmt, node.id⟩ (([n].map ρ).zip [v])) :=
          mirrors.write hygienic rfl (by simpa using inside.1) _ _
        obtain ⟨τ', ran, ends⟩ := ih passes (Nat.succ.inj fits) inside.2 others bound mirrors'
        refine ⟨τ', ?_, ends⟩
        simpa only [paramTarget, named, singleton_append, Nat.add_zero] using Machine.gives_append assigned ran

theorem Placed.performAll (m : Machine V Unit) (places : Placed next stmts placed) (τ : Store V) :
    m.performAll placed τ = m.performAll stmts τ := by
  cases places with
  | bare => rfl
  | under => exact Machine.performAll_single _ τ

/-- The call of a function becomes statements that carry it out and a name that holds what it returns. -/
theorem Splice.gives (shaped : m.Shaped) {callee : Func} {s t : Stage} (splice : Splice callee site args s t e)
    (single : returnsIn callee.body = 1) (computed : (m.computeAll args (only s.used τ)).Gives cost vs)
    (called : (m.call callee vs).Gives later v) :
    ∃ τ', (m.performAll (splice.assigns ++ splice.placed) τ).Gives (cost + later) (.next τ') ∧ Extends s.used τ τ' ∧
    (m.compute e (only t.used τ')).Gives 0 v := by
  have hygienic : Hygienic (· ∈ ownNames callee) splice.ρ (· ∈ s.used) :=
    ⟨fun a b here there same => splice.renews.distinct a here b there same,
      fun a here known => (splice.renews.fresh a here).1 (mem_union.mpr (.inl known))⟩
  obtain ⟨σ, started, returned⟩ := Machine.gives_call.mp called
  have below : ∀ n w, (only s.used τ).value? n = some w → n ∈ s.used ∧ τ.value? n = some w :=
    fun n w held => (Extends.refl s.used τ).only held
  obtain ⟨τ₁, ran₁, mirrors⟩ := gives_passes shaped hygienic splice.passes splice.fits
    (fun n named => mem_ownNames_of_param named) below computed started
    (⟨nofun, fun n w _ held => held⟩ : Mirrors _ _ _ τ ∅ τ)
  obtain ⟨before, last, σ', τ₂, rfl, ran₂, mirrors', computed'⟩ := gives_body shaped hygienic splice.copy
    (fun n bound => mem_ownNames_of_binds bound) single splice.ends mirrors returned
  have ran₃ := Machine.gives_append ran₂ (Machine.gives_assign shaped computed' splice.last splice.result)
  rw [← splice.places.performAll m] at ran₃
  refine ⟨_, Machine.gives_append ran₁ ran₃, fun n w known held => ?_, ?_⟩
  · have other : n ≠ splice.result := fun same => splice.fresh (same ▸ known)
    rw [Store.value?_insert, if_neg other]
    exact mirrors'.kept n w known held
  · have read : ∀ τ, m.compute e τ = .demand (τ.value? splice.result) := fun τ => congrArg (m.compute · τ) splice.shown
    rw [read]
    refine gives_demand.mpr ⟨rfl, ?_⟩
    rw [value?_only, if_pos splice.taken, Store.value?_insert, if_pos rfl]

end Splice

end Inlining

end NumLang
