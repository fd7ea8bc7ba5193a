import NumLang.Pass.ContextLifting
import NumLang.Proofs.Grounded

/-!
Lifting contexts does not fail.
-/

namespace NumLang

namespace ContextLifting

open Edit Stmt

def Assigned (lifted : List Lifted) : Prop :=
  ∀ l ∈ lifted, l.name.IsPlain ∧ ∃ node node' value, l.stmt = .assign node (.name l.name) none (.lit node' value)

def Named (lifted : List Lifted) (n : Name) : Prop := ∃ l ∈ lifted, l.name = n

def further (s t : NameSupply × List Lifted) : Prop := (∀ l ∈ s.2, l ∈ t.2) ∧ (Assigned s.2 → Assigned t.2)

theorem Named.mono (went : further s t) (named : Named s.2 n) : Named t.2 n := by
  obtain ⟨l, mem, same⟩ := named
  exact ⟨l, went.1 l mem, same⟩

theorem leads_nameFor (value : Context) :
    (logicWith (List Lifted)).leads s (nameFor value) fun name t => further s t ∧ Named t.2 name := by
  unfold nameFor
  refine (logicWith _).bind (leadsWith_get ?_)
  split
  · rename_i l found
    exact (logicWith _).pure ⟨⟨fun _ mem => mem, fun assigned => assigned⟩, l, mem_of_find?_eq_some found, rfl⟩
  · refine (logicWith _).bind (leadsWith_lift (leads_freshName fun name more spelled _ _ => ?_))
    refine (logicWith _).bind (leadsWith_lift (leads_lit fun node' => ?_))
    refine (logicWith _).bind (leadsWith_lift (leads_assign fun node => ?_))
    refine (logicWith _).bind (leadsWith_modify ((logicWith _).pure ⟨⟨?_, ?_⟩, ?_⟩))
    · exact fun l mem => mem_append_left _ mem
    · intro assigned l mem
      rcases mem_append.mp mem with earlier | new
      · exact assigned l earlier
      · cases mem_singleton.mp new
        exact ⟨by simp [Name.IsPlain, spelled], node, node', _, rfl⟩
    · exact ⟨_, mem_append_right _ mem_cons_self, rfl⟩

theorem reworks (contexts : Contexts) : Rebuild.Reworks (logicWith (List Lifted)) (hooks contexts) further
    (fun s => Expr.Extends (Named s.2)) (fun s b b' => Extends (Named s.2) b.stmts b'.stmts)
    (fun s => Extends (Named s.2)) where
  refl _ := ⟨fun _ mem => mem, fun assigned => assigned⟩
  trans first second := ⟨fun l mem => second.1 l (first.1 l mem), fun assigned => second.2 (first.2 assigned)⟩
  mono went extended := extended.mono fun _ => Named.mono went
  name _ := rfl
  expr := by
    intro s e usual _ inner
    have stays : (logicWith (List Lifted)).leads s usual fun e' t => further s t ∧ e.Extends (Named t.2) e' :=
      (logicWith _).imp (inner fun _ _ => trivial) fun e' t ⟨went, refit⟩ => ⟨went, refit.extends⟩
    simp only [hooks]
    split
    · refine (logicWith _).bind ((logicWith _).imp (leads_nameFor _) fun name t ⟨went, named⟩ => ?_)
      refine (logicWith _).bind (leadsWith_lift (leads_note ?_))
      refine (logicWith _).pure ⟨went, fun _ => ?_, fun n used => .inr ?_, rfl⟩
      · exact Expr.wellMade_iff.mpr ⟨trivial, nofun⟩
      · cases OrdSet.mem_singleton.mp used
        exact named
    · exact stays
  monoBlock went extended := extended.mono fun _ => Named.mono went
  monoRow went extended := extended.mono fun _ => Named.mono went
  nil _ := .nil
  cons := .cons
  stmt usual := by
    refine (logicWith _).bind ((logicWith _).imp usual fun st' t ⟨went, refit⟩ => ?_)
    exact (logicWith _).pure ⟨went, refit.extends⟩
  block usual := usual

/-- The assignments of contexts to their names stand anywhere, and the names are defined after them. -/
theorem lifted_stmts {lifted : List Lifted} (assigned : Assigned lifted) : WellMade (lifted.map (·.stmt)) ∧
    (∀ n, n ∉ needsAll (lifted.map (·.stmt))) ∧ ∀ n, Named lifted n → n ∈ definesAll (lifted.map (·.stmt)) := by
  induction lifted with
  | nil => exact ⟨wellMade_nil, nofun, fun _ ⟨_, mem, _⟩ => (nomatch mem)⟩
  | cons l rest ih =>
    obtain ⟨made, needs, defines⟩ := ih fun l mem => assigned l (mem_cons_of_mem _ mem)
    obtain ⟨plain, node, node', value, same⟩ := assigned l mem_cons_self
    have own : Stands (OrdSet.singleton l.name) (fun _ => False) [l.stmt] := by
      rw [same]
      exact stands_set plain (OrdSet.mem_singleton.mpr rfl) Expr.stands_lit
    rw [map_cons, ← singleton_append]
    refine ⟨wellMade_append.mpr ⟨own.made, made⟩, fun n need => ?_, fun n named => ?_⟩
    · rcases mem_needsAll_append.mp need with here | ⟨later, _⟩
      · exact own.needs n here
      · exact needs n later
    · rw [mem_definesAll_append]
      obtain ⟨other, mem, rfl⟩ := named
      rcases mem_cons.mp mem with rfl | later
      · left
        rw [same, mem_definesAll_single]
        exact mem_ofList.mpr (mem_singleton.mpr rfl)
      · exact .inr (defines _ ⟨other, later, rfl⟩)

theorem leads_edit {f : Func} (distinct : f.ids.Nodup) (checked : f.check = .ok ()) :
    Leads (.ofFunc f) (edit f) fun g _ => g.check = .ok () := by
  obtain ⟨_, _, r, analysed⟩ := WellFormed.check_ok.mp checked
  obtain ⟨contexts, found⟩ := Contexts.exists_of_reaching distinct analysed
  obtain ⟨params, filled, made, needs⟩ := WellFormed.check_iff.mp checked
  have rebuilt : (logicWith (List Lifted)).leads (.ofFunc f, []) ((hooks contexts).onFunc f) fun g t =>
      ∃ b, g = { f with body := b } ∧ Assigned t.2 ∧ Extends (Named t.2) f.body.stmts b.stmts := by
    refine (logicWith _).bind ((logicWith _).imp (Rebuild.leads_onBlock (reworks contexts) f.body) ?_)
    rintro b t ⟨went, extended⟩
    exact (logicWith _).pure ⟨b, rfl, went.2 (forall_mem_nil _), extended⟩
  refine leads_bind (leads_lift found (leads_bind ((leads_run rebuilt).imp ?_)))
  rintro ⟨_, lifted⟩ more ⟨b, rfl, assigned, extended⟩
  obtain ⟨top, closed, named⟩ := lifted_stmts assigned
  -- What is read in addition is assigned at the top, and the rest was defined before.
  refine leads_pure (WellFormed.check_iff.mpr ⟨params, fun empty => ?_, ?_, fun n need => ?_⟩)
  · exact extended.filled filled (List.append_eq_nil_iff.mp empty).2
  · exact wellMade_append.mpr ⟨top, extended.made made⟩
  · rw [Block.needs_eq] at need
    rcases mem_needsAll_append.mp need with here | ⟨later, missing⟩
    · exact absurd here (closed n)
    · rcases extended.needs n later with earlier | lifted
      · exact needs n (Block.needs_eq f.body ▸ earlier)
      · exact absurd (named n lifted) missing

end ContextLifting

end NumLang
