import NumLang.Proofs.CopySound
import NumLang.Proofs.DeadCodeTotal

/-!
Copy propagation does not fail. A use becomes the use of a definition that is in force there and stays, and no join
takes a definition that is removed.
-/

namespace NumLang

variable {node : Node} {n : Name}

namespace CopyPropagation

open Flow Reaching Edit Stmt

variable {f : Func} {u : Uses} {notes : Notes}

/-- An expression has become one that reads names only by definitions that are not removed. -/
structure Replaced (f : Func) (u : Uses) (e e' : Expr) : Prop where
  made : e.WellMade → e'.WellMade
  layout : e'.layout = e.layout
  uses : ∀ stmt env, Uses.Lists u.reach stmt env u.uses e → ∀ n ∈ e'.uses,
    ∃ d, env.get? n = some d ∧ ∀ c ∈ (Plan.ofUses f u).removals, c.definition ≠ d

/-- Names that copies do not stand for stay, and statements among those of the function are reduced to others. -/
abbrev Trimmed (f : Func) (u : Uses) (notes : Notes) : List Stmt → List Stmt → Prop :=
  Reduced (fun _ p => Kept f u notes p) notes f.body.all true

/-! ### Expressions -/

theorem replaced_of_refit {e e' : Expr} (kept : ∀ node n, e = .var node n → (Plan.ofUses f u).name? node.id = none)
    (refit : e.Refit (Replaced f u) e') : Replaced f u e e' := by
  refine ⟨refit.wellMade fun _ _ part => part.made, refit.layout fun _ _ part => part.layout, ?_⟩
  intro stmt env listed n used
  cases parts : e.onlyParts with
  | true =>
    rw [Expr.mem_uses_of_onlyParts (refit.onlyParts.trans parts)] at used
    obtain ⟨part', below, used⟩ := used
    obtain ⟨part, mem, replaced⟩ := exists_of_forall₂ refit.parts part' below
    exact replaced.uses stmt env (listed.child parts mem) n used
  | false =>
    cases e with
    | var node name =>
      rw [refit.var node name rfl] at used
      cases OrdSet.mem_singleton.mp used
      obtain ⟨d, found, used⟩ := listed.var
      exact ⟨d, found, fun c removed => kept_of_name? used (kept node n rfl) removed⟩
    | comprehension node targets iterables elt =>
      obtain ⟨iterables', elt', rfl, rows, element⟩ := refit.comprehension node targets iterables elt rfl
      obtain ⟨outer, within, bound, inner⟩ := listed.comprehension
      rcases Expr.mem_uses_comprehension.mp used with ⟨part', below, used⟩ | ⟨used, outside⟩
      · obtain ⟨part, mem, replaced⟩ := exists_of_forall₂ rows part' below
        exact replaced.uses stmt env (outer part mem) n used
      · obtain ⟨d, found, stays⟩ := element.uses stmt within inner n used
        rw [Uses.bindTargets_get? bound fun mem => outside (mem_ofList.mpr mem)] at found
        exact ⟨d, found, stays⟩
    | _ => cases parts

theorem replaced_of_name? (resolved : u.Resolved f notes) (named : (Plan.ofUses f u).name? node.id = some name) :
    Replaced f u (.var node n) (.var node name) := by
  refine ⟨fun _ => Expr.wellMade_iff.mpr ⟨trivial, nofun⟩, rfl, ?_⟩
  intro stmt env listed m used
  cases OrdSet.mem_singleton.mp used
  obtain ⟨d, found, used⟩ := listed.var
  obtain ⟨_, _, source, _, _, held, stays⟩ := source_of_name? resolved used named
  exact ⟨source, held, stays⟩

/-! ### Names that stay -/

theorem keepsJoins (resolved : u.Resolved f notes) : KeepsJoins (fun _ p => Kept f u notes p) notes.records :=
  fun _ _ _ _ => kept_of_join resolved

theorem stays_of_number (found : (numberEnv notes.records env).get? n = some d)
    (kept : ∀ c ∈ (Plan.ofUses f u).removals, c.definition ≠ d) : Stays (fun _ p => Kept f u notes p) env n := by
  obtain ⟨p, held, rfl⟩ := get?_numberEnv.mp found
  exact ⟨p, held, kept⟩

section Statements

variable {s s' : Stmt} {env after : Env} {sub : Notes}

theorem stays_of_reads (resolved : u.Resolved f notes) (mem : s ∈ f.body.all) (refit : s.Refit (Replaced f u) B s')
    (walk : StmtWalk env s after sub) (within : sub.Within notes) :
    (∀ n ∈ s'.reads, Stays (fun _ p => Kept f u notes p) env n) ∧ ∀ e' ∈ s'.exprs, ∀ n ∈ e'.uses, Stays (fun _ p => Kept
    f u notes p) env n := by
  have reads := DeadCode.reads_of_walk resolved mem walk within
  have early := fun n => Stays.early (n := n) (keepsJoins resolved) walk within
  constructor
  · intro n held
    rw [refit.same.2.2.1] at held
    cases s with
    | store node name path value =>
      cases mem_singleton.mp held
      obtain ⟨d, found, used⟩ := reads.held node n path value rfl
      exact early n (stays_of_number found fun c removed => kept_of_kind used UseKind.noConfusion removed)
    | _ => cases held
  · intro e' listed n used
    obtain ⟨e, part, replaced⟩ := exists_of_forall₂ refit.exprs e' listed
    obtain ⟨d, found, kept⟩ := replaced.uses s.id _ (reads.exprs e part) n used
    exact early n (stays_of_number found kept)

theorem trimmed_of_refit (resolved : u.Resolved f notes)
    (refit : s.Refit (Replaced f u) (fun b b' => Trimmed f u notes b.stmts b'.stmts ∧ b'.stmts ≠ []) s') :
    Trimmed f u notes [s] [s'] := by
  have inner := refit.imp fun b b' ⟨reduced, filled⟩ =>
    (⟨reduced.cut, fun _ _ => reduced, filled⟩ : ReducedIn (fun _ p => Kept f u notes p) notes f.body.all true s b b')
  refine reduced_of_refit (keepsJoins resolved) inner (fun _ _ part => ⟨part.made, part.layout⟩) ?_
  exact fun mem _ _ _ walk within => stays_of_reads resolved mem refit walk within

theorem trimmed_of_removed (resolved : u.Resolved f notes) (removed : (Plan.ofUses f u).removes s.id = true) :
    Trimmed f u notes [s] [] := by
  refine ⟨fun _ => wellMade_nil, fun walks _ among => ⟨by rintro _ ⟨⟩, fun _ n stays => .inl ?_⟩⟩
  obtain ⟨copy, listed, same⟩ := List.any_eq_true.mp removed
  obtain ⟨stands, stmt, definition, _, _⟩ := made_of_copies resolved (removed_of_mem listed).listed
  cases resolved.survey.stmt_eq stands (among s (mem_allOf mem_cons_self)) (stmt.symm.trans (of_decide_eq_true same))
  cases walks with
  | cons walk rest =>
    cases rest
    obtain ⟨_, _, _, rfl, _⟩ := walk
    refine stays.of_unbound fun i n named kept => ?_
    cases i with
    | zero => exact absurd definition.symm (kept copy listed)
    | succ i => cases named

theorem trimmed_skip {stmts : List Stmt} (reduced : Trimmed f u notes stmts []) :
    Trimmed f u notes stmts [.skip node] := by
  have made : Stands ∅ (fun _ => False) [.skip node] := stands_skip
  refine ⟨fun _ => made.made, fun walks within among => ⟨nofun, fun full n stays => .inl ?_⟩⟩
  exact ((reduced.passes walks within among).defines full n stays).resolve_right nofun

end Statements

/-! ### Rounds -/

theorem reworks (resolved : u.Resolved f notes) : Rebuild.Reworks Edit.logic (Plan.ofUses f u).hooks (fun _ _ => True)
    (fun _ => Replaced f u) (fun _ b b' => Trimmed f u notes b.stmts b'.stmts ∧ b'.stmts ≠ [])
    (fun _ => Trimmed f u notes) where
  refl _ := trivial
  trans _ _ := trivial
  mono _ replaced := replaced
  name _ := rfl
  expr := by
    intro names e usual _ inner
    simp only [Plan.hooks]
    split
    · rename_i node n name named
      exact logic.pure ⟨trivial, replaced_of_name? resolved named⟩
    · rename_i other
      refine logic.imp (inner fun _ _ => trivial) fun e' more made => ⟨trivial, replaced_of_refit ?_ made.2⟩
      rintro node n rfl
      exact Option.eq_none_iff_forall_ne_some.mpr fun name named => other node n name rfl named
  monoBlock _ reduced := reduced
  monoRow _ reduced := reduced
  nil _ := .nil
  cons := .cons
  stmt := by
    intro names st usual made
    simp only [Plan.hooks]
    split
    · rename_i removed
      exact logic.pure ⟨trivial, trimmed_of_removed resolved removed⟩
    · refine logic.bind (logic.imp made fun st' more refit => ?_)
      exact logic.pure ⟨trivial, trimmed_of_refit resolved refit.2⟩
  block := by
    intro names b usual made
    refine leads_logic.mpr (leads_bind ((leads_logic.mp made).imp ?_))
    rintro b' more ⟨_, reduced⟩
    split
    · rename_i empty
      rw [List.isEmpty_iff.mp empty] at reduced
      refine leads_bind (Edit.leads_skip fun node => leads_pure ?_)
      exact ⟨trivial, trimmed_skip reduced, cons_ne_nil _ _⟩
    · rename_i filled
      exact leads_pure ⟨trivial, reduced, fun empty => filled (List.isEmpty_iff.mpr empty)⟩

theorem leads_round (distinct : f.ids.Nodup) (checked : f.check = .ok ()) (used : Uses.ofFunc f = .ok u)
    {names : NameSupply} : Leads names ((Plan.ofUses f u).hooks.onFunc f) fun g _ => g.check = .ok () := by
  obtain ⟨reach, analysed, _⟩ := bind_ok.mp used
  obtain ⟨exit, inner, walked, _⟩ := walk_of_func analysed
  have resolved := Uses.resolved_of_walk distinct used walked
  have rebuilt := leads_logic.mp (Rebuild.leads_onBlock (reworks resolved) f.body (s := names))
  refine leads_bind (rebuilt.imp fun b more ⟨_, reduced, filled⟩ => ?_)
  exact leads_pure (check_of_reduced checked walked (.right _ _) reduced filled)

theorem total_noteAll (plan : Plan) : Total plan.noteAll := by
  refine (total_forIn (fun r _ => ?_) _).bind fun _ => (total_forIn (fun c _ => ?_) _).bind fun _ => total_pure _
  · exact (total_note _ _ _).bind fun _ => total_pure _
  · exact (total_note _ _ _).bind fun _ => total_pure _

/-- Any number of rounds can be carried out, and what they leave is well formed. -/
theorem makes_rounds (fuel : Nat) (fresh : Edit.Fresh s f.ids) (checked : f.check = .ok ()) :
    ∃ g s', Makes (rounds fuel f) s g s' ∧ g.check = .ok () := by
  induction fuel generalizing f s with
  | zero => exact ⟨f, s, makes_pure.mpr ⟨rfl, rfl⟩, checked⟩
  | succ fuel ih =>
    obtain ⟨_, _, reach, analysed⟩ := WellFormed.check_ok.mp checked
    obtain ⟨u, used⟩ := Uses.exists_of_reaching fresh.distinct analysed
    obtain ⟨h, s', made, well⟩ : ∃ h s', Makes (if (Plan.ofUses f u).isEmpty then return f
        else (Plan.ofUses f u).noteAll >>= fun _ => (Plan.ofUses f u).hooks.onFunc f >>= rounds fuel) s h s' ∧
        h.check = .ok () := by
      split
      · exact ⟨f, s, makes_pure.mpr ⟨rfl, rfl⟩, checked⟩
      · obtain ⟨_, t, noted⟩ := total_noteAll (Plan.ofUses f u) s
        obtain ⟨g, t', rebuilt, next⟩ := leads_round fresh.distinct checked used t rfl
        obtain ⟨h, s', last, well⟩ := ih (fresh_of_round noted rebuilt fresh) next
        exact ⟨h, s', makes_bind.mpr ⟨_, t, noted, makes_bind.mpr ⟨g, t', rebuilt, last⟩⟩, well⟩
    exact ⟨h, s', makes_bind.mpr ⟨u, s, makes_lift.mpr ⟨used, rfl⟩, made⟩, well⟩

end CopyPropagation

end NumLang
