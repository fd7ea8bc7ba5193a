import NumLang.Proofs.Upkeep

/-!
Merging branches does not fail.
-/

namespace NumLang

namespace BranchMerging

open Edit Stmt

variable {names : NameSupply} {defined wider : Name → Prop} {used : NameSet}

/-- What is known of the assignments of an arm under new names. -/
structure Speculates (old : NameSet) (wider : Name → Prop) (table : NameMap Name) (stmts out : List Stmt)
    (last : NameMap Name) (more : NameSupply) : Prop where
  fresh : last.Fresh (· ∈ old) more.state
  stands : Stands more.used wider out
  covers : ∀ n ∈ definesAll stmts, (last.get? n).isSome = true
  others : ∀ n ∉ definesAll stmts, last.get? n = table.get? n
  defines : ∀ n x, last.get? n = some x → table.get? n = some x ∨ x ∈ definesAll out

section Speculates

variable {old : NameSet} {table table' last : NameMap Name} {rest out : List Stmt} {node : Node} {target : Binder}
  {ann : Option Ann} {value : Expr}

theorem stands_renamed (stands : Stands old defined [.assign node target ann value]) (before : Renames (· ∈ old) ρ)
    (after : Renames (· ∈ old) ρ') (taken : ∀ n ∈ old, ρ n ∈ used) (taken' : ∀ n ∈ old, ρ' n ∈ used)
    (moves : ∀ n, defined n → wider (ρ n)) :
    Stands used wider [.assign node (target.rename ρ') ann (value.rename ρ)] := by
  obtain ⟨bound, _, exprs, ⟨distinct, fits⟩, _⟩ := stands_single.mp stands
  refine stands_assign ?_ ?_ ?_ ?_
  · rw [Binder.names_rename]
    intro n mem
    obtain ⟨m, listed, rfl⟩ := mem_map.mp mem
    exact ⟨after.plain m (bound m listed).2 (bound m listed).1, taken' m (bound m listed).2⟩
  · rw [Binder.names_rename]
    exact after.nodup (fun n listed => (bound n listed).2) distinct
  · rw [Expr.layout_copy value (Expr.copy_rename _ value), Binder.fits_rename]
    exact fits
  · exact Expr.stands_copy (Expr.copy_rename _ value) (exprs value mem_cons_self) before taken moves

theorem Speculates.assign {more : NameSupply}
    (first : Stands more.used wider [.assign node (target.rename table'.toRenaming) ann value'])
    (covered : ∀ n ∈ target.names, ∃ x, table'.get? n = some x ∧ x ∉ names.used)
    (others : ∀ n ∉ target.names, table'.get? n = table.get? n)
    (done : Speculates old (fun n => wider n ∨ n ∈ OrdSet.ofList (target.rename table'.toRenaming).names) table' rest
    out last more) :
    Speculates old wider table (.assign node target ann value :: rest) (.assign node (target.rename table'.toRenaming)
    ann value' :: out) last more := by
  refine ⟨done.fresh, stands_cons.mpr ⟨first, done.stands⟩, fun n here => ?_, fun n absent => ?_, fun n x found => ?_⟩
  · by_cases again : n ∈ definesAll rest
    · exact done.covers n again
    · obtain ⟨x, found, _⟩ := covered n (mem_ofList.mp ((mem_union.mp here).resolve_right again))
      rw [done.others n again, found]
      rfl
  · rw [definesAll, mem_union, not_or] at absent
    rw [done.others n absent.2, others n fun named => absent.1 (mem_ofList.mpr named)]
  · rw [definesAll, mem_union]
    rcases done.defines n x found with here | here
    · by_cases again : n ∈ target.names
      · refine .inr (.inl (mem_ofList.mpr ?_))
        rw [Binder.names_rename]
        exact mem_map.mpr ⟨n, again, by rw [NameMap.toRenaming, here, getD_some]⟩
      · exact .inl (others n again ▸ here)
    · exact .inr (.inr here)

theorem leads_speculate (straight : Straight stmts) (fresh : table.Fresh (· ∈ old) names.state)
    (spelled : table.Spelled) (taken : ∀ n ∈ old, n ∈ names.used) (stands : Stands old defined stmts)
    (moves : ∀ n, defined n → wider (table.toRenaming n)) :
    Leads names (speculate table stmts) fun made more => Retains names more ∧ Speculates old wider table stmts made.1
    made.2 more := by
  induction stmts generalizing names defined wider table with
  | nil =>
    exact leads_pure ⟨.refl names, fresh, stands_nil _ _, by rintro _ ⟨⟩, fun _ _ => rfl,
      fun _ _ found => .inl found⟩
  | cons s rest ih =>
    obtain ⟨first, later⟩ := stands_cons.mp stands
    have straight' : Straight rest := fun s mem => straight s (mem_cons_of_mem _ mem)
    rcases straight s mem_cons_self with ⟨node, target, ann, value, rfl⟩ | ⟨node, rfl⟩
    · rw [speculate]
      refine leads_bind (leads_refreshNames fresh spelled taken ?_)
      intro table' more fresh' spelled' kept covered others
      have taken' : ∀ n ∈ old, n ∈ more.used := fun n here => kept n (taken n here)
      have moves' : ∀ n, defined n ∨ n ∈ (Stmt.assign node target ann value).defines →
          wider (table'.toRenaming n) ∨
            table'.toRenaming n ∈ OrdSet.ofList (target.rename table'.toRenaming).names := by
        intro n here
        rw [mem_ofList, Binder.names_rename]
        by_cases again : n ∈ target.names
        · exact .inr (mem_map_of_mem again)
        · rw [NameMap.toRenaming, others n again]
          exact .inl (moves n (here.resolve_right fun named => again (mem_ofList.mp named)))
      have inner := @ih more _ (fun n => wider n ∨ n ∈ OrdSet.ofList (target.rename table'.toRenaming).names) table'
        straight' fresh' spelled' taken' later moves'
      refine leads_bind (inner.imp ?_)
      rintro ⟨out, last⟩ most ⟨kept', done⟩
      refine leads_pure ⟨kept.trans kept', done.assign (Stands.mono ?_ kept') covered others⟩
      exact stands_renamed first (fresh.renames spelled) (fresh'.renames spelled')
        (fun n here => kept _ (fresh.toRenaming_mem taken here)) (fun n here => fresh'.toRenaming_mem taken' here) moves
    · have same : ∀ n, n ∈ definesAll (Stmt.skip node :: rest) ↔ n ∈ definesAll rest := by
        simp [definesAll, Stmt.defines]
      have stands' : Stands old defined rest := later.wider fun n here => here.resolve_right (by rintro ⟨⟩)
      refine (ih straight' fresh spelled taken stands' moves).imp ?_
      rintro made more ⟨kept, done⟩
      refine ⟨kept, done.fresh, done.stands, fun n here => done.covers n ((same n).mp here), ?_, done.defines⟩
      exact fun n absent => done.others n fun here => absent ((same n).mpr here)

end Speculates

section Merges

variable {choice : Name → Option (Name × Name)} {test : Name} {merged : List Name} {out : List Stmt}

theorem total_merges (choice : Name → Option (Name × Name)) (test : Name) (merged : List Name) :
    Total (merged.filterMapM fun n => do
      match choice n with
      | some (taken, other) => return some (← choose test n taken other)
      | none => return none : Edit (List Stmt)) := by
  have chooses : ∀ n taken other, Total (choose test n taken other) := by
    intro n taken other s
    have leads : Leads s.names (choose test n taken other) fun _ _ => True :=
      leads_bind (leads_var fun _ => leads_bind (leads_var fun _ => leads_bind (leads_var fun _ =>
        leads_bind (leads_node fun _ => leads_assign fun _ => trivial))))
    obtain ⟨st, t, made, _⟩ := leads s rfl
    exact ⟨st, t, made⟩
  induction merged with
  | nil => exact total_pure []
  | cons n rest ih =>
    rw [List.filterMapM_cons]
    refine Total.bind ?_ fun result => ?_
    · cases choice n with
      | none => exact total_pure none
      | some p => exact (chooses n p.1 p.2).bind fun _ => total_pure _
    · cases result with
      | none => exact ih
      | some st => exact ih.bind fun _ => total_pure _

theorem Merges.stands (merges : Merges choice test merged out) (plain : ∀ n ∈ merged, n.IsPlain ∧ n ∈ used)
    (tested : test ∈ used ∧ defined test)
    (held : ∀ n ∈ merged, ∀ p, choice n = some p → (p.1 ∈ used ∧ defined p.1) ∧ p.2 ∈ used ∧ defined p.2) :
    Stands used defined out := by
  induction merges generalizing defined with
  | nil => exact stands_nil _ _
  | choose chosen chooses rest ih =>
    obtain ⟨node, inner, x, y, z, rfl⟩ := chooses
    obtain ⟨own, plain⟩ := forall_mem_cons.mp plain
    obtain ⟨choices, held⟩ := forall_mem_cons.mp held
    obtain ⟨first, second⟩ := choices _ chosen
    refine stands_cons.mpr ⟨stands_set own.1 own.2 (Expr.stands_of_children rfl trivial ?_), ?_⟩
    · exact forall_mem_cons.mpr ⟨Expr.stands_var tested.2 tested.1, forall_mem_cons.mpr
        ⟨Expr.stands_var first.2 first.1, forall_mem_singleton.mpr (Expr.stands_var second.2 second.1)⟩⟩
    · exact (ih plain tested held).wider fun _ => .inl
  | pass _ _ ih =>
    exact ih (fun n later => plain n (mem_cons_of_mem _ later)) tested fun n later => held n (mem_cons_of_mem _ later)

theorem Merges.defines (merges : Merges choice test merged out) (mem : n ∈ merged) (chosen : (choice n).isSome = true) :
    n ∈ definesAll out := by
  induction merges with
  | nil => cases mem
  | choose _ chooses _ ih =>
    obtain ⟨node, inner, x, y, z, rfl⟩ := chooses
    rw [definesAll, mem_union]
    rcases mem_cons.mp mem with rfl | later
    · exact .inl (mem_ofList.mpr (mem_singleton.mpr rfl))
    · exact .inr (ih later)
  | pass missing _ ih =>
    rcases mem_cons.mp mem with rfl | later
    · rw [missing] at chosen
      cases chosen
    · exact ih later

end Merges

variable {test : Expr} {loc : Option Loc} {stmts : List Stmt} {n : Name} {r : Reaching} {s : Stmt}

theorem leads_nameTest (stands : test.Stands names.used defined) :
    Leads names (nameTest assigned test) fun made more => Retains names more ∧ Stands more.used defined made.2 ∧ made.1
    ∈ more.used ∧ (defined made.1 ∨ made.1 ∈ definesAll made.2) := by
  unfold nameTest
  split
  · rename_i n found
    cases test with
    | var node name =>
      obtain ⟨same, _⟩ := Option.filter_eq_some_iff.mp found
      cases same
      refine leads_pure ⟨.refl names, stands_nil _ _, stands.known _ mem_cons_self, .inl (stands.uses _ ?_)⟩
      exact OrdSet.mem_singleton.mpr rfl
    | _ => cases found
  · refine leads_bind (leads_freshName fun n more spelled _ grows => leads_bind (leads_assign fun node => leads_pure ?_))
    have kept : Retains names more := fun x here => (grows x).mpr (.inr here)
    have drawn : n ∈ more.used := (grows n).mpr (.inl rfl)
    refine ⟨kept, stands_set (by simp [Name.IsPlain, spelled]) drawn (stands.mono kept), drawn, .inr ?_⟩
    exact mem_definesAll_single.mpr (mem_ofList.mpr (mem_singleton.mpr rfl))

theorem stands_locate : Stands used defined (locate loc stmts) ↔ Stands used defined stmts := by
  cases stmts with
  | nil => rfl
  | cons s rest =>
    rw [locate, stands_cons, @stands_cons _ _ s]
    split
    · rw [stands_withNode, defines_withNode]
    · rfl

theorem definesAll_locate (stmts : List Stmt) : definesAll (locate loc stmts) = definesAll stmts := by
  cases stmts with
  | nil => rfl
  | cons s rest =>
    rw [locate, definesAll, definesAll]
    split
    · rw [defines_withNode]
    · rfl

theorem held_of_choices {s₁ s₂ : NameSupply} (left : Speculates old wider ∅ ift ifts first s₁)
    (right : Speculates old wider' ∅ iff iffs second s₂) (known : n ∈ s₂.used) (kept : Retains s₁ s₂)
    (earlier : ∀ n ∈ before, defined n) (chosen : choices? before first second n = some p) :
    (p.1 ∈ s₂.used ∧ (defined p.1 ∨ p.1 ∈ definesAll ifts)) ∧ p.2 ∈ s₂.used ∧ (defined p.2 ∨ p.2 ∈ definesAll iffs) :=
    by
  obtain ⟨rfl, visible⟩ := choices?_eq_some chosen
  have either : ∀ {stmts out : List Stmt} {last : NameMap Name} {more : NameSupply} {wider : Name → Prop},
      Speculates old wider ∅ stmts out last more → Retains more s₂ → ((last.get? n).isSome = true ∨ n ∈ before) →
      last.toRenaming n ∈ s₂.used ∧ (defined (last.toRenaming n) ∨ last.toRenaming n ∈ definesAll out) := by
    intro stmts out last more wider done kept visible
    cases found : last.get? n with
    | none =>
      rw [NameMap.toRenaming, found, Option.getD_none]
      refine ⟨known, .inl (earlier n (visible.resolve_left ?_))⟩
      simp [found]
    | some x =>
      rw [NameMap.toRenaming, found, getD_some]
      exact ⟨kept x (done.fresh.drawn n x found).2, .inr ((done.defines n x found).resolve_left (by simp))⟩
  exact ⟨either left kept (visible.imp_left And.left), either right (.refl _) (visible.imp_left And.right)⟩

theorem mem_definesAll_of_straight (straight : Straight stmts) :
    n ∈ definesAll stmts ↔ n ∈ stmts.flatMap Stmt.binds := by
  induction stmts with
  | nil => exact ⟨nofun, nofun⟩
  | cons s rest ih =>
    rw [definesAll, mem_union, flatMap_cons, mem_append, ih fun s mem => straight s (mem_cons_of_mem _ mem)]
    rcases straight s mem_cons_self with ⟨_, target, _, _, rfl⟩ | ⟨_, rfl⟩
    · rw [Stmt.defines, mem_ofList]
      rfl
    · exact or_congr_left ⟨nofun, nofun⟩

theorem leads_merge {node : Node} {ift iff : Block} (straight : Straight ift.stmts)
    (straight' : Straight iff.stmts) (tested : test.Stands names.used defined) (left : Stands names.used defined ift.stmts)
    (right : Stands names.used defined iff.stmts) (earlier : ∀ n ∈ namesBefore r node.id, defined n) :
    Leads names (merge r node test ift iff) fun out more => Retains names more ∧ Stands more.used defined out ∧
      out ≠ [] ∧ ∀ n ∈ definesAll ift.stmts, n ∈ definesAll iff.stmts → n ∈ definesAll out := by
  have assigned : ∀ n, n ∈ (ift.assigned ∪ iff.assigned).toList ↔ n ∈ definesAll ift.stmts ∨ n ∈ definesAll iff.stmts := by
    intro n
    rw [← OrdSet.mem_def, mem_union, mem_assigned_of_straight straight, mem_assigned_of_straight straight',
      mem_definesAll_of_straight straight, mem_definesAll_of_straight straight']
  have bound : ∀ n ∈ (ift.assigned ∪ iff.assigned).toList, n.IsPlain ∧ n ∈ names.used := fun n mem =>
    (mem_union.mp mem).elim left.assigned right.assigned
  unfold merge
  refine leads_bind ((leads_nameTest tested).imp ?_)
  rintro ⟨testName, head⟩ s₁ ⟨kept₁, headStands, testKnown, testHeld⟩
  have first := @leads_speculate s₁ defined (fun n => defined n ∨ n ∈ definesAll head) names.used ∅ ift.stmts straight
    (.empty _ _) NameMap.spelled_empty kept₁ left fun n here => .inl here
  refine leads_bind (first.imp ?_)
  rintro ⟨iftStmts, iftNames⟩ s₂ ⟨kept₂, ifts⟩
  have second := @leads_speculate s₂ defined
    (fun n => (defined n ∨ n ∈ definesAll head) ∨ n ∈ definesAll iftStmts) names.used ∅ iff.stmts straight'
    (.empty _ _) NameMap.spelled_empty (kept₁.trans kept₂) right fun n here => .inl (.inl here)
  refine leads_bind (second.imp ?_)
  rintro ⟨iffStmts, iffNames⟩ s₃ ⟨kept₃, iffs⟩
  have kept : Retains names s₃ := (kept₁.trans kept₂).trans kept₃
  refine leads_bind ((total_merges _ testName _).leads fun s merges t same made => ?_)
  obtain ⟨merged, still⟩ := makes_merges made
  rw [still, same]
  have rows : Stands s₃.used defined (locate node.loc (head ++ iftStmts ++ iffStmts ++ merges)) := by
    rw [stands_locate, stands_append, stands_append, stands_append]
    refine ⟨⟨⟨headStands.mono (kept₂.trans kept₃), ifts.stands.mono kept₃⟩, iffs.stands.wider ?_⟩, ?_⟩
    · intro n here
      rw [mem_definesAll_append, ← or_assoc]
      exact here
    · refine merged.stands (fun n mem => ⟨(bound n mem).1, kept n (bound n mem).2⟩) ⟨?_, ?_⟩ ?_
      · exact kept₃ _ (kept₂ _ testKnown)
      · simp only [mem_definesAll_append]
        grind
      · intro n mem p chosen
        have held := held_of_choices ifts iffs (kept n (bound n mem).2) kept₃ earlier chosen
        simp only [mem_definesAll_append]
        grind
  have defines : ∀ n ∈ definesAll ift.stmts, n ∈ definesAll iff.stmts →
      n ∈ definesAll (locate node.loc (head ++ iftStmts ++ iffStmts ++ merges)) := by
    intro n here there
    rw [definesAll_locate, mem_definesAll_append]
    refine .inr (merged.defines ((assigned n).mpr (.inl here)) (isSome_choices? ?_ ?_))
    · exact .inl (ifts.covers n here)
    · exact .inr ⟨ifts.covers n here, iffs.covers n there⟩
  have finish : ∀ out, Stands s₃.used defined out → out ≠ [] →
      (∀ n ∈ definesAll ift.stmts, n ∈ definesAll iff.stmts → n ∈ definesAll out) →
      Leads s₃ (noteAt .ifSimplified node.id (toString (ift.assigned ∪ iff.assigned).size ++ " names merged") >>=
        fun _ => pure out) fun out more => Retains names more ∧ Stands more.used defined out ∧
          out ≠ [] ∧ ∀ n ∈ definesAll ift.stmts, n ∈ definesAll iff.stmts → n ∈ definesAll out :=
    fun out stands filled defines => leads_bind (leads_note (leads_pure ⟨kept, stands, filled, defines⟩))
  dsimp only
  split
  · rename_i empty
    rw [List.isEmpty_iff] at empty
    refine leads_bind (leads_skip fun node => finish _ stands_skip (cons_ne_nil _ _) fun n here there => ?_)
    have never := defines n here there
    rw [empty] at never
    cases never
  · rename_i filled
    exact finish _ rows (by simpa using filled) defines

theorem stands_of_arms {arms : Arms} (found : arms? s = some arms) (stands : Stands used defined [s]) :
    arms.test.Stands used defined ∧ Stands used defined arms.ift.stmts ∧ Stands used defined arms.iff.stmts ∧ ∀ n ∈
      s.defines, n ∈ definesAll arms.ift.stmts ∧ n ∈ definesAll arms.iff.stmts := by
  obtain ⟨_, _, exprs, _, inner⟩ := stands_single.mp stands
  cases s with
  | when node test body =>
    simp only [arms?] at found
    split at found
    · cases found
      exact ⟨exprs test mem_cons_self, (inner body mem_cons_self).2, stands_nil _ _, by rintro _ ⟨⟩⟩
    · cases found
  | branch node test ift iff =>
    simp only [arms?] at found
    split at found
    · cases found
      refine ⟨exprs test mem_cons_self, (inner ift mem_cons_self).2,
        (inner iff (mem_cons_of_mem _ mem_cons_self)).2, fun n here => ?_⟩
      rw [Stmt.defines, mem_inter, Block.defines_eq, Block.defines_eq] at here
      exact here
    · cases found
  | _ => cases found

theorem leads_rewrite {s' : Stmt} (settled : Settled (Flow.inForce r) names.used defined [s])
    (serves : Serves names.used defined [s] [s']) (same : s'.id = s.id) : Leads names (rewrite r s') fun out more =>
    Retains names more ∧ Serves more.used defined [s] out := by
  cases found : arms? s' with
  | none =>
    rw [rewrite_of_none found]
    exact leads_pure ⟨.refl names, serves⟩
  | some arms =>
    have of := arms_of found
    have earlier : ∀ n ∈ namesBefore r arms.node.id, defined n := by
      rw [of.id, same]
      exact settled.own
    obtain ⟨tested, left, right, both⟩ := stands_of_arms found serves.toStands
    rw [rewrite_of_arms found]
    refine (leads_merge of.straight of.straight' tested left right earlier).imp fun out more facts => ?_
    obtain ⟨kept, stands, filled, defines⟩ := facts
    refine ⟨kept, serves.trans ⟨stands, fun n here => ?_, fun _ => filled⟩⟩
    obtain ⟨here, there⟩ := both n (mem_definesAll_single.mp here)
    exact defines n here there

theorem leads_edit {f : Func} (distinct : f.ids.Nodup) (checked : f.check = .ok ()) :
    Leads (.ofFunc f) (edit f) fun g _ => g.check = .ok () := by
  obtain ⟨_, _, r, analysed⟩ := WellFormed.check_ok.mp checked
  refine leads_bind (leads_lift analysed (Rebuild.leads_check (rewrites_hooks r) ?_ distinct checked analysed))
  intro names more defined s s' settled _ kept shape
  have later := settled.mono kept
  exact leads_rewrite later (serves_of_reshaped later shape) shape.id

end BranchMerging

end NumLang
