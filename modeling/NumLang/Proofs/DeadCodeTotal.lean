import NumLang.Proofs.CutOff

/-!
Removal of dead code does not fail on a well-formed function in which nothing is cut off in the arms of a branch.
-/

namespace NumLang

variable {s : Stmt}

namespace DeadCode

open Flow Reaching Edit WellFormed

section Total

variable (plan : Plan)

theorem total_noteRemoved (kind : EventKind) (why : String) (s : Stmt) : Total (noteRemoved kind why s) :=
  total_note kind (some s.id) _

theorem total_dropRedundant (stmts : List Stmt) : Total (dropRedundant stmts) := by
  unfold dropRedundant
  split
  exact (total_forIn (fun s _ => (total_noteRemoved _ _ s).bind fun _ => total_pure _) _).bind fun _ => total_pure _

theorem total_stmt {usual : Edit Stmt} (total : Total usual) : Total (plan.hooks.stmt s usual) := by
  simp only [Plan.hooks]
  split
  · exact (total_noteRemoved _ _ _).bind fun _ => total_pure _
  · split
    · exact (total_noteRemoved _ _ _).bind fun _ => total_pure _
    · refine total.bind fun s' => ?_
      split
      · exact (total_noteRemoved _ _ _).bind fun _ => total_pure _
      · exact total_pure _

mutual

theorem total_remake : (s : Stmt) → Total (plan.hooks.remake s)
  | .when _ _ body | .loop _ _ body | .each _ _ _ body | .scope _ _ _ body =>
    (total_onBlock body).bind fun _ => total_pure _
  | .branch _ _ ift iff => (total_onBlock ift).bind fun _ => (total_onBlock iff).bind fun _ => total_pure _
  | .assign .. | .store .. | .assert .. | .effect .. | .ret .. | .skip .. => total_pure _

theorem total_onBlock : (b : Block) → Total (plan.hooks.onBlock b)
  | ⟨id, stmts⟩ => by
    refine Total.bind ((total_onStmts stmts).bind fun _ => total_pure _) fun b => ?_
    refine (total_dropRedundant _).bind fun kept => ?_
    split
    · exact total_skip.bind fun _ => total_pure _
    · exact total_pure _

theorem total_onStmts : (stmts : List Stmt) → Total (plan.hooks.onStmts stmts)
  | [] => total_pure _
  | s :: rest => by
    refine Total.bind ?_ fun _ => (total_onStmts rest).bind fun _ => total_pure _
    rw [Rebuild.onStmt_eq_remake (plain_hooks plan)]
    exact total_stmt plan (total_remake s)

end

end Total

section Sparing

variable {f : Func} {u : Uses} {notes : Notes} {plan : Plan}

theorem reads_of_walk (resolved : u.Resolved f notes) (mem : s ∈ f.body.all) {before after : Env} {sub : Notes}
    (walk : StmtWalk before s after sub) (within : sub.Within notes) :
    Uses.Reads u.reach u.uses s (numberEnv notes.records (evalEnv before s)) := by
  obtain ⟨exit, reach⟩ := resolved.reach
  obtain ⟨env, reads⟩ := resolved.complete.reads s mem
  have here : u.reach.envAt? s.point = some (numberEnv notes.records (evalEnv before s)) :=
    reach ▸ resolved.survey.envAt?_point (entryOf f) exit walk within
  have located := reads.located
  rw [here] at located
  cases located
  exact reads

theorem Plan.Fits.spares (fits : plan.Fits f u) (resolved : u.Resolved f notes) :
    Sparing (fun _ p => Needed f u notes p) (· ∈ plan.dead) notes f.body.all where
  joins _ _ _ _ recorded needed := needed_of_join resolved recorded needed
  reads := by
    intro s mem alive before after sub walk within n p used found
    have reads := reads_of_walk resolved mem walk within
    have listed : ∃ use ∈ u.uses, use.site.stmt = s.id ∧
        (numberEnv notes.records (evalEnv before s)).get? n = some use.definition := by
      rcases used with ⟨e, part, used⟩ | held
      · exact (reads.exprs e part).use_of_mem n used
      · cases s with
        | store node name path value =>
          cases mem_singleton.mp held
          obtain ⟨d, found, used⟩ := reads.held node n path value rfl
          exact ⟨_, used, rfl, found⟩
        | _ => cases held
    obtain ⟨use, listed, own, definition⟩ := listed
    have same : use.definition = number notes.records p := by
      obtain ⟨q, inForce, numbered⟩ := get?_numberEnv.mp definition
      cases found.symm.trans inForce
      exact numbered.symm
    have read : use.definition ∈ DeadCode.reads u s.id := by
      refine mem_map.mpr ⟨use, mem_filter.mpr ⟨listed, ?_⟩, rfl⟩
      simpa using own
    rw [Needed, ← same]
    refine live_of_reads resolved mem (Bool.eq_false_iff.mpr fun dead => alive ?_) read
    exact (fits.dead s.id).mpr ⟨s, mem, dead, rfl⟩
  makes := by
    intro s mem listed
    obtain ⟨other, found, dead, same⟩ := (fits.dead s.id).mp listed
    cases resolved.survey.stmt_eq found mem same
    cases s with
    | assign node target ann value =>
      exact ⟨node, target, ann, value, rfl, fun i n named => not_needed_of_dead resolved mem dead named⟩
    | _ => cases dead

end Sparing

/-- What every round finds: identities that are distinct and drawn, a well-formed function, and nothing that is cut off
in the arms of a branch. -/
structure Ready (s : Edit.State) (f : Func) : Prop where
  fresh : Fresh s f.ids
  checked : f.check = .ok ()
  tidy : Tidy f

variable {f : Func} {s : Edit.State}

theorem nodup_body (distinct : f.ids.Nodup) : f.body.ids.Nodup := by
  refine List.Sublist.nodup ?_ distinct
  rw [Func.ids]
  exact (sublist_append_right ..).cons _

theorem Ready.round (ready : Ready s f) :
    ∃ plan, Plan.ofFunc f = .ok plan ∧ ∀ g s', Makes (plan.hooks.onFunc f) s g s' → Ready s' g := by
  obtain ⟨_, _, reach, analysed⟩ := check_ok.mp ready.checked
  obtain ⟨u, used⟩ := Uses.exists_of_reaching ready.fresh.distinct analysed
  obtain ⟨plan, planned⟩ : ∃ plan, Plan.ofFunc f = .ok plan := ⟨_, bind_ok.mpr ⟨u, used, rfl⟩⟩
  refine ⟨plan, planned, fun g s' made => ?_⟩
  have fresh := Edit.fresh_of_works (Rebuild.works_onFunc (balances plan) f) made ready.fresh
  obtain ⟨_, same, fits⟩ := fits_of_func planned
  cases used.symm.trans same
  obtain ⟨exit, inner, walked, _⟩ := walk_of_func analysed
  have sparing := fits.spares (Uses.resolved_of_walk ready.fresh.distinct used walked)
  have unreachable : plan.unreachable = f.body.allBlocks.flatMap (cutOff (Reachability.ofFunc f)) := by
    obtain ⟨_, _, result⟩ := bind_ok.mp planned
    cases result
    rfl
  have clears : plan.Clears f _ _ := ⟨nodup_body ready.fresh.distinct, ready.tidy, unreachable, sparing⟩
  obtain ⟨⟨node, stmts⟩, t, rebuilt, made⟩ := makes_bind.mp made
  cases (makes_pure.mp made).1
  obtain ⟨whole, reduced, filled, leaves⟩ := clears.onBlock f.body f.body.mem_allBlocks true (.refl _) rebuilt
  refine ⟨fresh, check_of_reduced ready.checked walked (.right _ _) reduced filled, ?_⟩
  intro st mem b inArm
  refine cutOff_of_uncut_block (nodup_body fresh.distinct) ⟨node, stmts⟩ true leaves.uncut (.refl _) b ?_
  exact (Block.closed _).allBlocks st mem (mem_allBlocks_of_arms inArm)

theorem Ready.rounds (ready : Ready s f) (fuel : Nat) :
    ∃ g s', Makes (DeadCode.rounds fuel f) s g s' ∧ g.check = .ok () := by
  induction fuel generalizing s f with
  | zero => exact ⟨f, s, makes_pure.mpr ⟨rfl, rfl⟩, ready.checked⟩
  | succ fuel ih =>
    obtain ⟨plan, planned, next⟩ := ready.round
    obtain ⟨g, t, rebuilt⟩ := ((total_onBlock plan f.body).bind fun body => total_pure { f with body := body }) s
    have left : Ready t g := next g t rebuilt
    obtain ⟨h, s', last, checked⟩ : ∃ h s', Makes
        (if t.changes.length = s.changes.length then return g else DeadCode.rounds fuel g) t h s' ∧
        h.check = .ok () := by
      split
      · exact ⟨g, t, makes_pure.mpr ⟨rfl, rfl⟩, left.checked⟩
      · exact ih left
    refine ⟨h, s', makes_bind.mpr ⟨s, s, rfl, ?_⟩, checked⟩
    refine makes_bind.mpr ⟨plan, s, makes_lift.mpr ⟨planned, rfl⟩, makes_bind.mpr ⟨g, t, rebuilt, ?_⟩⟩
    exact makes_bind.mpr ⟨t, t, rfl, last⟩

section Pruning

theorem mem_referenced_of_needs {b : Block} (need : n ∈ b.needs) : n ∈ b.referenced := by
  have read : ∀ stmts, ∀ n ∈ Stmt.needsAll stmts, ∃ s ∈ Stmt.allOf stmts, (∃ e ∈ s.exprs, n ∈ e.vars) ∨ n ∈ s.reads := by
    intro stmts
    induction stmts using Stmt.byBlocks with
    | nil => rintro _ ⟨⟩
    | cons s rest own later =>
      intro n need
      rw [← singleton_append, Stmt.mem_needsAll_append] at need
      rw [← singleton_append, Stmt.allOf_append]
      rcases need with need | ⟨need, _⟩
      · obtain ⟨part, mem, read⟩ := own n need
        exact ⟨part, mem_append_left _ mem, read⟩
      · obtain ⟨part, mem, read⟩ := later n need
        exact ⟨part, mem_append_right _ mem, read⟩
    | step s inner =>
      have here : s ∈ Stmt.allOf [s] := Stmt.mem_allOf mem_cons_self
      simp only [Stmt.mem_needsAll_single]
      refine Stmt.needs_iff.mpr ⟨fun n read => ?_, fun e part n used => ?_, fun b mem n need => ?_⟩
      · exact ⟨s, here, .inr read⟩
      · exact ⟨s, here, .inl ⟨e, part, Expr.mem_vars_of_uses e used⟩⟩
      · obtain ⟨part, inside, read⟩ := inner b mem n need
        refine s.inside_of ⟨part, ?_, read⟩
        simp only [Stmt.allOf, append_nil, Stmt.all_eq s, mem_cons, mem_flatMap, Block.all_eq]
        exact .inr ⟨b, mem, inside⟩
  rw [Block.needs_eq] at need
  obtain ⟨s, mem, read⟩ := read b.stmts n need
  rw [← Block.all_eq] at mem
  refine mem_ofList.mpr (mem_append.mpr (read.imp ?_ fun held => mem_flatMap.mpr ⟨s, mem, held⟩))
  rintro ⟨e, part, used⟩
  obtain ⟨inner, inside, read⟩ := mem_flatMap.mp used
  exact mem_flatMap.mpr ⟨inner, mem_flatMap.mpr ⟨s, mem, Expr.mem_allOf part inside⟩, read⟩

/-- A well-formed function stays so if free names are dropped that its body does not read. -/
theorem check_pruned (checked : f.check = .ok ()) (kept : ∀ n ∈ f.freeVars, n ∈ f.body.referenced → n ∈ free) :
    Func.check { f with freeVars := free, env := env } = .ok () := by
  obtain ⟨params, filled, made, needs⟩ := check_iff.mp checked
  refine check_iff.mpr ⟨params, filled, made, fun n need => (needs n need).imp_right fun listed => ?_⟩
  exact kept n listed (mem_referenced_of_needs need)

theorem makes_pruned (checked : f.check = .ok ()) (s : Edit.State) :
    ∃ g s', Makes (pruneFree f) s g s' ∧ g.check = .ok () := by
  unfold pruneFree
  dsimp only
  have noted : Total (forIn f.freeVars.toList PUnit.unit fun n _ => do
      if n ∉ f.body.referenced ∪ f.body.called then Edit.note .freeVarPruned none ("`" ++ n.text ++ "`")
      return ForInStep.yield PUnit.unit) := by
    refine total_forIn (fun n _ => ?_) _
    split
    · exact (total_note _ _ _).bind fun _ => total_pure _
    · exact total_pure _
  obtain ⟨_, t, loop⟩ := noted s
  refine ⟨_, t, makes_bind.mpr ⟨_, t, loop, makes_pure.mpr ⟨rfl, rfl⟩⟩, check_pruned checked fun n free read => ?_⟩
  exact OrdSet.mem_filter.mpr ⟨free, by simp [read]⟩

end Pruning

/-- Removal of dead code succeeds on a well-formed function, with distinct identities that are all drawn before the
pass, in which nothing is cut off in the arms of a branch. -/
theorem exists_run_deadCode (cfg : Config) (f : Func) (session : Session) (distinct : f.ids.Nodup)
    (drawn : ∀ id ∈ f.ids, id.val < session.next) (checked : f.check = .ok ()) (tidy : Tidy f) :
    ∃ g events after, (Pass.deadCode.run cfg f).run session = (.ok (g, events), after) ∧ g.check = .ok () := by
  have ready : Ready { session := session, names := .ofFunc f } f := ⟨⟨distinct, drawn⟩, checked, tidy⟩
  obtain ⟨h, t, rounds, left⟩ := ready.rounds (f.body.all.length + 1)
  obtain ⟨g, s', pruned, checked⟩ := makes_pruned left t
  have made : Makes (edit f) { session := session, names := .ofFunc f } g s' :=
    makes_bind.mpr ⟨h, t, rounds, pruned⟩
  obtain ⟨events, after, performed⟩ : ∃ events after,
      (perform Pass.deadCode.name edit f).run session = (.ok (g, events), after) := perform_of_makes made checked
  exact ⟨g, events, after, performed, checked⟩

open Sample in
/-- Returns in one arm of an inner branch, with a statement behind it that is never reached outside of any branch. -/
def leaving : Func :=
  func ["x"] [] [
    .branch (node 10) (less 11 (var 12 "x") (int 13 0)) ⟨⟨14⟩, [set 15 "y" (int 16 1), set 17 "z" (int 18 2)]⟩
      ⟨⟨19⟩, [set 20 "y" (int 21 3)]⟩,
    .when (node 22) (less 23 (var 24 "x") (int 25 5)) ⟨⟨26⟩, [.ret (node 27) (var 28 "y"), set 29 "y" (var 30 "x")]⟩,
    .ret (node 31) (var 32 "y"),
    set 33 "w" (var 34 "y")]

theorem exists_run_deadCode_leaving : leaving.ids.Nodup ∧ (∀ id ∈ leaving.ids, id.val < 40) ∧
    leaving.check = .ok () ∧ Tidy leaving ∧ (Plan.ofFunc leaving).toOption.map (·.unreachable) = some [⟨33⟩, ⟨29⟩] ∧
    ∃ g events after, (Pass.deadCode.run {} leaving).run { next := 40 } = (.ok (g, events), after) ∧
      g.check = .ok () := by
  have distinct : leaving.ids.Nodup := by decide
  have drawn : ∀ id ∈ leaving.ids, id.val < 40 := by decide
  have checked : leaving.check = .ok () := by decide +kernel
  have tidy : Tidy leaving := by decide +kernel
  exact ⟨distinct, drawn, checked, tidy, by decide +kernel,
    exists_run_deadCode {} leaving { next := 40 } distinct drawn checked tidy⟩

open Sample in
/-- Gives a value to a name in both arms of a branch, in one of them behind a return. -/
def stranding : Func :=
  func ["c"] [] [
    .branch (node 10) (var 11 "c") ⟨⟨12⟩, [.ret (node 13) (int 14 1), set 15 "x" (int 16 2)]⟩
      ⟨⟨17⟩, [set 18 "x" (int 19 3)]⟩,
    .ret (node 20) (var 21 "x")]

/-- Where an arm of a branch is cut off, removal of dead code may fail: the read behind the branch is left without a
definition. -/
theorem run_deadCode_stranding : stranding.ids.Nodup ∧ (∀ id ∈ stranding.ids, id.val < 30) ∧
    stranding.check = .ok () ∧ ¬ Tidy stranding ∧
    ((Pass.deadCode.run {} stranding).run { next := 30 }).1.toOption.isNone = true := by
  decide +kernel

end DeadCode

end NumLang
