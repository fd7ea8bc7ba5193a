import NumLang.Proofs.Accounts
import NumLang.Proofs.Coupling
import NumLang.Proofs.ReachabilitySound
import NumLang.Proofs.Reference
import NumLang.Proofs.Resolution
import NumLang.Proofs.Saturation

/-!
Removal of dead code is sound.
-/

namespace NumLang

variable {s : Stmt}

namespace DeadCode

open Flow Reaching

variable {V C : Type} {f : Func} {u : Uses} {notes : Notes}

section Needed

variable (resolved : u.Resolved f notes)

include resolved

variable {d : DefId}

theorem reads_bounded (stmt : NodeId) : ∀ d ∈ reads u stmt, d ≤ u.reach.size := by
  intro d mem
  obtain ⟨use, listed, rfl⟩ := mem_map.mp mem
  exact resolved.bounded (mem_filter.mp listed).1

theorem needs_bounded (d : DefId) : ∀ e ∈ needs u d, e ≤ u.reach.size := by
  intro e mem
  unfold needs at mem
  split at mem
  · rename_i found
    exact resolved.join_bounded found e mem
  · exact reads_bounded resolved _ e mem
  · cases mem

theorem live_closed (mem : d ∈ live f u) (needed : e ∈ needs u d) : e ∈ live f u := by
  refine closure_closed (needs_bounded resolved) ?_ mem e needed
  intro d listed
  obtain ⟨s, _, read⟩ := mem_flatMap.mp listed
  exact reads_bounded resolved s.id d read

theorem live_of_reads (mem : s ∈ f.body.all) (alive : isDead u (live f u) s = false) (read : d ∈ reads u s.id) :
    d ∈ live f u := by
  by_cases root : isRoot s = true
  · refine mem_closure_of_mem (mem_flatMap.mpr ⟨s, mem_filter.mpr ⟨mem, root⟩, read⟩)
  · cases s with
    | assign node target ann value =>
      have pure : value.isPure = true := by simpa [isRoot] using root
      simp only [isDead, pure, Bool.true_and, List.all_eq_false, decide_eq_true_eq, not_not] at alive
      obtain ⟨e, made, needed⟩ := alive
      obtain ⟨exit, reach⟩ := resolved.reach
      rw [reach] at made
      obtain ⟨slot, n, prev, _, recorded, rfl⟩ := resolved.survey.mem_defsAt mem made
      refine live_closed resolved needed ?_
      rw [needs, resolved.def? recorded]
      exact read
    | _ => exact absurd rfl root

end Needed

def Needed (f : Func) (u : Uses) (notes : Notes) (p : Place) : Prop := number notes.records p ∈ live f u

def outline (f : Func) (u : Uses) (notes : Notes) : Outline C (Store V × Store V) :=
  notes.outline (Agrees (Needed f u notes)) fun _ => True

variable {m : Machine V C} {c : C} {fuel : Nat} {free : Name → Option V} {args : List V} {v : V}

theorem needed_of_join (resolved : u.Resolved f notes) (recorded : ⟨.join site n, .join n site lhs rhs⟩ ∈ notes.records)
    (needed : Needed f u notes (.join site n)) : Needed f u notes lhs ∧ Needed f u notes rhs := by
  have needs : needs u (number notes.records (.join site n)) =
      [number notes.records lhs, number notes.records rhs] := by
    rw [DeadCode.needs, resolved.def? recorded]
    rfl
  constructor
  · exact live_closed resolved needed (by simp [needs])
  · exact live_closed resolved needed (by simp [needs])

theorem upheld (m : Machine V C) (resolved : u.Resolved f notes) :
    Upheld m .pair notes (Agrees (Needed f u notes)) (fun _ => True) f.body.all :=
  upheld_agrees m notes f.body.all fun _ _ _ _ recorded needed => needed_of_join resolved recorded needed

section Statements

variable (resolved : u.Resolved f notes)

include resolved

variable {node : Node} {value : Expr} {n : Name}

theorem not_needed_of_dead {target : Binder} (mem : .assign node target ann value ∈ f.body.all)
    (dead : isDead u (live f u) (.assign node target ann value) = true) (named : target.names[i]? = some n) :
    ¬ Needed f u notes (.binder node.id i) := by
  obtain ⟨prev, recorded⟩ := resolved.survey.recorded_assign mem named
  obtain ⟨exit, reach⟩ := resolved.reach
  simp only [isDead, Bool.and_eq_true, all_eq_true, decide_eq_true_eq, reach] at dead
  exact dead.2 _ (resolved.survey.number_mem_defsAt recorded)

variable {w : Store V × Store V}

theorem read_of_alive (mem : s ∈ f.body.all) (alive : isDead u (live f u) s = false)
    (agrees : Agrees (Needed f u notes) env w) {use : Use} (listed : use ∈ u.uses) (own : use.site.stmt = s.id)
    (found : (numberEnv notes.records env).get? n = some use.definition) : w.1.get? n = w.2.get? n := by
  obtain ⟨p, inForce, same⟩ := get?_numberEnv.mp found
  refine agrees n p inForce ?_
  have read : use.definition ∈ reads u s.id := by
    refine mem_map.mpr ⟨use, mem_filter.mpr ⟨listed, ?_⟩, rfl⟩
    simpa using own
  rw [Needed, same]
  exact live_of_reads resolved mem alive read

theorem follows_of_alive (mem : s ∈ f.body.all) (alive : isDead u (live f u) s = false) {plan : Plan}
    (part : e ∈ s.exprs) (given : Edit.results.gives () (plan.hooks.onExpr e) e')
    (seen : (outline f u notes).seen s.point c w) : Rebuild.Follows m c w.1 w.2 e e' := by
  obtain ⟨env, agrees, reads⟩ := resolved.reads_of_seen mem seen
  refine Rebuild.follows_onExpr (P := Uses.Lists u.reach s.id _ u.uses) (fun _ => rfl) ⟨?_, ?_, ?_⟩ e (reads.exprs e part)
    given
  · exact fun _ listed _ => listed.operand
  · intro node name listed e' given
    obtain ⟨_, named, given⟩ := Edit.results.of_bind given
    cases Edit.results.of_pure given
    cases Edit.results.of_pure named
    obtain ⟨d, found, used⟩ := listed.var
    have same := read_of_alive resolved mem alive agrees used rfl found
    intro v read
    rw [Machine.eval, Store.read] at read ⊢
    rwa [← same]
  · exact fun _ _ _ _ given inner => inner _ given

theorem follows_of_store (mem : .store node name path value ∈ f.body.all)
    (seen : (outline f u notes).seen (.stmt node.id) c w) :
    Rebuild.Follows m c w.1 w.2 (.var node name) (.var node name) := by
  obtain ⟨env, agrees, reads⟩ := resolved.reads_of_seen mem seen
  obtain ⟨d, found, used⟩ := reads.held node name path value rfl
  have same := read_of_alive resolved mem rfl agrees used rfl found
  intro v read
  rw [Machine.eval, Store.read] at read ⊢
  rwa [← same]

end Statements

theorem exit_of_skips (m : Machine V C) {b : Block} (skips : b.stmts.all isSkip = true) (c : C) (σ : State V) :
    (m.execBlock b c σ).exit = .next ∧ (m.execBlock b c σ).state = σ := by
  obtain ⟨id, stmts⟩ := b
  have none : Stmt.active stmts = [] := by
    refine List.filter_eq_nil_iff.mpr fun s mem => ?_
    simpa using all_eq_true.mp skips s mem
  have alike := m.execStmts_active stmts c σ
  rw [none] at alike
  exact ⟨alike.exit, alike.state⟩

theorem idle_of_isEmptyBranch (m : Machine V C) (empty : isEmptyBranch s = true) : m.Idle s := by
  intro c σ
  have guards : ∀ (test : Expr) {yes no : Outcome V C}, yes.exit = .next ∧ yes.state = σ →
      no.exit = .next ∧ no.state = σ →
      let out := Outcome.attempt (m.test c σ.store test) σ fun holds => if holds then yes else no
      (out.exit = .next → out.state = σ) ∧ ∀ v, out.exit ≠ .ret v := by
    intro test yes no left right
    cases m.test c σ.store test with
    | error e => refine ⟨fun exit => ?_, fun v exit => ?_⟩ <;> cases exit
    | ok holds =>
      cases holds with
      | true => exact ⟨fun _ => left.2, fun v exit => nomatch left.1.symm.trans exit⟩
      | false => exact ⟨fun _ => right.2, fun v exit => nomatch right.1.symm.trans exit⟩
  cases s with
  | when node test body =>
    simp only [isEmptyBranch, Bool.and_eq_true] at empty
    exact guards test (exit_of_skips m empty.1 c σ) ⟨rfl, rfl⟩
  | branch node test ift iff =>
    simp only [isEmptyBranch, Bool.and_eq_true] at empty
    exact guards test (exit_of_skips m empty.1.1 c σ) (exit_of_skips m empty.1.2 c σ)
  | _ => cases empty

def Comes (f : Func) (moment : Moment V C) : Prop :=
  ∀ id, moment.point = .stmt id → (Reachability.ofFunc f).isReachable id = true

/-- A plan fits a function: it takes out what is never reached and what is dead. -/
structure Plan.Fits (plan : Plan) (f : Func) (u : Uses) : Prop where
  unreachable : ∀ id ∈ plan.unreachable, (Reachability.ofFunc f).isReachable id = false
  dead : ∀ id, id ∈ plan.dead ↔ ∃ s ∈ f.body.all, isDead u (live f u) s = true ∧ s.id = id

variable {plan : Plan} {g : Func} {s s' : Edit.State}

theorem fits_of_func (planned : Plan.ofFunc f = .ok plan) : ∃ u, Uses.ofFunc f = .ok u ∧ plan.Fits f u := by
  obtain ⟨u, used, result⟩ := bind_ok.mp planned
  cases result
  refine ⟨u, used, ?_, ?_⟩
  · intro id mem
    obtain ⟨b, _, cut⟩ := mem_flatMap.mp mem
    unfold cutOff at cut
    split at cut
    · cases cut
    · split at cut
      · simpa using (mem_filter.mp cut).2
      · cases cut
  · intro id
    simp only [mem_map, mem_filter, and_assoc]

def Plan.revision (plan : Plan) (m : Machine V C) (f : Func) (u : Uses) (notes : Notes) : Revision where
  drops s := s ∈ f.body.all ∧ (s.id ∈ plan.unreachable ∨ s.id ∈ plan.dead)
  idle s := isEmptyBranch s = true
  agrees p e e' := ∀ c w, (outline f u notes : Outline C (Store V × Store V)).seen p c w →
    Rebuild.Follows m c w.1 w.2 e e'

theorem Plan.Fits.sound (fits : plan.Fits f u) (m : Machine V C) (resolved : u.Resolved f notes) :
    (plan.revision m f u notes).Sound m (Comes f) (outline f u notes) where
  drops := by
    rintro s ⟨mem, removed⟩ c σ τ fuel ⟨seen, comes⟩
    rcases removed with unreachable | dead
    · have reached := comes s.id rfl
      rw [fits.unreachable s.id unreachable] at reached
      cases reached
    · obtain ⟨other, found, dead, same⟩ := (fits.dead s.id).mp dead
      cases resolved.survey.stmt_eq found mem same
      cases s with
      | assign node target ann value =>
        refine matches_dropped resolved.survey mem ?_ fuel seen
        exact fun i n named => not_needed_of_dead resolved mem dead named
      | _ => cases dead
  idle s empty := ⟨idle_of_isEmptyBranch m empty, fun _ => id⟩
  agrees p e e' same c w reached := same c w reached.1
  rewrites _ _ _ _ never := never.elim

section

open Edit

variable {out : List Stmt} {st : Stmt} {stmts : List Stmt}

theorem makes_removed (made : Makes (do noteRemoved kind why st; return []) s out s') : out = [] := by
  obtain ⟨_, _, _, made⟩ := makes_bind.mp made
  exact (makes_pure.mp made).1

theorem makes_stmt (made : Makes (plan.hooks.stmt st usual) s out s') :
    (out = [] ∧ (st.id ∈ plan.unreachable ∨ st.id ∈ plan.dead)) ∨ (st.id ∉ plan.unreachable ∧ st.id ∉ plan.dead ∧ ∃ st'
    t, Makes usual s st' t ∧ (out = [st'] ∨ (out = [] ∧ isEmptyBranch st' = true))) := by
  simp only [Plan.hooks] at made
  split at made
  · rename_i unreachable
    exact .inl ⟨makes_removed made, .inl unreachable⟩
  · rename_i reachable
    split at made
    · rename_i dead
      exact .inl ⟨makes_removed made, .inr dead⟩
    · rename_i alive
      obtain ⟨st', t, rebuilt, made⟩ := makes_bind.mp made
      refine .inr ⟨reachable, alive, st', t, rebuilt, ?_⟩
      split at made
      · rename_i empty
        exact .inr ⟨makes_removed made, empty⟩
      · exact .inl (makes_pure.mp made).1

theorem makes_dropRedundant (made : Makes (dropRedundant stmts) s out s') :
    out = if stmts.all isSkip then stmts.take 1 else Stmt.active stmts := by
  unfold dropRedundant at made
  split at made
  rename_i kept dropped chosen
  obtain ⟨_, _, _, made⟩ := makes_bind.mp made
  rw [(makes_pure.mp made).1]
  by_cases skips : stmts.all isSkip = true
  · rw [if_pos skips] at chosen ⊢
    cases chosen
    rfl
  · rw [if_neg skips] at chosen ⊢
    cases chosen
    rfl

theorem active_dropRedundant (made : Makes (dropRedundant stmts) s out s') : Stmt.active out = Stmt.active stmts := by
  rw [makes_dropRedundant made]
  split
  · rename_i skips
    have none : ∀ l : List Stmt, l.Sublist stmts → Stmt.active l = [] := fun l sub =>
      List.filter_eq_nil_iff.mpr fun st mem => by simpa using all_eq_true.mp skips st (sub.subset mem)
    rw [none _ (List.take_sublist ..), none _ (.refl _)]
  · simp [Stmt.active]

end

theorem Plan.Fits.keeps (fits : plan.Fits f u) (m : Machine V C) (resolved : u.Resolved f notes) : plan.hooks.Keeps
    Edit.results (plan.revision m f u notes) (fun s _ => isDead u (live f u) s = false) f.body.all where
  name _ := rfl
  stmt := by
    rintro s mem - usual out ⟨before, after, made⟩
    rcases makes_stmt made with ⟨rfl, reason⟩ | ⟨_, alive, s', between, rebuilt, left⟩
    · exact .inl ⟨⟨mem, reason⟩, rfl⟩
    · refine .inr ⟨(), s', Bool.eq_false_iff.mpr fun dead => alive ?_, ⟨before, between, rebuilt⟩, left⟩
      exact (fits.dead s.id).mpr ⟨s, mem, dead, rfl⟩
  block := by
    rintro - b usual b' ⟨before, after, made⟩
    obtain ⟨inner, between, rebuilt, made⟩ := Edit.makes_bind.mp made
    obtain ⟨kept, _, dropped, made⟩ := Edit.makes_bind.mp made
    obtain ⟨id, same⟩ := Edit.makes_filled inner kept made
    exact ⟨inner, ⟨before, between, rebuilt⟩, id, same.trans (active_dropRedundant dropped)⟩
  expr s mem _ alive e part e' given c w seen := follows_of_alive resolved mem alive part given seen
  held := by
    rintro s mem node name path value rfl c w seen
    exact follows_of_store resolved mem seen

section

open Edit
open Logic (works_pure keeps_pure)

variable {i c p : Prop}

theorem keeps_dropRedundant (stmts : List Stmt) :
    ifMade.Keeps (books i c) p (dropRedundant stmts) Stmt.idsAll stmts := by
  unfold dropRedundant
  split
  rename_i kept dropped chosen
  have parts : kept.Sublist stmts ∧ (dropped = [] → kept = stmts) := by
    split at chosen <;> cases chosen
    · exact ⟨List.take_sublist .., fun none => by rw [← append_nil (stmts.take 1), ← none, List.take_append_drop]⟩
    · refine ⟨List.filter_sublist, fun none => List.filter_eq_self.mpr fun st mem => ?_⟩
      simpa using List.filter_eq_nil_iff.mp none st mem
  have fewer (id : NodeId) := (Stmt.idsAll_sublist_of_sublist parts.1).count_le id
  have each (st : Stmt) : ifMade.Works (books i c) 1 (noteRemoved .statementRemoved "redundant" st) (fun _ => []) [] :=
    works_note _ _ _
  cases dropped with
  | nil =>
    rw [parts.2 rfl]
    exact keeps_pure _
  | cons st rest =>
    have told := (works_notes each (st :: rest)).least (Nat.succ_le_succ (Nat.zero_le _))
    exact (told.tell fun _ => works_pure fun _ id => by simpa using fewer id).keeps

theorem balances (plan : Plan) : plan.hooks.Balances ifMade (books i c) True where
  name _ := rfl
  expr parts := parts
  stmt {st _ _} parts := by
    have removed {st : Stmt} (kind : EventKind) (why : String) : ifMade.Works (books i c) 1 (do
        noteRemoved kind why st
        return []) Stmt.idsAll (Stmt.idsAll [st]) :=
      (works_note _ _ _).tell fun _ => works_pure fun _ _ => Nat.zero_le _
    simp only [Plan.hooks]
    split
    · exact (removed _ _).keeps
    split
    · exact (removed _ _).keeps
    refine parts.row fun st => ?_
    split
    · exact (removed _ _).keeps
    · exact keeps_pure _
  block full parts := by
    refine .bindOf (f := id) (q := fun b => b.stmts ≠ []) parts (fun b => ?_) (fun _ => rfl)
      fun here => full here trivial
    obtain ⟨id, stmts⟩ := b
    refine .bindOf (f := Block.mk id) (q := fun kept => kept ≠ []) ((keeps_dropRedundant stmts).cons id)
      (fun kept => keeps_filled ⟨id, stmts⟩ kept) (fun _ => rfl) (·)

end

theorem run_round (truthful : m.Truthful) (planned : Plan.ofFunc f = .ok plan) (distinct : f.ids.Nodup)
    (made : Edit.Makes (plan.hooks.onFunc f) s g s') (returns : m.run c fuel f free args = some v) :
    m.run c fuel g free args = some v := by
  obtain ⟨u, used, fits⟩ := fits_of_func planned
  obtain ⟨notes, resolved⟩ := Uses.resolved_of_func distinct used
  obtain ⟨body, rebuilt, rfl⟩ := Edit.makes_bind_pure made
  have revised : (plan.revision m f u notes).OnBlock f.body body :=
    Rebuild.revises_onBlock (fits.keeps m resolved) f.body (fun _ mem => mem) (i := ()) ⟨s, s', rebuilt⟩
  refine run_of_revision resolved.survey (upheld m resolved) (fits.sound m resolved) revised rfl ?_ ?_ returns
    fun _ => id
  · exact fun σ _ => agrees_self _ _ σ
  · exact fun σ _ moment seen id here => Reachability.isReachable_of_mem_trace truthful seen here

theorem run_rounds (truthful : m.Truthful) {rounds : Nat} (made : Edit.Makes (DeadCode.rounds rounds f) s g s')
    (fresh : Edit.Fresh s f.ids) (returns : m.run c fuel f free args = some v) : m.run c fuel g free args = some v := by
  induction rounds generalizing f s with
  | zero =>
    cases (Edit.makes_pure.mp made).1
    exact returns
  | succ rounds ih =>
    unfold DeadCode.rounds at made
    obtain ⟨_, _, now, planning⟩ := Edit.makes_bind.mp made
    obtain ⟨rfl, rfl⟩ := Edit.makes_get.mp now
    dsimp only at planning
    obtain ⟨plan, _, lifted, rebuilding⟩ := Edit.makes_bind.mp planning
    obtain ⟨planned, rfl⟩ := Edit.makes_lift.mp lifted
    obtain ⟨h, t, rebuilt, ending⟩ := Edit.makes_bind.mp rebuilding
    have still := run_round truthful planned fresh.distinct rebuilt returns
    obtain ⟨_, _, later, last⟩ := Edit.makes_bind.mp ending
    obtain ⟨rfl, rfl⟩ := Edit.makes_get.mp later
    split at last
    · cases (Edit.makes_pure.mp last).1
      exact still
    · exact ih last (Edit.fresh_of_works (Rebuild.works_onFunc (balances plan) f) rebuilt fresh) still

theorem makes_pruneFree (made : Edit.Makes (pruneFree f) s g s') : g.params = f.params ∧ g.body = f.body := by
  unfold pruneFree at made
  dsimp only at made
  obtain ⟨_, _, _, made⟩ := Edit.makes_bind.mp made
  cases (Edit.makes_pure.mp made).1
  exact ⟨rfl, rfl⟩

end DeadCode

namespace Machine

variable {V C : Type}

theorem start_none (f : Func) (args : List V) : start f (fun _ => none) args = bindArgs f.params args ∅ := by
  have none : ∀ (names : List Name) (σ : Store V), bindFree f.id (fun _ => none) names σ = σ := by
    intro names σ
    induction names with
    | nil => rfl
    | cons n rest ih => exact ih
  rw [start, none]

theorem run_none_congr (m : Machine V C) {f g : Func} (params : g.params = f.params) (body : g.body = f.body) (c : C)
    (fuel : Nat) (args : List V) : m.run c fuel g (fun _ => none) args = m.run c fuel f (fun _ => none) args := by
  rw [run, run, execFunc, execFunc, start_none, start_none, params, body]

theorem reference_truthful : reference.Truthful := by
  intro b v t literal truth
  cases literal
  cases truth
  rfl

end Machine

namespace Reference

/-- Removal of dead code keeps the result of a function whose nodes have distinct identities, all drawn before
the pass. -/
theorem run_deadCode (cfg : Config) (f g : Func) (events : EventLog) (session after : Session)
    (distinct : f.ids.Nodup) (drawn : ∀ id ∈ f.ids, id.val < session.next)
    (applied : (Pass.deadCode.run cfg f).run session = (.ok (g, events), after)) (args : List Value) (v : Value)
    (returns : run f args = some v) : run g args = some v := by
  obtain ⟨s', made⟩ := Edit.makes_of_perform applied
  obtain ⟨h, t, rounds, pruned⟩ := Edit.makes_bind.mp made
  have still := DeadCode.run_rounds Machine.reference_truthful rounds ⟨distinct, drawn⟩ returns
  obtain ⟨params, body⟩ := DeadCode.makes_pruneFree pruned
  exact (Machine.reference.run_none_congr params body () fuel args).trans still

open Sample in
/-- Counts up to `x` by twos, next to assignments that are not needed, a branch that does nothing without them
and a statement that is never reached. -/
def counting : Func :=
  func ["x"] [] [
    set 10 "y" (add 11 (var 12 "x") (int 13 1)),
    set 14 "s" (int 15 0),
    .loop (node 16) (less 17 (var 18 "s") (var 19 "x")) ⟨⟨20⟩, [
      set 21 "y" (add 22 (var 23 "y") (var 24 "s")),
      set 25 "s" (add 26 (var 27 "s") (int 28 2))]⟩,
    .when (node 29) (less 30 (var 31 "x") (int 32 0)) ⟨⟨33⟩, [set 34 "y" (int 35 1)]⟩,
    .ret (node 36) (var 37 "s"),
    set 38 "s" (int 39 1)]

theorem run_deadCode_counting :
    counting.ids.Nodup ∧ (∀ id ∈ counting.ids, id.val < 40) ∧ ∃ g events after,
      (Pass.deadCode.run {} counting).run { next := 40 } = (.ok (g, events), after) ∧
      counting.body.all.length = 9 ∧ g.body.all.length = 4 ∧ run counting [.number 3] = some (.number 4) ∧
      run g [.number 3] = some (.number 4) := by
  have distinct : counting.ids.Nodup := by decide
  have drawn : ∀ id ∈ counting.ids, id.val < 40 := by decide
  have returns : run counting [.number 3] = some (.number 4) := by decide +kernel
  have shorter : (((Pass.deadCode.run {} counting).run { next := 40 }).1.toOption.map
      fun made => made.1.body.all.length) = some 4 := by
    decide +kernel
  rcases applied : (Pass.deadCode.run {} counting).run { next := 40 } with ⟨_ | ⟨g, events⟩, after⟩
  · rw [applied] at shorter
    nomatch shorter
  · rw [applied] at shorter
    refine ⟨distinct, drawn, g, events, after, rfl, rfl, Option.some.inj shorter, returns, ?_⟩
    exact run_deadCode {} counting g events { next := 40 } after distinct drawn applied _ _ returns

end Reference

end NumLang
