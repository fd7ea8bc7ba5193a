import NumLang.Proofs.Unrolled

/-!
Unrolling preserves results: the unrolled function returns what the function returns.
-/

namespace NumLang

variable {V C : Type}

namespace Unrolling

open Flow Edit Rebuild Outcome

def rewrite (k : Unroll) (selected : List NodeId) (r : Reaching) (s : Stmt) : Edit (List Stmt) :=
  (hooks k selected r).stmt s (pure s)

variable {g : Func} {s' : Edit.State}

theorem rewrites_hooks (k : Unroll) (selected : List NodeId) (r : Reaching) :
    (hooks k selected r).Rewrites (rewrite k selected r) where
  name _ := rfl
  expr _ _ := rfl
  block _ _ := rfl
  stmt s usual := by
    refine congrArg (usual >>= ·) (funext fun s' => ?_)
    simp only [rewrite, hooks, pure_bind]

theorem rewrite_cases (k : Unroll) (selected : List NodeId) (r : Reaching) (s : Stmt) :
    (∃ node target iterable body, s = .each node target iterable body ∧ node.id ∈ selected ∧
      rewrite k selected r s = unroll k r node target iterable body) ∨ rewrite k selected r s = pure [s] := by
  cases s with
  | each node target iterable body =>
    by_cases chosen : node.id ∈ selected
    · exact .inl ⟨node, target, iterable, body, rfl, chosen, by simp [rewrite, hooks, chosen]⟩
    · exact .inr (by simp [rewrite, hooks, chosen])
  | _ => exact .inr rfl

def loopOf (r : Reaching) (node : Node) (target : Binder) (body : Block) : Loop :=
  ⟨node, target, body, hidden r node.id target⟩

variable {k : Unroll} {f : Func}

theorem careful (positive : 0 < k.factor) (selected : List NodeId) (r : Reaching) :
    Careful transitions (·.names.used) Grows (rewrite k selected r) where
  refl := .refl
  trans := .trans
  grows more := more
  rewrite := by
    intro s t out u within made
    rcases rewrite_cases k selected r s with ⟨node, target, iterable, body, rfl, _, same⟩ | same
    · rw [same] at made
      have done := unrolled_of_unroll (l := loopOf r node target body) Machine.shaped_lists Machine.counts_lists positive
        rfl within made
      exact ⟨done.grows, done.within⟩
    · rw [same] at made
      obtain ⟨rfl, rfl⟩ := makes_pure.mp made
      exact ⟨.refl _, within⟩

def iterables (selected : List NodeId) (f : Func) (p : Point) : List Expr :=
  f.body.all.filterMap fun
    | .each node _ iterable _ => if node.id ∈ selected ∧ p = .stmt node.id then some iterable else none
    | _ => none

/-- Where a run comes by a selected loop, the loop goes through a list whose length is a multiple of the factor. -/
def DividesAt (m : Machine V C) (factor : Nat) (selected : List NodeId) (f : Func) (moment : Moment V C) : Prop :=
  ∀ iterable ∈ iterables selected f moment.point,
    ∀ vs ∈ (m.drawn moment.context moment.store iterable).toOption, factor ∣ vs.length

instance (m : Machine V C) (factor : Nat) (selected : List NodeId) (f : Func) :
    DecidablePred (DividesAt m factor selected f) :=
  fun _ => inferInstanceAs (Decidable (∀ _ ∈ _, ∀ _ ∈ _, _ ∣ _))

theorem mem_iterables {node : Node} (mem : .each node target iterable body ∈ f.body.all) (chosen : node.id ∈ selected) :
    iterable ∈ iterables selected f (.stmt node.id) :=
  List.mem_filterMap.mpr ⟨_, mem, if_pos ⟨chosen, rfl⟩⟩

section Sound

variable {m : Machine V C} {number : Nat → V} {list : List V → V} {selected : List NodeId} {notes : Notes} {exit : Env}
  {target : Binder} {n : Name}

theorem notMem_hidden (survey : Reaching.Survey f notes) {id : NodeId} {span : Span Place}
    (noted : (id, span) ∈ notes.stmts) (inForce : span.before.contains n = true) :
    n ∉ hidden (.ofNotes (Reaching.entryOf f) exit notes) id target := by
  unfold hidden
  split
  · exact not_mem_nil
  · rename_i invisible
    intro mem
    refine invisible (List.any_eq_true.mpr ⟨n, mem, ?_⟩)
    rw [Reaching.reaching?, Reaching.before?, survey.stmts? _ _ noted, map_some, bind_some,
      Reaching.numberEnv, OrdMap.get?_mapValues, Option.isSome_map]
    exact inForce

theorem contains_of_each {env after : Env} {node : Node} {iterable : Expr} {body : Block} {inner : Notes}
    (walk : StmtWalk env (.each node target iterable body) after inner) (inForce : after.contains n = true) :
    env.contains n = true := by
  obtain ⟨_, _, _, rfl, _⟩ := walk
  simpa [outEnv, headEnv, loopHead, OrdMap.contains_mapValues] using inForce

theorem follows_rewrite (shaped : m.Shaped) (counts : m.Counts number list) (positive : 0 < k.factor)
    (survey : Reaching.Survey f notes) {s s' : Stmt}
    (shape : (revision (rewrite k selected (.ofNotes (Reaching.entryOf f) exit notes)) f).Shape s s')
    (rewrites : (revision (rewrite k selected (.ofNotes (Reaching.entryOf f) exit notes)) f).rewrites s s' out)
    {σ τ : State V} {o : Outline C (Store V × Store V)}
    (outline : o = notes.outline (SameValues (· ∈ f.allNames) fun _ => True) fun _ => True)
    (reached : o.Reached .pair (fun moment => k.leftover = .strict → DividesAt m k.factor selected f moment) (.stmt
    s.id) c (σ.store, τ.store)) (both : (m.exec s c σ).Follows (fun _ => False) (o.after s.id c) (m.exec s' c τ)) :
    (m.exec s c σ).Follows (fun _ => False) (o.after s.id c) (m.execStmts out c τ) := by
  obtain ⟨mem, t, u, used, within, made⟩ := rewrites
  rcases rewrite_cases k selected (.ofNotes (Reaching.entryOf f) exit notes) s' with
    ⟨node, target, iterable, body, rfl, chosen, same⟩ | same
  · rw [same] at made
    cases shape with
    | @each _ _ iterable _ body₀ _ reads inside =>
      obtain ⟨rfl, reads⟩ := reads
      have unrolled := unrolled_of_unroll (l := loopOf _ node target body) shaped counts positive rfl within made
      subst outline
      cases drawn : m.drawn c σ.store iterable with
      | error e =>
        rw [Machine.exec, drawn]
        exact follows_failed
      | ok vs =>
        have again : m.drawn c τ.store iterable = .ok vs := Revision.drawn_agrees (reads.follows survey reached.1) drawn
        have fits : Fits k vs.length := by
          intro strict
          refine reached.2 strict iterable (mem_iterables mem chosen) vs ?_
          change vs ∈ (m.drawn c σ.store iterable).toOption
          rw [drawn]
          rfl
        have follows := unrolled.runs c τ fun ws result => Except.ok.inj (again.symm.trans result) ▸ fits
        refine .inr (both.toMatches.trans follows.toMatches fun σ' a b holds agree => ?_)
        obtain ⟨⟨before, after⟩, sub, noted, walk, _⟩ := survey.spans.visits _ mem
        rw [outline_after survey noted] at holds ⊢
        refine holds.replace fun n inForce => agree n (used n (holds.of_inForce inForce)) ?_
        exact notMem_hidden survey noted (contains_of_each walk inForce)
  · rw [same] at made
    obtain ⟨rfl, _⟩ := makes_pure.mp made
    rw [m.execStmts_single]
    exact both.after [] _

end Sound

theorem makes_edit (made : Makes (edit k f) s g s') :
    0 < k.factor ∧ ∃ selected, select k f = .ok selected ∧ (g = f ∨ ∃ r, Reaching.ofFunc f = .ok r ∧ Makes ((hooks k
    selected r).onFunc f) s g s') := by
  unfold edit at made
  by_cases zero : k.factor = 0
  · rw [if_pos zero] at made
    cases made
  rw [if_neg zero] at made
  obtain ⟨selected, t, lifted, rest⟩ := makes_bind.mp made
  obtain ⟨chosen, rfl⟩ := makes_lift.mp lifted
  refine ⟨Nat.pos_of_ne_zero zero, selected, chosen, ?_⟩
  split at rest
  · exact .inl (makes_pure.mp rest).1
  · obtain ⟨r, t, lifted, rebuilt⟩ := makes_bind.mp rest
    obtain ⟨analysed, rfl⟩ := makes_lift.mp lifted
    exact .inr ⟨r, analysed, rebuilt⟩

/-- The unrolled function returns what the function returns, if there are no elements left over that nothing is
provided for. -/
theorem run_of_unrolling {m : Machine V C} (shaped : m.Shaped)
    (counts : m.Counts number list)
    (distinct : f.ids.Nodup) (made : Makes (edit k f) { session := session, names := .ofFunc f } g s') {c : C}
    {fuel : Nat} {free : Name → Option V} {args : List V} {v : V} (returns : m.run c fuel f free args = some v)
    (divides : k.leftover = .strict → ∀ selected, select k f = .ok selected →
      ∀ out, m.execFunc c fuel f free args = some out → ∀ moment ∈ out.trace, DividesAt m k.factor selected f moment) :
    m.run c fuel g free args = some v := by
  obtain ⟨positive, selected, chosen, rfl | ⟨r, analysed, made⟩⟩ := makes_edit made
  · exact returns
  obtain ⟨body, rebuilt, rfl⟩ := makes_bind_pure made
  obtain ⟨exit, notes, survey, rfl⟩ := Reaching.survey_of_func distinct analysed
  refine run_of_rewrites (rewrites_hooks k selected _) (careful positive selected _) survey (fun _ => True)
    (fun moment => k.leftover = .strict → DividesAt m k.factor selected f moment) ?_ rebuilt
    (fun _ _ _ => trivial) ?_ returns
  · exact fun s s' out shape treated c σ τ reached both =>
      follows_rewrite shaped counts positive survey shape treated rfl reached both
  · intro σ started moment mem strict
    exact divides strict selected chosen _ (by rw [Machine.execFunc, started]; rfl) moment mem

end Unrolling

namespace Lists

/-- Unrolling preserves results, with any factor and selection of loops: the unrolled function returns what the
function returns. Where left over elements are not gone through, the loops that are unrolled must be over lists
whose lengths are multiples of the factor, each time that the run comes by them. -/
theorem run_unrolling (cfg : Config) (k : Unroll) (f g : Func) (events : EventLog) (session after : Session)
    (distinct : f.ids.Nodup) (applied : ((Pass.unrolling k).run cfg f).run session = (.ok (g, events), after))
    (args : List Value) (v : Value) (returns : run f args = some v)
    (divides : k.leftover = .strict → ∀ selected, Unrolling.select k f = .ok selected →
      ∀ out, exec f args = some out → ∀ moment ∈ out.trace,
        Unrolling.DividesAt Machine.lists k.factor selected f moment) :
    run g args = some v := by
  obtain ⟨s', made⟩ := Edit.makes_of_perform applied
  exact Unrolling.run_of_unrolling Machine.shaped_lists Machine.counts_lists distinct made returns divides

open Sample in
/-- Goes through a list and, for each element, through a list that it is in; the last element is seen afterwards. -/
def weighing : Func :=
  func ["xs"] [] [
    set 10 "s" (int 11 0),
    set 12 "x" (int 13 0),
    .each (node 14) (.name (name "x")) (var 15 "xs") ⟨⟨16⟩, [
      .each (node 17) (.name (name "y")) (.list (node 18) [var 19 "x", var 20 "s", int 21 1]) ⟨⟨22⟩, [
        set 23 "s" (add 24 (var 25 "s") (var 26 "y"))]⟩]⟩,
    .ret (node 27) (add 28 (var 29 "s") (var 30 "x"))]

def weights : List Value := [.list [.number 1, .number 2, .number 3]]

/-- Three elements are unrolled by two with one left over, and by three with none. -/
theorem run_unrolling_weighing :
    weighing.ids.Nodup ∧ run weighing weights = some (.number 21) ∧
      (∃ g events after,
        ((Pass.unrolling ⟨2, .epilogue, none⟩).run {} weighing).run { next := 40 } = (.ok (g, events), after) ∧
          g.body.all.length = 44 ∧ run g weights = some (.number 21)) ∧
      ∃ g events after,
        ((Pass.unrolling ⟨3, .strict, none⟩).run {} weighing).run { next := 40 } = (.ok (g, events), after) ∧
          g.body.all.length = 40 ∧ run g weights = some (.number 21) := by
  have distinct : weighing.ids.Nodup := by decide
  have returns : run weighing weights = some (.number 21) := by decide +kernel
  refine ⟨distinct, returns, ?_, ?_⟩
  · have size : (((Pass.unrolling ⟨2, .epilogue, none⟩).run {} weighing).run { next := 40 }).1.toOption.map
        (fun made => made.1.body.all.length) = some 44 := by
      decide +kernel
    rcases applied : ((Pass.unrolling ⟨2, .epilogue, none⟩).run {} weighing).run { next := 40 } with
      ⟨_ | ⟨g, events⟩, after⟩
    · rw [applied] at size
      cases size
    · rw [applied] at size
      refine ⟨g, events, after, rfl, Option.some.inj size, ?_⟩
      exact run_unrolling {} _ weighing g events _ after distinct applied weights _ returns fun strict => nomatch strict
  · have size : (((Pass.unrolling ⟨3, .strict, none⟩).run {} weighing).run { next := 40 }).1.toOption.map
        (fun made => made.1.body.all.length) = some 40 := by
      decide +kernel
    have divides : ∀ selected ∈ (Unrolling.select ⟨3, .strict, none⟩ weighing).toOption,
        ∀ out ∈ exec weighing weights, ∀ moment ∈ out.trace,
          Unrolling.DividesAt Machine.lists 3 selected weighing moment := by
      decide +kernel
    rcases applied : ((Pass.unrolling ⟨3, .strict, none⟩).run {} weighing).run { next := 40 } with
      ⟨_ | ⟨g, events⟩, after⟩
    · rw [applied] at size
      cases size
    · rw [applied] at size
      refine ⟨g, events, after, rfl, Option.some.inj size, ?_⟩
      refine run_unrolling {} _ weighing g events _ after distinct applied weights _ returns ?_
      intro _ selected chosen out ran
      exact divides selected (by rw [chosen]; rfl) out ran

end Lists

end NumLang
