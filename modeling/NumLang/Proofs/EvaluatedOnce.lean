import Mathlib.Data.List.Pairwise
import NumLang.Proofs.InliningSound

/-!
Calls that are evaluated exactly once.
-/

namespace NumLang

variable {log : List NodeId}

namespace Expr

def isLazy : Expr → Bool
  | .cond .. | .comprehension .. | .compare .. => true
  | .nary _ op _ _ => op = .and || op = .or
  | _ => false

/-- The parts that an expression evaluates, in order. Which parts of a lazy expression these are depends on their values. -/
inductive Takes : Expr → List Expr → Prop where
  | eager {e} (clear : e.isLazy = false) : Takes e e.children
  | ift {node test ift iff} : Takes (.cond node test ift iff) [test, ift]
  | iff {node test ift iff} : Takes (.cond node test ift iff) [test, iff]
  | connective {node op spelling first others} (lazy : op = .and ∨ op = .or) (enough : first ≠ [] ∨ others = []) :
    Takes (.nary node op spelling (first ++ others)) first
  | chain {node ops first others} (enough : 2 ≤ first.length ∨ others = []) :
    Takes (.compare node ops (first ++ others)) first
  | comprehension {node targets iterables elt} (rounds : Nat) :
    Takes (.comprehension node targets iterables elt) (iterables ++ List.replicate rounds elt)

/-- Expressions are evaluated one after the other; the list is of all that are evaluated, each after its parts. -/
inductive Evaluates : List Expr → List NodeId → Prop where
  | nil : Evaluates [] []
  | single {e parts log} (takes : Takes e parts) (below : Evaluates parts log) : Evaluates [e] (log ++ [e.id])
  | append {first others log more} (early : Evaluates first log) (late : Evaluates others more) :
    Evaluates (first ++ others) (log ++ more)

variable {e : Expr} {parts es : List Expr}

theorem Takes.subset (takes : Takes e parts) : parts ⊆ e.children := by
  cases takes with
  | eager => exact fun _ mem => mem
  | ift | iff => simp [children]
  | connective | chain => exact List.subset_append_left _ _
  | comprehension rounds =>
    refine append_subset.mpr ⟨List.subset_append_left _ _, fun part mem => ?_⟩
    exact mem_append_right _ (mem_singleton.mpr (List.eq_of_mem_replicate mem))

theorem Takes.eq (takes : Takes e parts) (clear : Inlining.isOpaque e = false) : parts = e.children := by
  cases takes with
  | eager => rfl
  | ift | iff | comprehension => cases clear
  | connective lazy => rcases lazy with rfl | rfl <;> nomatch clear
  | @chain _ _ _ others enough =>
    have short : ¬ 2 < (parts ++ others).length := by simpa [Inlining.isOpaque] using clear
    have whole : others = [] := by
      rcases enough with two | whole
      · rw [length_append] at short
        exact List.eq_nil_of_length_eq_zero (by omega)
      · exact whole
    rw [whole, children, append_nil]

theorem idsAll_subset (subset : es ⊆ others) : idsAll es ⊆ idsAll others := by
  rw [← map_id_allOf, ← map_id_allOf]
  refine List.map_subset _ fun part mem => ?_
  obtain ⟨whole, listed, here⟩ := mem_allOf_iff.mp mem
  exact mem_allOf_iff.mpr ⟨whole, subset listed, here⟩

theorem Evaluates.subset (evaluates : Evaluates es log) : log ⊆ idsAll es := by
  induction evaluates with
  | nil => exact nil_subset _
  | single takes _ below =>
    rw [idsAll_single]
    refine append_subset.mpr ⟨List.subset_cons_of_subset _ (List.Subset.trans below (idsAll_subset takes.subset)), ?_⟩
    exact List.cons_subset.mpr ⟨mem_cons_self, nil_subset _⟩
  | append _ _ early late =>
    rw [idsAll_append]
    exact append_subset.mpr ⟨List.subset_append_of_subset_left _ early, List.subset_append_of_subset_right _ late⟩

theorem subset_of_evaluatedAll (enters : Expr → Bool) (es : List Expr) : evaluatedAll enters es ⊆ allOf es := by
  have inside : ∀ e : Expr, e.evaluated enters ⊆ e.all := by
    refine Expr.byChildren fun e parts part mem => ?_
    rw [evaluated_eq, mem_append, mem_singleton] at mem
    rw [all_eq]
    rcases mem with below | rfl
    · split at below
      · obtain ⟨child, listed, here⟩ := mem_evaluatedAll.mp below
        exact mem_cons_of_mem _ (mem_allOf_iff.mpr ⟨child, listed, parts child listed here⟩)
      · cases below
    · exact mem_cons_self
  intro part mem
  obtain ⟨whole, listed, here⟩ := mem_evaluatedAll.mp mem
  exact mem_allOf_iff.mpr ⟨whole, listed, inside whole here⟩

end Expr

namespace Inlining

open Expr

/-- The expressions in others that inlining enters: those that are not in one that is kept as a whole. -/
abbrev entered (es : List Expr) : List Expr := evaluatedAll (fun e => !isOpaque e) es

variable {e : Expr} {es : List Expr}

theorem mem_idsAll_of_entered (mem : e ∈ entered es) : e.id ∈ idsAll es := by
  rw [← map_id_allOf]
  exact mem_map_of_mem (subset_of_evaluatedAll _ es mem)

theorem mem_entered_single : part ∈ entered [e] ↔ (isOpaque e = false ∧ part ∈ entered e.children) ∨ part = e := by
  cases clear : isOpaque e <;> simp [entered, evaluatedAll, evaluated_eq, clear]

theorem once_of_evaluates (evaluates : Evaluates es log) (distinct : (idsAll es).Nodup) :
    ∀ e ∈ entered es, log.count e.id = 1 := by
  induction evaluates with
  | nil => exact nofun
  | @single e parts log takes below once =>
    rw [idsAll_single, nodup_cons] at distinct
    have inside : log ⊆ idsAll e.children := List.Subset.trans below.subset (idsAll_subset takes.subset)
    intro part mem
    rw [count_append]
    rcases mem_entered_single.mp mem with ⟨clear, here⟩ | rfl
    · have other : e.id ≠ part.id := fun same => distinct.1 (same ▸ mem_idsAll_of_entered here)
      rw [← takes.eq clear] at distinct here
      rw [once distinct.2 part here, List.count_singleton, if_neg (by simpa using other)]
    · rw [count_eq_zero.mpr fun mem => distinct.1 (inside mem), List.count_singleton_self]
  | @append first others log more early late once once' =>
    rw [idsAll_append, nodup_append] at distinct
    obtain ⟨left, right, apart⟩ := distinct
    intro part mem
    rw [entered, evaluatedAll_append, mem_append] at mem
    rw [count_append]
    rcases mem with here | there
    · have absent : part.id ∉ more := fun mem => apart _ (mem_idsAll_of_entered here) _ (late.subset mem) rfl
      rw [once left part here, count_eq_zero.mpr absent]
    · have absent : part.id ∉ log := fun mem => apart _ (early.subset mem) _ (mem_idsAll_of_entered there) rfl
      rw [once' right part there, count_eq_zero.mpr absent]

end Inlining

/-! ### Statements -/

namespace Stmt

/-- What a statement evaluates only to tell that it fails: the message of an assertion. -/
def told : Stmt → List Expr
  | .assert _ _ msg => msg.toList
  | _ => []

def asked : Stmt → List Expr
  | .assert _ test _ => [test]
  | s => s.exprs

theorem exprs_eq_asked (s : Stmt) : s.exprs = s.asked ++ s.told := by
  cases s <;> simp [exprs, asked, told]

/-- The blocks that a statement other than a loop executes, in order. -/
inductive Enters : Stmt → List Block → Prop where
  | leaf {s} (simple : s.blocks = []) : Enters s []
  | pass {node test body} : Enters (.when node test body) []
  | when {node test body} : Enters (.when node test body) [body]
  | ift {node test ift iff} : Enters (.branch node test ift iff) [ift]
  | iff {node test ift iff} : Enters (.branch node test ift iff) [iff]
  | scope {node name ctx body} : Enters (.scope node name ctx body) [body]
  | each {node target iterable body} (rounds : Nat) :
    Enters (.each node target iterable body) (List.replicate rounds body)

mutual

/-- A statement is executed without a failing assertion, and the list is of all the expressions that are evaluated. -/
inductive Executes : Stmt → List NodeId → Prop where
  | other {s blocks log more} (enters : Enters s blocks) (own : Expr.Evaluates s.asked log)
    (inner : Runs (blocks.flatMap Block.stmts) more) : Executes s (log ++ more)
  | leave {node test body log} (own : Expr.Evaluates [test] log) : Executes (.loop node test body) log
  | round {node test body log more} (own : Expr.Evaluates [test] log)
    (inner : Runs (body.stmts ++ [.loop node test body]) more) : Executes (.loop node test body) (log ++ more)

/-- Statements are executed one after the other, to their end or until one of them returns. -/
inductive Runs : List Stmt → List NodeId → Prop where
  | stop {stmts} : Runs stmts []
  | cons {s rest log more} (first : Executes s log) (later : Runs rest more) : Runs (s :: rest) (log ++ more)

end

theorem Enters.subset {s : Stmt} {blocks : List Block} (enters : Enters s blocks) : blocks ⊆ s.blocks := by
  cases enters with
  | each rounds => exact fun b mem => mem_singleton.mpr (List.eq_of_mem_replicate mem)
  | _ => simp [Stmt.blocks]

theorem subset_of_asked (s : Stmt) : Expr.idsAll s.asked ⊆ s.ids := by
  rw [ids_eq, exprs_eq_asked, Expr.idsAll_append]
  exact fun id mem => mem_cons_of_mem _ (mem_append_left _ (mem_append_left _ mem))

theorem subset_of_blocks {s : Stmt} {blocks : List Block} (subset : blocks ⊆ s.blocks) :
    idsAll (blocks.flatMap Block.stmts) ⊆ s.blocks.flatMap Block.ids := by
  induction blocks with
  | nil => exact nil_subset _
  | cons b rest ih =>
    rw [flatMap_cons, idsAll_append]
    obtain ⟨listed, others⟩ := List.cons_subset.mp subset
    refine append_subset.mpr ⟨fun id mem => mem_flatMap.mpr ⟨b, listed, ?_⟩, ih others⟩
    rw [Block.ids_eq]
    exact mem_cons_of_mem _ mem

mutual

theorem Executes.subset {s : Stmt} {log : List NodeId} : s.Executes log → log ⊆ s.ids
  | .other enters own inner => by
    refine append_subset.mpr ⟨List.Subset.trans own.subset s.subset_of_asked, fun id mem => ?_⟩
    rw [ids_eq]
    exact mem_cons_of_mem _ (mem_append_right _ (subset_of_blocks enters.subset (inner.subset mem)))
  | .leave own => List.Subset.trans own.subset (subset_of_asked (.loop _ _ _))
  | @Executes.round node test body _ _ own inner => by
    refine append_subset.mpr ⟨List.Subset.trans own.subset (subset_of_asked (.loop _ _ _)), fun id mem => ?_⟩
    have within := inner.subset mem
    rw [idsAll_append, mem_append] at within
    rcases within with here | again
    · rw [ids_eq]
      refine mem_cons_of_mem _ (mem_append_right _ (subset_of_blocks (List.Subset.refl [body]) ?_))
      simpa using here
    · simpa [idsAll] using again

theorem Runs.subset {log : List NodeId} : Runs stmts log → log ⊆ idsAll stmts
  | .stop => nil_subset _
  | .cons first later => append_subset.mpr
    ⟨List.subset_append_of_subset_left _ first.subset, List.subset_append_of_subset_right _ later.subset⟩

end

theorem Executes.own {s : Stmt} {log : List NodeId} (executes : s.Executes log) (distinct : s.ids.Nodup)
    (once : Inlining.untouched s = []) : ∃ own, Expr.Evaluates s.asked own ∧ ∀ id ∈ Expr.idsAll s.exprs, log.count id =
    own.count id := by
  cases executes with
  | other enters own inner =>
    refine ⟨_, own, fun id mem => ?_⟩
    rw [ids_eq, nodup_cons, nodup_append] at distinct
    have absent : id ∉ _ := fun there =>
      distinct.2.2.2 id mem id (subset_of_blocks enters.subset (inner.subset there)) rfl
    rw [count_append, count_eq_zero.mpr absent, Nat.add_zero]
  | leave | round => cases once

end Stmt

namespace Inlining

variable {caller : Func} {threshold : Nat} {s t : Stage}

/-! ### The calls that are replaced -/

theorem sites_of_treats (treats : Treats caller threshold s t es es') :
    ∃ sites, Notes s t sites ∧ sites ⊆ (entered es).map Expr.id := by
  have below : ∀ {e : Expr} {sites : List NodeId}, isOpaque e = false → sites ⊆ (entered e.children).map Expr.id →
      sites ⊆ (entered [e]).map Expr.id := fun clear inside => List.Subset.trans inside
    (List.map_subset _ fun _ mem => mem_entered_single.mpr (.inl ⟨clear, mem⟩))
  induction treats with
  | nil | keep => exact ⟨[], .of_eq rfl, nil_subset _⟩
  | append _ _ first second =>
    obtain ⟨sites, notes, inside⟩ := first
    obtain ⟨others, notes', inside'⟩ := second
    refine ⟨sites ++ others, notes.trans notes', ?_⟩
    rw [entered, Expr.evaluatedAll_append, map_append]
    exact append_subset.mpr
      ⟨List.subset_append_of_subset_left _ inside, List.subset_append_of_subset_right _ inside'⟩
  | rebuild clear _ _ moves parts =>
    obtain ⟨sites, notes, inside⟩ := parts
    refine ⟨sites, ?_, below clear inside⟩
    simpa using notes.trans moves.notes
  | @replace _ _ _ _ e _ _ _ clear _ _ moves _ splice parts =>
    obtain ⟨sites, notes, inside⟩ := parts
    refine ⟨sites ++ [e.id], ?_, append_subset.mpr ⟨below clear inside, ?_⟩⟩
    · simpa using notes.trans (moves.notes.trans splice.notes)
    · exact List.cons_subset.mpr ⟨mem_map_of_mem (mem_entered_single.mpr (.inr rfl)), nil_subset _⟩

theorem sites_of_treatsAll {rows rows' : List (List Stmt)} (treats : TreatsAll caller threshold s t rows rows') : ∃
    sites, Notes s t sites ∧ ∀ id ∈ sites, ∃ st ∈ Stmt.allOf rows.flatten, id ∈ (entered (treated st)).map Expr.id := by
  induction treats with
  | nil => exact ⟨[], .of_eq rfl, nofun⟩
  | row _ rest => exact rest
  | @stmt s t u v _ st _ _ stmts _ rows _ exprs _ _ _ _ _ inner rest =>
    obtain ⟨own, notes, here⟩ := sites_of_treats exprs
    obtain ⟨deeper, notes', below⟩ := inner
    obtain ⟨later, notes'', beyond⟩ := rest
    have first : Notes s (closed s u) (own ++ deeper) := notes.trans notes'
    have whole : Stmt.allOf ((st :: stmts) :: rows).flatten =
        st :: (Stmt.allOf (rowsIn st).flatten ++ Stmt.allOf (stmts :: rows).flatten) := by
      rw [allOf_rowsIn, ← cons_append, ← st.all_eq]
      rfl
    rw [whole]
    refine ⟨own ++ deeper ++ later, first.trans notes'', fun id mem => ?_⟩
    rcases mem_append.mp mem with early | late
    · rcases mem_append.mp early with mine | inside
      · exact ⟨st, mem_cons_self, here mine⟩
      · obtain ⟨part, listed, found⟩ := below id inside
        exact ⟨part, mem_cons_of_mem _ (mem_append_left _ listed), found⟩
    · obtain ⟨part, listed, found⟩ := beyond id late
      exact ⟨part, mem_cons_of_mem _ (mem_append_right _ listed), found⟩

theorem eq_of_mem_exprs {b : Block} (distinct : b.ids.Nodup) {st st' : Stmt} (here : st ∈ b.all) (there : st' ∈ b.all)
    {id : NodeId} (own : id ∈ Expr.idsAll st.exprs) (also : id ∈ Expr.idsAll st'.exprs) : st = st' := by
  have order : ((Stmt.order b.stmts).map Expr.id).Nodup := by
    rw [Block.ids_eq] at distinct
    obtain ⟨sorted, perm, sub⟩ := Stmt.order_ids b.stmts
    exact perm.nodup_iff.mp ((nodup_cons.mp distinct).2.sublist sub)
  have listed : ∀ {st : Stmt}, id ∈ Expr.idsAll st.exprs → id ∈ (Expr.order st.exprs).map Expr.id := by
    intro st mem
    rwa [((Expr.order_perm st.exprs).map Expr.id).mem_iff, Expr.map_id_allOf]
  rw [Stmt.order, map_flatMap, List.nodup_flatMap] at order
  rw [Block.all_eq] at here there
  have : Std.Symm (Function.onFun List.Disjoint fun st : Stmt => (Expr.order st.exprs).map Expr.id) :=
    ⟨fun _ _ apart _ here there => apart there here⟩
  by_contra differ
  exact order.2.forall here there differ (listed own) (listed also)

/-- Whenever a statement is executed without a failing assertion, a call in it that inlining replaces is evaluated exactly
once, unless it stands in the message of an assertion. -/
theorem run_inlining_once_iff (cfg : Config) (threshold : Option Nat) (f g : Func) (events : EventLog)
    (session after : Session) (distinct : f.ids.Nodup)
    (applied : ((Pass.inlining threshold).run cfg f).run session = (.ok (g, events), after)) (st : Stmt)
    (member : st ∈ f.body.all) (log : List NodeId) (executed : st.Executes log) (e : Expr)
    (inside : e ∈ Expr.allOf st.exprs) (replaced : isReplaced events e.id = true) :
    log.count e.id = 1 ↔ e ∉ Expr.allOf st.told := by
  have body : f.body.ids.Nodup := distinct.sublist ((List.sublist_append_right _ _).cons _)
  have own : st.ids.Nodup := body.sublist (f.body.ids_sublist member)
  obtain ⟨t, treats, _, _, _, told⟩ := treats_of_run applied
  obtain ⟨sites, notes, entries⟩ := sites_of_treatsAll treats
  rw [told, isReplaced_iff notes rfl] at replaced
  obtain ⟨other, listed, found⟩ := entries e.id replaced
  obtain ⟨call, enters, same⟩ := List.mem_map.mp found
  have mem_ids : ∀ {es : List Expr}, e ∈ Expr.allOf es → e.id ∈ Expr.idsAll es := by
    intro es member
    rw [← Expr.map_id_allOf]
    exact List.mem_map_of_mem member
  -- The call that was entered is in this statement.
  have within : e.id ∈ Expr.idsAll other.exprs := by
    rw [exprs_eq, Expr.idsAll_append, ← same]
    exact List.mem_append_right _ (mem_idsAll_of_entered enters)
  obtain rfl : st = other := by
    refine eq_of_mem_exprs body member ?_ (mem_ids inside) within
    rwa [Block.all_eq, ← List.append_nil f.body.stmts]
  have once : untouched st = [] := by
    cases st with
    | loop => nomatch enters
    | _ => rfl
  obtain ⟨evaluated, evaluates, counts⟩ := executed.own own once
  rw [counts e.id (mem_ids inside)]
  rw [Stmt.ids_eq, Stmt.exprs_eq_asked, Expr.idsAll_append, List.nodup_cons, List.nodup_append] at own
  obtain ⟨first, _, apart⟩ := List.nodup_append.mp own.2.1
  constructor
  · intro single message
    have absent : e.id ∉ evaluated := fun here => apart e.id (evaluates.subset here) e.id (mem_ids message) rfl
    rw [List.count_eq_zero.mpr absent] at single
    nomatch single
  · intro silent
    rw [Stmt.exprs_eq_asked, Expr.allOf_append, List.mem_append] at inside
    have whole : treated st = st.asked ++ st.told := by
      rw [← Stmt.exprs_eq_asked, exprs_eq, once, List.nil_append]
    rw [entered, whole, Expr.evaluatedAll_append, List.mem_append] at enters
    rw [← same]
    refine once_of_evaluates evaluates first call (enters.resolve_right fun message => ?_)
    exact apart e.id (mem_ids (inside.resolve_right silent)) call.id (mem_idsAll_of_entered message) same.symm

open Sample Calls in
def asserting : Stmt :=
  .assert (node 10) (less 11 (callOf 12 doubling [var 13 "x"]) (int 14 9)) (some (callOf 15 doubling [var 16 "x"]))

open Sample Calls in
theorem executes_asserting : asserting.Executes [⟨13⟩, ⟨12⟩, ⟨14⟩, ⟨11⟩] := by
  have arg : Expr.Evaluates [var 13 "x"] [⟨13⟩] := .single (.eager (e := var 13 "x") rfl) .nil
  have call : Expr.Evaluates [callOf 12 doubling [var 13 "x"]] [⟨13⟩, ⟨12⟩] :=
    .single (.eager (e := callOf 12 doubling [var 13 "x"]) rfl) arg
  have bound : Expr.Evaluates [int 14 9] [⟨14⟩] := .single (.eager (e := int 14 9) rfl) .nil
  have sides : Expr.Takes (less 11 (callOf 12 doubling [var 13 "x"]) (int 14 9)) _ :=
    @Expr.Takes.chain _ _ [callOf 12 doubling [var 13 "x"], int 14 9] [] (.inr rfl)
  exact .other (s := asserting) (.leaf rfl) (.single sides (call.append bound)) .stop

open Sample Calls in
theorem run_inlining_asserting :
    ∃ g events after, ((Pass.inlining).run {} (func ["x"] [] [asserting])).run { next := 40 } = (.ok (g, events), after) ∧
      isReplaced events ⟨12⟩ = true ∧ List.count (⟨12⟩ : NodeId) [⟨13⟩, ⟨12⟩, ⟨14⟩, ⟨11⟩] = 1 := by
  have told : (((Pass.inlining).run {} (func ["x"] [] [asserting])).run { next := 40 }).1.toOption.map
      (fun made => isReplaced made.2 ⟨12⟩) = some true := by
    decide +kernel
  rcases applied : ((Pass.inlining).run {} (func ["x"] [] [asserting])).run { next := 40 } with ⟨_ | ⟨g, events⟩, after⟩
  · rw [applied] at told
    nomatch told
  · rw [applied] at told
    refine ⟨g, events, after, rfl, Option.some.inj told, ?_⟩
    refine (run_inlining_once_iff {} none _ g events _ after (by decide) applied asserting List.mem_cons_self _
      executes_asserting (callOf 12 doubling [var 13 "x"]) (List.mem_cons_of_mem _ List.mem_cons_self)
      (Option.some.inj told)).mpr fun member => ?_
    have listed : (⟨12⟩ : NodeId) ∈ (Expr.allOf asserting.told).map Expr.id := List.mem_map_of_mem member
    revert listed
    decide

open Sample Calls in
/-- The call in the message is replaced too, and is not evaluated where the assertion holds. -/
theorem run_inlining_asserting_message :
    asserting.Executes [⟨13⟩, ⟨12⟩, ⟨14⟩, ⟨11⟩] ∧ List.count (⟨15⟩ : NodeId) [⟨13⟩, ⟨12⟩, ⟨14⟩, ⟨11⟩] = 0 ∧
      (((Pass.inlining).run {} (func ["x"] [] [asserting])).run { next := 40 }).1.toOption.map
        (fun made => isReplaced made.2 ⟨15⟩) = some true :=
  ⟨executes_asserting, by decide, by decide +kernel⟩

end Inlining

end NumLang
