import Mathlib.Data.Rat.Defs
import NumLang.Pass.ConstantFolding
import NumLang.Proofs.ContextsSound
import NumLang.Proofs.Coupling
import NumLang.Proofs.Editing

/-!
Constant folding keeps results, in whatever way arithmetic is rounded.
-/

namespace NumLang

variable {h : HostValue} {e' : Expr}

namespace ConstantFolding

variable {tag : ContextTag} {ev : Evaluator} {e : Expr}

theorem outcome?_value
    (found : outcome? ev tag e = some (.value h)) :
    ∃ form hs, e.form? = some form ∧ e.operands.mapM Expr.literalValue? = some hs ∧
      ((∃ op, form.operator? = some op ∧ ev.apply op hs tag = some h) ∨
        ∃ ops b, form = .compare ops ∧ ev.compare ops hs tag = some b ∧ h = .bool b) := by
  cases e with
  | unary | binary | ternary | nary =>
    obtain ⟨hs, literals, found⟩ := bind_eq_some_iff.mp found
    obtain ⟨value, applied, result⟩ := bind_eq_some_iff.mp found
    cases result
    exact ⟨_, hs, rfl, literals, .inl ⟨_, rfl, applied⟩⟩
  | compare =>
    obtain ⟨hs, literals, found⟩ := bind_eq_some_iff.mp found
    obtain ⟨value, applied, result⟩ := bind_eq_some_iff.mp found
    cases result
    exact ⟨_, hs, rfl, literals, .inr ⟨_, value, rfl, applied, rfl⟩⟩
  | cond node test ift iff =>
    obtain ⟨_, _, found⟩ := bind_eq_some_iff.mp found
    obtain ⟨_, _, result⟩ := bind_eq_some_iff.mp found
    cases result
  | _ => cases found

theorem outcome?_branch (found : outcome? ev tag e = some (.branch taken)) :
    ∃ node test ift iff, e = .cond node test ift iff ∧ test.literalValue? = some (.bool taken) := by
  cases e with
  | unary | binary | ternary | nary | compare =>
    obtain ⟨_, _, found⟩ := bind_eq_some_iff.mp found
    obtain ⟨_, _, result⟩ := bind_eq_some_iff.mp found
    cases result
  | cond node test ift iff =>
    obtain ⟨h, literal, found⟩ := bind_eq_some_iff.mp found
    obtain ⟨b, truth, result⟩ := bind_eq_some_iff.mp found
    cases result
    cases h with
    | bool b =>
      cases truth
      exact ⟨node, test, ift, iff, rfl, literal⟩
    | _ => cases truth
  | _ => cases found

def results : Results Folding ContextTag where
  gives tag x a := Edit.results.gives () (x.run tag) a
  of_pure := Edit.results.of_pure
  of_bind := Edit.results.of_bind

theorem gives_read (given : results.gives tag read here) : here = tag := by
  obtain ⟨s, s', made⟩ := given
  cases made
  rfl

section Values

variable {round : Context → Rat → Rat} {c : Context} {σ : Store Value} {v : Value}

theorem eval_literal (node : Node) (h : HostValue) :
    (Machine.rounded round).eval c σ (.lit node (literal h)) = .ok (.ofHost h) := by
  rw [Machine.eval, demand_ok]
  cases h with
  | number r =>
    by_cases whole : r.den = 1
    · rw [literal, if_pos whole]
      exact congrArg (some ∘ Value.number) ((Rat.den_eq_one_iff r).mp whole)
    · rw [literal, if_neg whole]
      rfl
  | _ => rfl

variable (exact : ∀ q, round .real q = q) (sound : tag.Sound c)

include exact sound

theorem eval_of_outcome (found : outcome? .exact tag e = some (.value h))
    (computed : (Machine.rounded round).eval c σ e = .ok v) : v = .ofHost h := by
  obtain ⟨form, hs, formed, literals, known⟩ := outcome?_value found
  have applied : (Machine.rounded round).apply c form (hs.map .ofHost) = some v := by
    rw [Machine.eval_form _ formed, ← Expr.operands_of_form formed, Machine.evalAll_of_literals literals] at computed
    exact demand_ok.mp computed
  rcases known with ⟨op, same, known⟩ | ⟨ops, b, rfl, known, rfl⟩
  · have unrounded : Exact.isExact tag = true → ∀ q, round c q = q := by
      intro isExact
      rw [sound (of_decide_eq_true isExact)]
      exact exact
    have operated : form.operate? (round c) (hs.map Value.ofHost) = some v := by
      cases form with
      | context ctor => cases same
      | _ => exact applied
    exact Exact.value?_eq unrounded same operated known
  · obtain ⟨s, compared, result⟩ := bind_eq_some_iff.mp applied
    cases result
    rw [Exact.compare?_eq compared known]
    rfl

theorem eval_of_replace (given : results.gives tag (replace .exact e) e')
    (computed : (Machine.rounded round).eval c σ e = .ok v) : (Machine.rounded round).eval c σ e' = .ok v := by
  obtain ⟨here, asked, given⟩ := results.of_bind given
  cases gives_read asked
  split at given
  · cases results.of_pure given
    exact computed
  · rename_i h found
    obtain ⟨_, _, given⟩ := results.of_bind given
    obtain ⟨node, _, given⟩ := results.of_bind given
    cases results.of_pure given
    rw [eval_of_outcome exact sound found computed]
    exact eval_literal node h
  · rename_i taken found
    obtain ⟨_, _, given⟩ := results.of_bind given
    cases results.of_pure given
    obtain ⟨node, test, ift, iff, rfl, literal⟩ := outcome?_branch found
    obtain ⟨a, tested, computed⟩ := bind_ok.mp computed
    obtain ⟨b, decided, rest⟩ := bind_ok.mp computed
    cases (Machine.eval_of_literal literal).symm.trans tested
    cases decided
    cases taken with
    | true => exact rest
    | false => exact rest

end Values

open Flow

def Tagged (contexts : Contexts) (id : NodeId) (c : Context) : Prop :=
  ((contexts.ofStmt? id).getD .unknown).Sound c

def revision (round : Context → Rat → Rat) (contexts : Contexts) : Revision where
  drops _ := False
  idle _ := False
  agrees p e e' := ∀ c σ, Tagged contexts p.owner c → Rebuild.Follows (Machine.rounded round) c σ σ e e'

theorem upheld_same (m : Machine V C) (notes : Notes) (stmts : List Stmt) :
    Upheld m .pair notes (fun _ w => w.1 = w.2) (fun _ => True) stmts where
  stuck := trivial
  reads _ _ _ _ _ := .inr trivial
  edge _ _ _ _ _ _ _ _ same := same
  write s _ span _ _ _ c w writes _ _ same := by
    rw [World.write_pair, same]

section Runs

variable {round : Context → Rat → Rat} {f : Func} {contexts : Contexts} {c : Context}

theorem sound {notes : Notes} (survey : Reaching.Survey f notes) : (revision round contexts).Sound
    (Machine.rounded round) (fun moment => Tagged contexts moment.point.owner moment.context)
    (notes.outline (fun _ w => w.1 = w.2) fun _ => True) where
  drops _ never := never.elim
  idle _ never := never.elim
  agrees p e e' same c w reached := by
    obtain ⟨_, _, equal⟩ := Reaching.located_of_seen survey ∅ ∅ reached.1
    rw [← equal]
    exact same c w.1 reached.2
  rewrites _ _ _ _ never := never.elim

theorem follows_onExpr (exact : ∀ q, round .real q = q) (tagged : tag.Sound c) (σ : Store Value)
    (given : results.gives tag ((hooks .exact contexts).onExpr e) e') :
    Rebuild.Follows (Machine.rounded round) c σ σ e e' := by
  refine Rebuild.follows_onExpr (P := fun _ => True) (fun _ => rfl) ⟨fun _ _ _ _ => trivial, ?_, ?_⟩ e trivial given
  · intro node name _ e' given v computed
    obtain ⟨inner, usual, given⟩ := results.of_bind given
    obtain ⟨_, named, usual⟩ := results.of_bind usual
    cases results.of_pure named
    cases results.of_pure usual
    exact eval_of_replace exact tagged given computed
  · intro e _ usual e' given follows v computed
    obtain ⟨inner, found, given⟩ := results.of_bind given
    exact eval_of_replace exact tagged given (follows inner found v computed)

theorem keeps (exact : ∀ q, round .real q = q) : (hooks .exact contexts).Keeps results (revision round contexts)
    (fun s tag => tag = (contexts.ofStmt? s.id).getD .unknown) f.body.all where
  name _ := rfl
  stmt s _ _ usual out given := by
    obtain ⟨s', found, given⟩ := results.of_bind given
    exact .inr ⟨_, s', rfl, found, .inl (results.of_pure given)⟩
  block _ _ _ b' given := ⟨b', given, rfl, rfl⟩
  expr s _ tag own e _ e' given c σ tagged := by
    subst own
    rw [Stmt.owner_point] at tagged
    exact follows_onExpr exact tagged σ given
  held _ _ _ _ _ _ _ _ _ _ _ computed := computed

theorem gives_edit (made : Edit.Makes (edit ev f) s g s') :
    ∃ contexts body, Contexts.ofFunc f = .ok contexts ∧ results.gives contexts.root ((hooks ev contexts).onBlock f.body)
    body ∧ g = { f with body := body } := by
  obtain ⟨contexts, _, lifted, rest⟩ := Edit.makes_bind.mp made
  obtain ⟨body, _, rebuilt, result⟩ := Edit.makes_bind.mp rest
  exact ⟨contexts, body, (Edit.makes_lift.mp lifted).1, ⟨_, _, rebuilt⟩, (Edit.makes_pure.mp result).1⟩

theorem run_folded (exact : ∀ q, round .real q = q) (distinct : f.ids.Nodup) (found : Contexts.ofFunc f = .ok contexts)
    (given : results.gives tag ((hooks .exact contexts).onBlock f.body) body) (captured : Rounded.Captured f free)
    (entered : (ContextTag.ofFunc f).Sound c) (returns : (Machine.rounded round).run c fuel f free args = some v) :
    (Machine.rounded round).run c fuel { f with body := body } free args = some v := by
  obtain ⟨u, used, _⟩ := bind_ok.mp found
  obtain ⟨notes, resolved⟩ := Uses.resolved_of_func distinct used
  refine run_of_revision resolved.survey (upheld_same _ notes f.body.all) (sound resolved.survey)
    (Rebuild.revises_onBlock (keeps exact) f.body (fun _ mem => mem) given) rfl ?_ ?_ returns
    fun _ => id
  · exact fun σ _ => rfl
  · exact fun σ started => Contexts.sound_of_run distinct found captured started entered round fuel

end Runs

end ConstantFolding

namespace Rounded

theorem sound_entry (f : Func) (caller : Context) : (ContextTag.ofFunc f).Sound (f.ctx.getD caller) := by
  intro exact
  cases ctx : f.ctx with
  | none =>
    rw [ContextTag.ofFunc, ctx] at exact
    cases exact
  | some c =>
    rw [ContextTag.ofFunc, ctx] at exact
    cases exact
    rfl

/-- Constant folding keeps the result of a function whose nodes have distinct identities, in whatever way
arithmetic is rounded, as long as nothing is rounded under the context of exact arithmetic. -/
theorem run_constantFolding (round : Context → Rat → Rat) (exact : ∀ q, round .real q = q) (cfg : Config)
    (f g : Func) (events : EventLog) (session after : Session) (distinct : f.ids.Nodup)
    (applied : (Pass.constantFolding.run cfg f).run session = (.ok (g, events), after)) (caller : Context)
    (free : Name → Option Value) (captured : Captured f free) (args : List Value) (v : Value)
    (returns : run round caller free f args = some v) : run round caller free g args = some v := by
  obtain ⟨s', made⟩ := Edit.makes_of_perform applied
  obtain ⟨contexts, body, found, given, rfl⟩ := ConstantFolding.gives_edit made
  exact ConstantFolding.run_folded exact distinct found given captured (sound_entry f caller) returns

open Sample in
/-- Adds one and two, once under the context of the caller and once under a copy of the captured `R`, which is
the context of exact arithmetic, and returns the sum of both in any case. -/
def settling : Func :=
  { func ["x"] ["R"] [
      set 10 "y" (add 11 (int 12 1) (int 13 2)),
      set 14 "c" (var 15 "R"),
      .scope (node 16) (some (name "d")) (var 17 "c") ⟨⟨18⟩, [
        set 19 "z" (add 20 (int 21 1) (int 22 2)),
        .ret (node 23) (.cond (node 24) (.lit (node 25) (.bool true)) (add 26 (var 27 "y") (var 28 "z"))
          (var 29 "x"))]⟩] with
    env := OrdMap.ofList [("R", .context .real)] }

def blurred (c : Context) (q : Rat) : Rat := if c = .real then q else q + mkRat 1 2

theorem run_constantFolding_settling :
    settling.ids.Nodup ∧ (∀ q, blurred .real q = q) ∧ Captured settling (captures settling) ∧
      ∃ g events after, (Pass.constantFolding.run {} settling).run { next := 40 } = (.ok (g, events), after) ∧
      events.length = 2 ∧ settling.ids.length = 23 ∧ g.ids.length = 18 ∧
      run blurred .fp64 (captures settling) settling [.number 0] = some (.number (mkRat 13 2)) ∧
      run blurred .fp64 (captures settling) g [.number 0] = some (.number (mkRat 13 2)) := by
  have distinct : settling.ids.Nodup := by decide
  have exact : ∀ q, blurred .real q = q := fun q => rfl
  have captured := captured_captures settling
  have returns : run blurred .fp64 (captures settling) settling [.number 0] = some (.number (mkRat 13 2)) := by
    decide +kernel
  have folded : (((Pass.constantFolding.run {} settling).run { next := 40 }).1.toOption.map
      fun made => (made.2.length, made.1.ids.length)) = some (2, 18) := by
    decide +kernel
  rcases applied : (Pass.constantFolding.run {} settling).run { next := 40 } with ⟨_ | ⟨g, events⟩, after⟩
  · rw [applied] at folded
    cases folded
  · rw [applied] at folded
    have counts := Option.some.inj folded
    refine ⟨distinct, exact, captured, g, events, after, rfl, congrArg Prod.fst counts, rfl,
      congrArg Prod.snd counts, returns, ?_⟩
    exact run_constantFolding blurred exact {} settling g events { next := 40 } after distinct applied .fp64 _
      captured _ _ returns

end Rounded

end NumLang
