import Mathlib.Data.Rat.Defs
import NumLang.Proofs.ContextsSound

/-!
Static contexts are sound, for every machine that computes with contexts as they are written down.
-/

namespace NumLang

variable {k : Context}

open Flow Reaching

/-- A machine that computes with contexts: literals stand for themselves, integers are negated exactly, a
constructor builds what its arguments say, and a `with` statement enters the context that it is given. No
context is in force as long as it is that of the caller. -/
structure Machine.Contextual (m : Machine Value (Option Context)) : Prop where
  integer : ∀ n, m.literal (.integer n) = some (.number n)
  bool : ∀ b, m.literal (.bool b) = some (.bool b)
  host : ∀ h, m.literal (.host h) = some (.ofHost h)
  negate : ∀ c (n : Int), m.apply c (.unary .neg) [.number n] = some (.number (-n : Int))
  build : ∀ c ctor args, m.apply c (.context ctor) args =
    (args.mapM Value.asArg?).bind fun args => (Context.build? ctor args).map .context
  plain : m.Plain
  enter : m.enter = some fun _ v => v.asContext?.map some

/-- Arithmetic that is rounded in the context in force, with `for` loops over lists. -/
def Machine.entering (round : Context → Rat → Rat) (caller : Context) : Machine Value (Option Context) where
  literal := (rounded round).literal
  apply c := (rounded round).apply (c.getD caller)
  truth := Value.asBool?
  spread := reference.spread
  elements := Value.asList?
  replace _ _ _ := none
  enter := some fun _ v => v.asContext?.map some

theorem Machine.contextual_entering (round : Context → Rat → Rat) (caller : Context)
    (whole : ∀ c (n : Int), round c n = n) : (entering round caller).Contextual where
  integer _ := rfl
  bool _ := rfl
  host _ := rfl
  negate c n := by
    have negated : round (c.getD caller) (-(n : Rat)) = ((-n : Int) : Rat) := by
      rw [← whole (c.getD caller) (-n), Rat.intCast_neg]
    exact congrArg (some ∘ Value.number) negated
  build c ctor args := by
    cases all : args.mapM Value.asArg? with
    | none => simp [entering, rounded, all]
    | some found => cases built : Context.build? ctor found <;> simp [entering, rounded, all, built]
  plain := by
    rintro n v vs ⟨⟩
    rfl
  enter := rfl

theorem Value.asArg?_ofHost (h : HostValue) : (ofHost h).asArg? = h.asArg? := by
  cases h <;> rfl

theorem Value.eq_number_of_asArg? {v : Value} (known : v.asArg? = some (.int n)) : v = .number n := by
  cases v with
  | number r =>
    simp only [asArg?] at known
    split at known
    · rename_i whole
      cases known
      rw [(Rat.den_eq_one_iff r).mp whole]
    · cases known
  | _ => cases known

namespace StaticView

variable {f : Func} {u : Uses} {notes : Flow.Notes}

/-- What is known of the definitions in force, as arguments of constructors, is what names hold. -/
def Agrees (f : Func) (u : Uses) (notes : Flow.Notes) (env : Env) (σ : Store Value) : Prop :=
  Satisfies (fun _ p held => ∀ cell, held = some cell → ∀ fuel a,
    (ofFunc f u).defArg? fuel (number notes.records p) = some a → cell.value.asArg? = some a) env
    (World.single.look σ)

section Arguments

variable (resolved : Uses.Resolved f u notes) {m : Machine Value (Option Context)} (contextual : m.Contextual)
  {stmt : NodeId} {env : Env} {σ : Store Value} {c : Option Context}

include resolved contextual

variable {e : Expr} {v : Value}

theorem asArg?_of_eval (agrees : Agrees f u notes env σ) (fuel : Nat)
    (listed : Uses.Lists u.reach stmt (numberEnv notes.records env) u.uses e) (computed : m.eval c σ e = .ok v)
    (known : (ofFunc f u).exprArg? fuel e = some a) : v.asArg? = some a := by
  induction fuel generalizing e v a with
  | zero => simp [exprArg?] at known
  | succ fuel ih =>
    cases e with
    | lit node l =>
      have literal := demand_ok.mp computed
      cases l with
      | integer n =>
        cases (contextual.integer n).symm.trans literal
        simpa [exprArg?, Value.asArg?] using known
      | bool b =>
        cases (contextual.bool b).symm.trans literal
        simpa [exprArg?, Value.asArg?] using known
      | host h =>
        cases (contextual.host h).symm.trans literal
        rw [Value.asArg?_ofHost]
        simpa [exprArg?] using known
      | _ => simp [exprArg?] at known
    | unary node op spelling arg =>
      cases op with
      | neg =>
        obtain ⟨inner, evaluated, applied⟩ := bind_ok.mp computed
        simp only [exprArg?] at known
        split at known
        · rename_i n operand
          cases known
          cases Value.eq_number_of_asArg? (ih (listed.operand mem_cons_self) evaluated operand)
          cases (contextual.negate c n).symm.trans (demand_ok.mp applied)
          simp [Value.asArg?]
        · cases known
      | _ => simp [exprArg?] at known
    | var node name =>
      obtain ⟨d, found, used⟩ := listed.var
      have located : u.defOfUse? node.id = some d := by
        rw [Uses.defOfUse?, resolved.at?_eq used]
        rfl
      simp only [exprArg?, located] at known
      obtain ⟨p, inForce, rfl⟩ := get?_numberEnv.mp found
      obtain ⟨cell, held, rfl⟩ := map_eq_some_iff.mp (Store.read_eq_ok_iff.mp computed)
      exact agrees name p inForce cell held fuel a known
    | _ => simp [exprArg?] at known

theorem mapM_asArg?_of_evalAll (agrees : Agrees f u notes env σ) {es : List Expr}
    (listed : ∀ e ∈ es, Uses.Lists u.reach stmt (numberEnv notes.records env) u.uses e) {vs : List Value}
    (computed : m.evalAll c σ es = .ok vs) (known : es.mapM ((ofFunc f u).exprArg? fuel) = some args) :
    vs.mapM Value.asArg? = some args := by
  induction es generalizing vs args with
  | nil =>
    cases computed
    exact known
  | cons e rest ih =>
    obtain ⟨v, first, computed⟩ := bind_ok.mp computed
    obtain ⟨others, later, result⟩ := bind_ok.mp computed
    cases result
    simp only [mapM_cons, Option.bind_eq_bind, bind_eq_some_iff, Option.pure_def, Option.some.injEq] at known ⊢
    obtain ⟨a, own, known, remaining, rfl⟩ := known
    refine ⟨a, ?_, known, ?_, rfl⟩
    · exact asArg?_of_eval resolved contextual agrees fuel (listed e mem_cons_self) first own
    · exact ih (fun part mem => listed part (mem_cons_of_mem _ mem)) later remaining

theorem eval_of_built (agrees : Agrees f u notes env σ)
    (listed : Uses.Lists u.reach stmt (numberEnv notes.records env) u.uses e) (computed : m.eval c σ e = .ok v)
    (written : (ofFunc f u).written? e = some k) : v = .context k := by
  unfold written? at written
  split at written
  · rename_i h
    cases (contextual.host h).symm.trans (demand_ok.mp computed)
    cases h with
    | context k =>
      cases written
      rfl
    | _ => cases written
  · rename_i node ctor args kwargs
    unfold built? at written
    split at written
    · rename_i plain
      cases List.isEmpty_iff.mp plain
      obtain ⟨found, all, built⟩ := bind_eq_some_iff.mp written
      obtain ⟨vs, evaluated, applied⟩ := bind_ok.mp computed
      have args := mapM_asArg?_of_evalAll resolved contextual agrees
        (fun part mem => listed.operand (e := .context node ctor args []) mem) evaluated all
      have applied := demand_ok.mp applied
      rw [contextual.build, args, bind_some, built] at applied
      cases applied
      rfl
    · cases written
  · cases written

theorem upheld_agrees : Upheld m .single notes (Agrees f u notes) (fun _ => True) f.body.all where
  stuck := trivial
  reads _ _ _ _ _ := .inr trivial
  edge s _ span _ env next σ flows holds := by
    refine holds.into flows ?_
    intro n lhs rhs x recorded entering cell held fuel a known
    cases fuel with
    | zero => simp [defArg?] at known
    | succ fuel =>
      simp only [defArg?, StaticView.def?, resolved.def? recorded, Definition.map, Option.bind_eq_bind,
        bind_eq_some_iff] at known
      -- Both sides are the same argument, whichever of them the run has come from.
      obtain ⟨first, left, second, right, same⟩ := known
      split at same
      · rename_i equal
        cases same
        rcases entering with entering | entering
        · exact entering cell held fuel a left
        · exact entering cell held fuel a (equal ▸ right)
      · cases same
  write s mem span noted _ recorded c σ writes names wrote holds := by
    refine Satisfies.binder holds names recorded ?_
    rintro i n v prev written made cell ⟨⟩ fuel a known
    cases fuel with
    | zero => simp [defArg?] at known
    | succ fuel =>
      simp only [defArg?, StaticView.def?, resolved.def? made, Definition.map, find?_stmt resolved mem] at known
      split at known
      · rename_i node target ann value assigns
        cases assigns
        have computed := eval_of_wrote contextual.plain rfl wrote written
        obtain ⟨env, agrees, listed⟩ := listed_source resolved mem rfl noted (Agrees f u notes) holds
        exact asArg?_of_eval resolved contextual agrees fuel listed computed known
      · cases known

omit contextual in
theorem agrees_start (captured : Rounded.Captured f free) (started : Machine.start f free args = some σ) :
    Agrees f u notes (entryOf f) σ := by
  refine resolved.survey.satisfies_start started ?_ ?_
  · rintro id n prev recorded v cell ⟨⟩ fuel a known
    cases fuel with
    | zero => simp [defArg?] at known
    | succ fuel => simp [defArg?, StaticView.def?, resolved.def? recorded, Definition.map] at known
  · intro i n prev recorded cell held fuel a known
    obtain ⟨v, given, rfl⟩ := map_eq_some_iff.mp held
    cases fuel with
    | zero => simp [defArg?] at known
    | succ fuel =>
      simp only [defArg?, StaticView.def?, resolved.def? recorded, Definition.map, captured?,
        Option.bind_eq_bind, bind_eq_some_iff] at known
      obtain ⟨h, found, argument⟩ := known
      rw [captured n v h given found, Value.asArg?_ofHost]
      exact argument

theorem grounds_contextual : Grounds m (fun _ => True) f u notes (Agrees f u notes) where
  plain := contextual.plain
  upheld := upheld_agrees resolved contextual
  written listed agrees computed _ written := eval_of_built resolved contextual agrees listed computed written

end Arguments

end StaticView

/-- What a tag says of the context in force: nothing has been entered, or the context that is known has. -/
def ContextTag.Describes : ContextTag → Option Context → Prop
  | .default, c => c = none
  | .known k, c => c = some k
  | .unknown, _ => True

namespace StaticView

variable {f : Func} {u : Uses} {notes : Flow.Notes} {m : Machine Value (Option Context)}

def Known (f : Func) (u : Uses) (notes : Flow.Notes) (moment : Moment Value (Option Context)) : Prop :=
  (notes.outline (fun env σ => Agrees f u notes env σ ∧ Traced (fun _ => True) f u notes env σ)
    fun _ => True).seen moment.point moment.context moment.store

theorem enters_contextual (resolved : Uses.Resolved f u notes) (contextual : m.Contextual) :
    Enters m ContextTag.Describes f (ofFunc f u) (Known f u notes) := by
  intro node name ctx body tag inner c entered σ writes mem inside known computed
  obtain ⟨value, valued, rfl⟩ := inside
  cases value with
  | none => trivial
  | some k =>
    simp only [Machine.entered, contextual.enter] at computed
    obtain ⟨v, evaluated, rest⟩ := bind_ok.mp computed
    obtain ⟨into, context, result⟩ := bind_ok.mp rest
    cases result
    obtain ⟨env, ⟨agrees, traced⟩, reads⟩ := resolved.reads_of_seen mem known
    have evaluates := evaluates_of_eval resolved (grounds_contextual resolved contextual)
      (reads.exprs ctx mem_cons_self) agrees traced evaluated
    cases evaluates.known resolved trivial valued
    cases context
    rfl

end StaticView

namespace Contexts

variable {f : Func} {u : Uses} {contexts : Contexts}

theorem getElem?_mapM {ε α β : Type} {g : α → Except ε β} {xs : List α} {ys : List β} (all : xs.mapM g = .ok ys)
    (i : Nat) : ys[i]?.map .ok = xs[i]?.map g := by
  induction xs generalizing ys i with
  | nil =>
    cases all
    rfl
  | cons a rest ih =>
    rw [mapM_cons] at all
    obtain ⟨first, computed, all⟩ := bind_ok.mp all
    obtain ⟨others, later, result⟩ := bind_ok.mp all
    cases result
    cases i with
    | zero => exact congrArg some computed.symm
    | succ i => exact ih later i

theorem uses_of_ofUses (found : Contexts.ofUses f u = .ok contexts) : contexts.uses = u := by
  obtain ⟨_, _, found⟩ := bind_ok.mp found
  obtain ⟨_, _, result⟩ := bind_ok.mp found
  cases result
  rfl

theorem valueOfDef?_eq_some (found : Contexts.ofUses f u = .ok contexts) {d : DefId} :
    contexts.valueOfDef? d = some k ↔ d < u.reach.size ∧ (StaticView.ofFunc f u).valueOfDef d = .ok (some k) := by
  obtain ⟨own, _, found⟩ := bind_ok.mp found
  obtain ⟨values, all, result⟩ := bind_ok.mp found
  cases result
  have same := getElem?_mapM all d
  show values[d]?.join = some k ↔ _
  by_cases inside : d < u.reach.size
  · rw [List.getElem?_range inside] at same
    obtain ⟨value, located, valued⟩ := map_eq_some_iff.mp same
    rw [located, ← valued]
    simp [inside]
  · have outside : (List.range u.reach.size)[d]? = none := List.getElem?_eq_none (by simpa using inside)
    rw [outside] at same
    simp [inside, Option.map_eq_none_iff.mp same]

/-- The contexts found for a function describe a moment of a run: the tag of the statement that the run has come
to is right about the context in force, and every name whose definition in force has a known context as its
value holds that context. -/
def Describes (contexts : Contexts) (moment : Moment Value (Option Context)) : Prop :=
  (∃ tag, contexts.ofStmt? moment.point.owner = some tag ∧ tag.Describes moment.context) ∧
    ∃ env, contexts.uses.reach.envAt? moment.point = some env ∧
      ∀ n d k cell, env.get? n = some d → contexts.valueOfDef? d = some k →
        moment.store.get? n = some cell → cell.value = .context k

/-- Every run of a function comes by its statements under the contexts that were found for them, and names hold
the contexts that were found for their definitions. -/
theorem describes_of_run (m : Machine Value (Option Context)) (contextual : m.Contextual) (f : Func)
    (contexts : Contexts) (distinct : f.ids.Nodup) (found : Contexts.ofFunc f = .ok contexts)
    (free : Name → Option Value) (captured : Rounded.Captured f free) (args : List Value) (fuel : Nat)
    (out : Outcome Value (Option Context)) (run : m.execFunc f.ctx fuel f free args = some out) :
    ∀ moment ∈ out.trace, contexts.Describes moment := by
  obtain ⟨u, used, found⟩ := bind_ok.mp found
  obtain ⟨notes, resolved⟩ := Uses.resolved_of_func distinct used
  obtain ⟨σ, started, rfl⟩ := Option.map_eq_some_iff.mp run
  have known := (StaticView.upheld_traced resolved (StaticView.grounds_contextual resolved contextual)).covers
    resolved.survey ⟨StaticView.agrees_start resolved captured started,
      StaticView.traced_start resolved captured started⟩ (c := f.ctx) (σ := ⟨σ, fuel⟩)
  have entry : (ContextTag.ofFunc f).Describes f.ctx := by
    unfold ContextTag.ofFunc
    split <;> rename_i own <;> rw [own] <;> rfl
  have tagged := StaticView.seen_of_run found resolved.survey.nodup_body
    (StaticView.enters_contextual resolved contextual) entry known.seen
  intro moment member
  refine ⟨tagged moment member, ?_⟩
  obtain ⟨exit, reach⟩ := resolved.reach
  obtain ⟨env, located, agrees, traced⟩ := located_of_seen resolved.survey (entryOf f) exit
    (known.seen moment member)
  refine ⟨_, by rw [uses_of_ofUses found, reach]; exact located, ?_⟩
  intro n d k cell inForce value held
  obtain ⟨p, defined, rfl⟩ := get?_numberEnv.mp inForce
  obtain ⟨bounded, valued⟩ := (valueOfDef?_eq_some found).mp value
  exact (traced n p defined cell held).known resolved bounded.le trivial valued

open Sample in
/-- Sums up `xs` under a context that is built in two ways, from the captured width `E` and from what is written
down, and returns the sum under the context of the caller. -/
def narrowing : Func :=
  { func ["p", "xs"] ["E"] [
      set 10 "n" (int 11 32),
      set 12 "c" (.context (node 13) "IEEEContext" [var 14 "E", var 15 "n"] []),
      .when (node 16) (var 17 "p") ⟨⟨18⟩, [
        set 19 "c" (.context (node 20) "IEEEContext" [int 21 8, .unary (node 22) .neg none (int 23 (-32))] [])]⟩,
      set 24 "s" (int 25 0),
      .scope (node 26) (some (name "k")) (var 27 "c") ⟨⟨28⟩, [
        .each (node 29) (.name (name "v")) (var 30 "xs") ⟨⟨31⟩, [
          set 32 "s" (add 33 (var 34 "s") (var 35 "v"))]⟩]⟩,
      .ret (node 36) (var 37 "s")] with
    env := OrdMap.ofList [("E", .number 8)] }

theorem describes_of_run_narrowing :
    let m := Machine.entering (fun _ q => q.floor) .real
    m.Contextual ∧ narrowing.ids.Nodup ∧ Rounded.Captured narrowing (Rounded.captures narrowing) ∧
      ∃ contexts out, Contexts.ofFunc narrowing = .ok contexts ∧
        contexts.ofStmt? ⟨32⟩ = some (.known .fp32) ∧ contexts.ofStmt? ⟨36⟩ = some .default ∧
        m.execFunc narrowing.ctx 5 narrowing (Rounded.captures narrowing)
          [.bool true, .list [.number (mkRat 1 2), .number 3]] = some out ∧
        out.exit = .ret (.number 3) ∧ out.trace.length = 12 ∧
        ∀ moment ∈ out.trace, contexts.Describes moment := by
  have contextual := Machine.contextual_entering (fun _ q => q.floor) .real
    fun _ n => congrArg _ (Rat.floor_intCast n)
  have distinct : narrowing.ids.Nodup := by decide
  have captured := Rounded.captured_captures narrowing
  have accepted : (Contexts.ofFunc narrowing).toOption.map
      (fun contexts => (contexts.ofStmt? ⟨32⟩, contexts.ofStmt? ⟨36⟩)) =
        some (some (.known .fp32), some .default) := by
    decide +kernel
  have ends : ((Machine.entering (fun _ q => q.floor) .real).execFunc narrowing.ctx 5 narrowing
      (Rounded.captures narrowing) [.bool true, .list [.number (mkRat 1 2), .number 3]]).map
        (fun out => (out.exit, out.trace.length)) = some (.ret (.number 3), 12) := by
    decide +kernel
  cases found : Contexts.ofFunc narrowing with
  | error e =>
    rw [found] at accepted
    nomatch accepted
  | ok contexts =>
    rw [found] at accepted
    have tags := Option.some.inj accepted
    obtain ⟨out, run, same⟩ := Option.map_eq_some_iff.mp ends
    refine ⟨contextual, distinct, captured, contexts, out, rfl, congrArg Prod.fst tags,
      congrArg Prod.snd tags, run, congrArg Prod.fst same, congrArg Prod.snd same, ?_⟩
    exact describes_of_run _ contextual narrowing contexts distinct found _ captured _ 5 out run

end Contexts

end NumLang
