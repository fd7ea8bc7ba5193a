import NumLang.Proofs.FlowInvariant
import NumLang.Proofs.Reference

/-!
Reaching definitions are sound: whenever a run comes by a statement or by the test of a loop, every name with a
definition in force holds a value, and the binder that wrote it is found from the definition through the definitions
that meet in joins.
-/

namespace NumLang

variable {V C : Type}

namespace Reaching

open Flow

/-- A definition is found from another through zero or more joins. -/
inductive Feeds (r : Reaching) (source : DefId) : DefId → Prop where
  | self : Feeds r source source
  | join {d e : DefId} {definition : Definition DefId} (found : r.def? d = some definition)
    (meets : e ∈ definition.sources) (feeds : Feeds r source e) : Feeds r source d

/-- The binder at a site defines a name, and its definition is found from a place through joins. -/
inductive Stems (records : List Record) (n : Name) (site : Site) : Place → Prop where
  | binder {p : Place} {prev : Option Place} (recorded : ⟨p, .assign n site prev⟩ ∈ records) : Stems records n site p
  | join {node : NodeId} {lhs rhs p : Place} (recorded : ⟨.join node n, .join n node lhs rhs⟩ ∈ records)
    (meets : p = lhs ∨ p = rhs) (stems : Stems records n site p) : Stems records n site (.join node n)

variable {f : Func} {notes : Notes}

theorem Stems.feeds (survey : Survey f notes) (entry exit : Env) (stems : Stems notes.records n site p) :
    ∃ source prev, (ofNotes entry exit notes).Feeds source (number notes.records p) ∧ (ofNotes entry exit notes).def?
    source = some (.assign n site prev) := by
  induction stems with
  | binder recorded => exact ⟨_, _, .self, survey.def? entry exit recorded⟩
  | join recorded meets _ ih =>
    obtain ⟨source, prev, feeds, found⟩ := ih
    refine ⟨source, prev, .join (survey.def? entry exit recorded) ?_ feeds, found⟩
    rcases meets with rfl | rfl
    · exact mem_cons_self
    · exact mem_cons_of_mem _ mem_cons_self

def Written (records : List Record) (n : Name) (p : Place) (held : Option (Cell V)) : Prop :=
  ∃ cell, held = some cell ∧ Stems records n cell.writer p

def Bound (records : List Record) (env : Env) (σ : Store V) : Prop :=
  Satisfies (Written records) env (World.single.look σ)

theorem upheld_bound (m : Machine V C) (notes : Notes) (stmts : List Stmt) :
    Upheld m .single notes (Bound notes.records) (· = .stuck) stmts where
  stuck := rfl
  reads env σ holds n present := by
    obtain ⟨p, found⟩ := isSome_iff_exists.mp present
    obtain ⟨cell, held, _⟩ := holds n p found
    exact .inl (isSome_iff_exists.mpr ⟨cell, held⟩)
  edge s _ span _ env next σ flows holds := by
    refine holds.into flows ?_
    rintro n lhs rhs x recorded (⟨cell, held, stems⟩ | ⟨cell, held, stems⟩)
    · exact ⟨cell, held, .join recorded (.inl rfl) stems⟩
    · exact ⟨cell, held, .join recorded (.inr rfl) stems⟩
  write s _ span _ _ recorded c σ writes names _ holds := by
    refine Satisfies.binder holds names recorded ?_
    exact fun i n v prev _ defined => ⟨⟨v, ⟨.stmt, s.id⟩⟩, rfl, .binder defined⟩

theorem bound_start (survey : Survey f notes) (started : Machine.start f (some ∘ free) args = some σ) :
    Bound notes.records (entryOf f) σ := by
  refine survey.satisfies_start started ?_ ?_
  · exact fun _ _ _ recorded v => ⟨_, rfl, .binder recorded⟩
  · exact fun _ _ _ recorded => ⟨_, rfl, .binder recorded⟩

/-- The environment at a moment explains its store: each name with a definition in force holds a value, and
its writer is the binder of a definition found through joins from the one in force. -/
def Explains (r : Reaching) (moment : Moment V C) : Prop :=
  ∃ env, r.envAt? moment.point = some env ∧
    ∀ n d, env.get? n = some d → ∃ cell source prev, moment.store.get? n = some cell ∧
      r.Feeds source d ∧ r.def? source = some (.assign n cell.writer prev)

/-- In every run of an accepted function the environment explains the store at every statement, at every test
of a loop and at every draw, and no name is read that holds nothing. -/
theorem writers_reach (m : Machine V C) (f : Func) (r : Reaching) (distinct : f.ids.Nodup)
    (analysed : ofFunc f = .ok r) (c : C) (fuel : Nat) (free : Name → V) (args : List V)
    (out : Outcome V C) (run : m.execFunc c fuel f (some ∘ free) args = some out) :
    (∀ moment ∈ out.trace, r.Explains moment) ∧ ∀ n, out.exit ≠ .fault (.unbound n) := by
  obtain ⟨exit, notes, survey, rfl⟩ := survey_of_func distinct analysed
  obtain ⟨σ, started, rfl⟩ := Option.map_eq_some_iff.mp run
  have covered := (upheld_bound m notes f.body.all).covers survey (bound_start survey started)
    (c := c) (σ := ⟨σ, fuel⟩)
  constructor
  · intro moment member
    obtain ⟨env, located, holds⟩ := located_of_seen survey (entryOf f) exit (covered.seen moment member)
    refine ⟨_, located, ?_⟩
    intro n d found
    obtain ⟨p, inForce, rfl⟩ := get?_numberEnv.mp found
    obtain ⟨cell, held, stems⟩ := holds n p inForce
    obtain ⟨source, prev, feeds, defined⟩ := stems.feeds survey (entryOf f) exit
    exact ⟨cell, source, prev, held, feeds, defined⟩
  · intro n failed
    have ends := covered.ends
    rw [Outcome.Ends, failed] at ends
    cases ends

open Sample in
/-- Adds the elements of `xs` below `x` to the free name `g` and counts up to `x`. -/
def summing : Func :=
  func ["x", "xs"] ["g"] [
    set 10 "s" (var 11 "g"),
    .each (node 12) (.name (name "v")) (var 13 "xs") ⟨⟨14⟩, [
      .when (node 15) (less 16 (var 17 "v") (var 18 "x")) ⟨⟨19⟩, [
        set 20 "s" (add 21 (var 22 "s") (var 23 "v"))]⟩]⟩,
    .loop (node 24) (less 25 (var 26 "s") (var 27 "x")) ⟨⟨28⟩, [
      set 29 "s" (add 30 (var 31 "s") (int 32 1))]⟩,
    .ret (node 33) (var 34 "s")]

theorem writers_reach_summing :
    summing.ids.Nodup ∧ ∃ r out, ofFunc summing = .ok r ∧
      Machine.withLists.execFunc () 5 summing (some ∘ fun _ => .number 1)
        [.number 4, .list [.number 1, .number 9]] = some out ∧
      out.exit = .ret (.number 4) ∧ out.trace.length = 14 ∧
      (∀ moment ∈ out.trace, r.Explains moment) ∧ ∀ n, out.exit ≠ .fault (.unbound n) := by
  have distinct : summing.ids.Nodup := by decide
  have accepted : (ofFunc summing).toOption.isSome = true := by decide +kernel
  have ends : (Machine.withLists.execFunc () 5 summing (some ∘ fun _ => .number 1)
      [.number 4, .list [.number 1, .number 9]]).map (fun out => (out.exit, out.trace.length)) =
        some (.ret (.number 4), 14) := by
    decide +kernel
  cases analysed : ofFunc summing with
  | error e =>
    rw [analysed] at accepted
    nomatch accepted
  | ok r =>
    obtain ⟨out, run, same⟩ := Option.map_eq_some_iff.mp ends
    have sound := writers_reach Machine.withLists summing r distinct analysed () 5
      (fun _ => .number 1) _ out run
    exact ⟨distinct, r, out, rfl, run, congrArg Prod.fst same, congrArg Prod.snd same, sound⟩

end Reaching

end NumLang
