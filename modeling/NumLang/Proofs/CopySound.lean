import NumLang.Proofs.CopyTraces
import NumLang.Proofs.Accounts
import NumLang.Proofs.Reference

/-!
Copy propagation is sound. The run of a function and the run of what it becomes agree on the names whose definitions in
force are kept, which are all but those of removed copies.
-/

namespace NumLang

variable {value : Expr}

instance : Std.LawfulEqOrd UseSite where
  eq_of_compare {a b} same := by
    have parts : compare a.node b.node = .eq ∧ compare a.stmt b.stmt = .eq ∧
        compare a.kind.ctorIdx b.kind.ctorIdx = .eq := by
      rwa [← Ordering.then_eq_eq, ← Ordering.then_eq_eq]
    obtain ⟨node, stmt, kind⟩ := parts
    have node := Std.LawfulEqOrd.eq_of_compare node
    have stmt := Std.LawfulEqOrd.eq_of_compare stmt
    have kind := Std.LawfulEqOrd.eq_of_compare kind
    obtain ⟨_, _, first⟩ := a
    obtain ⟨_, _, second⟩ := b
    cases node
    cases stmt
    cases first <;> cases second <;> first | rfl | cases kind

namespace CopyPropagation

open Flow Reaching

variable {V C : Type} {f : Func} {u : Uses} {notes : Notes}

/-- The statement that a copy stands for, and the places of its definition and of its source. -/
inductive Copy.Made (f : Func) (notes : Notes) (c : Copy) : Prop where
  | intro {node read : Node} {q : Place}
    (mem : .assign node (.name c.target) none (.var read c.source) ∈ f.body.all) (stmt : c.stmt = node.id)
    (definition : number notes.records (.binder node.id 0) = c.definition)
    (copied : Copied f notes (.binder node.id 0) c.source q) (source : number notes.records q = c.sourceDef)

variable {c : Copy} {d : DefId} {fuel : Nat} {use : Use} {g : Func} {s s' : Edit.State} {z : Name} {site : UseSite}
  {r : Replacement} {i : Prop} {m : Machine V C} {free : Name → Option V} {args : List V} {v : V}

theorem made_of_copies (resolved : u.Resolved f notes) (listed : c ∈ copies f u.reach) : c.Made f notes := by
  obtain ⟨entry, tabled, rfl⟩ := mem_map.mp listed
  obtain ⟨c, copying, rfl⟩ := mem_map.mp (OrdMap.mem_of_mem_ofList tabled)
  obtain ⟨s, mem, found⟩ := List.mem_filterMap.mp copying
  obtain ⟨exit, reach⟩ := resolved.reach
  unfold copy? at found
  split at found
  · rename_i node target read source
    split at found
    · cases found
    · rename_i differ
      obtain ⟨d, defined, found⟩ := bind_eq_some_iff.mp found
      obtain ⟨e, reached, result⟩ := bind_eq_some_iff.mp found
      cases result
      rw [reach] at defined reached
      obtain ⟨slot, n, _, named, _, numbered⟩ := resolved.survey.mem_defsAt mem (mem_of_find?_eq_some defined)
      obtain ⟨_, located, held⟩ := bind_eq_some_iff.mp reached
      obtain ⟨_, spanned, rfl⟩ := map_eq_some_iff.mp located
      obtain ⟨span, noted, rfl⟩ := (get?_numberSpans resolved.survey.stmts).mp spanned
      obtain ⟨q, inForce, same⟩ := get?_numberEnv.mp held
      cases slot with
      | zero => exact .intro mem rfl numbered (.assign mem differ noted inForce) same
      | succ slot => cases named
  · cases found

theorem recorded_copy (survey : Survey f notes) {node : Node} (mem : .assign node (.name target) ann value ∈ f.body.all)
    : ∃ record ∈ notes.records, record.place = .binder node.id 0 := by
  obtain ⟨prev, recorded⟩ := survey.recorded_assign (i := 0) mem rfl
  exact ⟨_, recorded, rfl⟩

theorem traces_of_mem_extend (resolved : u.Resolved f notes)
    (current : ∃ q, Traces f notes p c.source q ∧ number notes.records q = c.sourceDef)
    (chained : ∀ z d, (z, d) ∈ chain → ∃ q, Traces f notes p z q ∧ number notes.records q = d)
    (mem : (z, d) ∈ extend (copies f u.reach) fuel c chain) :
    ∃ q, Traces f notes p z q ∧ number notes.records q = d := by
  induction fuel generalizing c chain with
  | zero => exact chained z d mem
  | succ fuel ih =>
    unfold extend at mem
    split at mem
    · exact chained z d mem
    · rename_i next found
      split at mem
      · exact chained z d mem
      · obtain ⟨q, traces, numbered⟩ := current
        obtain ⟨stands, _, definition, copied, source⟩ := made_of_copies resolved (mem_of_find?_eq_some found)
        have follows : next.definition = c.sourceDef := by simpa using find?_some found
        cases place_eq_of_number (recorded_copy resolved.survey stands)
          (numbered.trans (follows.symm.trans definition.symm))
        refine ih ⟨_, traces.snoc copied, source⟩ ?_ mem
        intro z d listed
        rcases mem_cons.mp listed with same | earlier
        · cases same
          exact ⟨_, traces.snoc copied, source⟩
        · exact chained z d earlier

theorem traces_of_mem_sources (resolved : u.Resolved f notes) (listed : c ∈ copies f u.reach)
    (mem : (z, d) ∈ sources (copies f u.reach) c) :
    ∃ p q, (∃ record ∈ notes.records, record.place = p) ∧ number notes.records p = c.definition ∧ Traces f notes p z q ∧
      number notes.records q = d := by
  obtain ⟨stands, _, definition, copied, source⟩ := made_of_copies resolved listed
  have first : ∃ q, Traces f notes _ c.source q ∧ number notes.records q = c.sourceDef := ⟨_, .copy copied, source⟩
  obtain ⟨q, traces, numbered⟩ := traces_of_mem_extend resolved first (by
    intro z d listed
    cases mem_singleton.mp listed
    exact first) mem
  exact ⟨_, q, recorded_copy resolved.survey stands, definition, traces, numbered⟩

theorem mem_usesOf : site ∈ (u.usesOf d).toList ↔ ∃ use ∈ u.uses, use.definition = d ∧ use.site = site := by
  rw [← OrdSet.mem_def, Uses.usesOf, mem_ofList]
  simp only [mem_map, mem_filter, decide_eq_true_eq, and_assoc]

theorem replacement?_eq_some {all : List Copy} (found : replacement? u all c site = some r) :
    site.kind = .var ∧ r.use = site.node ∧ (r.name, r.definition) ∈ sources all c ∧ ∃ env, u.envAtUse? site.node = some
      env ∧ env.get? r.name = some r.definition := by
  unfold replacement? at found
  split at found
  · rename_i kind
    obtain ⟨⟨name, d⟩, chosen, rfl⟩ := map_eq_some_iff.mp found
    have held : ((u.envAtUse? site.node).bind (·.get? name)) = some d := by
      simpa using find?_some chosen
    exact ⟨kind, rfl, mem_of_find?_eq_some chosen, bind_eq_some_iff.mp held⟩
  · cases found

theorem mem_replacements :
    r ∈ (Plan.ofUses f u).replacements ↔ ∃ c ∈ copies f u.reach, ∃ use ∈ u.uses, use.definition = c.definition ∧
      replacement? u (copies f u.reach) c use.site = some r := by
  simp only [Plan.ofUses, mem_flatMap, List.mem_filterMap, mem_usesOf]
  constructor
  · rintro ⟨c, listed, _, ⟨use, used, same, rfl⟩, found⟩
    exact ⟨c, listed, use, used, same, found⟩
  · rintro ⟨c, listed, use, used, same, found⟩
    exact ⟨c, listed, _, ⟨use, used, same, rfl⟩, found⟩

/-- What is known of a copy that is removed. -/
structure Copy.Removed (f : Func) (u : Uses) (c : Copy) : Prop where
  listed : c ∈ copies f u.reach
  replaced : ∀ use ∈ u.uses, use.definition = c.definition →
    (replacement? u (copies f u.reach) c use.site).isSome = true
  unjoined : u.reach.isJoinSource c.definition = false
  untargeted : ∀ r ∈ (Plan.ofUses f u).replacements, r.definition ≠ c.definition

theorem removed_of_mem (mem : c ∈ (Plan.ofUses f u).removals) : c.Removed f u := by
  obtain ⟨listed, chosen⟩ := mem_filter.mp mem
  simp only [Bool.and_eq_true, Bool.not_eq_true', all_eq_true, List.any_eq_false] at chosen
  obtain ⟨⟨replaced, unjoined⟩, untargeted⟩ := chosen
  refine ⟨listed, ?_, unjoined, ?_⟩
  · intro use used same
    exact replaced _ (mem_usesOf.mpr ⟨use, used, same, rfl⟩)
  · intro r replacing
    simpa using untargeted r replacing

def Kept (f : Func) (u : Uses) (notes : Notes) (p : Place) : Prop :=
  ∀ c ∈ (Plan.ofUses f u).removals, c.definition ≠ number notes.records p

def outline (f : Func) (u : Uses) (notes : Notes) : Outline C (Store V × Store V) :=
  notes.outline (Agrees (Kept f u notes)) fun _ => True

theorem kept_of_join (resolved : u.Resolved f notes) {site : NodeId}
    (recorded : ⟨.join site n, .join n site lhs rhs⟩ ∈ notes.records) (kept : Kept f u notes (.join site n)) :
    Kept f u notes lhs ∧ Kept f u notes rhs := by
  have both : ∀ p, p = lhs ∨ p = rhs → Kept f u notes p := by
    intro p meets c mem same
    have unjoined := (removed_of_mem mem).unjoined
    rw [isJoinSource, List.any_eq_false] at unjoined
    have listed : c.definition ∈ [number notes.records lhs, number notes.records rhs] := by
      rcases meets with rfl | rfl <;> simp [same]
    refine unjoined (_, _) (List.mem_zipIdx_iff_getElem?.mpr (resolved.def? recorded)) ?_
    exact Bool.and_eq_true_iff.mpr ⟨decide_eq_true (kept c mem).symm, decide_eq_true listed⟩
  exact ⟨both lhs (.inl rfl), both rhs (.inr rfl)⟩

theorem upheld (m : Machine V C) (resolved : u.Resolved f notes) :
    Upheld m .pair notes (Agrees (Kept f u notes)) (fun _ => True) f.body.all :=
  upheld_agrees m notes f.body.all fun _ _ _ _ => kept_of_join resolved

theorem source_of_name? (resolved : u.Resolved f notes) (used : use ∈ u.uses)
    (named : (Plan.ofUses f u).name? use.site.node = some name) :
    ∃ c ∈ copies f u.reach, ∃ d, c.definition = use.definition ∧ (name, d) ∈ sources (copies f u.reach) c ∧ use.env.get?
    name = some d ∧ ∀ c ∈ (Plan.ofUses f u).removals, c.definition ≠ d := by
  obtain ⟨r, chosen, rfl⟩ := map_eq_some_iff.mp named
  have replacing := List.mem_reverse.mp (mem_of_find?_eq_some chosen)
  have here : r.use = use.site.node := by simpa using find?_some chosen
  obtain ⟨c, listed, other, found, same, replaced⟩ := mem_replacements.mp replacing
  obtain ⟨_, stands, source, env, located, held⟩ := replacement?_eq_some replaced
  cases resolved.unique found used (stands.symm.trans here)
  rw [Uses.envAtUse?, resolved.at?_eq used] at located
  cases located
  exact ⟨c, listed, r.definition, same.symm, source, held,
    fun c removed => ((removed_of_mem removed).untargeted r replacing).symm⟩

theorem kept_of_name? (used : use ∈ u.uses) (none : (Plan.ofUses f u).name? use.site.node = none)
    (removed : c ∈ (Plan.ofUses f u).removals) : c.definition ≠ use.definition := by
  intro same
  have known := removed_of_mem removed
  obtain ⟨r, found⟩ := isSome_iff_exists.mp (known.replaced use used same.symm)
  have replacing := mem_replacements.mpr ⟨c, known.listed, use, used, same.symm, found⟩
  obtain ⟨_, stands, _⟩ := replacement?_eq_some found
  have absent := List.find?_eq_none.mp (Option.map_eq_none_iff.mp none) r (List.mem_reverse.mpr replacing)
  exact absent (decide_eq_true stands)

theorem kept_of_kind (used : use ∈ u.uses) (kind : use.site.kind ≠ .var) (removed : c ∈ (Plan.ofUses f u).removals) :
    c.definition ≠ use.definition := by
  intro same
  obtain ⟨r, found⟩ := isSome_iff_exists.mp ((removed_of_mem removed).replaced use used same.symm)
  exact kind (replacement?_eq_some found).1

def Seen (f : Func) (notes : Notes) (moment : Moment V C) : Prop :=
  (notes.outline (Mirrors f notes) fun _ => True : Outline C (Store V)).seen moment.point moment.context moment.store

def revision (m : Machine V C) (f : Func) (u : Uses) (notes : Notes) : Revision where
  drops s := s ∈ f.body.all ∧ (Plan.ofUses f u).removes s.id = true
  idle _ := False
  agrees p e e' := ∀ c w, (outline f u notes : Outline C (Store V × Store V)).seen p c w →
    Seen f notes ⟨p, c, w.1⟩ → Rebuild.Follows m c w.1 w.2 e e'

section Statements

variable (resolved : u.Resolved f notes) {s : Stmt} (mem : s ∈ f.body.all) {c : C} {w : Store V × Store V}
  {env : NameMap DefId}

include resolved mem

variable {n : Name}

theorem same_of_kept (seen : (outline f u notes).seen s.point c w) (reads : Uses.Reads u.reach u.uses s env)
    (found : env.get? n = some d) (kept : ∀ c ∈ (Plan.ofUses f u).removals, c.definition ≠ d) :
    w.1.get? n = w.2.get? n := by
  obtain ⟨inForce, agrees, located, _⟩ := resolved.reads_of_seen mem seen
  cases located.symm.trans reads.located
  obtain ⟨p, held, rfl⟩ := get?_numberEnv.mp found
  exact agrees n p held kept

theorem same_of_source (seen : Seen f notes ⟨s.point, c, w.1⟩) (reads : Uses.Reads u.reach u.uses s env) {copy : Copy}
    (listed : copy ∈ copies f u.reach) (found : env.get? n = some copy.definition)
    (source : (z, d) ∈ sources (copies f u.reach) copy) (held : env.get? z = some d) :
    (w.1.get? n).map Cell.value = (w.1.get? z).map Cell.value := by
  obtain ⟨inForce, mirrors, located, _⟩ := resolved.reads_of_seen mem seen
  cases located.symm.trans reads.located
  obtain ⟨p, here, number⟩ := get?_numberEnv.mp found
  obtain ⟨q, there, numberSource⟩ := get?_numberEnv.mp held
  obtain ⟨p', q', recorded, defined, traces, sourced⟩ := traces_of_mem_sources resolved listed source
  cases place_eq_of_number recorded (number.trans defined.symm)
  cases place_eq_of_number (mirrors.recorded z q there) (sourced.trans numberSource.symm)
  exact mirrors.same n z p q here there traces

variable {name : Name} {node : Node}

section

variable (seen : (outline f u notes).seen s.point c w)

include seen

theorem follows_of_replaced (mirrored : Seen f notes ⟨s.point, c, w.1⟩) (reads : Uses.Reads u.reach u.uses s env)
    (listed : Uses.Lists u.reach s.id env u.uses (.var node name))
    (named : (Plan.ofUses f u).name? node.id = some other) :
    Rebuild.Follows m c w.1 w.2 (.var node name) (.var node other) := by
  obtain ⟨d, found, used⟩ := listed.var
  obtain ⟨copy, copying, e, same, source, held, kept⟩ := source_of_name? resolved used named
  have values := same_of_source resolved mem mirrored reads copying (found.trans (congrArg some same.symm)) source held
  have agrees := same_of_kept resolved mem seen reads held kept
  intro v read
  rw [Machine.eval, Store.read_eq_ok_iff] at read ⊢
  rw [← agrees, ← values, read]

theorem follows_of_kept (reads : Uses.Reads u.reach u.uses s env) (found : env.get? name = some use.definition)
    (kept : ∀ c ∈ (Plan.ofUses f u).removals, c.definition ≠ use.definition) :
    Rebuild.Follows m c w.1 w.2 (.var node name) (.var node name) := by
  have same := same_of_kept resolved mem seen reads found kept
  intro v read
  rw [Machine.eval, Store.read] at read ⊢
  rwa [← same]

theorem follows_onExpr (mirrored : Seen f notes ⟨s.point, c, w.1⟩) (part : e ∈ s.exprs)
    (given : Edit.results.gives () ((Plan.ofUses f u).hooks.onExpr e) e') : Rebuild.Follows m c w.1 w.2 e e' := by
  obtain ⟨env, _, reads⟩ := resolved.reads_of_seen mem seen
  refine Rebuild.follows_onExpr (P := Uses.Lists u.reach s.id _ u.uses) (fun _ => rfl) ⟨?_, ?_, ?_⟩ e (reads.exprs e part)
    given
  · exact fun _ listed _ => listed.operand
  · intro node name listed e' given
    simp only [Rebuild.onExpr, Plan.hooks] at given
    split at given
    · rename_i same named
      cases same
      cases Edit.results.of_pure given
      exact follows_of_replaced resolved mem seen mirrored reads listed named
    · rename_i unnamed
      obtain ⟨_, named, given⟩ := Edit.results.of_bind given
      cases Edit.results.of_pure given
      cases Edit.results.of_pure named
      obtain ⟨d, found, used⟩ := listed.var
      have none : (Plan.ofUses f u).name? node.id = none :=
        Option.eq_none_iff_forall_ne_some.mpr fun other same => unnamed _ _ other rfl same
      exact follows_of_kept resolved mem seen reads found fun c removed => kept_of_name? used none removed
  · intro e listed usual e' given inner
    simp only [Plan.hooks] at given
    split at given
    · rename_i named
      cases Edit.results.of_pure given
      exact follows_of_replaced resolved mem seen mirrored reads listed named
    · exact inner _ given

end

theorem follows_of_store (stores : s = .store node name path value)
    (seen : (outline f u notes).seen (.stmt node.id) c w) :
    Rebuild.Follows m c w.1 w.2 (.var node name) (.var node name) := by
  subst stores
  obtain ⟨env, _, reads⟩ := resolved.reads_of_seen mem seen
  obtain ⟨d, found, used⟩ := reads.held node name path value rfl
  refine follows_of_kept resolved mem seen reads found fun c removed => kept_of_kind used ?_ removed
  exact UseKind.noConfusion

theorem matches_removed (removed : (Plan.ofUses f u).removes s.id = true) {σ τ : State V}
    (fuel : τ.fuel = σ.fuel) (seen : (outline f u notes).seen (.stmt s.id) c (σ.store, τ.store)) :
    (m.exec s c σ).Matches ((outline f u notes).after s.id c) (.done τ) := by
  obtain ⟨copy, listed, same⟩ := List.any_eq_true.mp removed
  obtain ⟨stands, stmt, definition, _, _⟩ := made_of_copies resolved (removed_of_mem listed).listed
  cases resolved.survey.stmt_eq stands mem (stmt.symm.trans (of_decide_eq_true same))
  refine matches_dropped resolved.survey mem ?_ fuel seen
  intro i n named kept
  cases i with
  | zero => exact kept copy listed definition.symm
  | succ i => cases named

end Statements

theorem sound (m : Machine V C) (resolved : u.Resolved f notes) :
    (revision m f u notes).Sound m (Seen f notes) (outline f u notes) where
  drops _ removed _ _ _ fuel reached := matches_removed resolved removed.1 removed.2 fuel reached.1
  idle _ never := never.elim
  agrees _ _ _ same c w reached := same c w reached.1 reached.2
  rewrites _ _ _ _ never := never.elim

theorem keeps (m : Machine V C) (resolved : u.Resolved f notes) :
    (Plan.ofUses f u).hooks.Keeps Edit.results (revision m f u notes) (fun _ _ => True) f.body.all where
  name _ := rfl
  stmt := by
    rintro s mem - usual out ⟨before, after, made⟩
    simp only [Plan.hooks] at made
    split at made
    · rename_i removed
      exact .inl ⟨⟨mem, removed⟩, (Edit.makes_pure.mp made).1⟩
    · obtain ⟨s', between, rebuilt, made⟩ := Edit.makes_bind.mp made
      exact .inr ⟨(), s', trivial, ⟨before, between, rebuilt⟩, .inl (Edit.makes_pure.mp made).1⟩
  block := by
    rintro - b usual b' ⟨before, after, made⟩
    obtain ⟨⟨node, stmts⟩, between, rebuilt, made⟩ := Edit.makes_bind.mp made
    obtain ⟨id, active⟩ := Edit.makes_filled ⟨node, stmts⟩ stmts made
    exact ⟨⟨node, stmts⟩, ⟨before, between, rebuilt⟩, id, active⟩
  expr s mem _ _ e part e' given c w seen mirrored := follows_onExpr resolved mem seen mirrored part given
  held s mem node name path value stores c w seen _ := follows_of_store resolved mem stores seen

open Edit in
open Logic (works_pure keeps_pure) in
theorem balances (plan : Plan) : plan.hooks.Balances ifMade (books i False) True where
  name _ := rfl
  expr parts := by
    simp only [Plan.hooks]
    split
    · exact Logic.Works.keeps_of (works_pure fun _ _ => Nat.le_refl _) id
    · exact parts
  stmt parts := by
    simp only [Plan.hooks]
    split
    · exact Logic.Works.keeps_of (works_pure fun _ _ => Nat.zero_le _) id
    · exact parts.alone
  block _ parts := by
    refine .bind (f := id) parts (fun b => ?_) fun _ => rfl
    cases b
    exact (keeps_filled _ _).works.keeps_of (·)

open Edit in
theorem works_noteAll (plan : Plan) {c : Prop} : ifMade.Works (books i c)
    (plan.replacements.length + plan.removals.length) plan.noteAll (fun _ => []) [] :=
  (works_notes (fun _ => works_note _ _ _) _).both fun _ => (works_notes (fun _ => works_note _ _ _) _).tell fun _ =>
    Logic.works_pure fun _ _ => Nat.le_refl _

theorem run_round (plain : m.Plain) (used : Uses.ofFunc f = .ok u) (distinct : f.ids.Nodup)
    (made : Edit.Makes ((Plan.ofUses f u).hooks.onFunc f) s g s') {c : C} (returns : m.run c fuel f free args = some v)
    : m.run c fuel g free args = some v := by
  obtain ⟨notes, resolved⟩ := Uses.resolved_of_func distinct used
  obtain ⟨body, rebuilt, rfl⟩ := Edit.makes_bind_pure made
  have revised : (revision m f u notes).OnBlock f.body body :=
    Rebuild.revises_onBlock (keeps m resolved) f.body (fun _ mem => mem) (i := ()) ⟨s, s', rebuilt⟩
  refine run_of_revision resolved.survey (upheld m resolved) (sound m resolved) revised rfl ?_ ?_ returns fun _ => id
  · exact fun σ _ => agrees_self _ _ σ
  · intro σ started
    have covered := (upheld_mirrors resolved.survey plain).covers resolved.survey
      (mirrors_start resolved.survey started) (c := c) (σ := ⟨σ, fuel⟩)
    exact covered.seen

theorem fresh_of_round {plan : Plan} {v : Unit} (noted : Edit.Makes plan.noteAll s v t)
    (rebuilt : Edit.Makes (plan.hooks.onFunc f) t g s') (fresh : Edit.Fresh s f.ids) : Edit.Fresh s' g.ids := by
  have later := ((works_noteAll plan (i := True) (c := False) s v t noted).renews trivial).later
  exact Edit.fresh_of_works (Rebuild.works_onFunc (balances plan) f) rebuilt
    ⟨fresh.distinct, fun id mem => Nat.lt_of_lt_of_le (fresh.drawn id mem) later⟩

theorem run_rounds (plain : m.Plain) {rounds : Nat} (made : Edit.Makes (CopyPropagation.rounds rounds f) s g s')
    (fresh : Edit.Fresh s f.ids) {c : C} (returns : m.run c fuel f free args = some v) :
    m.run c fuel g free args = some v := by
  induction rounds generalizing f s with
  | zero =>
    cases (Edit.makes_pure.mp made).1
    exact returns
  | succ rounds ih =>
    unfold CopyPropagation.rounds at made
    obtain ⟨u, _, lifted, rest⟩ := Edit.makes_bind.mp made
    obtain ⟨used, rfl⟩ := Edit.makes_lift.mp lifted
    dsimp only at rest
    split at rest
    · cases (Edit.makes_pure.mp rest).1
      exact returns
    · obtain ⟨_, t, noted, rebuilding⟩ := Edit.makes_bind.mp rest
      obtain ⟨h, t', rebuilt, ending⟩ := Edit.makes_bind.mp rebuilding
      have kept := fresh_of_round noted rebuilt fresh
      exact ih ending kept (run_round plain used fresh.distinct rebuilt returns)

end CopyPropagation

namespace Machine

theorem reference_plain : reference.Plain := by
  intro n v vs spread
  cases spread
  rfl

end Machine

namespace Reference

/-- Copy propagation keeps the result of a function whose nodes have distinct identities, all drawn before the
pass. -/
theorem run_copyPropagation (cfg : Config) (f g : Func) (events : EventLog) (session after : Session)
    (distinct : f.ids.Nodup) (drawn : ∀ id ∈ f.ids, id.val < session.next)
    (applied : (Pass.copyPropagation.run cfg f).run session = (.ok (g, events), after)) (args : List Value)
    (v : Value) (returns : run f args = some v) : run g args = some v := by
  obtain ⟨s', made⟩ := Edit.makes_of_perform applied
  exact CopyPropagation.run_rounds Machine.reference_plain made ⟨distinct, drawn⟩ returns

open Sample in
/-- Counts up to a copy of a copy of `x` through another copy, and adds that copy when `x` has changed. -/
def relaying : Func :=
  func ["x"] [] [
    set 10 "a" (var 11 "x"),
    set 12 "b" (var 13 "a"),
    set 14 "s" (int 15 0),
    .loop (node 16) (less 17 (var 18 "s") (var 19 "b")) ⟨⟨20⟩, [
      set 21 "t" (var 22 "s"),
      set 23 "s" (add 24 (var 25 "t") (int 26 2))]⟩,
    set 27 "x" (add 28 (var 29 "x") (int 30 1)),
    .ret (node 31) (add 32 (var 33 "s") (var 34 "b"))]

theorem run_copyPropagation_relaying :
    relaying.ids.Nodup ∧ (∀ id ∈ relaying.ids, id.val < 40) ∧ ∃ g events after,
      (Pass.copyPropagation.run {} relaying).run { next := 40 } = (.ok (g, events), after) ∧
      relaying.body.all.length = 8 ∧ g.body.all.length = 6 ∧ run relaying [.number 3] = some (.number 7) ∧
      run g [.number 3] = some (.number 7) := by
  have distinct : relaying.ids.Nodup := by decide
  have drawn : ∀ id ∈ relaying.ids, id.val < 40 := by decide
  have returns : run relaying [.number 3] = some (.number 7) := by decide +kernel
  have shorter : (((Pass.copyPropagation.run {} relaying).run { next := 40 }).1.toOption.map
      fun made => made.1.body.all.length) = some 6 := by
    decide +kernel
  rcases applied : (Pass.copyPropagation.run {} relaying).run { next := 40 } with ⟨_ | ⟨g, events⟩, after⟩
  · rw [applied] at shorter
    cases shorter
  · rw [applied] at shorter
    refine ⟨distinct, drawn, g, events, after, rfl, rfl, Option.some.inj shorter, returns, ?_⟩
    exact run_copyPropagation {} relaying g events { next := 40 } after distinct drawn applied _ _ returns

end Reference

end NumLang
