import NumLang.Proofs.CopyTraces
import NumLang.Proofs.Grounded
import NumLang.Proofs.ReachingSound

/-!
What the definitions found for a function look like.
-/

namespace NumLang

open Flow

namespace Reaching

def Defines (r : Reaching) (d : DefId) (n : Name) : Prop :=
  d < r.size ∧ ∃ definition, r.def? d = some definition ∧ definition.name = n

def Names (r : Reaching) (env : NameMap DefId) : Prop := ∀ n d, env.get? n = some d → r.Defines d n

/-- Two environments meet at a statement: it has joins for just the names that are joined, each of the definitions that
come in from both sides, and each in force after the statement. -/
structure Meeting (r : Reaching) (site : NodeId) (left right after : NameMap DefId) (joined : Name → Prop) : Prop where
  names : ∀ n, joined n ↔ ∃ d ∈ r.joinsAt site, r.Defines d n
  join : ∀ d ∈ r.joinsAt site, ∃ n lhs rhs, r.def? d = some (.join n site lhs rhs) ∧ left.get? n = some lhs ∧
    right.get? n = some rhs ∧ after.get? n = some d

/-- What meets at a loop: its body starts with what is in force after it, but for the names that the loop binds. -/
def MeetsAtLoop (r : Reaching) (site : NodeId) (targets : List Name) (body : Block) : Prop :=
  ∃ before after start out, r.stmts.get? site = some ⟨before, after⟩ ∧ r.blocks.get? body.id = some ⟨start, out⟩ ∧
    r.Meeting site before out after (fun n => before.contains n = true ∧ (n ∈ body.assigned ∨ n ∈ targets)) ∧
    ∀ n, n ∉ targets → start.get? n = after.get? n

/-- What meets at a statement. Only statements that fork have joins. -/
def MeetsAt (r : Reaching) : Stmt → Prop
  | .when node _ body => ∃ before after out, r.stmts.get? node.id = some ⟨before, after⟩ ∧
    r.blockEnd? body.id = some out ∧
    r.Meeting node.id before out after fun n => after.contains n = true ∧ before.get? n ≠ out.get? n
  | .branch node _ ift iff => ∃ left right after, r.blockEnd? ift.id = some left ∧ r.blockEnd? iff.id = some right ∧
    r.after? node.id = some after ∧
    r.Meeting node.id left right after fun n => after.contains n = true ∧ left.get? n ≠ right.get? n
  | .loop node _ body => r.MeetsAtLoop node.id [] body
  | .each node target _ body => r.MeetsAtLoop node.id target.names body
  | s => r.joinsAt s.id = []

structure WellFormed (r : Reaching) (f : Func) : Prop where
  ends : r.Names r.entry ∧ r.Names r.exit
  stmts : ∀ id span, r.stmts.get? id = some span → r.Names span.before ∧ r.Names span.after
  blocks : ∀ id span, r.blocks.get? id = some span → r.Names span.before ∧ r.Names span.after
  operands : ∀ d definition, r.def? d = some definition → ∀ e ∈ definition.operands, r.Defines e definition.name
  listed : ∀ site, ∀ d ∈ r.joinsAt site ++ r.defsAt site, d < r.size
  meets : ∀ s ∈ f.body.all, r.MeetsAt s
  proper : ∀ d n site lhs rhs, r.def? d = some (.join n site lhs rhs) → lhs ≠ rhs ∧ lhs ≠ d ∧ rhs ≠ d

/-- A name is in force by a definition of it that is recorded, and a join is one at a statement. -/
def Recorded (f : Func) (notes : Notes) (n : Name) (p : Place) : Prop :=
  (∃ definition, ⟨p, definition⟩ ∈ notes.records ∧ definition.name = n) ∧
    ∀ site name, p = .join site name → ∃ s ∈ f.body.all, s.id = site

variable {f : Func} {notes : Notes} {site : NodeId} {n : Name} {p : Place} {left right after : Env}
  {joins : List Record} {s : Stmt}

theorem number_ne (recorded : Recorded f notes n q) (differ : p ≠ q) :
    number notes.records p ≠ number notes.records q := by
  obtain ⟨⟨definition, listed, _⟩, _⟩ := recorded
  exact fun same => differ (place_eq_of_number ⟨_, listed, rfl⟩ same)

theorem carried_iff {names targets : List Name} {carried : NameSet}
    (merge : Merge site (fun n _ _ => n ∈ carried) left right after joins) (keeps : Keeps names left after) {body : Block}
    (all : n ∈ carried ↔ n ∈ body.assigned ∨ n ∈ targets) : (numberEnv notes.records left).contains n = true ∧
    (n ∈ body.assigned ∨ n ∈ targets) ↔ ∃ lhs rhs, left.get? n = some lhs ∧ right.get? n = some rhs ∧ n ∈ carried := by
  rw [numberEnv, OrdMap.contains_mapValues, OrdMap.contains, ← all]
  constructor
  · rintro ⟨held, mem⟩
    obtain ⟨p, found⟩ := isSome_iff_exists.mp (keeps.held n held)
    obtain ⟨lhs, rhs, held, other, _⟩ := (merge.out n p).mp found
    exact ⟨lhs, rhs, held, other, mem⟩
  · rintro ⟨lhs, rhs, held, _, mem⟩
    rw [held]
    exact ⟨rfl, mem⟩

theorem differ_iff
    (merge : Merge site (fun _ lhs rhs => lhs ≠ rhs) left right after joins) (each : Each (Recorded f notes) right) :
    (numberEnv notes.records after).contains n = true ∧
      (numberEnv notes.records left).get? n ≠ (numberEnv notes.records right).get? n ↔
    ∃ lhs rhs, left.get? n = some lhs ∧ right.get? n = some rhs ∧ lhs ≠ rhs := by
  rw [numberEnv, OrdMap.contains_mapValues, OrdMap.contains, isSome_iff_exists]
  simp only [merge.out, numberEnv, OrdMap.get?_mapValues]
  constructor
  · rintro ⟨⟨_, lhs, rhs, held, other, _⟩, differ⟩
    rw [held, other] at differ
    exact ⟨lhs, rhs, held, other, fun same => differ (by rw [same])⟩
  · rintro ⟨lhs, rhs, held, other, differ⟩
    refine ⟨⟨_, lhs, rhs, held, other, .inl ⟨differ, rfl⟩⟩, ?_⟩
    rw [held, other]
    exact fun same => number_ne (each n rhs other) differ (Option.some.inj same)

variable (survey : Survey f notes) {entry exit : Env}

include survey

theorem Survey.covered : notes.Covered (Recorded f notes) := by
  refine Spreads.func survey ⟨fun mem listed _ => ⟨⟨_, listed, rfl⟩, ?_⟩, ?_, ?_⟩
  · rintro _ _ ⟨⟩
    exact ⟨_, mem, rfl⟩
  · exact fun _ _ _ _ _ _ listed => ⟨⟨_, listed, rfl⟩, nofun⟩
  · exact fun _ listed => ⟨⟨_, listed, rfl⟩, nofun⟩

theorem Survey.defines (recorded : Recorded f notes n p) :
    (ofNotes entry exit notes).Defines (number notes.records p) n := by
  obtain ⟨⟨definition, listed, rfl⟩, _⟩ := recorded
  have found := survey.def? entry exit listed
  refine ⟨(List.getElem?_eq_some_iff.mp found).1, _, found, ?_⟩
  cases definition <;> rfl

theorem Survey.names (each : Each (Recorded f notes) before ∧ Each (Recorded f notes) after) :
    (ofNotes entry exit notes).Names (numberEnv notes.records before) ∧ (ofNotes entry exit notes).Names (numberEnv
    notes.records after) := by
  constructor
  all_goals
    intro n d found
    obtain ⟨p, held, rfl⟩ := get?_numberEnv.mp found
  · exact survey.defines (each.1 n p held)
  · exact survey.defines (each.2 n p held)

theorem Survey.mem_joinsAt :
    d ∈ (ofNotes entry exit notes).joinsAt site ↔ ∃ n lhs rhs, ⟨.join site n, .join n site lhs rhs⟩ ∈ notes.records ∧
    number notes.records (.join site n) = d := by
  rw [joinsAt, mem_select_iff]
  constructor
  · rintro ⟨definition, found, selected⟩
    obtain ⟨⟨place, definition⟩, listed, rfl, rfl⟩ := survey.def?_cases found
    have proper := survey.proper _ listed
    cases definition with
    | assign => cases selected
    | join name site' lhs rhs =>
      cases (of_decide_eq_true selected : site' = site)
      cases (proper : place = .join site name)
      exact ⟨name, lhs, rhs, listed, rfl⟩
  · rintro ⟨n, lhs, rhs, listed, rfl⟩
    exact ⟨_, survey.def? entry exit listed, by simp [Definition.map, Definition.isJoin, Definition.site]⟩

theorem Survey.meeting (merge : Merge site merges left right after joins)
    (recorded : ∀ record ∈ joins, record ∈ notes.records)
    (own : ∀ n lhs rhs, ⟨.join site n, .join n site lhs rhs⟩ ∈ notes.records → ⟨.join site n, .join n site lhs rhs⟩ ∈
    joins) (names : ∀ n, joined n ↔ ∃ lhs rhs, left.get? n = some lhs ∧ right.get? n = some rhs ∧ merges n lhs rhs) :
    (ofNotes entry exit notes).Meeting site (numberEnv notes.records left) (numberEnv notes.records right) (numberEnv
    notes.records after) joined where
  names n := by
    rw [names]
    constructor
    · rintro ⟨lhs, rhs, held, other, merged⟩
      have listed := recorded _ ((merge.joined _).mpr ⟨n, lhs, rhs, held, other, merged, rfl⟩)
      exact ⟨_, survey.mem_joinsAt.mpr ⟨n, lhs, rhs, listed, rfl⟩, survey.defines (survey.covered.records _ listed _ mem_cons_self)⟩
    · rintro ⟨d, mem, _, definition, found, rfl⟩
      obtain ⟨n, lhs, rhs, listed, rfl⟩ := survey.mem_joinsAt.mp mem
      cases (survey.def? entry exit listed).symm.trans found
      obtain ⟨_, _, _, held, other, merged, same⟩ := (merge.joined _).mp (own n lhs rhs listed)
      cases same
      exact ⟨lhs, rhs, held, other, merged⟩
  join d mem := by
    obtain ⟨n, lhs, rhs, listed, rfl⟩ := survey.mem_joinsAt.mp mem
    obtain ⟨_, _, _, held, other, merged, same⟩ := (merge.joined _).mp (own n lhs rhs listed)
    cases same
    have out := (merge.out n _).mpr ⟨lhs, rhs, held, other, .inl ⟨merged, rfl⟩⟩
    exact ⟨n, _, _, survey.def? entry exit listed, get?_numberEnv.mpr ⟨lhs, held, rfl⟩,
      get?_numberEnv.mpr ⟨rhs, other, rfl⟩, get?_numberEnv.mpr ⟨_, out, rfl⟩⟩

theorem Survey.met (mem : s ∈ f.body.all) :
    ∃ span head outs joins inner, (s.id, span) ∈ notes.stmts ∧ ArmsWalk (bound ⟨.stmt, s.id⟩ s.binds head) s.blocks outs
      inner ∧ inner.Within notes ∧ Keeps (s.all.flatMap Stmt.binds) span.before span.after ∧ Meets s span.before head
      outs span.after joins ∧ (∀ record ∈ joins, record ∈ notes.records) ∧ ∀ n lhs rhs,
      ⟨.join s.id n, .join n s.id lhs rhs⟩ ∈ notes.records → ⟨.join s.id n, .join n s.id lhs rhs⟩ ∈ joins := by
  obtain ⟨span, sub, noted, walk, part⟩ := survey.spans.visits s mem
  obtain ⟨head, outs, joins, inner, blocks, inside, meets, recorded, own⟩ := walk.own (survey.nodup_ids mem)
  refine ⟨span, head, outs, joins, inner, noted, blocks, inside.trans part.within, walk.keeps, meets,
    fun record mem => part.within.records _ (recorded record mem), fun n lhs rhs listed => ?_⟩
  rcases own _ (survey.own part listed s.id_mem_ids) rfl with fresh | joined
  · obtain ⟨_, _, _, _, same⟩ := mem_bindNames fresh
    cases same
  · exact joined

theorem Survey.meetsAt (mem : s ∈ f.body.all) : (ofNotes entry exit notes).MeetsAt s := by
  obtain ⟨span, head, outs, joins, inner, noted, blocks, within, keeps, meets, recorded, own⟩ := survey.met mem
  have around := survey.stmts? entry exit noted
  cases meets with
  | none forkless =>
    have none : (ofNotes entry exit notes).joinsAt s.id = [] := by
      refine List.eq_nil_iff_forall_not_mem.mpr fun d listed => ?_
      obtain ⟨n, lhs, rhs, listed, _⟩ := survey.mem_joinsAt.mp listed
      nomatch own n lhs rhs listed
    cases s with
    | when | branch | loop | each => cases forkless
    | _ => exact none
  | when merge =>
    cases blocks with
    | cons walk tail =>
      have opened := within.blocks _ (mem_append_left _ walk.noted)
      refine ⟨_, _, _, around, congrArg _ (survey.blocks? entry exit opened), ?_⟩
      exact survey.meeting merge recorded own fun n => differ_iff merge (survey.covered.blocks _ opened).2
  | branch merge =>
    cases blocks with
    | cons walk tail =>
      cases tail with
      | cons walk' tail =>
        have opened := within.blocks _ (mem_append_left _ walk.noted)
        have opened' := within.blocks _ (mem_append_right _ (mem_append_left _ walk'.noted))
        refine ⟨_, _, _, congrArg _ (survey.blocks? entry exit opened), congrArg _ (survey.blocks? entry exit opened'),
          congrArg _ around, ?_⟩
        exact survey.meeting merge recorded own fun n => differ_iff merge (survey.covered.blocks _ opened').2
  | loop merge | each merge =>
    cases blocks with
    | cons walk tail =>
      have opened := within.blocks _ (mem_append_left _ walk.noted)
      refine ⟨_, _, _, _, around, survey.blocks? entry exit opened, ?_, fun n absent => ?_⟩
      · exact survey.meeting merge recorded own fun n => carried_iff merge keeps (by simp [mem_union, mem_ofList])
      · rw [numberEnv, OrdMap.get?_mapValues, numberEnv, OrdMap.get?_mapValues]
        exact congrArg _ (get?_bindNames_of_notMem absent)

/-- The two definitions that meet in a join differ, and neither of them is the join. -/
theorem Survey.join_proper (mem : s ∈ f.body.all) (listed : ⟨.join s.id n, .join n s.id lhs rhs⟩ ∈ notes.records) :
    lhs ≠ rhs ∧ lhs ≠ .join s.id n ∧ rhs ≠ .join s.id n := by
  obtain ⟨span, head, outs, joins, inner, noted, blocks, within, keeps, meets, recorded, own⟩ := survey.met mem
  -- What is in force before the statement is made at none of its nodes, and what is made in its blocks not at its own.
  have outside : ∀ {p}, span.before.get? n = some p → p.site ∉ s.ids := fun held =>
    (CopyPropagation.precedes_of_survey survey s mem span noted n _ held).own
  have early : ∀ {p}, span.before.get? n = some p → p ≠ .join s.id n := fun held same =>
    outside held (same ▸ s.id_mem_ids)
  have inside : ∀ {b} {p : Place}, b ∈ s.blocks → p.site ∈ b.ids → p.site ∈ s.ids ∧ p ≠ .join s.id n := by
    intro b p listed inside
    have within := mem_append_right (Expr.idsAll s.exprs) (List.mem_flatMap.mpr ⟨b, listed, inside⟩)
    refine ⟨s.ids_eq ▸ mem_cons_of_mem _ within, ?_⟩
    rintro rfl
    exact (nodup_cons.mp (s.ids_eq ▸ survey.nodup_ids mem)).1 within
  have carried : span.before.get? n = some lhs → rhs.site ∈ s.ids ∧ rhs ≠ .join s.id n →
      lhs ≠ rhs ∧ lhs ≠ .join s.id n ∧ rhs ≠ .join s.id n := fun held ⟨made, differ⟩ =>
    ⟨fun same => outside held (same ▸ made), early held, differ⟩
  have joined := own n lhs rhs listed
  cases meets with
  | none => cases joined
  | when merge =>
    obtain ⟨_, _, _, held, other, differ, ⟨⟩⟩ := (merge.joined _).mp joined
    cases blocks with
    | cons walk tail =>
      exact ⟨differ, early held, (walk.origin other).elim early fun made => (inside mem_cons_self made).2⟩
  | branch merge =>
    obtain ⟨_, _, _, held, other, differ, ⟨⟩⟩ := (merge.joined _).mp joined
    cases blocks with
    | cons walk tail =>
      cases tail with
      | cons walk' tail =>
        exact ⟨differ, (walk.origin held).elim early fun made => (inside mem_cons_self made).2,
          (walk'.origin other).elim early fun made => (inside (mem_cons_of_mem _ mem_cons_self) made).2⟩
  | loop merge =>
    obtain ⟨_, _, _, held, other, named, ⟨⟩⟩ := (merge.joined _).mp joined
    cases blocks with
    | cons walk tail =>
      exact carried held (inside mem_cons_self (walk.renewed (mem_assigned.mp named) other))
  | @each _ _ _ body _ _ _ _ merge =>
    obtain ⟨_, _, _, held, other, named, ⟨⟩⟩ := (merge.joined _).mp joined
    refine carried held ?_
    cases blocks with
    | cons walk tail =>
      by_cases assigned : n ∈ body.all.flatMap Stmt.binds
      · exact inside mem_cons_self (walk.renewed assigned other)
      · rw [walk.keeps.same n assigned] at other
        rcases bindNames_cases other with ⟨absent, _⟩ | ⟨i, _, rfl⟩
        · exact absurd (mem_ofList.mp ((mem_union.mp named).resolve_left (mt mem_assigned.mp assigned))) absent
        · exact ⟨Stmt.id_mem_ids _, nofun⟩

omit survey

theorem wellFormed_of_func (f : Func) (r : Reaching) (distinct : f.ids.Nodup) (analysed : ofFunc f = .ok r) :
    r.WellFormed f := by
  obtain ⟨exit, inner, walked, rfl⟩ := walk_of_func analysed
  have survey := survey_of_walk distinct walked
  have ends := survey.covered.blocks _ (mem_append_right _ (walk_of_block f.body walked).noted)
  refine ⟨survey.names ends, fun id span found => ?_, fun id span found => ?_, ?_, ?_, fun s => survey.meetsAt, ?_⟩
  · obtain ⟨span, noted, rfl⟩ := (get?_numberSpans survey.stmts).mp found
    exact survey.names (survey.covered.stmts _ noted)
  · obtain ⟨span, noted, rfl⟩ := (get?_numberSpans survey.blocks).mp found
    exact survey.names (survey.covered.blocks _ noted)
  · intro d definition found e mem
    obtain ⟨⟨place, definition⟩, listed, rfl, rfl⟩ := survey.def?_cases found
    have holds := survey.covered.records _ listed
    cases definition with
    | assign name site prev =>
      obtain ⟨q, held, rfl⟩ := map_eq_some_iff.mp (Option.mem_toList.mp mem)
      exact survey.defines (holds q (mem_cons_of_mem _ (Option.mem_toList.mpr held)))
    | join name site lhs rhs =>
      obtain ⟨q, held, rfl⟩ := mem_map.mp (show e ∈ [lhs, rhs].map (number _) from mem)
      exact survey.defines (holds q (mem_cons_of_mem _ held))
  · intro site d mem
    rcases mem_append.mp mem with mem | mem
    all_goals
      obtain ⟨_, found, _⟩ := mem_select_iff.mp mem
      exact (List.getElem?_eq_some_iff.mp found).1
  · intro d n site lhs rhs found
    obtain ⟨⟨place, definition⟩, listed, rfl, same⟩ := survey.def?_cases found
    have proper := survey.proper _ listed
    have holds := survey.covered.records _ listed
    cases definition with
    | assign => nomatch same
    | join name site lhs rhs =>
      cases same
      cases (proper : place = .join _ _)
      obtain ⟨s, mem, rfl⟩ := (holds _ mem_cons_self).2 _ _ rfl
      obtain ⟨differ, left, right⟩ := survey.join_proper mem listed
      have join := holds _ mem_cons_self
      exact ⟨number_ne (holds rhs (by simp [Definition.operands])) differ, number_ne join left, number_ne join right⟩

theorem wellFormed_of_func_summing :
    summing.ids.Nodup ∧ ∃ r, ofFunc summing = .ok r ∧ r.joinCount = 3 ∧ r.WellFormed summing := by
  have distinct : summing.ids.Nodup := by decide
  have accepted : (ofFunc summing).toOption.map joinCount = some 3 := by decide +kernel
  obtain ⟨r, found, count⟩ := map_eq_some_iff.mp accepted
  have analysed := toOption_eq_some.mp found
  exact ⟨distinct, r, analysed, count, wellFormed_of_func summing r distinct analysed⟩

end Reaching

end NumLang
