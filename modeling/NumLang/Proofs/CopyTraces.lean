import NumLang.Pass.CopyPropagation
import NumLang.Proofs.Coupling
import NumLang.Proofs.Resolution

/-!
Copies and what they are copies of.
-/

namespace NumLang

variable {s : Stmt}

namespace CopyPropagation

open Flow Reaching

/-- An assignment of a variable to another one: the definition at its place is a copy of the one that the name
on the right has there. -/
inductive Copied (f : Func) (notes : Notes) : Place → Name → Place → Prop where
  | assign {node read : Node} {target source : Name} {span : Span Place} {q : Place}
    (mem : .assign node (.name target) none (.var read source) ∈ f.body.all) (differ : source ≠ target)
    (noted : (node.id, span) ∈ notes.stmts) (held : span.before.get? source = some q) :
    Copied f notes (.binder node.id 0) source q

/-- A definition is a copy of that of another name, directly or through other copies. -/
inductive Traces (f : Func) (notes : Notes) : Place → Name → Place → Prop where
  | copy {p q : Place} {n : Name} (copied : Copied f notes p n q) : Traces f notes p n q
  | step {p q r : Place} {n z : Name} (copied : Copied f notes p n q) (traces : Traces f notes q z r) :
    Traces f notes p z r

/-- A definition and all that it is a copy of are made at none of the given nodes. -/
structure Past (f : Func) (notes : Notes) (ids : List NodeId) (p : Place) : Prop where
  own : p.site ∉ ids
  traced : ∀ n q, Traces f notes p n q → q.site ∉ ids

def Ahead (f : Func) (notes : Notes) (ids : List NodeId) (env : Env) : Prop :=
  ∀ n p, env.get? n = some p → Past f notes ids p

def Precedes (f : Func) (notes : Notes) (stmts : List Stmt) : Prop :=
  ∀ s ∈ stmts, ∀ span, (s.id, span) ∈ notes.stmts → Ahead f notes s.ids span.before

variable {f : Func} {notes : Notes} {n : Name} {p q : Place} {r : Place} {z : Name} {env : Env}

theorem Traces.snoc (traces : Traces f notes p n q) (copied : Copied f notes q z r) : Traces f notes p z r := by
  induction traces with
  | copy first => exact .step first (.copy copied)
  | step first _ ih => exact .step first (ih copied)

theorem Traces.first (traces : Traces f notes p z r) :
    ∃ n q, Copied f notes p n q ∧ (n = z ∧ q = r ∨ Traces f notes q z r) := by
  cases traces with
  | copy copied => exact ⟨z, r, copied, .inl ⟨rfl, rfl⟩⟩
  | step copied rest => exact ⟨_, _, copied, .inr rest⟩

theorem Copied.site_mem (copied : Copied f notes p n q) : p.site ∈ f.body.ids := by
  cases copied with
  | assign mem _ _ _ => exact (f.body.ids_sublist mem).subset (Stmt.id_mem_ids _)

theorem Traces.site_mem (traces : Traces f notes p n q) : p.site ∈ f.body.ids := by
  obtain ⟨_, _, copied, _⟩ := traces.first
  exact copied.site_mem

theorem Ahead.mono {ids fewer : List NodeId} (ahead : Ahead f notes ids env) (inside : fewer ⊆ ids) :
    Ahead f notes fewer env := by
  intro n p found
  obtain ⟨own, traced⟩ := ahead n p found
  exact ⟨fun mem => own (inside mem), fun z q traces mem => traced z q traces (inside mem)⟩

section Steps

variable (survey : Survey f notes) {ids later : List NodeId} {id : NodeId} {span : Span Place}

include survey

theorem Past.made (noted : (id, span) ∈ notes.stmts) (ahead : Ahead f notes ids span.before) (outside : id ∉ ids)
    (here : p.site = id) : Past f notes ids p := by
  refine ⟨here ▸ outside, fun z r traces => ?_⟩
  obtain ⟨n, q, ⟨_, _, other, held⟩, rest⟩ := traces.first
  cases here
  cases span_unique survey.stmts other noted
  have source := ahead n q held
  rcases rest with ⟨_, rfl⟩ | further
  · exact source.own
  · exact source.traced z r further

theorem Ahead.bound (here : Ahead f notes ids env) (noted : (id, span) ∈ notes.stmts)
    (ahead : Ahead f notes ids span.before) (outside : id ∉ ids) (names : List Name) :
    Ahead f notes ids (bound ⟨.stmt, id⟩ names env) := by
  intro n p found
  rcases origin_bindNames found with earlier | own
  · exact here n p earlier
  · exact .made survey noted ahead outside own

theorem Ahead.from {sources : List Env} {joins : List Record} (noted : (id, span) ∈ notes.stmts)
    (ahead : Ahead f notes ids span.before) (outside : id ∉ ids) (origin : From id joins sources env)
    (each : ∀ source ∈ sources, Ahead f notes ids source) : Ahead f notes ids env := by
  intro n p found
  obtain ⟨source, listed, q, held, rfl | ⟨rfl, _⟩⟩ := origin n p found
  · exact each source listed n p held
  · exact .made survey noted ahead outside rfl

theorem Precedes.cons {inside : List Stmt} (noted : (s.id, span) ∈ notes.stmts)
    (ahead : Ahead f notes (s.ids ++ later) span.before) (rest : Precedes f notes inside) :
    Precedes f notes (s :: inside) := by
  intro t mem other found
  rcases mem_cons.mp mem with rfl | inner
  · cases span_unique survey.stmts found noted
    exact ahead.mono (List.subset_append_left _ _)
  · exact rest t inner other found

end Steps

theorem precedes_nil : Precedes f notes [] := nofun

theorem Precedes.append {first others : List Stmt} (left : Precedes f notes first)
    (right : Precedes f notes others) : Precedes f notes (first ++ others) :=
  fun s mem => (mem_append.mp mem).elim (left s) (right s)

mutual

/-- In the walk through statements their nodes, and those that are walked later, stay ahead. -/
theorem precedes_row (survey : Survey f notes) {later : List NodeId} {env after : Env} {stmts : List Stmt}
    {sub : Notes} : StmtsWalk env stmts after sub → sub.Within notes → (Stmt.idsAll stmts ++ later).Nodup →
      Ahead f notes (Stmt.idsAll stmts ++ later) env →
      Ahead f notes later after ∧ Precedes f notes (Stmt.allOf stmts)
  | .nil, _, _, ahead => ⟨ahead, precedes_nil⟩
  | @StmtsWalk.cons env _ _ s rest own others walk@(.stmt _ _ arms out whole) tail, within, distinct, ahead => by
    have first := (Notes.Within.left own others).trans within
    have noted := first.stmts _ walk.noted
    have whole' : Stmt.idsAll (s :: rest) ++ later =
        s.id :: (Expr.idsAll s.exprs ++ (s.blocks.flatMap Block.ids ++ (Stmt.idsAll rest ++ later))) := by
      simp [Stmt.idsAll, s.ids_eq]
    have here : Ahead f notes (s.ids ++ (Stmt.idsAll rest ++ later)) env := by
      rwa [Stmt.idsAll, append_assoc] at ahead
    rw [whole'] at distinct ahead
    -- Inside a statement its own node is not ahead any more.
    obtain ⟨fresh, apart⟩ := nodup_cons.mp distinct
    have inner := sublist_append_right (Expr.idsAll s.exprs) (s.blocks.flatMap Block.ids ++ (Stmt.idsAll rest ++ later))
    have outer := sublist_append_right (s.blocks.flatMap Block.ids) (Stmt.idsAll rest ++ later)
    have outside := fun mem => fresh (inner.subset mem)
    have before := ahead.mono fun id mem => mem_cons_of_mem _ (inner.subset mem)
    have head := Ahead.from survey noted before outside arms.meets.enters (forall_mem_singleton.mpr before)
    have start := head.bound survey noted before outside s.binds
    obtain ⟨ends, within'⟩ := precedes_arms survey arms ((whole ▸ Notes.Within.middle ..).trans first)
      (inner.nodup apart) start
    have sources := forall_mem_cons.mpr ⟨before.mono outer.subset, forall_mem_cons.mpr ⟨start.mono outer.subset, ends⟩⟩
    have out := Ahead.from survey noted (before.mono outer.subset) (fun mem => outside (outer.subset mem))
      (out ▸ arms.meets.leaves) sources
    obtain ⟨last, beyond⟩ := precedes_row survey tail ((Notes.Within.right own others).trans within)
      (outer.nodup (inner.nodup apart)) out
    rw [Stmt.allOf, s.all_eq]
    exact ⟨last, (Precedes.cons survey noted here within').append beyond⟩

theorem precedes_arms (survey : Survey f notes) {later : List NodeId} {env : Env} {blocks : List Block}
    {outs : List Env} {sub : Notes} : ArmsWalk env blocks outs sub → sub.Within notes →
      (blocks.flatMap Block.ids ++ later).Nodup → Ahead f notes (blocks.flatMap Block.ids ++ later) env →
      (∀ out ∈ outs, Ahead f notes later out) ∧ Precedes f notes (blocks.flatMap Block.all)
  | .nil, _, _, _ => ⟨nofun, precedes_nil⟩
  | @ArmsWalk.cons _ _ _ b blocks _ others (.block inside) tail, within, distinct, ahead => by
    have first := (Notes.Within.left _ others).trans within
    rw [flatMap_cons, b.ids_eq, append_assoc] at distinct ahead
    have row : (Stmt.idsAll b.stmts ++ later).Sublist (b.id :: Stmt.idsAll b.stmts ++ (blocks.flatMap Block.ids ++ later)) :=
      (List.sublist_cons_self _ _).append (sublist_append_right _ _)
    have others := sublist_append_right (b.id :: Stmt.idsAll b.stmts) (blocks.flatMap Block.ids ++ later)
    obtain ⟨out, inner⟩ := precedes_row survey inside ((Notes.Within.left ..).trans first) (row.nodup distinct)
      (ahead.mono row.subset)
    obtain ⟨ends, beyond⟩ := precedes_arms survey tail ((Notes.Within.right ..).trans within) (others.nodup distinct)
      (ahead.mono others.subset)
    rw [flatMap_cons, b.all_eq]
    exact ⟨forall_mem_cons.mpr ⟨out, ends⟩, inner.append beyond⟩

end

theorem site_bindParams {params : List Param} (found : (bindParams params env).1.get? n = some p) :
    env.get? n = some p ∨ p.site ∈ params.map (·.id) := by
  induction params generalizing env with
  | nil => exact .inl found
  | cons first rest ih =>
    rcases ih found with earlier | later
    · refine (origin_bindNames earlier).imp_right ?_
      intro own
      exact own ▸ mem_cons_self
    · exact .inr (mem_cons_of_mem _ later)

theorem ahead_entry (survey : Survey f notes) : Ahead f notes f.body.ids (entryOf f) := by
  intro n p found
  have outside : p.site ∉ f.body.ids := by
    have distinct := survey.distinct
    rw [Func.ids, nodup_cons, nodup_append] at distinct
    obtain ⟨fresh, _, _, apart⟩ := distinct
    rcases origin_bindNames found with earlier | own
    · rcases site_bindParams earlier with none | param
      · simp at none
      · exact fun mem => apart _ param _ mem rfl
    · rw [own]
      exact fun mem => fresh (mem_append_right _ mem)
  exact ⟨outside, fun _ _ traces => absurd traces.site_mem outside⟩

theorem precedes_of_survey (survey : Survey f notes) : Precedes f notes f.body.all := by
  obtain ⟨exit, inner, walk, whole⟩ := survey.walk
  have ids : [f.body].flatMap Block.ids ++ [] = f.body.ids := by simp
  have stmts : [f.body].flatMap Block.all = f.body.all := by simp
  rw [← stmts]
  exact (precedes_arms survey walk.single (whole ▸ Notes.Within.right _ _) (ids ▸ survey.nodup_body)
    (ids ▸ ahead_entry survey)).2

variable {V C : Type}

/-- The definitions in force are recorded, and a copy holds the value of each source whose definition is in
force too. -/
structure Mirrors (f : Func) (notes : Notes) (env : Env) (σ : Store V) : Prop where
  recorded : ∀ n p, env.get? n = some p → ∃ record ∈ notes.records, record.place = p
  same : ∀ n z p q, env.get? n = some p → env.get? z = some q → Traces f notes p z q →
    (σ.get? n).map Cell.value = (σ.get? z).map Cell.value

theorem not_traces_join : ¬ Traces f notes (.join site name) n q := by
  intro traces
  obtain ⟨_, _, copied, _⟩ := traces.first
  cases copied

end CopyPropagation

namespace CopyPropagation

open Flow Reaching

variable {f : Func} {notes : Notes} {V C : Type} {m : Machine V C} {σ : Store V} {source : Name}

theorem writes_of_copy (plain : m.Plain) {read : Node}
    (assigned : m.assigned c σ (.name target) (.var read source) = .ok writes) :
    ∃ v, (σ.get? source).map Cell.value = some v ∧ writes = [(target, v)] := by
  obtain ⟨v, computed, written⟩ := bind_ok.mp assigned
  exact ⟨v, Store.read_eq_ok_iff.mp computed, plain.writes_name written⟩

theorem Copied.stmt_eq (survey : Survey f notes) (mem : s ∈ f.body.all) {span : Span Place}
    (noted : (s.id, span) ∈ notes.stmts) (copied : Copied f notes (.binder s.id slot) source q) :
    ∃ node read target, s = .assign node (.name target) none (.var read source) ∧ source ≠ target ∧ span.before.get?
    source = some q := by
  generalize here : Place.binder s.id slot = p at copied
  cases copied with
  | @assign node read target _ other _ found differ located held =>
    cases survey.stmt_eq mem found (Place.binder.inj here).1
    cases span_unique survey.stmts located noted
    exact ⟨node, read, target, rfl, differ, held⟩

theorem upheld_mirrors (survey : Survey f notes) (plain : m.Plain) :
    Upheld m .single notes (Mirrors f notes) (fun _ => True) f.body.all where
  stuck := trivial
  reads _ _ _ _ _ := .inr trivial
  edge s mem span noted env next σ flows holds := by
    constructor
    · intro n p found
      rcases flows n p found with ⟨_, here⟩ | ⟨_, _, rfl, recorded, _⟩
      · exact holds.recorded n p here
      · exact ⟨_, recorded, rfl⟩
    · intro n z p q foundN foundZ traces
      rcases flows n p foundN with ⟨before, hereN⟩ | ⟨_, _, rfl, _, _⟩
      · rcases flows z q foundZ with ⟨_, hereZ⟩ | ⟨_, _, rfl, _, _⟩
        · exact holds.same n z p q hereN hereZ traces
        · have past := precedes_of_survey survey s mem span noted n p before
          exact absurd s.id_mem_ids (past.traced z _ traces)
      · exact absurd traces not_traces_join
  write s mem span noted enters recorded c σ writes names wrote holds := by
    rw [World.write_single]
    have untouched : ∀ {n}, n ∉ s.binds →
        (σ.writeAll ⟨.stmt, s.id⟩ writes).get? n = σ.get? n := fun absent =>
      get?_writeAll_of_notMem (names ▸ absent)
    constructor
    · intro n p found
      rcases bindNames_cases found with ⟨_, earlier⟩ | ⟨i, named, rfl⟩
      · exact holds.recorded n p earlier
      · obtain ⟨prev, fresh⟩ := mem_made named
        exact ⟨_, recorded _ fresh, rfl⟩
    · intro n z p q foundN foundZ traces
      rcases bindNames_cases foundN with ⟨absentN, earlierN⟩ | ⟨i, namedN, rfl⟩
      · rcases bindNames_cases foundZ with ⟨absentZ, earlierZ⟩ | ⟨j, _, rfl⟩
        · rw [untouched absentN, untouched absentZ]
          exact holds.same n z p q earlierN earlierZ traces
        · -- The copy would be older than its source.
          rcases enters n p earlierN with ⟨before, _⟩ | ⟨_, _, rfl, _, _⟩
          · have past := precedes_of_survey survey s mem span noted n p before
            exact absurd s.id_mem_ids (past.traced z _ traces)
          · exact absurd traces not_traces_join
      · obtain ⟨source, q', copied, rest⟩ := traces.first
        obtain ⟨node, read, target, rfl, differ, held⟩ := copied.stmt_eq survey mem noted
        cases mem_singleton.mp (mem_of_getElem? namedN)
        rcases bindNames_cases foundZ with ⟨absentZ, earlierZ⟩ | ⟨j, namedZ, _⟩
        · obtain ⟨v, value, rfl⟩ := writes_of_copy plain wrote
          rw [untouched absentZ, Store.writeAll, Store.writeAll, OrdMap.get?_insert, if_pos rfl]
          refine value.symm.trans ?_
          rcases rest with ⟨rfl, rfl⟩ | further
          · rfl
          · exact holds.same source z q' q held earlierZ further
        · cases mem_singleton.mp (mem_of_getElem? namedZ)
          rfl

theorem mirrors_start (survey : Survey f notes) (started : Machine.start f free args = some σ) :
    Mirrors f notes (entryOf f) σ := by
  constructor
  · refine survey.satisfies_start (Q := fun _ p _ => ∃ record ∈ notes.records, record.place = p) started ?_ ?_
    · exact fun _ _ _ recorded _ => ⟨_, recorded, rfl⟩
    · exact fun _ _ _ recorded => ⟨_, recorded, rfl⟩
  · intro n z p q found _ traces
    exact absurd traces.site_mem (ahead_entry survey n p found).own

end CopyPropagation

end NumLang
