import Mathlib.Data.List.Flatten
import Mathlib.Data.List.Nodup
import NumLang.Proofs.Walk

/-!
Numbers of definitions. In a function whose nodes have distinct identities no place is defined twice and no statement or
block is noted twice.
-/

namespace NumLang

variable {small large : List NodeId} {after : Flow.Env} {id : NodeId} {a b : Flow.Notes} {s : Stmt}

def Place.site : Place → NodeId
  | .binder site _ => site
  | .join site _ => site

def Place.binders (node : NodeId) : Place → Nat
  | .binder site _ => if site = node then 1 else 0
  | .join .. => 0

def Place.joins (node : NodeId) : Place → Nat
  | .binder .. => 0
  | .join site _ => if site = node then 1 else 0

variable {node : NodeId} {part : Stmt}

theorem Place.binders_add_joins (node : NodeId) (p : Place) : p.binders node + p.joins node = [node].count p.site := by
  cases p with
  | binder site | join site =>
    by_cases same : node = site
    · simp [binders, joins, Place.site, same]
    · simp [binders, joins, Place.site, same, Ne.symm same]

theorem Place.count_binders {slots : List Nat} (distinct : slots.Nodup) (p : Place) :
    (slots.map (Place.binder node)).count p ≤ p.binders node := by
  by_cases mem : p ∈ slots.map (Place.binder node)
  · obtain ⟨slot, _, rfl⟩ := mem_map.mp mem
    have once : (slots.map (Place.binder node)).Nodup :=
      List.pairwise_map.mpr (distinct.imp fun differ same => differ (Place.binder.inj same).2)
    simpa [binders] using nodup_iff_count.mp once (.binder node slot)
  · simp [count_eq_zero.mpr mem]

theorem Place.count_joins {names : List Name} (distinct : names.Nodup) (p : Place) :
    (names.map (Place.join node)).count p ≤ p.joins node := by
  by_cases mem : p ∈ names.map (Place.join node)
  · obtain ⟨name, _, rfl⟩ := mem_map.mp mem
    have once : (names.map (Place.join node)).Nodup :=
      List.pairwise_map.mpr (distinct.imp fun differ same => differ (Place.join.inj same).2)
    simpa [joins] using nodup_iff_count.mp once (.join node name)
  · simp [count_eq_zero.mpr mem]

theorem Expr.idsAll_append (first others : List Expr) :
    Expr.idsAll (first ++ others) = Expr.idsAll first ++ Expr.idsAll others := by
  induction first with
  | nil => rfl
  | cons e rest ih => simp [Expr.idsAll, ih]

theorem Expr.idsKeyed_eq (es : List (String × Expr)) : idsKeyed es = idsAll (es.map Prod.snd) := by
  induction es with
  | nil => rfl
  | cons entry rest ih => rw [idsKeyed, ih, map_cons, idsAll]

theorem Expr.idsOption_eq (e : Option Expr) : idsOption e = idsAll e.toList := by
  cases e <;> simp [idsOption, idsAll]

theorem Expr.ids_eq (e : Expr) : e.ids = e.id :: idsAll e.children := by
  cases e <;> simp only [children, idsAll, idsAll_append, ← idsKeyed_eq, ← idsOption_eq, append_nil] <;> rfl

theorem Expr.map_id_row (each : ∀ e ∈ es, e.all.map Expr.id = e.ids) : (allOf es).map Expr.id = idsAll es := by
  induction es with
  | nil => rfl
  | cons e rest ih =>
    obtain ⟨here, later⟩ := forall_mem_cons.mp each
    rw [allOf, map_append, here, ih later, idsAll]

theorem Expr.map_id_all (e : Expr) : e.all.map Expr.id = e.ids := by
  induction e using byChildren with
  | step e ih => rw [all_eq, map_cons, map_id_row ih, ids_eq]

theorem Expr.map_id_allOf (es : List Expr) : (allOf es).map Expr.id = idsAll es :=
  map_id_row fun e _ => e.map_id_all

theorem Stmt.ids_eq (s : Stmt) : s.ids = s.id :: (Expr.idsAll s.exprs ++ s.blocks.flatMap Block.ids) := by
  cases s <;> simp only [exprs, blocks, Expr.idsAll, Expr.idsAll_append, ← Expr.idsOption_eq, flatMap_cons, flatMap_nil,
    append_nil] <;> rfl

theorem Block.ids_eq (b : Block) : b.ids = b.id :: Stmt.idsAll b.stmts := by
  cases b
  rfl

theorem Stmt.id_mem_ids (s : Stmt) : s.id ∈ s.ids := by
  cases s <;> exact mem_cons_self

theorem Stmt.idsAll_sublist (stmts : List Stmt) : ∀ part ∈ allOf stmts, part.ids.Sublist (idsAll stmts) := by
  induction stmts using byBlocks with
  | nil => nofun
  | cons s rest first later =>
    simp only [allOf, idsAll, append_nil] at first ⊢
    exact forall_mem_append.mpr ⟨fun part mem => (first part mem).trans (List.sublist_append_left ..),
      fun part mem => (later part mem).trans (sublist_append_right ..)⟩
  | step s ih =>
    simp only [allOf, idsAll, append_nil, s.all_eq, forall_mem_cons, mem_flatMap]
    refine ⟨.refl _, ?_⟩
    rintro part ⟨b, listed, inside⟩
    have own := (ih b listed part (b.all_eq ▸ inside)).cons b.id
    rw [← b.ids_eq] at own
    rw [s.ids_eq]
    exact ((own.trans (List.sublist_flatten_of_mem (mem_map_of_mem listed))).trans (sublist_append_right ..)).cons _

theorem Block.ids_sublist (b : Block) (mem : part ∈ b.all) : part.ids.Sublist b.ids :=
  b.ids_eq ▸ (Stmt.idsAll_sublist b.stmts part (b.all_eq ▸ mem)).cons _

theorem Stmt.map_id_sublist (stmts : List Stmt) : ((allOf stmts).map Stmt.id).Sublist (idsAll stmts) := by
  induction stmts using byBlocks with
  | nil => exact .slnil
  | cons s rest first later =>
    simp only [allOf, idsAll, append_nil, map_append] at first ⊢
    exact first.append later
  | step s ih =>
    simp only [allOf, idsAll, append_nil, s.all_eq, s.ids_eq, map_cons, map_flatMap]
    refine ((List.Sublist.flatMap_right _ fun b listed => ?_).trans (sublist_append_right ..)).cons_cons _
    exact b.ids_eq ▸ b.all_eq ▸ (ih b listed).cons _

theorem Block.map_id_sublist (b : Block) : (b.all.map Stmt.id).Sublist b.ids :=
  b.ids_eq ▸ b.all_eq ▸ (Stmt.map_id_sublist b.stmts).cons _

def Stmt.forks : Stmt → Bool
  | .when .. | .branch .. | .loop .. | .each .. => true
  | _ => false

namespace Flow

def times (p : Place) (records : List Record) : Nat := (records.map (·.place)).count p

variable {records : List Record}

@[simp] theorem times_nil (p : Place) : times p [] = 0 := rfl

@[simp] theorem times_append (p : Place) (a b : List Record) : times p (a ++ b) = times p a + times p b := by
  simp [times]

theorem places_bindNames (site : Site) (slot : Nat) (names : List Name) (env : Env) :
    (bindNames site slot names env).2.map (·.place) = (List.range' slot names.length).map (Place.binder site.node) := by
  induction names generalizing slot env with
  | nil => rfl
  | cons n rest ih => simp [bindNames, ih, List.range'_succ]

theorem times_made (p : Place) (site : Site) (names : List Name) (env : Env) :
    times p (made site names env) ≤ p.binders site.node := by
  rw [times, made, places_bindNames]
  exact Place.count_binders List.nodup_range' p

variable {joins : List Record} {site : NodeId} {env : Env}

theorem times_joins (env : Env) (listed : (joins.map (·.place)).Sublist
    ((env.entries.map Prod.fst).map (Place.join site))) (p : Place) : times p joins ≤ p.joins site :=
  Nat.le_trans (listed.count_le p) (Place.count_joins env.nodup_keys p)

theorem times_loopJoins (p : Place) (site : NodeId) (carried : NameSet) (env bodyOut : Env) :
    times p (loopJoins site carried env bodyOut) ≤ p.joins site := by
  refine times_joins env ?_ p
  have listed : (loopJoins site carried env bodyOut).map (·.place) =
      ((env.entries.filter (·.1 ∈ carried)).map Prod.fst).map (Place.join site) := by
    simp [loopJoins, Function.comp_def]
  rw [listed]
  exact (List.filter_sublist.map _).map _

theorem places_filterMap {α : Type} (site : NodeId) (join : Name × α → Option Record)
    (at_site : ∀ entry record, join entry = some record → record.place = .join site entry.1)
    (entries : List (Name × α)) :
    ((entries.filterMap join).map (·.place)).Sublist ((entries.map Prod.fst).map (Place.join site)) := by
  induction entries with
  | nil => exact .slnil
  | cons entry rest ih =>
    cases made : join entry with
    | none => simpa [filterMap_cons, made] using ih.cons (Place.join site entry.1)
    | some record => simpa [filterMap_cons, made, at_site entry record made] using ih

theorem times_branchJoins (p : Place) (site : NodeId) (iftOut iffOut : Env) :
    times p (branchJoins site iftOut iffOut) ≤ p.joins site := by
  refine times_joins iftOut (places_filterMap site _ ?_ iftOut.entries) p
  intro entry record joined
  dsimp only at joined
  split at joined
  · split at joined
    · cases joined
    · cases joined
      rfl
  · cases joined

theorem ExprsWalk.times (walk : ExprsWalk env es records) (p : Place) :
    times p records ≤ (Expr.idsAll es).count p.site := by
  induction walk with
  | nil | var => exact Nat.zero_le _
  | append _ _ early late =>
    rw [times_append, Expr.idsAll_append, count_append]
    omega
  | @parts _ e _ _ _ ih =>
    rw [Expr.idsAll, Expr.idsAll, append_nil, Expr.ids_eq]
    exact Nat.le_trans ih List.count_le_count_cons
  | @comprehension env node targets rows elt _ _ _ _ early late =>
    have own : (Expr.comprehension node targets rows elt).ids = node.id :: (Expr.idsAll rows ++ elt.ids) := rfl
    have := times_made p ⟨.comprehension, node.id⟩ (Binder.namesAll targets) env
    have := p.binders_add_joins node.id
    simp only [Expr.idsAll, own, count_cons, count_append, count_nil, times_append] at *
    omega

/-! ### What a statement consists of -/

/-- Whatever is in force in an environment is so in one of others, or is a join of something that is. -/
def From (site : NodeId) (joins : List Record) (sources : List Env) (env : Env) : Prop :=
  ∀ n p, env.get? n = some p → ∃ source ∈ sources, ∃ q, source.get? n = some q ∧
    (p = q ∨ p = .join site n ∧ ∃ rhs, ⟨.join site n, .join n site q rhs⟩ ∈ joins)

theorem From.of_mem (listed : env ∈ sources) : From site joins sources env :=
  fun _ p found => ⟨env, listed, p, found, .inl rfl⟩

/-- Two environments meet: the names that they share and that merge become joins, and the others that they share stay
as they are on the left. -/
structure Merge (site : NodeId) (merges : Name → Place → Place → Prop) (left right after : Env)
    (joins : List Record) : Prop where
  times : ∀ p, times p joins ≤ p.joins site
  joined : ∀ record, record ∈ joins ↔ ∃ n lhs rhs, left.get? n = some lhs ∧ right.get? n = some rhs ∧
    merges n lhs rhs ∧ record = ⟨.join site n, .join n site lhs rhs⟩
  out : ∀ n p, after.get? n = some p ↔ ∃ lhs rhs, left.get? n = some lhs ∧ right.get? n = some rhs ∧
    (merges n lhs rhs ∧ p = .join site n ∨ ¬ merges n lhs rhs ∧ p = lhs)

namespace Merge

variable {names : List Name} {out : Env}

theorem branch (site : NodeId) (left right : Env) : Merge site (fun _ lhs rhs => lhs ≠ rhs) left right
    (branchEnv site left right) (branchJoins site left right) where
  times p := times_branchJoins p site left right
  joined record := by
    rw [branchJoins, List.mem_filterMap]
    constructor
    · rintro ⟨⟨n, lhs⟩, listed, made⟩
      have held : left.get? n = some lhs := OrdMap.get?_eq_some_iff.mpr listed
      grind
    · rintro ⟨n, lhs, rhs, held, other, differ, rfl⟩
      exact ⟨(n, lhs), OrdMap.mem_of_get? held, by simp [other, differ]⟩
  out n p := by
    rw [branchEnv, OrdMap.get?_filterMap]
    cases left.get? n <;> cases right.get? n <;> grind

theorem guardedJoins_eq (site : NodeId) (env out : Env) : guardedJoins site env out = branchJoins site env out := by
  simp only [guardedJoins, branchJoins, eq_comm]

theorem guarded (site : NodeId) (keeps : Keeps names env out) :
    Merge site (fun _ lhs rhs => lhs ≠ rhs) env out (env.mapValues (guardedPlace site out))
      (guardedJoins site env out) where
  times p := guardedJoins_eq site env out ▸ times_branchJoins p site env out
  joined record := guardedJoins_eq site env out ▸ (branch site env out).joined record
  out n p := by
    have held := keeps.held n
    rw [OrdMap.get?_mapValues]
    cases found : env.get? n <;> grind [guardedPlace]

theorem loop (site : NodeId) (keeps : Keeps names (loopHead site carried env) out) :
    Merge site (fun n _ _ => n ∈ carried) env out (loopHead site carried env) (loopJoins site carried env out) := by
  have held : ∀ {n lhs}, env.get? n = some lhs → ∃ rhs, out.get? n = some rhs := fun found =>
    isSome_iff_exists.mp (keeps.held _ (by simp [loopHead, found]))
  refine ⟨fun p => times_loopJoins p site carried env out, fun record => ?_, fun n p => ?_⟩
  · rw [loopJoins, mem_map]
    constructor
    · rintro ⟨⟨n, lhs⟩, listed, rfl⟩
      obtain ⟨listed, inside⟩ := mem_filter.mp listed
      have found : env.get? n = some lhs := OrdMap.get?_eq_some_iff.mpr listed
      obtain ⟨rhs, other⟩ := held found
      exact ⟨n, lhs, rhs, found, other, of_decide_eq_true inside, by simp [other]⟩
    · rintro ⟨n, lhs, rhs, found, other, inside, rfl⟩
      exact ⟨(n, lhs), mem_filter.mpr ⟨OrdMap.mem_of_get? found, by simpa using inside⟩, by simp [other]⟩
  · rw [loopHead, OrdMap.get?_mapValues]
    cases found : env.get? n with
    | none => simp
    | some lhs =>
      obtain ⟨rhs, other⟩ := held found
      grind

variable {merges : Name → Place → Place → Prop} {left right after : Env}

theorem from_left (merge : Merge site merges left right after joins) (listed : left ∈ sources) :
    From site joins sources after := by
  intro n p found
  obtain ⟨lhs, rhs, held, other, ⟨merged, rfl⟩ | ⟨_, rfl⟩⟩ := (merge.out n p).mp found
  · exact ⟨left, listed, lhs, held, .inr ⟨rfl, rhs, (merge.joined _).mpr ⟨n, lhs, rhs, held, other, merged, rfl⟩⟩⟩
  · exact ⟨left, listed, p, held, .inl rfl⟩

end Merge

/-- How definitions meet at a statement: those in force before it, where it binds its names, at the ends of its blocks
and after it. -/
inductive Meets : Stmt → Env → Env → List Env → Env → List Record → Prop where
  | none {s : Stmt} {env after : Env} {outs : List Env} (forkless : s.forks = false)
    (listed : after ∈ env :: bound ⟨.stmt, s.id⟩ s.binds env :: outs) : Meets s env env outs after []
  | when {node test body} {env out after : Env} {joins : List Record}
    (merge : Merge node.id (fun _ lhs rhs => lhs ≠ rhs) env out after joins) :
    Meets (.when node test body) env env [out] after joins
  | branch {node test ift iff} {env left right after : Env} {joins : List Record}
    (merge : Merge node.id (fun _ lhs rhs => lhs ≠ rhs) left right after joins) :
    Meets (.branch node test ift iff) env env [left, right] after joins
  | loop {node test body} {env head out : Env} {joins : List Record}
    (merge : Merge node.id (fun n _ _ => n ∈ body.assigned) env out head joins) :
    Meets (.loop node test body) env head [out] head joins
  | each {node target iterable body} {env head out : Env} {joins : List Record}
    (merge : Merge node.id (fun n _ _ => n ∈ body.assigned ∪ OrdSet.ofList target.names) env out head joins) :
    Meets (.each node target iterable body) env head [out] head joins

namespace Meets

variable {head after : Env} {outs : List Env}

variable (meets : Meets s env head outs after joins)

include meets

/-- At a statement that forks two environments meet, those at the ends of its blocks or what was there before. -/
theorem merge :
    joins = [] ∨ ∃ merges left right, Merge s.id merges left right after joins ∧ left ∈ env :: outs ∧ right ∈ outs := by
  cases meets with
  | none => exact .inl rfl
  | when merge | loop merge | each merge => exact .inr ⟨_, _, _, merge, mem_cons_self, mem_cons_self⟩
  | branch merge =>
    exact .inr ⟨_, _, _, merge, mem_cons_of_mem _ mem_cons_self, mem_cons_of_mem _ mem_cons_self⟩

theorem times (p : Place) : times p joins ≤ p.joins s.id := by
  rcases meets.merge with rfl | ⟨_, _, _, merge, _⟩
  · exact Nat.zero_le _
  · exact merge.times p

theorem joined :
    ∀ record ∈ joins, ∃ n lhs rhs, (∃ source ∈ env :: outs, source.get? n = some lhs) ∧
      (∃ source ∈ env :: outs, source.get? n = some rhs) ∧ record = ⟨.join s.id n, .join n s.id lhs rhs⟩ := by
  intro record mem
  rcases meets.merge with rfl | ⟨_, left, right, merge, first, second⟩
  · cases mem
  · obtain ⟨n, lhs, rhs, held, other, _, same⟩ := (merge.joined record).mp mem
    exact ⟨n, lhs, rhs, ⟨left, first, held⟩, ⟨right, mem_cons_of_mem _ second, other⟩, same⟩

theorem enters : From s.id joins [env] head := by
  cases meets with
  | none | when | branch => exact .of_mem mem_cons_self
  | loop merge | each merge => exact merge.from_left mem_cons_self

theorem leaves : From s.id joins (env :: bound ⟨.stmt, s.id⟩ s.binds head :: outs) after := by
  cases meets with
  | none _ listed => exact .of_mem listed
  | when merge | loop merge | each merge => exact merge.from_left mem_cons_self
  | branch merge => exact merge.from_left (by simp)

end Meets

theorem ArmsWalk.meets {outs : List Env} {inner : Notes} (arms : ArmsWalk (startEnv env s) s.blocks outs inner) :
    Meets s env (headEnv env s) outs (outEnv env s outs) (joinsOf env s outs) := by
  cases s with
  | when =>
    obtain _ | ⟨inside, _ | _⟩ := arms
    exact .when (.guarded _ inside.keeps)
  | branch =>
    obtain _ | ⟨left, _ | ⟨right, _ | _⟩⟩ := arms
    exact .branch (.branch ..)
  | loop =>
    obtain _ | ⟨inside, _ | _⟩ := arms
    exact .loop (.loop _ inside.keeps)
  | each =>
    obtain _ | ⟨inside, _ | _⟩ := arms
    exact .each (.loop _ ((Keeps.bound ..).trans inside.keeps))
  | scope =>
    obtain _ | ⟨inside, _ | _⟩ := arms
    exact .none rfl (mem_cons_of_mem _ (mem_cons_of_mem _ mem_cons_self))
  | _ => exact .none rfl (mem_cons_of_mem _ mem_cons_self)

def Notes.entries (notes : Notes) (id : NodeId) : Nat :=
  (notes.stmts.map Prod.fst).count id + (notes.blocks.map Prod.fst).count id

@[simp] theorem Notes.entries_append (a b : Notes) (id : NodeId) :
    (a ++ b).entries id = a.entries id + b.entries id := by
  simp only [entries, stmts_append, blocks_append, map_append, count_append]
  omega

@[simp] theorem Notes.entries_around (node : NodeId) (before after : Env) (inside : Notes) (id : NodeId) :
    (around node before after inside).entries id = inside.entries id + [node].count id := by
  simp only [entries, stmts_around, blocks_around, map_append, count_append, map_cons, map_nil]
  omega

@[simp] theorem Notes.entries_records (records : List Record) (id : NodeId) :
    ({ records := records } : Notes).entries id = 0 := rfl

/-- What is noted of a part of a program is noted once for every node. -/
structure Notes.Counted (notes : Notes) (ids : List NodeId) : Prop where
  entries : ∀ id, notes.entries id ≤ ids.count id
  times : ∀ p : Place, times p notes.records ≤ ids.count p.site

mutual

theorem StmtsWalk.counted {env after : Env} {notes : Notes} :
    StmtsWalk env stmts after notes → notes.Counted (Stmt.idsAll stmts)
  | .nil => ⟨fun _ => Nat.zero_le _, fun _ => Nat.zero_le _⟩
  | @StmtsWalk.cons env _ _ s _ _ _ (.stmt _ reads arms _ whole) tail => by
    have inner := arms.counted
    have later := tail.counted
    subst whole
    rw [Stmt.idsAll, s.ids_eq]
    constructor
    · intro id
      have := inner.entries id
      have := later.entries id
      simp only [Notes.entries_append, Notes.entries_around, Notes.entries_records, count_append, count_cons, count_nil]
      omega
    · intro p
      have := (walk_of_exprs reads).times p
      have := times_made p ⟨.stmt, s.id⟩ s.binds (headEnv env s)
      have := inner.times p
      have := arms.meets.times p
      have := p.binders_add_joins s.id
      have := later.times p
      simp only [Notes.records_append, Notes.records_around, times_append, count_append, count_cons, count_nil] at *
      omega

theorem ArmsWalk.counted {env : Env} {blocks : List Block} {notes : Notes} :
    ArmsWalk env blocks outs notes → notes.Counted (blocks.flatMap Block.ids)
  | .nil => ⟨fun _ => Nat.zero_le _, fun _ => Nat.zero_le _⟩
  | @ArmsWalk.cons env out _ b _ _ _ (.block inside) tail => by
    have inner := inside.counted
    have later := tail.counted
    rw [flatMap_cons, b.ids_eq]
    constructor
    · intro id
      have := inner.entries id
      have := later.entries id
      have own : ({ blocks := [(b.id, ⟨env, out⟩)] } : Notes).entries id = [b.id].count id := by simp [Notes.entries]
      simp only [Notes.entries_append, own, count_append, count_cons, count_nil]
      omega
    · intro p
      have := inner.times p
      have := later.times p
      simp only [Notes.records_append, times_append, times_nil, count_append, count_cons]
      omega

end

theorem BlockWalk.counted {env after : Env} {b : Block} {notes : Notes} (walk : BlockWalk env b after notes) :
    notes.Counted b.ids := by
  simpa using walk.single.counted

/-- What is noted of a part of a program, with the identities in the part, and the same of a larger part:
what is noted of the larger one only is about its other identities. -/
structure Notes.Part (inner : Notes) (small : List NodeId) (outer : Notes) (large : List NodeId) : Prop where
  within : inner.Within outer
  own : ∀ p : Place, times p outer.records + small.count p.site ≤ times p inner.records + large.count p.site

theorem Notes.Part.refl (notes : Notes) (ids : List NodeId) : notes.Part ids notes ids :=
  ⟨.refl notes, fun _ => Nat.le_refl _⟩

theorem Notes.Part.trans (first : a.Part small b middle) (second : b.Part middle c large) : a.Part small c large := by
  refine ⟨first.within.trans second.within, fun p => ?_⟩
  have := first.own p
  have := second.own p
  omega

def Notes.Visits (notes : Notes) (ids : List NodeId) (s : Stmt) : Prop :=
  ∃ span sub, (s.id, span) ∈ notes.stmts ∧ StmtWalk span.before s span.after sub ∧ sub.Part s.ids notes ids

def Notes.Opens (notes : Notes) (ids : List NodeId) (b : Block) : Prop :=
  ∃ span sub, (b.id, span) ∈ notes.blocks ∧ BlockWalk span.before b span.after sub ∧ sub.Part b.ids notes ids

/-- The walk has come by everything in a part of a program. -/
structure Notes.Spans (notes : Notes) (ids : List NodeId) (stmts : List Stmt) (blocks : List Block) :
    Prop where
  visits : ∀ s ∈ stmts, notes.Visits ids s
  opens : ∀ b ∈ blocks, notes.Opens ids b

namespace Notes.Spans

variable {stmts : List Stmt} {blocks : List Block} {notes : Notes}

theorem mono (spans : a.Spans small stmts blocks) (part : a.Part small b large) : b.Spans large stmts blocks := by
  constructor
  · intro s mem
    obtain ⟨span, sub, noted, walk, inside⟩ := spans.visits s mem
    exact ⟨span, sub, part.within.stmts _ noted, walk, inside.trans part⟩
  · intro block mem
    obtain ⟨span, sub, noted, walk, inside⟩ := spans.opens block mem
    exact ⟨span, sub, part.within.blocks _ noted, walk, inside.trans part⟩

theorem append (left : notes.Spans ids first blocks) (right : notes.Spans ids others more) :
    notes.Spans ids (first ++ others) (blocks ++ more) :=
  ⟨fun s mem => (mem_append.mp mem).elim (left.visits s) (right.visits s),
    fun b mem => (mem_append.mp mem).elim (left.opens b) (right.opens b)⟩

theorem cons (walk : StmtWalk env s after notes) (inside : notes.Spans s.ids stmts blocks) :
    notes.Spans s.ids (s :: stmts) blocks := by
  refine ⟨?_, inside.opens⟩
  intro other mem
  rcases mem_cons.mp mem with rfl | mem
  · exact ⟨_, notes, walk.noted, walk, .refl notes _⟩
  · exact inside.visits other mem

theorem nil (notes : Notes) (ids : List NodeId) : notes.Spans ids [] [] :=
  ⟨nofun, nofun⟩

end Notes.Spans

mutual

theorem StmtsWalk.spans {env after : Env} {notes : Notes} :
    StmtsWalk env stmts after notes → notes.Spans (Stmt.idsAll stmts) (Stmt.allOf stmts) (Stmt.allBlocksOf stmts)
  | .nil => .nil _ _
  | @StmtsWalk.cons env _ _ s _ _ _ walk@(.stmt _ reads arms _ whole) tail => by
    have inner := arms.spans
    have counted := arms.counted
    have later := tail.counted
    have own := Notes.Spans.cons walk (inner.mono ⟨whole ▸ .middle .., fun p => ?_⟩)
    rw [Stmt.idsAll, Stmt.allOf, Stmt.allBlocksOf, s.all_eq, s.allBlocks_eq]
    refine (own.mono ⟨.left _ _, fun p => ?_⟩).append (tail.spans.mono ⟨.right _ _, fun p => ?_⟩)
    all_goals
      have := (walk_of_exprs reads).times p
      have := times_made p ⟨.stmt, s.id⟩ s.binds (headEnv env s)
      have := counted.times p
      have := arms.meets.times p
      have := p.binders_add_joins s.id
      have := later.times p
      simp only [whole, s.ids_eq, Notes.records_append, Notes.records_around, times_append, count_append,
        count_cons, count_nil] at *
      omega

theorem ArmsWalk.spans {env : Env} {blocks : List Block} {notes : Notes} :
    ArmsWalk env blocks outs notes → notes.Spans (blocks.flatMap Block.ids) (blocks.flatMap Block.all) (blocks.flatMap
    Block.allBlocks)
  | .nil => .nil _ _
  | @ArmsWalk.cons env out _ b _ _ _ (@BlockWalk.block _ _ _ inner inside) tail => by
    have counted := inside.counted
    have later := tail.counted
    have part : inner.Part (Stmt.idsAll b.stmts) (inner ++ { blocks := [(b.id, ⟨env, out⟩)] }) b.ids := by
      refine ⟨.left _ _, fun p => ?_⟩
      simp only [b.ids_eq, Notes.records_append, times_append, times_nil, count_cons]
      omega
    have parts := inside.spans.mono part
    have own : (inner ++ { blocks := [(b.id, ⟨env, out⟩)] }).Spans b.ids b.all b.allBlocks := by
      rw [b.all_eq, b.allBlocks_eq]
      have walk := BlockWalk.block inside
      exact ⟨parts.visits, forall_mem_cons.mpr ⟨⟨⟨env, out⟩, _, walk.noted, walk, .refl _ _⟩, parts.opens⟩⟩
    rw [flatMap_cons, flatMap_cons, flatMap_cons]
    refine (own.mono ⟨.left _ _, fun p => ?_⟩).append (tail.spans.mono ⟨.right _ _, fun p => ?_⟩)
    all_goals
      have := counted.times p
      have := later.times p
      simp only [b.ids_eq, Notes.records_append, times_append, times_nil, count_append, count_cons] at *
      omega

end

theorem BlockWalk.spans {env after : Env} {b : Block} {notes : Notes} (walk : BlockWalk env b after notes) :
    notes.Spans b.ids b.all b.allBlocks := by
  simpa using walk.single.spans

theorem span_unique {spans : List (NodeId × Span Place)} (distinct : (spans.map Prod.fst).Nodup) {a b : Span Place} (first : (id, a) ∈ spans) (second : (id, b) ∈ spans) : a = b := by
  have found := OrdMap.lookup_of_mem distinct first
  rw [OrdMap.lookup_of_mem distinct second] at found
  exact (Option.some.inj found).symm

end Flow

namespace Reaching

open Flow

def entryOf (f : Func) : Env :=
  (bindInputs f.id f.freeVars.toList (bindParams f.params ∅).1).1

def inputsOf (f : Func) : List Record :=
  (bindParams f.params ∅).2 ++ (bindInputs f.id f.freeVars.toList (bindParams f.params ∅).1).2

variable {r : Reaching} {record : Record} {p : Place}

theorem times_bindParams (p : Place) (params : List Param) (env : Env) :
    times p (bindParams params env).2 ≤ (params.map (·.id)).count p.site := by
  induction params generalizing env with
  | nil => simp [bindParams]
  | cons param rest ih =>
    have first := times_made p ⟨.param, param.id⟩ param.name.toList env
    have others := ih (bindNames ⟨.param, param.id⟩ 0 param.name.toList env).1
    have split := p.binders_add_joins param.id
    simp only [made, bindParams, times_append, map_cons, count_cons, count_nil] at *
    omega

theorem times_inputsOf (p : Place) (f : Func) : times p (inputsOf f) ≤ (f.id :: f.params.map (·.id)).count p.site := by
  have params := times_bindParams p f.params ∅
  have free := times_made p ⟨.free, f.id⟩
    (f.freeVars.toList.filter fun n => !(bindParams f.params ∅).1.contains n) (bindParams f.params ∅).1
  have split := p.binders_add_joins f.id
  simp only [made, inputsOf, bindInputs, times_append, count_cons, count_nil] at *
  omega

/-- The notes of a whole function, in which nothing stands twice. -/
structure Survey (f : Func) (notes : Notes) : Prop where
  distinct : f.ids.Nodup
  walk : ∃ exit inner, BlockWalk (entryOf f) f.body exit inner ∧ notes = { records := inputsOf f } ++ inner
  stmts : (notes.stmts.map Prod.fst).Nodup
  blocks : (notes.blocks.map Prod.fst).Nodup
  places : (notes.records.map (·.place)).Nodup

variable {f : Func} {records : List Record} {notes : Notes}

theorem survey_of_walk {exit : Env} {inner : Notes} (distinct : f.ids.Nodup)
    (walked : Flow.ofBlock (entryOf f) f.body = .ok (exit, inner)) : Survey f ({ records := inputsOf f } ++ inner) := by
  have walk := walk_of_block f.body walked
  have counted := walk.counted
  have once := nodup_iff_count.mp distinct
  refine ⟨distinct, ⟨exit, inner, walk, rfl⟩, ?_, ?_, ?_⟩
  · refine nodup_iff_count.mpr fun id => ?_
    have entries := counted.entries id
    have bound := once id
    simp only [Notes.entries, Notes.stmts_append, nil_append, Func.ids, count_cons, count_append] at *
    omega
  · refine nodup_iff_count.mpr fun id => ?_
    have entries := counted.entries id
    have bound := once id
    simp only [Notes.entries, Notes.blocks_append, nil_append, Func.ids, count_cons, count_append] at *
    omega
  · refine nodup_iff_count.mpr fun p => ?_
    have inputs := times_inputsOf p f
    have inside := counted.times p
    have bound := once p.site
    simp only [times, Notes.records_append, map_append, Func.ids, count_cons, count_append] at *
    omega

theorem walk_of_func (analysed : ofFunc f = .ok r) :
    ∃ exit inner, Flow.ofBlock (entryOf f) f.body = .ok (exit, inner) ∧ r = ofNotes (entryOf f) exit
      ({ records := inputsOf f } ++ inner) := by
  have unfolded : ofFunc f = ofWalk (entryOf f) (inputsOf f) f.body := rfl
  rw [unfolded, ofWalk, bind_ok] at analysed
  obtain ⟨⟨exit, inner⟩, walked, result⟩ := analysed
  cases result
  exact ⟨exit, inner, walked, rfl⟩

theorem survey_of_func (distinct : f.ids.Nodup) (analysed : ofFunc f = .ok r) :
    ∃ exit notes, Survey f notes ∧ r = ofNotes (entryOf f) exit notes := by
  obtain ⟨exit, inner, walked, rfl⟩ := walk_of_func analysed
  exact ⟨exit, _, survey_of_walk distinct walked, rfl⟩

theorem getElem?_number (distinct : (records.map (·.place)).Nodup) (mem : record ∈ records) :
    records[number records record.place]? = some record := by
  induction records with
  | nil => cases mem
  | cons first rest ih =>
    obtain ⟨fresh, others⟩ := nodup_cons.mp distinct
    rcases mem_cons.mp mem with rfl | mem
    · simp [number, List.findIdx_cons]
    · have differ : first.place ≠ record.place := by
        intro same
        exact fresh (mem_map.mpr ⟨record, mem, same.symm⟩)
      have found := ih others mem
      simp only [number] at found
      simp [number, List.findIdx_cons, differ, found]

section

variable (survey : Survey f notes)

include survey

theorem Survey.nodup_body : f.body.ids.Nodup := by
  have body : f.body.ids.Sublist f.ids := by
    rw [Func.ids]
    exact (sublist_append_right ..).cons _
  exact body.nodup survey.distinct

theorem Survey.nodup_ids (mem : s ∈ f.body.all) : s.ids.Nodup :=
  (f.body.ids_sublist mem).nodup survey.nodup_body

theorem Survey.stmt_eq {other : Stmt} (mem : s ∈ f.body.all) (found : other ∈ f.body.all) (same : s.id = other.id) :
    s = other :=
  List.inj_on_of_nodup_map (f.body.map_id_sublist.nodup survey.nodup_body) mem found same

theorem Survey.spans : notes.Spans f.ids f.body.all f.body.allBlocks := by
  obtain ⟨exit, inner, walk, rfl⟩ := survey.walk
  refine (walk.spans).mono ⟨.right _ _, fun p => ?_⟩
  have inputs := times_inputsOf p f
  simp only [Notes.records_append, times_append, Func.ids, count_cons, count_append] at *
  omega

theorem Survey.own {sub : Notes} (part : sub.Part s.ids notes f.ids) (mem : record ∈ notes.records)
    (inside : record.place.site ∈ s.ids) : record ∈ sub.records := by
  have once := nodup_iff_count.mp survey.distinct record.place.site
  have here := List.count_pos_iff.mpr inside
  have recorded : 0 < times record.place notes.records := List.count_pos_iff.mpr (mem_map.mpr ⟨record, mem, rfl⟩)
  have bound := part.own record.place
  obtain ⟨other, found, same⟩ := mem_map.mp (List.count_pos_iff.mp (by omega : 0 < times record.place sub.records))
  have equal := getElem?_number survey.places mem
  rw [← same, getElem?_number survey.places (part.within.records _ found)] at equal
  cases equal
  exact found

end

theorem place_of_number (found : records[number records p]? = some record) : record.place = p := by
  induction records with
  | nil => cases found
  | cons first rest ih =>
    by_cases same : first.place = p
    · simp only [number, List.findIdx_cons, same, decide_true, cond_true, List.getElem?_cons_zero,
        Option.some.injEq] at found
      rw [← found, same]
    · simp only [number, List.findIdx_cons, same, decide_false, cond_false, List.getElem?_cons_succ] at found
      exact ih found

theorem place_eq_of_number (recorded : ∃ record ∈ records, record.place = q)
    (same : number records p = number records q) : p = q := by
  obtain ⟨record, mem, rfl⟩ := recorded
  have below : number records record.place < records.length := List.findIdx_lt_length.mpr ⟨record, mem, by simp⟩
  obtain ⟨other, found⟩ : ∃ other, records[number records record.place]? = some other :=
    ⟨_, List.getElem?_eq_getElem below⟩
  have right := place_of_number found
  rw [← same] at found
  exact (place_of_number found).symm.trans right

theorem get?_numberSpans {spans : List (NodeId × Span Place)} (distinct : (spans.map Prod.fst).Nodup) :
    (numberSpans records spans).get? id = some numbered ↔ ∃ span, (id, span) ∈ spans ∧ numbered = ⟨numberEnv records
    span.before, numberEnv records span.after⟩ := by
  rw [numberSpans, OrdMap.get?_ofList_iff (by simpa [Function.comp_def] using distinct), mem_map]
  constructor
  · rintro ⟨⟨_, span⟩, noted, same⟩
    cases same
    exact ⟨span, noted, rfl⟩
  · rintro ⟨span, noted, rfl⟩
    exact ⟨(id, span), noted, rfl⟩

section Lookup

variable (survey : Survey f notes) (entry exit : Env)

include survey

variable {span : Span Place}

theorem Survey.def? (mem : record ∈ notes.records) : (ofNotes entry exit notes).def?
    (number notes.records record.place) = some (record.definition.map (number notes.records)) := by
  rw [Reaching.def?, ofNotes, getElem?_map, getElem?_number survey.places mem]
  rfl

theorem Survey.stmts? (noted : (id, span) ∈ notes.stmts) :
    (ofNotes entry exit notes).stmts.get? id = some
      ⟨numberEnv notes.records span.before, numberEnv notes.records span.after⟩ :=
  (get?_numberSpans survey.stmts).mpr ⟨span, noted, rfl⟩

theorem Survey.blocks? (noted : (id, span) ∈ notes.blocks) :
    (ofNotes entry exit notes).blocks.get? id = some
      ⟨numberEnv notes.records span.before, numberEnv notes.records span.after⟩ :=
  (get?_numberSpans survey.blocks).mpr ⟨span, noted, rfl⟩

end Lookup

end Reaching

end NumLang
