import NumLang.Proofs.Numbering
import NumLang.Proofs.Outline

/-!
Invariants along the definitions in force.
-/

namespace NumLang

variable {target : Binder} {after : Flow.Env} {V C W X : Type} {fault : Fault → Prop} {α : Type} {m : Machine V C}
  {n : Name} {writes : List (Name × V)}

theorem Settles.strengthen (settled : Settles fault x good) (stronger : ∀ a, x = .ok a → good a → better a) :
    Settles fault x better := by
  cases x with
  | ok a => exact stronger a rfl settled
  | error f => exact settled

theorem Settles.bind {β : Type} {k : α → Except Fault β} {better : β → Prop} (first : Settles fault x good)
    (rest : ∀ a, good a → Settles fault (k a) better) : Settles fault (x >>= k) better := by
  cases x with
  | ok a => exact rest a first
  | error f => exact first

theorem settles_demand (stuck : fault .stuck) (x : Option α) : Settles fault (demand x) fun _ => True := by
  cases x with
  | some a => trivial
  | none => exact stuck

namespace Flow

def Readable (fault : Fault → Prop) (env : Env) (σ : Store V) : Prop :=
  ∀ n, env.contains n = true → (σ.get? n).isSome = true ∨ fault (.unbound n)

section Evaluation

variable {σ : Store V}

theorem settles_read (readable : Readable fault env σ) (held : env.contains n = true) :
    Settles fault (σ.read n) fun _ => True := by
  unfold Store.read
  cases found : σ.get? n with
  | some cell => trivial
  | none =>
    rcases readable n held with present | allowed
    · simp [found] at present
    · exact allowed

theorem settles_all {c : C} (each : ∀ e ∈ es, Settles fault (m.eval c σ e) fun _ => True) :
    Settles fault (m.evalAll c σ es) fun _ => True := by
  induction es with
  | nil => trivial
  | cons e rest ih =>
    obtain ⟨here, others⟩ := forall_mem_cons.mp each
    exact here.bind fun _ _ => (ih others).bind fun _ _ => trivial

/-- Expressions that read defined names only have values or no values are defined for them. -/
theorem settles_walk (stuck : fault .stuck) (c : C) (walk : ExprsWalk env es records)
    (readable : Readable fault env σ) : ∀ e ∈ es, Settles fault (m.eval c σ e) fun _ => True := by
  induction walk with
  | nil => simp
  | append _ _ first second => exact forall_mem_append.mpr ⟨first readable, second readable⟩
  | var held => exact forall_mem_singleton.mpr (settles_read readable held)
  | comprehension => exact forall_mem_singleton.mpr stuck
  | @parts _ e _ parts _ inside =>
    replace inside := inside readable
    refine forall_mem_singleton.mpr ?_
    cases e.valued with
    | var => cases parts
    | lit => exact settles_demand stuck _
    | none valueless =>
      rw [m.eval_valueless valueless]
      exact stuck
    | form formed =>
      rw [m.eval_form formed]
      exact (settles_all inside).bind fun _ _ => settles_demand stuck _
    | cond =>
      obtain ⟨test, others⟩ := forall_mem_cons.mp inside
      obtain ⟨ift, iff⟩ := forall_mem_cons.mp others
      refine test.bind fun _ _ => (settles_demand stuck _).bind fun holds _ => ?_
      cases holds with
      | true => exact ift
      | false => exact iff _ mem_cons_self

variable {c : C} (stuck : fault .stuck)

include stuck

theorem settles_writes (target : Binder) (v : V) :
    Settles fault (m.writes target v) fun writes => writes.map Prod.fst = target.names := by
  refine (settles_demand stuck _).bind fun values _ => ?_
  split
  · rename_i fits
    exact map_fst_zip (Nat.le_of_eq fits.symm)
  · exact stuck

variable (evaluated : Settles fault (m.eval c σ e) fun _ => True)

include evaluated

theorem settles_test : Settles fault (m.test c σ e) fun _ => True :=
  evaluated.bind fun _ _ => settles_demand stuck _

theorem settles_assigned : Settles fault (m.assigned c σ target e) fun writes => writes.map Prod.fst = target.names :=
  evaluated.bind fun v _ => settles_writes stuck target v

theorem settles_replaced (readable : Readable fault env σ) {name : Name} (held : env.contains name = true)
    (places : ∀ place ∈ es, Settles fault (m.eval c σ place) fun _ => True) :
    Settles fault (m.replaced c σ name es e) fun _ => True := by
  refine (settles_all places).bind fun _ _ => evaluated.bind fun _ _ => ?_
  exact (settles_read readable held).bind fun _ _ => settles_demand stuck _

theorem settles_drawn : Settles fault (m.drawn c σ e) fun _ => True :=
  evaluated.bind fun _ _ => settles_demand stuck _

theorem settles_entered {name : Option Name} :
    Settles fault (m.entered c σ name e) fun entered => entered.2.map Prod.fst = name.toList := by
  unfold Machine.entered
  split
  · rfl
  · exact stuck
  · refine evaluated.bind fun v _ => ?_
    refine (settles_demand stuck _).bind fun inner _ => ?_
    simp [Settles, pure, Except.pure, Function.comp_def]

end Evaluation

variable {site : Site} {env : Env}

theorem origin_bindNames (found : (bindNames site slot names env).1.get? n = some p) :
    env.get? n = some p ∨ p.site = site.node := by
  rcases bindNames_cases found with ⟨_, earlier⟩ | ⟨i, _, rfl⟩
  · exact .inl earlier
  · exact .inr rfl

theorem site_bound (named : n ∈ names) (found : (bound site names env).get? n = some p) : p.site = site.node := by
  rcases bindNames_cases found with ⟨absent, _⟩ | ⟨i, _, rfl⟩
  · exact absurd named absent
  · rfl

theorem site_loopHead {site : NodeId} (mem : n ∈ carried) (found : (loopHead site carried env).get? n = some p) :
    p.site = site := by
  rw [loopHead, OrdMap.get?_mapValues, map_eq_some_iff] at found
  obtain ⟨_, _, rfl⟩ := found
  rw [if_pos mem]
  rfl

/-- A name that is bound in a statement has a definition from inside it afterwards, if that is so of its blocks. -/
theorem renewed_outEnv {s : Stmt} {outs : List Env} {inner : Notes} (arms : ArmsWalk (startEnv env s) s.blocks outs inner)
    (below : Forall₂ (fun b out => ∀ n p, n ∈ b.all.flatMap Stmt.binds → out.get? n = some p → p.site ∈ b.ids) s.blocks
      outs) (mem : n ∈ s.all.flatMap Stmt.binds) (found : (outEnv env s outs).get? n = some p) : p.site ∈ s.ids := by
  cases s with
  | assign | store => exact site_bound (by simpa [Stmt.all, Stmt.binds] using mem) found ▸ mem_cons_self
  | when =>
    obtain _ | ⟨inside, _ | _⟩ := arms
    obtain _ | ⟨inner, _⟩ := below
    obtain ⟨lhs, rhs, _, other, ⟨_, rfl⟩ | ⟨same, rfl⟩⟩ := ((Merge.guarded _ inside.keeps).out n p).mp found
    · exact mem_cons_self
    · exact mem_cons_of_mem _ (mem_append_right _ (inner n _ mem (not_not.mp same ▸ other)))
  | branch =>
    obtain _ | ⟨left, _ | ⟨right, _ | _⟩⟩ := below
    obtain ⟨lhs, rhs, held, other, ⟨_, rfl⟩ | ⟨same, rfl⟩⟩ := ((Merge.branch ..).out n p).mp found
    · exact mem_cons_self
    · refine mem_cons_of_mem _ (mem_append_right _ (mem_append.mpr ?_))
      simp only [Stmt.all, Stmt.binds, flatMap_cons, flatMap_append, nil_append, mem_append] at mem
      exact mem.imp (left n _ · held) (right n _ · (not_not.mp same ▸ other))
  | loop => exact site_loopHead (mem_assigned.mpr mem) found ▸ mem_cons_self
  | each =>
    refine site_loopHead (mem_union.mpr ?_) found ▸ mem_cons_self
    exact (mem_append.mp mem).symm.imp mem_assigned.mpr mem_ofList.mpr
  | scope _ _ _ body =>
    obtain _ | ⟨inside, _ | _⟩ := arms
    obtain _ | ⟨inner, _⟩ := below
    by_cases deep : n ∈ body.all.flatMap Stmt.binds
    · exact mem_cons_of_mem _ (mem_append_right _ (inner n p deep found))
    · rw [outEnv, inside.keeps.same n deep] at found
      exact site_bound ((mem_append.mp mem).resolve_right deep) found ▸ mem_cons_self
  | assert | effect | ret | skip => cases mem

mutual

theorem ArmsWalk.renewed {env : Env} {blocks : List Block} {outs : List Env} {notes : Notes} :
    ArmsWalk env blocks outs notes → Forall₂ (fun b out => ∀ n p, n ∈ b.all.flatMap Stmt.binds → out.get? n = some p →
      p.site ∈ b.ids) blocks outs
  | .nil => .nil
  | @ArmsWalk.cons _ _ _ b _ _ _ (.block inside) tail => by
    refine .cons (fun n p mem found => ?_) tail.renewed
    rw [b.ids_eq]
    exact mem_cons_of_mem _ (inside.renewed (b.all_eq ▸ mem) found)

theorem StmtsWalk.renewed {env after : Env} {stmts : List Stmt} {notes : Notes} {n : Name} {p : Place} :
    StmtsWalk env stmts after notes → n ∈ (Stmt.allOf stmts).flatMap Stmt.binds → after.get? n = some p →
    p.site ∈ Stmt.idsAll stmts
  | .nil, mem, _ => nomatch mem
  | @StmtsWalk.cons _ _ _ _ rest _ _ (.stmt _ _ arms out _) tail, mem, found => by
    by_cases later : n ∈ (Stmt.allOf rest).flatMap Stmt.binds
    · exact mem_append_right _ (tail.renewed later found)
    · rw [tail.keeps.same n later, out] at found
      rw [Stmt.allOf, flatMap_append] at mem
      exact mem_append_left _ (renewed_outEnv arms arms.renewed ((mem_append.mp mem).resolve_right later) found)

end

theorem BlockWalk.renewed {after : Env} {b : Block} {notes : Notes} (walk : BlockWalk env b after notes)
    (mem : n ∈ b.all.flatMap Stmt.binds) (found : after.get? n = some p) : p.site ∈ b.ids := by
  obtain _ | ⟨renewed, _⟩ := walk.single.renewed
  exact renewed n p mem found

/-- A definition in force after a block was in force before it or is made inside. -/
theorem BlockWalk.origin {after : Env} {b : Block} (walk : BlockWalk env b after notes) (found : after.get? n = some p)
    : env.get? n = some p ∨ p.site ∈ b.ids := by
  by_cases mem : n ∈ b.all.flatMap Stmt.binds
  · exact .inr (walk.renewed mem found)
  · exact .inl (walk.keeps.same n mem ▸ found)

theorem BlockWalk.common {ift iff : Block} (left : BlockWalk env ift iftOut first)
    (right : BlockWalk env iff iffOut second) (distinct : (ift.ids ++ iff.ids).Nodup) (n : Name) (p : Place)
    (leftFound : iftOut.get? n = some p) (rightFound : iffOut.get? n = some p) : env.get? n = some p := by
  rcases left.origin leftFound with earlier | inLeft
  · exact earlier
  · rcases right.origin rightFound with earlier | inRight
    · exact earlier
    · exact absurd rfl ((nodup_append.mp distinct).2.2 _ inLeft _ inRight)

/-- Definitions flow along an edge of control flow at a statement. One that is not joined was in force before
the statement and is still; for the others the join of their name is recorded. -/
def Into (records : List Record) (site : NodeId) (before env next : Env) : Prop :=
  ∀ n q, next.get? n = some q →
    (before.get? n = some q ∧ env.get? n = some q) ∨
    ∃ lhs rhs, q = .join site n ∧ ⟨.join site n, .join n site lhs rhs⟩ ∈ records ∧
      (env.get? n = some lhs ∨ env.get? n = some rhs)

section Edges

variable {site : NodeId}

/-- Definitions flow from both sides into where two environments meet, if what does not merge is the same on both. -/
theorem Merge.into {left right : Env} (merge : Merge site merges left right after joins)
    (recorded : ∀ r ∈ joins, r ∈ records)
    (agree : ∀ n lhs rhs, left.get? n = some lhs → right.get? n = some rhs → ¬ merges n lhs rhs → lhs = rhs ∧ env.get? n
    = some lhs) : Into records site env left after ∧ Into records site env right after := by
  constructor
  all_goals
    intro n q found
    obtain ⟨lhs, rhs, held, other, ⟨merged, rfl⟩ | ⟨kept, rfl⟩⟩ := (merge.out n q).mp found
    · have listed := recorded _ ((merge.joined _).mpr ⟨n, lhs, rhs, held, other, merged, rfl⟩)
      exact .inr ⟨lhs, rhs, rfl, listed, by simp [held, other]⟩
    · obtain ⟨rfl, earlier⟩ := agree n q rhs held other kept
      exact .inl ⟨earlier, ‹_›⟩

theorem into_loop
    (recorded : ∀ r ∈ loopJoins site carried env bodyOut, r ∈ records)
    (keeps : Keeps names (loopHead site carried env) bodyOut) (covered : ∀ n ∈ names, n ∈ carried) :
    Into records site env env (loopHead site carried env) ∧ Into records site env bodyOut (loopHead site carried env) := by
  refine (Merge.loop site keeps).into recorded fun n lhs rhs found other outside => ⟨?_, found⟩
  rw [keeps.same n fun mem => outside (covered n mem), loopHead, OrdMap.get?_mapValues, found, map_some,
    if_neg outside] at other
  exact Option.some.inj other

theorem into_guarded (recorded : ∀ r ∈ guardedJoins site env bodyOut, r ∈ records) (keeps : Keeps names env bodyOut) :
    Into records site env env (env.mapValues (guardedPlace site bodyOut)) ∧ Into records site env bodyOut
      (env.mapValues (guardedPlace site bodyOut)) :=
  (Merge.guarded site keeps).into recorded fun _ _ _ found _ same => ⟨not_not.mp same, found⟩

theorem into_branch (recorded : ∀ r ∈ branchJoins site iftOut iffOut, r ∈ records)
    (common : ∀ n p, iftOut.get? n = some p → iffOut.get? n = some p → env.get? n = some p) :
    Into records site env iftOut (branchEnv site iftOut iffOut) ∧ Into records site env iffOut
      (branchEnv site iftOut iffOut) :=
  (Merge.branch site iftOut iffOut).into recorded fun n lhs _ left right same =>
    ⟨not_not.mp same, common n lhs left (not_not.mp same ▸ right)⟩

theorem into_each {body : Block} {inner : Notes}
    (recorded : ∀ r ∈ loopJoins site carried env bodyOut, r ∈ records)
    (all : carried = body.assigned ∪ OrdSet.ofList names)
    (inside : BlockWalk (bound ⟨.stmt, site⟩ names (loopHead site carried env)) body bodyOut inner) :
    Into records site env env (loopHead site carried env) ∧ Into records site env bodyOut (loopHead site carried env) := by
  refine into_loop recorded ((Keeps.bound ..).trans inside.keeps) fun n mem => ?_
  rw [all, mem_union, mem_ofList, mem_assigned]
  exact (mem_append.mp mem).symm

end Edges

end Flow

/-- What a statement writes, from the store before it; a `for` loop does so once for each of its values. -/
def Machine.Wrote (m : Machine V C) (c : C) (σ : Store V) (writes : List (Name × V)) : Stmt → Prop
  | .assign _ target _ value => m.assigned c σ target value = .ok writes
  | .store _ name path value => ∃ v, m.replaced c σ name path value = .ok v ∧ writes = [(name, v)]
  | .each _ target _ _ => ∃ v, m.writes target v = .ok writes
  | .scope _ name ctx _ => ∃ inner, m.entered c σ name ctx = .ok (inner, writes)
  | _ => False

def Machine.Plain (m : Machine V C) : Prop := ∀ n v vs, m.spread (.name n) v = some vs → vs = [v]

theorem Machine.Plain.writes_name (plain : m.Plain) (written : m.writes (.name n) v = .ok writes) :
    writes = [(n, v)] := by
  obtain ⟨vs, spread, result⟩ := bind_ok.mp written
  cases plain n v vs (demand_ok.mp spread)
  cases result
  rfl

theorem Machine.writes_of_entered {c inner : C} {σ : Store V} {ctx : Expr}
    (entered : m.entered c σ (some n) ctx = .ok (inner, writes)) : ∃ v, m.eval c σ ctx = .ok v ∧ writes = [(n, v)] := by
  unfold Machine.entered at entered
  split at entered
  · contradiction
  · cases entered
  · obtain ⟨v, computed, rest⟩ := bind_ok.mp entered
    obtain ⟨_, _, result⟩ := bind_ok.mp rest
    cases result
    exact ⟨v, computed, rfl⟩

namespace Flow

/-- The outline in which an assertion holds of the environment at every point. -/
def Notes.outline (notes : Notes) (A : Env → W → Prop) (fault : Fault → Prop) : Outline C W where
  seen
    | .stmt id, _, w => ∃ span, (id, span) ∈ notes.stmts ∧ A span.before w
    | .test loop body, _, w => ∃ span inner, (loop, span) ∈ notes.stmts ∧ (body, inner) ∈ notes.blocks ∧
      inner.before = span.after ∧ A span.after w
    | .draw loop, _, w => ∃ span, (loop, span) ∈ notes.stmts ∧ A span.after w
  after id _ w := ∃ span, (id, span) ∈ notes.stmts ∧ A span.after w
  start id _ w := ∃ span, (id, span) ∈ notes.blocks ∧ A span.before w
  finish id _ w := ∃ span, (id, span) ∈ notes.blocks ∧ A span.after w
  fault := fault

/-- An assertion about environments that a run upholds: names can be read, and it survives the edges of
control flow and the writes of every statement. -/
structure Upheld (m : Machine V C) (world : World V W X) (notes : Notes) (A : Env → W → Prop)
    (fault : Fault → Prop) (stmts : List Stmt) : Prop where
  stuck : fault .stuck
  reads : ∀ env w, A env w → Readable fault env (world.store w)
  edge : ∀ s ∈ stmts, ∀ span, (s.id, span) ∈ notes.stmts → ∀ env next w,
    Into notes.records s.id span.before env next → A env w → A next w
  write : ∀ s ∈ stmts, ∀ span, (s.id, span) ∈ notes.stmts →
    Into notes.records s.id span.before span.before (headEnv span.before s) →
    (∀ record ∈ made ⟨.stmt, s.id⟩ s.binds (headEnv span.before s), record ∈ notes.records) →
    ∀ c w writes, writes.map Prod.fst = s.binds → m.Wrote c (world.store w) writes s →
      A (headEnv span.before s) w →
      A (bound ⟨.stmt, s.id⟩ s.binds (headEnv span.before s)) (world.write ⟨.stmt, s.id⟩ writes w)

variable {Q : Name → Place → X → Prop} {records : List Record} {site : Site} {world : World V W X} {w : W}

variable {env : Env}

theorem StmtWalk.binding {s : Stmt} {sub notes : Notes} (walk : StmtWalk env s after sub) (within : sub.Within notes) :
    Into notes.records s.id env env (headEnv env s) ∧ ∀ record ∈ made ⟨.stmt, s.id⟩ s.binds (headEnv env s),
      record ∈ notes.records := by
  obtain ⟨_, _, arms, _, rfl⟩ := walk
  refine ⟨fun n q found => ?_, fun record fresh => within.records _ (by simp [fresh])⟩
  obtain ⟨_, listed, p, held, rfl | ⟨rfl, rhs, joined⟩⟩ := arms.meets.enters n q found
  all_goals cases mem_singleton.mp listed
  · exact .inl ⟨held, held⟩
  · exact .inr ⟨p, rhs, rfl, within.joins _ joined, .inl held⟩

def Satisfies (Q : Name → Place → X → Prop) (env : Env) (look : Name → X) : Prop :=
  ∀ n p, env.get? n = some p → Q n p (look n)

theorem Satisfies.into {site : NodeId} (here : Satisfies Q env look) (flows : Into records site before env next)
    (meets : ∀ n lhs rhs x, ⟨.join site n, .join n site lhs rhs⟩ ∈ records → Q n lhs x ∨ Q n rhs x → Q n (.join site n)
    x) : Satisfies Q next look := by
  intro n q found
  rcases flows n q found with ⟨_, same⟩ | ⟨lhs, rhs, rfl, recorded, entering⟩
  · exact here n q same
  · exact meets n lhs rhs _ recorded (entering.imp (here n lhs) (here n rhs))

theorem Satisfies.write (here : Satisfies Q env (world.look w))
    (fresh : ∀ i n v, writes[i]? = some (n, v) → Q n (.binder site.node (slot + i)) (world.fill ⟨v, site⟩)) :
    Satisfies Q (bindNames site slot (writes.map Prod.fst) env).1 (world.look (world.write site writes w)) := by
  induction writes generalizing slot env w with
  | nil => exact here
  | cons entry rest ih =>
    obtain ⟨name, v⟩ := entry
    refine ih ?_ ?_
    · intro n p found
      rw [OrdMap.get?_insert] at found
      rw [world.look_put]
      split
      · rename_i same
        subst same
        rw [if_pos rfl] at found
        cases found
        exact fresh 0 n v rfl
      · rename_i differ
        rw [if_neg differ] at found
        exact here n p found
    · intro i n v found
      rw [Nat.add_right_comm]
      exact fresh (i + 1) n v found

theorem mem_made (named : names[i]? = some n) :
    ∃ prev, ⟨.binder site.node (slot + i), .assign n site prev⟩ ∈ (bindNames site slot names env).2 := by
  induction names generalizing slot env i with
  | nil => simp at named
  | cons first rest ih =>
    cases i with
    | zero =>
      cases named
      exact ⟨_, mem_cons_self⟩
    | succ i =>
      obtain ⟨prev, mem⟩ : ∃ prev, ⟨.binder site.node (slot + 1 + i), .assign n site prev⟩ ∈
          (bindNames site (slot + 1) rest (env.insert first (.binder site.node slot))).2 := ih named
      rw [Nat.add_right_comm] at mem
      exact ⟨prev, mem_cons_of_mem _ mem⟩

theorem Satisfies.binder
    (here : Satisfies Q env (world.look w)) (named : writes.map Prod.fst = names)
    (recorded : ∀ record ∈ made site names env, record ∈ records)
    (fresh : ∀ i n v prev, (n, v) ∈ writes → ⟨.binder site.node i, .assign n site prev⟩ ∈ records →
      Q n (.binder site.node i) (world.fill ⟨v, site⟩)) :
    Satisfies Q (bound site names env) (world.look (world.write site writes w)) := by
  subst named
  refine here.write ?_
  intro i n v written
  obtain ⟨prev, mem⟩ : ∃ prev, ⟨.binder site.node (0 + i), .assign n site prev⟩ ∈
      made site (writes.map Prod.fst) env := mem_made (by simp [written])
  rw [Nat.zero_add] at mem ⊢
  exact fresh i n v prev (mem_of_getElem? written) (recorded _ mem)

section Validity

variable {notes : Notes}

theorem exists_span_iff {spans : List (NodeId × Span Place)} (distinct : (spans.map Prod.fst).Nodup) {id : NodeId}
    (noted : (id, span) ∈ spans) {P : Span Place → Prop} : (∃ span, (id, span) ∈ spans ∧ P span) ↔ P span := by
  refine ⟨?_, fun holds => ⟨span, noted, holds⟩⟩
  rintro ⟨other, found, holds⟩
  rwa [span_unique distinct found noted] at holds

section Assertions

variable (survey : Reaching.Survey f notes) {id : NodeId} {span inner : Span Place}

include survey

section

variable (noted : (id, span) ∈ notes.stmts)

include noted

theorem seen_stmt : (notes.outline A fault).seen (.stmt id) c w ↔ A span.before w :=
  exists_span_iff survey.stmts noted

theorem seen_draw : (notes.outline A fault).seen (.draw id) c w ↔ A span.after w :=
  exists_span_iff survey.stmts noted

theorem seen_test (opened : (body, inner) ∈ notes.blocks) (same : inner.before = span.after) :
    (notes.outline A fault).seen (.test id body) c w ↔ A span.after w := by
  refine ⟨?_, fun holds => ⟨span, inner, noted, opened, same, holds⟩⟩
  rintro ⟨other, _, found, _, _, holds⟩
  rwa [span_unique survey.stmts found noted] at holds

theorem outline_after : (notes.outline A fault).after id c w ↔ A span.after w :=
  exists_span_iff survey.stmts noted

end

theorem outline_start (opened : (id, span) ∈ notes.blocks) :
    (notes.outline A fault).start id c w ↔ A span.before w :=
  exists_span_iff survey.blocks opened

theorem outline_finish (opened : (id, span) ∈ notes.blocks) :
    (notes.outline A fault).finish id c w ↔ A span.after w :=
  exists_span_iff survey.blocks opened

end Assertions

theorem chain_of_walk (survey : Reaching.Survey f notes) :
    {stmts : List Stmt} → {env after : Env} → {sub : Notes} → StmtsWalk env stmts after sub → sub.Within notes → (∀ c w,
    pre c w → A env w) → (∀ c w, A after w → post c w) → (notes.outline A fault : Outline C W).Chain post pre stmts
  | _, _, _, _, .nil, _, start, finish => fun c w holds => finish c w (start c w holds)
  | _, _, _, _, .cons head tail, within, start, finish => by
    have noted := within.stmts _ (mem_append_left _ head.noted)
    refine ⟨fun c w holds => (seen_stmt survey noted).mpr (start c w holds), ?_⟩
    refine chain_of_walk survey tail ((Notes.Within.right _ _).trans within) ?_ finish
    exact fun c w holds => (outline_after survey noted).mp holds

theorem Upheld.step (survey : Reaching.Survey f notes) (upheld : Upheld m world notes A fault f.body.all)
    (s : Stmt) (mem : s ∈ f.body.all) : (notes.outline A fault).Step m world fact s := by
  obtain ⟨⟨before, after⟩, sub, noted, (walk : StmtWalk before s after sub), within, _⟩ := survey.spans.visits s mem
  have edge := upheld.edge s mem _ noted
  have leaving : ∀ {id span}, (id, span) ∈ notes.blocks → Into notes.records s.id before span.after after →
      ∀ (c : C) w, (notes.outline A fault).finish id c w → (notes.outline A fault).after s.id c w := by
    intro id span opened flows c w finished
    exact (outline_after survey noted).mpr (edge _ _ _ flows ((outline_finish survey opened).mp finished))
  obtain ⟨flows, recorded⟩ := walk.binding within
  have write := upheld.write s mem _ noted flows recorded
  have distinct := survey.nodup_ids mem
  have entering : ∀ {P : C → W → Prop}, (∀ c w, A before w → P c w) →
      ∀ c w, (notes.outline A fault).Reached world fact (.stmt s.id) c w → P c w :=
    fun each c w reached => each c w ((seen_stmt survey noted).mp reached.1)
  obtain ⟨held, reads, arms, rfl, rfl⟩ := walk
  have opens := fun b listed => within.blocks b ((Notes.Within.middle ..).blocks b listed)
  have evaluates : ∀ c w, A (evalEnv before s) w →
      ∀ e ∈ s.exprs, Settles fault (m.eval c (world.store w) e) fun _ => True :=
    fun c w holds => settles_walk upheld.stuck c (walk_of_exprs reads) (upheld.reads _ _ holds)
  cases s with
  | assign =>
    refine entering fun c w holds => ?_
    refine (settles_assigned upheld.stuck (evaluates c w holds _ mem_cons_self)).strengthen ?_
    intro writes computed names
    exact (outline_after survey noted).mpr (write c w writes names computed holds)
  | store =>
    refine entering fun c w holds => ?_
    obtain ⟨places, value⟩ := forall_mem_append.mp (evaluates c w holds)
    refine (settles_replaced upheld.stuck (value _ mem_cons_self) (upheld.reads _ _ holds) (held _ mem_cons_self)
      places).strengthen ?_
    intro v computed _
    exact (outline_after survey noted).mpr (write c w _ rfl ⟨v, computed, rfl⟩ holds)
  | when =>
    obtain _ | ⟨inside, _ | _⟩ := arms
    have opened := opens _ (mem_append_left _ inside.noted)
    obtain ⟨skip, through⟩ := into_guarded within.joins inside.keeps
    constructor
    · refine entering fun c w holds => ?_
      refine (settles_test upheld.stuck (evaluates c w holds _ mem_cons_self)).imp fun decided _ => ?_
      cases decided with
      | true => exact (outline_start survey opened).mpr holds
      | false => exact (outline_after survey noted).mpr (edge _ _ _ skip holds)
    · exact leaving opened through
  | branch =>
    obtain _ | ⟨left, _ | ⟨right, _ | _⟩⟩ := arms
    have first := opens _ (mem_append_left _ left.noted)
    have second := opens _ (mem_append_right _ (mem_append_left _ right.noted))
    have apart := (nodup_append.mp (nodup_cons.mp distinct).2).2.1
    obtain ⟨leftInto, rightInto⟩ := into_branch within.joins (left.common right apart)
    refine ⟨?_, ?_, ?_⟩
    · refine entering fun c w holds => ?_
      refine (settles_test upheld.stuck (evaluates c w holds _ mem_cons_self)).imp fun decided _ => ?_
      cases decided with
      | true => exact (outline_start survey first).mpr holds
      | false => exact (outline_start survey second).mpr holds
    · exact leaving first leftInto
    · exact leaving second rightInto
  | loop =>
    obtain _ | ⟨inside, _ | _⟩ := arms
    have opened := opens _ (mem_append_left _ inside.noted)
    obtain ⟨enter, back⟩ := into_loop within.joins inside.keeps fun n => mem_assigned.mpr
    refine ⟨?_, ?_, ?_⟩
    · refine entering fun c w holds => ?_
      exact (seen_test survey noted opened rfl).mpr (edge _ _ _ enter holds)
    · intro c w ⟨seen, _⟩
      have holds := (seen_test survey noted opened rfl).mp seen
      refine (settles_test upheld.stuck (evaluates c w holds _ mem_cons_self)).imp fun decided _ => ?_
      cases decided with
      | true => exact (outline_start survey opened).mpr holds
      | false => exact (outline_after survey noted).mpr holds
    · intro c w finished
      have holds := (outline_finish survey opened).mp finished
      exact (seen_test survey noted opened rfl).mpr (edge _ _ _ back holds)
  | each =>
    obtain _ | ⟨inside, _ | _⟩ := arms
    have opened := opens _ (mem_append_left _ inside.noted)
    obtain ⟨enter, back⟩ := into_each within.joins rfl inside
    refine ⟨?_, ?_, ?_⟩
    · refine entering fun c w holds => ?_
      refine (settles_drawn upheld.stuck (evaluates c w holds _ mem_cons_self)).strengthen ?_
      intro elements _ _
      refine ⟨(seen_draw survey noted).mpr (edge _ _ _ enter holds), ?_⟩
      intro v _ w ⟨drawn, _⟩
      have holds := (seen_draw survey noted).mp drawn
      refine (settles_writes upheld.stuck _ v).strengthen ?_
      intro writes computed names
      exact (outline_start survey opened).mpr (write c w writes names ⟨v, computed⟩ holds)
    · intro c w finished
      have holds := (outline_finish survey opened).mp finished
      exact (seen_draw survey noted).mpr (edge _ _ _ back holds)
    · intro c w drawn
      exact (outline_after survey noted).mpr ((seen_draw survey noted).mp drawn)
  | scope =>
    obtain _ | ⟨inside, _ | _⟩ := arms
    have opened := opens _ (mem_append_left _ inside.noted)
    refine entering fun c w holds => ?_
    refine (settles_entered upheld.stuck (evaluates c w holds _ mem_cons_self)).strengthen ?_
    rintro ⟨inner, writes⟩ computed names
    constructor
    · exact (outline_start survey opened).mpr (write c w writes names ⟨inner, computed⟩ holds)
    · intro w finished
      exact (outline_after survey noted).mpr ((outline_finish survey opened).mp finished)
  | assert =>
    refine entering fun c w holds => ?_
    exact (settles_test upheld.stuck (evaluates c w holds _ mem_cons_self)).imp fun _ _ =>
      (outline_after survey noted).mpr holds
  | effect =>
    refine entering fun c w holds => ?_
    exact (evaluates c w holds _ mem_cons_self).imp fun _ _ => (outline_after survey noted).mpr holds
  | ret => exact entering fun c w holds => evaluates c w holds _ mem_cons_self
  | skip => exact entering fun c w => (outline_after survey noted).mpr

theorem Upheld.valid (survey : Reaching.Survey f notes) (upheld : Upheld m world notes A fault f.body.all) :
    (notes.outline A fault).Valid m world fact f.body.all f.body.allBlocks := by
  refine ⟨f.body.closed, upheld.stuck, upheld.step survey, ?_⟩
  intro b mem
  obtain ⟨⟨before, after⟩, sub, opened, walk, ⟨within, _⟩⟩ := survey.spans.opens b mem
  cases walk with
  | block inside =>
    refine chain_of_walk survey inside ((Notes.Within.left _ _).trans within) ?_ ?_
    · exact fun c w holds => (outline_start survey opened).mp holds
    · exact fun c w holds => (outline_finish survey opened).mpr holds

theorem Upheld.covers {A : Env → Store V → Prop} (survey : Reaching.Survey f notes)
    (upheld : Upheld m .single notes A fault f.body.all) {σ : State V} (start : A (Reaching.entryOf f) σ.store) :
    (notes.outline A fault).Covers ((notes.outline A fault).finish f.body.id c) (m.execBlock f.body c σ) := by
  obtain ⟨exit, inner, walk, whole⟩ := survey.walk
  have opened : (f.body.id, ⟨Reaching.entryOf f, exit⟩) ∈ notes.blocks := by
    rw [whole]
    exact mem_append_right _ walk.noted
  refine Outline.covers_execBlock (upheld.valid survey) f.body f.body.mem_allBlocks c σ ?_ (fun _ _ => trivial)
  exact (outline_start survey opened).mpr start

end Validity

section Start

variable {Q : Name → Place → Option (Cell V) → Prop}

theorem Satisfies.insert {σ : Store V} (here : Satisfies Q env (World.single.look σ)) (fresh : Q name place (some cell))
    : Satisfies Q (env.insert name place) (World.single.look (σ.insert name cell)) := by
  intro n p found
  have looked : World.single.look (σ.insert name cell) n = if n = name then some cell else σ.get? n :=
    World.single.look_put name cell σ n
  rw [OrdMap.get?_insert] at found
  rw [looked]
  by_cases same : n = name
  · rw [if_pos same] at found ⊢
    cases found
    exact same ▸ fresh
  · rw [if_neg same] at found ⊢
    exact here n p found

theorem Satisfies.params {params : List Param} (here : Satisfies Q env (World.single.look σ))
    (bound : Machine.bindArgs params args σ = some τ)
    (given : ∀ p ∈ params, ∀ n, p.name = some n → ∀ v, Q n (.binder p.id 0) (some ⟨v, ⟨.param, p.id⟩⟩)) :
    Satisfies Q (Reaching.bindParams params env).1 (World.single.look τ) := by
  induction params generalizing args env σ with
  | nil =>
    cases args with
    | nil =>
      cases bound
      exact here
    | cons v rest => cases bound
  | cons p params ih =>
    cases args with
    | nil => cases bound
    | cons v rest =>
      cases named : p.name with
      | none => simp [Machine.bindArgs, named] at bound
      | some name =>
        simp only [Machine.bindArgs, named] at bound
        simp only [Reaching.bindParams, named, Option.toList_some]
        refine ih ?_ bound fun q mem => given q (mem_cons_of_mem _ mem)
        exact here.insert (given p mem_cons_self name named v)

theorem isSome_bindParams {params : List Param}
    (named : (env.get? n).isSome = true ∨ n ∈ params.filterMap (·.name)) :
    ((Reaching.bindParams params env).1.get? n).isSome = true := by
  induction params generalizing env with
  | nil => simpa [Reaching.bindParams] using named
  | cons p params ih =>
    refine ih ?_
    rcases named with present | listed
    · exact .inl (isSome_get?_bindNames present)
    · cases name : p.name with
      | none => exact .inr (by simpa [filterMap_cons, name] using listed)
      | some first =>
        simp only [filterMap_cons, name, mem_cons] at listed
        rcases listed with rfl | later
        · exact .inl (by simp [bindNames])
        · exact .inr later

/-- At the start of a function something is known of every name, if it is known of the values of parameters
and of those that free names come with. -/
theorem satisfies_start {f : Func} {free : Name → Option V} (started : Machine.start f free args = some σ)
    (params : ∀ p ∈ f.params, ∀ n, p.name = some n → ∀ v, Q n (.binder p.id 0) (some ⟨v, ⟨.param, p.id⟩⟩))
    (inputs : ∀ i n, (f.freeVars.toList.filter fun n => !(Reaching.bindParams f.params ∅).1.contains n)[i]? = some n → Q
    n (.binder f.id i) ((free n).map (⟨·, ⟨.free, f.id⟩⟩))) :
    Satisfies Q (Reaching.entryOf f) (World.single.look σ) := by
  have given : Satisfies Q (Reaching.bindParams f.params ∅).1 (World.single.look σ) := by
    refine Satisfies.params ?_ started params
    intro n p found
    simp at found
  intro n p found
  rcases bindNames_cases found with ⟨_, earlier⟩ | ⟨i, named, rfl⟩
  · exact given n p earlier
  · have listed := mem_filter.mp (mem_of_getElem? named)
    have absent : n ∉ f.params.filterMap (·.name) := by
      intro mem
      have present : ((Reaching.bindParams f.params ∅).1.get? n).isSome = true := isSome_bindParams (.inr mem)
      simp [OrdMap.contains, present] at listed
    have held : World.single.look σ n = (free n).map (⟨·, ⟨.free, f.id⟩⟩) := by
      have untouched := Machine.get?_bindArgs started absent
      rw [Machine.get?_bindFree, if_pos listed.1, OrdMap.get?_empty, Option.or_none] at untouched
      exact untouched
    rw [held, Nat.zero_add]
    exact inputs i n named

end Start

end Flow

namespace Reaching

open Flow

def envAt? (r : Reaching) : Point → Option (NameMap DefId)
  | .stmt id => r.before? id
  | .test _ body => r.blockStart? body
  | .draw loop => r.after? loop

theorem get?_numberEnv : (numberEnv records env).get? n = some d ↔ ∃ p, env.get? n = some p ∧ number records p = d := by
  rw [numberEnv, OrdMap.get?_mapValues, map_eq_some_iff]

theorem mem_bindParams {p : Param} (mem : p ∈ params) (named : p.name = some n) :
    ∃ prev, ⟨.binder p.id 0, .assign n ⟨.param, p.id⟩ prev⟩ ∈ (bindParams params env).2 := by
  induction params generalizing env with
  | nil => cases mem
  | cons first rest ih =>
    rcases mem_cons.mp mem with rfl | mem
    · exact ⟨env.get? n, mem_append_left _ (by simp [named, bindNames])⟩
    · obtain ⟨prev, recorded⟩ := ih mem
      exact ⟨prev, mem_append_right _ recorded⟩

theorem Survey.satisfies_start (survey : Survey f notes) {σ : Store V} (started : Machine.start f free args = some σ)
    (params : ∀ id n prev, ⟨.binder id 0, .assign n ⟨.param, id⟩ prev⟩ ∈ notes.records → ∀ v, Q n (.binder id 0) (some
    ⟨v, ⟨.param, id⟩⟩))
    (inputs : ∀ i n prev, ⟨.binder f.id i, .assign n ⟨.free, f.id⟩ prev⟩ ∈ notes.records → Q n (.binder f.id i) ((free
    n).map (⟨·, ⟨.free, f.id⟩⟩))) : Satisfies Q (entryOf f) (World.single.look σ) := by
  obtain ⟨exit, inner, _, rfl⟩ := survey.walk
  refine Flow.satisfies_start started ?_ ?_
  · intro p mem n named
    obtain ⟨prev, recorded⟩ := mem_bindParams mem named
    exact params p.id n prev (mem_append_left _ (mem_append_left _ recorded))
  · intro i n named
    obtain ⟨prev, recorded⟩ := mem_made named
    rw [Nat.zero_add] at recorded
    exact inputs i n prev (mem_append_left _ (mem_append_right _ recorded))

theorem Survey.recorded_assign (survey : Survey f notes) {node : Node}
    (mem : .assign node target ann value ∈ f.body.all) (named : target.names[i]? = some n) :
    ∃ prev, ⟨.binder node.id i, .assign n ⟨.stmt, node.id⟩ prev⟩ ∈ notes.records := by
  obtain ⟨span, sub, _, walk, part⟩ := survey.spans.visits _ mem
  obtain ⟨prev, fresh⟩ := mem_made named
  rw [Nat.zero_add] at fresh
  exact ⟨prev, (walk.binding part.within).2 _ fresh⟩

theorem located_of_seen (survey : Survey f notes) (entry exit : Env) (seen : (notes.outline A fault).seen p c w) :
    ∃ env, (ofNotes entry exit notes).envAt? p = some (numberEnv notes.records env) ∧ A env w := by
  cases p with
  | stmt id =>
    obtain ⟨span, noted, holds⟩ := seen
    exact ⟨span.before, by rw [envAt?, before?, survey.stmts? entry exit noted]; rfl, holds⟩
  | test loop body =>
    obtain ⟨span, inner, _, opened, same, holds⟩ := seen
    exact ⟨inner.before, by rw [envAt?, blockStart?, survey.blocks? entry exit opened]; rfl, same ▸ holds⟩
  | draw loop =>
    obtain ⟨span, noted, holds⟩ := seen
    exact ⟨span.after, by rw [envAt?, after?, survey.stmts? entry exit noted]; rfl, holds⟩

end Reaching

end NumLang
