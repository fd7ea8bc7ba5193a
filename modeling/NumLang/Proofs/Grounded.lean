import NumLang.Proofs.StaticContexts
import NumLang.Proofs.DeadCodeTotal
import NumLang.Proofs.TypeSafety

/-!
Static contexts are found for every well-formed function.
-/

namespace NumLang

namespace Flow

open Reaching

def Each (P : Name → Place → Prop) (env : Env) : Prop := ∀ n p, env.get? n = some p → P n p

/-- A definition and those that it refers to have a property. -/
def Record.Holds (P : Name → Place → Prop) (record : Record) : Prop :=
  ∀ p ∈ record.place :: record.definition.operands, P record.definition.name p

/-- A property of places that spreads through a program: a join has it if the first of the two definitions that meet
there has, a binder of a statement has it if all that is in force before the statement has, and other binders have it. -/
structure Spreads (P : Name → Place → Prop) (notes : Notes) (stmts : List Stmt) : Prop where
  join : ∀ {s : Stmt} {n lhs rhs}, s ∈ stmts → ⟨.join s.id n, .join n s.id lhs rhs⟩ ∈ notes.records → P n lhs →
    P n (.join s.id n)
  binder : ∀ {s : Stmt} {span : Span Place}, s ∈ stmts → (s.id, span) ∈ notes.stmts → Each P span.before →
    ∀ {slot n prev}, ⟨.binder s.id slot, .assign n ⟨.stmt, s.id⟩ prev⟩ ∈ notes.records → P n (.binder s.id slot)
  other : ∀ {site : Site} {slot n prev}, site.kind ≠ .stmt →
    ⟨.binder site.node slot, .assign n site prev⟩ ∈ notes.records → P n (.binder site.node slot)

/-- Everything that is noted has a property. -/
structure Notes.Covered (P : Name → Place → Prop) (notes : Notes) : Prop where
  records : ∀ record ∈ notes.records, record.Holds P
  stmts : ∀ entry ∈ notes.stmts, Each P entry.2.before ∧ Each P entry.2.after
  blocks : ∀ entry ∈ notes.blocks, Each P entry.2.before ∧ Each P entry.2.after

section Walk

variable {P : Name → Place → Prop} {notes : Notes} {stmts : List Stmt} {env : Env} {site : Site} {slot : Nat}
  {names : List Name} {s : Stmt}

theorem Each.bindNames (each : Each P env)
    (own : ∀ {slot' n prev}, ⟨.binder site.node slot', .assign n site prev⟩ ∈ (bindNames site slot names env).2 →
      P n (.binder site.node slot')) :
    Each P (bindNames site slot names env).1 ∧ ∀ record ∈ (bindNames site slot names env).2, record.Holds P := by
  induction names generalizing slot env with
  | nil => exact ⟨each, forall_mem_nil _⟩
  | cons n rest ih =>
    have fresh := own mem_cons_self
    have next : Each P (env.insert n (.binder site.node slot)) := by
      intro name p found
      rw [OrdMap.get?_insert] at found
      split at found
      · cases found
        exact ‹name = n› ▸ fresh
      · exact each name p found
    obtain ⟨out, later⟩ := ih next fun mem => own (mem_cons_of_mem _ mem)
    refine ⟨out, forall_mem_cons.mpr ⟨forall_mem_cons.mpr ⟨fresh, fun p mem => ?_⟩, later⟩⟩
    exact each n p (Option.mem_toList.mp mem)

theorem Notes.Covered.none : ({} : Notes).Covered P := ⟨forall_mem_nil _, forall_mem_nil _, forall_mem_nil _⟩

theorem Notes.Covered.append {a b : Notes} (left : a.Covered P) (right : b.Covered P) : (a ++ b).Covered P :=
  ⟨forall_mem_append.mpr ⟨left.records, right.records⟩, forall_mem_append.mpr ⟨left.stmts, right.stmts⟩,
    forall_mem_append.mpr ⟨left.blocks, right.blocks⟩⟩

theorem evalEnv_cases (env : Env) (s : Stmt) (outs : List Env) : evalEnv env s = env ∨ evalEnv env s = outEnv env s outs := by
  cases s with
  | loop => exact .inr rfl
  | _ => exact .inl rfl

variable (spreads : Spreads P notes stmts)

include spreads

theorem Spreads.from (mem : s ∈ stmts) {joins : List Record} {sources : List Env} (origin : From s.id joins sources env)
    (recorded : ∀ record ∈ joins, record ∈ notes.records) (each : ∀ source ∈ sources, Each P source) : Each P env := by
  intro n p found
  obtain ⟨source, listed, q, held, rfl | ⟨rfl, rhs, joined⟩⟩ := origin n p found
  · exact each source listed n p held
  · exact spreads.join mem (recorded _ joined) (each source listed n q held)

theorem Spreads.bind (differ : site.kind ≠ .stmt) (each : Each P env)
    (recorded : ∀ record ∈ (bindNames site slot names env).2, record ∈ notes.records) :
    Each P (bindNames site slot names env).1 ∧ ∀ record ∈ (bindNames site slot names env).2, record.Holds P :=
  each.bindNames fun fresh => spreads.other differ (recorded _ fresh)

theorem ExprsWalk.holds {es : List Expr} {records : List Record} (walk : ExprsWalk env es records) (each : Each P env)
    (recorded : ∀ record ∈ records, record ∈ notes.records) : ∀ record ∈ records, record.Holds P := by
  induction walk with
  | nil | var => exact forall_mem_nil _
  | append _ _ early late =>
    rw [forall_mem_append] at recorded ⊢
    exact ⟨early each recorded.1, late each recorded.2⟩
  | parts _ _ ih => exact ih each recorded
  | comprehension _ _ rows inner =>
    simp only [forall_mem_append] at recorded ⊢
    obtain ⟨inside, made⟩ := spreads.bind (by simp) each recorded.1.2
    exact ⟨⟨rows each recorded.1.1, made⟩, inner inside recorded.2⟩

omit spreads

mutual

theorem Spreads.row (spreads : Spreads P notes stmts) {env after : Env} {row : List Stmt} {sub : Notes} :
    StmtsWalk env row after sub → sub.Within notes → (∀ part ∈ Stmt.allOf row, part ∈ stmts) → Each P env →
    Each P after ∧ sub.Covered P
  | .nil, _, _, each => ⟨each, .none⟩
  | @StmtsWalk.cons env _ _ s _ own others walk@(@StmtWalk.stmt _ _ _ _ _ outs _ _ reads arms out whole) tail,
      within, among, each => by
    have first := (Notes.Within.left own others).trans within
    have noted := first.stmts _ walk.noted
    rw [Stmt.allOf, s.all_eq, cons_append, forall_mem_cons, forall_mem_append] at among
    have inner := spreads.arms arms
    have rest := spreads.row tail ((Notes.Within.right own others).trans within) among.2.2
    subst whole out
    have inside := (Notes.Within.middle ..).trans first
    have recorded := first.records
    simp only [Notes.records_around, Notes.records_append, forall_mem_append] at recorded
    have start := spreads.from among.1 arms.meets.enters recorded.2 (forall_mem_singleton.mpr each)
    obtain ⟨begun, made⟩ := start.bindNames fun fresh => spreads.binder among.1 noted each (recorded.1.1.2 _ fresh)
    obtain ⟨ends, covered⟩ := inner inside among.2.1 begun
    have sources := forall_mem_cons.mpr ⟨each, forall_mem_cons.mpr ⟨begun, ends⟩⟩
    have out := spreads.from among.1 arms.meets.leaves recorded.2 sources
    obtain ⟨last, later⟩ := rest out
    refine ⟨last, .append ⟨?_, ?_, ?_⟩ later⟩
    · simp only [Notes.records_around, Notes.records_append, forall_mem_append]
      refine ⟨⟨⟨?_, made⟩, covered.records⟩, fun record mem => ?_⟩
      · refine (walk_of_exprs reads).holds spreads ?_ recorded.1.1.1
        rcases evalEnv_cases env s outs with same | same <;> rw [same] <;> assumption
      · obtain ⟨n, lhs, rhs, ⟨source, listed, held⟩, ⟨source', listed', held'⟩, rfl⟩ := arms.meets.joined record mem
        have among' := forall_mem_cons.mpr ⟨each, ends⟩
        have left := among' source listed n lhs held
        exact forall_mem_cons.mpr ⟨spreads.join among.1 (recorded.2 _ mem) left,
          forall_mem_cons.mpr ⟨left, forall_mem_singleton.mpr (among' source' listed' n rhs held')⟩⟩
    · rw [Notes.stmts_around, forall_mem_append]
      refine ⟨fun entry mem => covered.stmts entry ?_, forall_mem_singleton.mpr ⟨each, out⟩⟩
      simpa using mem
    · intro entry mem
      exact covered.blocks entry (by simpa using mem)

theorem Spreads.arms (spreads : Spreads P notes stmts) {env : Env} {blocks : List Block} {outs : List Env} {sub : Notes} :
    ArmsWalk env blocks outs sub → sub.Within notes → (∀ part ∈ blocks.flatMap Block.all, part ∈ stmts) → Each P env →
    (∀ out ∈ outs, Each P out) ∧ sub.Covered P
  | .nil, _, _, _ => ⟨forall_mem_nil _, .none⟩
  | @ArmsWalk.cons _ _ _ b _ _ others (.block inside) tail, within, among, each => by
    rw [flatMap_cons, b.all_eq, forall_mem_append] at among
    have first := (Notes.Within.left _ others).trans within
    obtain ⟨out, covered⟩ := spreads.row inside ((Notes.Within.left _ _).trans first) among.1 each
    obtain ⟨ends, later⟩ := spreads.arms tail ((Notes.Within.right _ others).trans within) among.2 each
    exact ⟨forall_mem_cons.mpr ⟨out, ends⟩,
      .append (.append covered ⟨forall_mem_nil _, forall_mem_nil _, forall_mem_singleton.mpr ⟨each, out⟩⟩) later⟩

end

theorem Spreads.params (spreads : Spreads P notes stmts) {params : List Param} (each : Each P env)
    (recorded : ∀ record ∈ (bindParams params env).2, record ∈ notes.records) :
    Each P (bindParams params env).1 ∧ ∀ record ∈ (bindParams params env).2, record.Holds P := by
  induction params generalizing env with
  | nil => exact ⟨each, forall_mem_nil _⟩
  | cons first rest ih =>
    obtain ⟨own, others⟩ := forall_mem_append.mp recorded
    obtain ⟨next, made⟩ := spreads.bind (by simp) each own
    obtain ⟨out, later⟩ := ih next others
    exact ⟨out, forall_mem_append.mpr ⟨made, later⟩⟩

theorem Spreads.func {f : Func} (survey : Survey f notes) (spreads : Spreads P notes f.body.all) : notes.Covered P := by
  obtain ⟨exit, inner, walk, rfl⟩ := survey.walk
  have recorded : ∀ record ∈ inputsOf f, record ∈ ({ records := inputsOf f } ++ inner : Notes).records :=
    fun _ => mem_append_left _
  obtain ⟨params, free⟩ := forall_mem_append.mp recorded
  obtain ⟨given, first⟩ := spreads.params (fun _ _ found => by simp at found) params
  obtain ⟨start, second⟩ := spreads.bind (by simp) given free
  obtain ⟨_, covered⟩ := spreads.arms walk.single (.right _ _) (by simp) start
  exact .append ⟨forall_mem_append.mpr ⟨first, second⟩, forall_mem_nil _, forall_mem_nil _⟩ covered

end Walk

end Flow

namespace StaticView

open Flow Reaching

variable {f : Func} {u : Uses} {notes : Flow.Notes} (resolved : Uses.Resolved f u notes)

include resolved

/-- Following joins and copies from a definition comes to an end, as it does from all that is in force before. -/
theorem spreads_leads :
    Spreads (fun _ p => ∃ leaf, (ofFunc f u).Leads (number notes.records p) leaf) notes f.body.all where
  join {s n lhs rhs} _ recorded first := by
    have links := links_of_join resolved recorded
    obtain ⟨leaf, leads⟩ := first
    exact ⟨leaf, .link (links ▸ mem_cons_self) leads⟩
  binder {s span} mem noted each slot n prev recorded := by
    have links := links_of_binder resolved mem (resolved.def? recorded)
    cases copied : s.source?.bind (ofFunc f u).copied? with
    | none => exact ⟨_, .leaf (by rw [links, copied]; rfl)⟩
    | some d =>
      obtain ⟨e, given, copied'⟩ := bind_eq_some_iff.mp copied
      have before := (Stmt.source?_point given span).2
      obtain ⟨env, same, listed⟩ := listed_source resolved mem given noted
        (fun env _ => env = span.before) (w := ()) before
      cases e with
      | var node name =>
        obtain ⟨d', found, used⟩ := listed.var
        have located : u.defOfUse? node.id = some d' := by
          rw [Uses.defOfUse?, resolved.at?_eq used]
          rfl
        cases located.symm.trans copied'
        obtain ⟨p, held, rfl⟩ := get?_numberEnv.mp found
        obtain ⟨leaf, leads⟩ := each name p (same ▸ held)
        exact ⟨leaf, .link (by rw [links, copied]; exact mem_cons_self) leads⟩
      | _ => cases copied'
  other {site slot n prev} differ recorded := by
    refine ⟨_, .leaf ?_⟩
    rw [StaticView.links, StaticView.def?, resolved.def? recorded]
    obtain ⟨kind, node⟩ := site
    cases kind with
    | stmt => exact absurd rfl differ
    | _ => rfl

theorem exists_leads (d : DefId) : ∃ leaf, (ofFunc f u).Leads d leaf := by
  cases found : (ofFunc f u).def? d with
  | none =>
    refine ⟨d, .leaf ?_⟩
    rw [links, found]
  | some definition =>
    obtain ⟨exit, same⟩ := resolved.reach
    rw [StaticView.def?, same] at found
    obtain ⟨record, mem, rfl, _⟩ := resolved.survey.def?_cases found
    exact ((spreads_leads resolved).func resolved.survey).records record mem _ mem_cons_self

theorem exists_valueOfDef (bounded : d ≤ u.reach.size) : ∃ value, (ofFunc f u).valueOfDef d = .ok value := by
  obtain ⟨leaf, leads⟩ := exists_leads resolved d
  have mem := (mem_leaves (fun _ _ => links_bounded resolved) bounded).mpr leads
  unfold valueOfDef
  split
  · rename_i none
    rw [none] at mem
    cases mem
  · split <;> exact ⟨_, rfl⟩

theorem exists_valueOfExpr (e : Expr) : ∃ value, (ofFunc f u).valueOfExpr e = .ok value := by
  unfold valueOfExpr
  split
  · exact ⟨_, rfl⟩
  · exact ⟨_, rfl⟩
  · split
    · rename_i d used
      obtain ⟨use, found, rfl⟩ := map_eq_some_iff.mp used
      exact exists_valueOfDef resolved (resolved.bounded (Uses.mem_of_at? found).1)
    · exact ⟨_, rfl⟩
  · exact ⟨_, rfl⟩

theorem exists_noteExprs (tag : ContextTag) (es : List Expr) : ∃ notes, (ofFunc f u).noteExprs tag es = .ok notes := by
  induction es with
  | nil => exact ⟨_, rfl⟩
  | cons e rest ih =>
    obtain ⟨others, later⟩ := ih
    have first : ∃ own, (ofFunc f u).noteExpr tag e = .ok own := by
      obtain ⟨value, valued⟩ := exists_valueOfExpr resolved e
      unfold noteExpr
      split
      · exact ⟨_, rfl⟩
      · rw [valued]
        cases value <;> exact ⟨_, rfl⟩
      · rw [valued]
        cases value <;> exact ⟨_, rfl⟩
      · exact ⟨_, rfl⟩
    obtain ⟨own, here⟩ := first
    exact ⟨own ++ others, bind_ok.mpr ⟨own, here, bind_ok.mpr ⟨others, later, rfl⟩⟩⟩

theorem exists_noteOwn (tag : ContextTag) (s : Stmt) : ∃ notes, (ofFunc f u).noteOwn tag s = .ok notes := by
  obtain ⟨inner, noted⟩ := exists_noteExprs resolved tag (Expr.allOf s.exprs)
  exact ⟨_, bind_ok.mpr ⟨inner, noted, rfl⟩⟩

omit resolved

mutual

theorem exists_noteStmt (resolved : Uses.Resolved f u notes) (tag : ContextTag) : (s : Stmt) →
    ∃ notes, (ofFunc f u).noteStmt tag s = .ok notes
  | .when _ _ body | .loop _ _ body | .each _ _ _ body => by
    obtain ⟨own, here⟩ := exists_noteOwn resolved tag _
    obtain ⟨inner, inside⟩ := exists_noteBlock resolved tag body
    exact ⟨_, bind_ok.mpr ⟨own, here, bind_ok.mpr ⟨inner, inside, rfl⟩⟩⟩
  | .branch _ _ ift iff => by
    obtain ⟨own, here⟩ := exists_noteOwn resolved tag _
    obtain ⟨first, left⟩ := exists_noteBlock resolved tag ift
    obtain ⟨second, right⟩ := exists_noteBlock resolved tag iff
    exact ⟨_, bind_ok.mpr ⟨own, here, bind_ok.mpr ⟨first, left, bind_ok.mpr ⟨second, right, rfl⟩⟩⟩⟩
  | .scope _ _ ctx body => by
    obtain ⟨own, here⟩ := exists_noteOwn resolved tag _
    obtain ⟨value, valued⟩ := exists_valueOfExpr resolved ctx
    obtain ⟨inner, inside⟩ := exists_noteBlock resolved (.ofValue value) body
    exact ⟨_, bind_ok.mpr ⟨own, here, bind_ok.mpr ⟨value, valued, bind_ok.mpr ⟨inner, inside, rfl⟩⟩⟩⟩
  | .assign .. | .store .. | .assert .. | .effect .. | .ret .. | .skip .. => exists_noteOwn resolved tag _

theorem exists_noteBlock (resolved : Uses.Resolved f u notes) (tag : ContextTag) : (b : Block) →
    ∃ notes, (ofFunc f u).noteBlock tag b = .ok notes
  | ⟨_, stmts⟩ => exists_noteStmts resolved tag stmts

theorem exists_noteStmts (resolved : Uses.Resolved f u notes) (tag : ContextTag) : (stmts : List Stmt) →
    ∃ notes, (ofFunc f u).noteStmts tag stmts = .ok notes
  | [] => ⟨_, rfl⟩
  | s :: rest => by
    obtain ⟨first, here⟩ := exists_noteStmt resolved tag s
    obtain ⟨others, later⟩ := exists_noteStmts resolved tag rest
    exact ⟨_, bind_ok.mpr ⟨first, here, bind_ok.mpr ⟨others, later, rfl⟩⟩⟩

end

end StaticView

theorem exists_mapM {ε α β : Type} {g : α → Except ε β} {xs : List α} (each : ∀ a ∈ xs, ∃ b, g a = .ok b) :
    ∃ bs, xs.mapM g = .ok bs := by
  induction xs with
  | nil => exact ⟨[], rfl⟩
  | cons a rest ih =>
    obtain ⟨b, here⟩ := each a mem_cons_self
    obtain ⟨bs, later⟩ := ih fun a mem => each a (mem_cons_of_mem _ mem)
    rw [mapM_cons]
    exact ⟨b :: bs, bind_ok.mpr ⟨b, here, bind_ok.mpr ⟨bs, later, rfl⟩⟩⟩

theorem Contexts.exists_of_reaching {f : Func} {r : Reaching} (distinct : f.ids.Nodup)
    (analysed : Reaching.ofFunc f = .ok r) : ∃ contexts, Contexts.ofFunc f = .ok contexts := by
  obtain ⟨u, found⟩ := Uses.exists_of_reaching distinct analysed
  obtain ⟨notes, resolved⟩ := Uses.resolved_of_func distinct found
  obtain ⟨tagged, noted⟩ := StaticView.exists_noteBlock resolved (.ofFunc f) f.body
  have bounded : ∀ d ∈ List.range u.reach.size, d ≤ u.reach.size := fun d mem => (List.mem_range.mp mem).le
  obtain ⟨values, valued⟩ := exists_mapM fun d mem => StaticView.exists_valueOfDef resolved (bounded d mem)
  exact ⟨_, bind_ok.mpr ⟨u, found, bind_ok.mpr ⟨tagged, noted, bind_ok.mpr ⟨values, valued, rfl⟩⟩⟩⟩

end NumLang
