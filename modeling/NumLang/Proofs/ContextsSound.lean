import NumLang.Proofs.Resolution
import NumLang.Proofs.Rounded
import NumLang.Proofs.Saturation

/-!
How far static contexts can be relied on.
-/

open Relation (ReflTransGen)

namespace NumLang

variable {args : List Value} {c : Context} {d : DefId} {v : Value}

open Flow Reaching

variable {s : Stmt} {e : Expr} {σ : Store Value}

theorem Context.build?_eq_real {ctor : String} {args : List Arg} (built : build? ctor args = some .real) :
    ctor = "RealContext" ∧ args = [] := by
  unfold build? at built
  split at built
  · exact ⟨rfl, rfl⟩
  all_goals simp [bind, bind_eq_some_iff] at built

namespace StaticView

variable {view : StaticView}

/-- The value of a definition comes through joins and copies from one that takes over no other. -/
def Leads (view : StaticView) (d leaf : DefId) : Prop :=
  ReflTransGen (fun d e => e ∈ view.links d) d leaf ∧ view.links leaf = []

theorem Leads.leaf (alone : view.links d = []) : view.Leads d d := ⟨.refl, alone⟩

variable {leaf : DefId}

theorem Leads.link {e : DefId} (linked : e ∈ view.links d) (leads : view.Leads e leaf) : view.Leads d leaf :=
  ⟨.head linked leads.1, leads.2⟩

theorem mem_leaves (inside : ∀ d, ∀ e ∈ view.links d, e ≤ view.uses.reach.size) (bounded : d ≤ view.uses.reach.size) :
    leaf ∈ view.leaves d ↔ view.Leads d leaf := by
  rw [leaves, mem_filter, ← OrdSet.mem_def, mem_closure_iff inside bounded, List.isEmpty_iff, Leads]

theorem leafValue?_of_valueOfDef (valued : view.valueOfDef d = .ok (some k)) (mem : leaf ∈ view.leaves d) :
    view.leafValue? leaf = some k := by
  unfold valueOfDef at valued
  split at valued
  · split at valued <;> cases valued
  · rename_i first rest all
    split at valued
    · cases valued
    · rename_i c known
      have answer := Except.ok.inj valued
      split at answer
      · rename_i same
        cases answer
        rw [all] at mem
        rcases mem_cons.mp mem with rfl | later
        · exact known
        · simpa using all_eq_true.mp same leaf later
      · cases answer

def written? (view : StaticView) : Expr → Option Context
  | .lit _ (.host v) => v.asContext?
  | .context _ ctor args kwargs => view.built? ctor args kwargs
  | _ => none

def copied? (view : StaticView) : Expr → Option DefId
  | .var node _ => view.uses.defOfUse? node.id
  | _ => none

variable {round : Context → Rat → Rat}

theorem eval_of_written (written : view.written? e = some .real)
    (computed : (Machine.rounded round).eval c σ e = .ok v) : v = .context .real := by
  unfold written? at written
  split at written
  · rename_i h
    cases h with
    | context k =>
      cases written
      cases computed
      rfl
    | _ => cases written
  · rename_i ctor args kwargs
    unfold built? at written
    split at written
    · rename_i plain
      cases List.isEmpty_iff.mp plain
      obtain ⟨found, all, built⟩ := bind_eq_some_iff.mp written
      -- The constructor takes no arguments, so that nothing is computed under the context in force.
      obtain ⟨rfl, rfl⟩ := Context.build?_eq_real built
      cases args with
      | nil =>
        cases computed
        rfl
      | cons e rest => simp [mapM_cons, bind_eq_some_iff] at all
    · cases written
  · cases written

end StaticView

def Stmt.source? : Stmt → Option Expr
  | .assign _ (.name _) _ value => some value
  | .scope _ (some _) ctx _ => some ctx
  | _ => none

theorem Stmt.source?_mem (given : s.source? = some e) : e ∈ s.exprs := by
  unfold source? at given
  split at given <;> cases given <;> exact mem_cons_self

theorem Stmt.source?_point (given : s.source? = some e) (span : Span Place) :
    s.point = .stmt s.id ∧ headEnv span.before s = span.before := by
  unfold source? at given
  split at given
  · exact ⟨rfl, rfl⟩
  · exact ⟨rfl, rfl⟩
  · cases given

namespace StaticView

variable {C : Type} {m : Machine Value C} {trusted : Context → Prop}

theorem eval_of_wrote (plain : m.Plain) {c : C} (given : s.source? = some e) (wrote : m.Wrote c σ writes s)
    {entry : Name × Value} (mem : entry ∈ writes) : m.eval c σ e = .ok entry.2 := by
  unfold Stmt.source? at given
  split at given
  · cases given
    obtain ⟨v, computed, written⟩ := bind_ok.mp wrote
    cases plain.writes_name written
    cases mem_singleton.mp mem
    exact computed
  · cases given
    obtain ⟨inner, entered⟩ := wrote
    obtain ⟨v, computed, rfl⟩ := Machine.writes_of_entered entered
    cases mem_singleton.mp mem
    exact computed
  · cases given

abbrev ofFunc (f : Func) (u : Uses) : StaticView := ⟨f.env, u, f.body.all⟩

def Sourced (view : StaticView) (trusted : Context → Prop) (d : DefId) (v : Value) : Prop :=
  ∃ leaf, view.Leads d leaf ∧ ∀ k, trusted k → view.leafValue? leaf = some k → v = .context k

theorem Sourced.link {view : StaticView} {e : DefId} (sourced : view.Sourced trusted e v) (linked : e ∈ view.links d) :
    view.Sourced trusted d v := by
  obtain ⟨leaf, leads, known⟩ := sourced
  exact ⟨leaf, .link linked leads, known⟩

/-- What is known of the value of an expression. -/
structure Evaluates (view : StaticView) (trusted : Context → Prop) (v : Value) (e : Expr) : Prop where
  copied : ∀ d, view.copied? e = some d → d ≤ view.uses.reach.size ∧ view.Sourced trusted d v
  written : ∀ k, trusted k → view.written? e = some k → v = .context k

section Values

variable {f : Func} {u : Uses} {notes : Flow.Notes} (resolved : Uses.Resolved f u notes)

include resolved

variable {k : Context}

theorem find?_stmt (mem : s ∈ f.body.all) : f.body.all.find? (·.id = s.id) = some s := by
  cases found : f.body.all.find? (·.id = s.id) with
  | none =>
    have absent := List.find?_eq_none.mp found s mem
    simp at absent
  | some other =>
    have same : other.id = s.id := by simpa using find?_some found
    rw [resolved.survey.stmt_eq (mem_of_find?_eq_some found) mem same]

theorem sourceAt?_eq (mem : s ∈ f.body.all) : (ofFunc f u).sourceAt? s.id = s.source? := by
  unfold sourceAt?
  simp only [find?_stmt resolved mem]
  cases s with
  | assign node target ann value => cases target <;> rfl
  | scope node name ctx body => cases name <;> rfl
  | _ => rfl

theorem links_of_join (recorded : ⟨.join site n, .join n site lhs rhs⟩ ∈ notes.records) :
    (ofFunc f u).links (number notes.records (.join site n)) = [number notes.records lhs, number notes.records rhs] :=
    by
  rw [StaticView.links, StaticView.def?, resolved.def? recorded]
  rfl

theorem links_bounded {e : DefId} (linked : e ∈ (ofFunc f u).links d) : e ≤ u.reach.size := by
  unfold links at linked
  split at linked
  · rename_i found
    exact resolved.join_bounded found e linked
  · split at linked
    · obtain ⟨use, used, rfl⟩ := map_eq_some_iff.mp (Option.mem_toList.mp linked)
      exact resolved.bounded (Uses.mem_of_at? used).1
    · cases linked
  · cases linked

theorem Sourced.known (bounded : d ≤ u.reach.size) (sourced : (ofFunc f u).Sourced trusted d v) (trust : trusted k) (valued : (ofFunc f u).valueOfDef d = .ok (some k)) : v = .context k := by
  obtain ⟨leaf, leads, known⟩ := sourced
  have mem := (mem_leaves (fun _ _ => links_bounded resolved) bounded).mpr leads
  exact known k trust (leafValue?_of_valueOfDef valued mem)

theorem Evaluates.known (evaluates : (ofFunc f u).Evaluates trusted v e) (trust : trusted k)
    (valued : (ofFunc f u).valueOfExpr e = .ok (some k)) : v = .context k := by
  unfold valueOfExpr at valued
  split at valued
  · exact evaluates.written k trust (Except.ok.inj valued)
  · exact evaluates.written k trust (Except.ok.inj valued)
  · split at valued
    · rename_i d used
      obtain ⟨bounded, sourced⟩ := evaluates.copied d used
      exact sourced.known resolved bounded trust valued
    · cases valued
  · cases valued

section Binder

variable (mem : s ∈ f.body.all) {n : Name} {prev : Option DefId}
  (defined : (ofFunc f u).def? d = some (.assign n ⟨.stmt, s.id⟩ prev))

include mem defined

theorem links_of_binder : (ofFunc f u).links d = (s.source?.bind (ofFunc f u).copied?).toList := by
  rw [links, defined]
  simp only [sourceAt?_eq resolved mem]
  cases s.source? with
  | none => rfl
  | some e => cases e <;> rfl

theorem leafValue?_of_binder : (ofFunc f u).leafValue? d = s.source?.bind (ofFunc f u).written? := by
  rw [leafValue?, defined]
  simp only [sourceAt?_eq resolved mem]
  cases s.source? with
  | none => rfl
  | some e =>
    cases e with
    | lit node l => cases l <;> rfl
    | _ => rfl

theorem sourced_of_binder (valued : ∀ e, s.source? = some e → (ofFunc f u).Evaluates trusted v e) :
    (ofFunc f u).Sourced trusted d v := by
  have links := links_of_binder resolved mem defined
  have value := leafValue?_of_binder resolved mem defined
  -- Either the value is taken over from the variable that is copied, or the definition is an origin itself.
  cases copied : s.source?.bind (ofFunc f u).copied? with
  | some source =>
    obtain ⟨e, given, copied'⟩ := bind_eq_some_iff.mp copied
    rw [copied] at links
    exact ((valued e given).copied source copied').2.link (links ▸ mem_cons_self)
  | none =>
    rw [copied] at links
    refine ⟨d, .leaf links, fun k trust known => ?_⟩
    obtain ⟨e, given, written⟩ := bind_eq_some_iff.mp (value.symm.trans known)
    exact (valued e given).written k trust written

end Binder

/-- What names hold has come through the definitions in force. -/
def Traced (trusted : Context → Prop) (f : Func) (u : Uses) (notes : Flow.Notes) (env : Env)
    (σ : Store Value) : Prop :=
  Satisfies (fun _ p held => ∀ cell, held = some cell →
    (ofFunc f u).Sourced trusted (number notes.records p) cell.value) env (World.single.look σ)

theorem listed_source (mem : s ∈ f.body.all) (given : s.source? = some e) {span : Span Place}
    (noted : (s.id, span) ∈ notes.stmts) {W : Type} (A : Env → W → Prop) {w : W} (holds : A (headEnv span.before s) w) : ∃
    env, A env w ∧ Uses.Lists u.reach s.id (numberEnv notes.records env) u.uses e := by
  obtain ⟨point, before⟩ := Stmt.source?_point given span
  have seen : (notes.outline A fun _ => True).seen s.point () w := by
    rw [point]
    exact ⟨span, noted, before ▸ holds⟩
  obtain ⟨env, holds, reads⟩ := resolved.reads_of_seen mem seen
  exact ⟨env, holds, reads.exprs e (Stmt.source?_mem given)⟩

/-- Why a machine can be relied on for some contexts: there is something that its runs uphold and under which an
expression that writes down one of them has it as its value. -/
structure Grounds (m : Machine Value C) (trusted : Context → Prop) (f : Func) (u : Uses) (notes : Flow.Notes)
    (A : Env → Store Value → Prop) : Prop where
  plain : m.Plain
  upheld : Upheld m .single notes A (fun _ => True) f.body.all
  written : ∀ {stmt : NodeId} {env : Env} {σ : Store Value} {e : Expr} {c : C} {v : Value} {k : Context},
    Uses.Lists u.reach stmt (numberEnv notes.records env) u.uses e → A env σ → m.eval c σ e = .ok v →
      trusted k → (ofFunc f u).written? e = some k → v = .context k

variable {A : Env → Store Value → Prop} (grounds : Grounds m trusted f u notes A)

include grounds

theorem evaluates_of_eval {env : Env} {c : C} (listed : Uses.Lists u.reach stmt (numberEnv notes.records env) u.uses e)
    (holds : A env σ) (traced : Traced trusted f u notes env σ) (computed : m.eval c σ e = .ok v) :
    (ofFunc f u).Evaluates trusted v e := by
  refine ⟨?_, fun k trust written => grounds.written listed holds computed trust written⟩
  intro d copied
  cases e with
  | var node name =>
    obtain ⟨e, found, used⟩ := listed.var
    have located : u.defOfUse? node.id = some e := by
      rw [Uses.defOfUse?, resolved.at?_eq used]
      rfl
    cases located.symm.trans copied
    refine ⟨resolved.bounded used, ?_⟩
    obtain ⟨p, inForce, rfl⟩ := get?_numberEnv.mp found
    obtain ⟨cell, held, rfl⟩ := map_eq_some_iff.mp (Store.read_eq_ok_iff.mp computed)
    exact traced name p inForce cell held
  | _ => cases copied

theorem upheld_traced :
    Upheld m .single notes (fun env σ => A env σ ∧ Traced trusted f u notes env σ) (fun _ => True) f.body.all where
  stuck := trivial
  reads _ _ _ _ _ := .inr trivial
  edge s mem span noted env next σ flows holds := by
    refine ⟨grounds.upheld.edge s mem span noted env next σ flows holds.1, holds.2.into flows ?_⟩
    intro n lhs rhs x recorded entering cell held
    have links := links_of_join resolved recorded
    rcases entering with left | right
    · exact (left cell held).link (links ▸ mem_cons_self)
    · exact (right cell held).link (links ▸ mem_cons_of_mem _ mem_cons_self)
  write s mem span noted flows recorded c σ writes names wrote holds := by
    refine ⟨grounds.upheld.write s mem span noted flows recorded c σ writes names wrote holds.1, ?_⟩
    refine Satisfies.binder holds.2 names recorded ?_
    rintro i n v prev written made cell ⟨⟩
    refine sourced_of_binder resolved mem (resolved.def? made) ?_
    intro e given
    have computed := eval_of_wrote grounds.plain given wrote written
    obtain ⟨env, ⟨holds, traced⟩, listed⟩ := listed_source resolved mem given noted
      (fun env σ => A env σ ∧ Traced trusted f u notes env σ) holds
    exact evaluates_of_eval resolved grounds listed holds traced computed

omit grounds

theorem traced_start (captured : Rounded.Captured f free) (started : Machine.start f free args = some σ) :
    Traced trusted f u notes (entryOf f) σ := by
  refine resolved.survey.satisfies_start started ?_ ?_
  · rintro id n prev recorded v cell ⟨⟩
    refine ⟨_, .leaf ?_, ?_⟩
    · rw [links, def?, resolved.def? recorded]
      rfl
    · rw [leafValue?, def?, resolved.def? recorded]
      exact nofun
  · intro i n prev recorded cell held
    obtain ⟨v, given, rfl⟩ := map_eq_some_iff.mp held
    refine ⟨_, .leaf ?_, ?_⟩
    · rw [links, def?, resolved.def? recorded]
      rfl
    · rw [leafValue?, def?, resolved.def? recorded]
      intro k _ known
      obtain ⟨h, found, context⟩ := bind_eq_some_iff.mp known
      cases captured n v h given found
      cases h with
      | context k =>
        cases context
        rfl
      | _ => cases context

end Values

section Tags

variable {view : StaticView} {tag : ContextTag}

@[simp] theorem Notes.tags_append (a b : Notes) : (a ++ b).tags = a.tags ++ b.tags := rfl

def Inner (view : StaticView) (tag : ContextTag) : Stmt → ContextTag → Prop
  | .scope _ _ ctx _, inner => ∃ value, view.valueOfExpr ctx = .ok value ∧ inner = .ofValue value
  | _, inner => inner = tag

variable {notes : Notes}

theorem noteStmt_ok (noted : view.noteStmt tag s = .ok notes) :
    ∃ own inner parts, view.noteOwn tag s = .ok own ∧ view.Inner tag s inner ∧
    Forall₂ (fun b part => view.noteBlock inner b = .ok part) s.blocks parts ∧
    notes.tags = own.tags ++ parts.flatMap Notes.tags := by
  cases s with
  | when node test body | loop node test body | each node target iterable body =>
    simp only [noteStmt, bind_ok] at noted
    obtain ⟨own, first, part, inside, result⟩ := noted
    cases result
    exact ⟨own, tag, [part], first, rfl, .cons inside .nil, by simp⟩
  | branch node test ift iff =>
    simp only [noteStmt, bind_ok] at noted
    obtain ⟨own, first, left, inLeft, right, inRight, result⟩ := noted
    cases result
    exact ⟨own, tag, [left, right], first, rfl, .cons inLeft (.cons inRight .nil), by simp⟩
  | scope node name ctx body =>
    simp only [noteStmt, bind_ok] at noted
    obtain ⟨own, first, value, valued, part, inside, result⟩ := noted
    cases result
    exact ⟨own, _, [part], first, ⟨value, valued, rfl⟩, .cons inside .nil, by simp⟩
  | _ => exact ⟨notes, tag, [], noted, rfl, .nil, by simp⟩

theorem tags_noteExpr (noted : view.noteExpr tag e = .ok notes) :
    (notes.tags.map Prod.fst).Sublist [e.id] := by
  cases e with
  | comprehension node targets iterables elt =>
    cases noted
    exact .refl _
  | var node name | context node ctor args kwargs =>
    obtain ⟨value, _, noted⟩ := bind_ok.mp noted
    cases value <;> cases noted <;> exact List.nil_sublist _
  | _ =>
    cases noted
    exact List.nil_sublist _

theorem tags_noteExprs {es : List Expr} (noted : view.noteExprs tag es = .ok notes) :
    (notes.tags.map Prod.fst).Sublist (es.map Expr.id) := by
  induction es generalizing notes with
  | nil =>
    cases noted
    exact .slnil
  | cons e rest ih =>
    simp only [noteExprs, bind_ok] at noted
    obtain ⟨own, first, others, later, result⟩ := noted
    cases result
    rw [Notes.tags_append, map_append]
    exact (tags_noteExpr first).append (ih later)

theorem tags_noteOwn (noted : view.noteOwn tag s = .ok notes) :
    (s.id, tag) ∈ notes.tags ∧ (notes.tags.map Prod.fst).Sublist (s.id :: Expr.idsAll s.exprs) := by
  obtain ⟨others, later, result⟩ := bind_ok.mp noted
  cases result
  refine ⟨mem_cons_self, .cons_cons s.id ?_⟩
  rw [← Expr.map_id_allOf]
  exact tags_noteExprs later

theorem tags_parts {inner : ContextTag} {blocks : List Block} {parts : List Notes}
    (noted : Forall₂ (fun b part => view.noteBlock inner b = .ok part) blocks parts)
    (each : ∀ b ∈ blocks, ∀ part, view.noteBlock inner b = .ok part → (part.tags.map Prod.fst).Sublist b.ids) :
    ((parts.flatMap Notes.tags).map Prod.fst).Sublist (blocks.flatMap Block.ids) := by
  induction noted with
  | nil => exact .slnil
  | cons first _ ih =>
    simp only [flatMap_cons, map_append]
    exact (each _ mem_cons_self _ first).append (ih fun b mem => each b (mem_cons_of_mem _ mem))

mutual

theorem tags_noteStmt (s : Stmt) {tag : ContextTag} {notes : Notes}
    (noted : view.noteStmt tag s = .ok notes) : (notes.tags.map Prod.fst).Sublist s.ids := by
  obtain ⟨own, inner, parts, first, _, inside, all⟩ := noteStmt_ok noted
  rw [all, map_append, s.ids_eq, ← cons_append]
  refine (tags_noteOwn first).2.append (tags_parts inside ?_)
  cases s with
  | when node test body | loop node test body | each node target iterable body | scope node name ctx body =>
    simp only [Stmt.blocks, forall_mem_singleton]
    exact fun part noted => tags_noteBlock body noted
  | branch node test ift iff =>
    simp only [Stmt.blocks, forall_mem_cons]
    refine ⟨fun part noted => tags_noteBlock ift noted, fun part noted => tags_noteBlock iff noted, ?_⟩
    exact nofun
  | _ => exact nofun

theorem tags_noteBlock (b : Block) {tag : ContextTag} {notes : Notes}
    (noted : view.noteBlock tag b = .ok notes) : (notes.tags.map Prod.fst).Sublist b.ids := by
  obtain ⟨id, stmts⟩ := b
  exact (tags_noteStmts stmts noted).cons id

theorem tags_noteStmts (stmts : List Stmt) {tag : ContextTag} {notes : Notes}
    (noted : view.noteStmts tag stmts = .ok notes) : (notes.tags.map Prod.fst).Sublist (Stmt.idsAll stmts) := by
  cases stmts with
  | nil =>
    cases noted
    exact .slnil
  | cons s rest =>
    simp only [noteStmts, bind_ok] at noted
    obtain ⟨own, first, others, later, result⟩ := noted
    cases result
    rw [Notes.tags_append, map_append]
    exact (tags_noteStmt s first).append (tags_noteStmts rest later)

end

end Tags

end StaticView

def Point.owner : Point → NodeId
  | .stmt id => id
  | .test loop _ => loop
  | .draw loop => loop

theorem Stmt.owner_point (s : Stmt) : s.point.owner = s.id := by
  cases s <;> rfl

namespace StaticView

/-- The outline that says of a run that it comes by every statement under a context that the tag of the
statement is right about. -/
def outline (right : ContextTag → C → Prop) (tags : NodeMap ContextTag) : Outline C (Store Value) where
  seen p c _ := ∃ tag, tags.get? p.owner = some tag ∧ right tag c
  after _ _ _ := True
  start _ _ _ := True
  finish _ _ _ := True
  fault _ := True

theorem right_of_listed {right : ContextTag → C → Prop} {view : StaticView} {tags : NodeMap ContextTag} {own : Notes}
    (noted : view.noteStmt tag s = .ok own) (listed : ∀ entry ∈ own.tags, tags.get? entry.1 = some entry.2) {c : C}
    (holds : right tag c) : ∃ tag, tags.get? s.id = some tag ∧ right tag c := by
  obtain ⟨first, _, _, owned, _, _, all⟩ := noteStmt_ok noted
  exact ⟨tag, listed (s.id, tag) (all ▸ mem_append_left _ (tags_noteOwn owned).1), holds⟩

section Runs

open Outline

variable {right : ContextTag → C → Prop} {f : Func} {u : Uses} {tags : NodeMap ContextTag}
  {Known : Moment Value C → Prop}

/-- Where something is known of every moment of a run, the tag inside a `with` statement is right about the
context that is entered. -/
def Enters (m : Machine Value C) (right : ContextTag → C → Prop) (f : Func) (view : StaticView)
    (Known : Moment Value C → Prop) : Prop :=
  ∀ {node : Node} {name : Option Name} {ctx : Expr} {body : Block} {tag inner : ContextTag} {c entered : C}
    {σ : Store Value} {writes : List (Name × Value)}, .scope node name ctx body ∈ f.body.all →
    view.Inner tag (.scope node name ctx body) inner → Known ⟨.stmt node.id, c, σ⟩ →
    m.entered c σ name ctx = .ok (entered, writes) → right inner entered

mutual

/-- An execution of a statement comes by statements under contexts that their tags are right about. -/
theorem covers_stmt (enters : Enters m right f (ofFunc f u) Known) (s : Stmt) {tag : ContextTag} {own : Notes}
    (noted : (ofFunc f u).noteStmt tag s = .ok own) (listed : ∀ entry ∈ own.tags, tags.get? entry.1 = some entry.2)
    (within : ∀ other ∈ s.all, other ∈ f.body.all) {c : C} (sound : right tag c) (σ : State Value)
    (here : Known ⟨.stmt s.id, c, σ.store⟩) (facts : (m.exec s c σ).Sees Known) : (outline right tags).Covers
    (fun _ => True) (m.exec s c σ) := by
  have seen := right_of_listed noted listed sound
  obtain ⟨first, inner, parts, _, inside, blocks, all⟩ := noteStmt_ok noted
  have listed : ∀ part ∈ parts, ∀ entry ∈ part.tags, tags.get? entry.1 = some entry.2 := by
    intro part mem entry found
    exact listed entry (all ▸ mem_append_right _ (mem_flatMap.mpr ⟨part, mem, found⟩))
  have deeper : ∀ b ∈ s.blocks, ∀ other ∈ b.all, other ∈ f.body.all := fun b mem other inside =>
    within other (s.all_eq ▸ mem_cons_of_mem _ (mem_flatMap.mpr ⟨b, mem, inside⟩))
  cases s with
  | when node test body =>
    cases inside
    obtain _ | ⟨noted, _⟩ := blocks
    refine covers_attempt (settles_of_ok fun _ _ => trivial) facts fun holds _ later => ?_
    cases holds with
    | true => exact covers_block enters body noted (listed _ mem_cons_self) (deeper _ mem_cons_self) sound σ later
    | false => exact covers_done trivial
  | branch node test ift iff =>
    cases inside
    obtain _ | ⟨left, _ | ⟨right, _⟩⟩ := blocks
    refine covers_attempt (settles_of_ok fun _ _ => trivial) facts fun holds _ later => ?_
    cases holds with
    | true => exact covers_block enters ift left (listed _ mem_cons_self) (deeper _ mem_cons_self) sound σ later
    | false =>
      exact covers_block enters iff right (listed _ (mem_cons_of_mem _ mem_cons_self))
        (deeper _ (mem_cons_of_mem _ mem_cons_self)) sound σ later
  | loop node test body =>
    cases inside
    obtain _ | ⟨noted, _⟩ := blocks
    refine covers_repeatWhile (fun _ => True) trivial trivial facts (fun _ _ => seen) ?_
    intro τ _ _
    refine settles_of_ok fun holds _ => ?_
    cases holds with
    | true =>
      intro fuel later
      exact covers_block enters body noted (listed _ mem_cons_self) (deeper _ mem_cons_self) sound ⟨τ.store, fuel⟩ later
    | false => trivial
  | each node target iterable body =>
    cases inside
    obtain _ | ⟨noted, _⟩ := blocks
    refine covers_attempt (settles_of_ok fun _ _ => trivial) facts fun elements _ later => ?_
    refine covers_forEach (fun _ => True) trivial later ?_
    intro v _ τ _ rest
    refine covers_after seen rest fun _ rest => ?_
    refine covers_attempt (settles_of_ok fun _ _ => trivial) rest fun writes _ rest => ?_
    exact covers_block enters body noted (listed _ mem_cons_self) (deeper _ mem_cons_self) sound
      (τ.write ⟨.stmt, node.id⟩ writes) rest
  | scope node name ctx body =>
    obtain _ | ⟨noted, _⟩ := blocks
    refine covers_attempt (settles_of_ok fun _ => id) facts fun (entered, writes) computed later => ?_
    have sound := enters (within _ mem_cons_self) inside here computed
    exact covers_block enters body noted (listed _ mem_cons_self) (deeper _ mem_cons_self) sound
      (σ.write ⟨.stmt, node.id⟩ writes) later
  | assert node test msg =>
    refine covers_attempt (settles_of_ok fun _ _ => trivial) facts fun holds _ _ => ?_
    cases holds with
    | true => exact covers_done trivial
    | false => exact covers_failed trivial
  | ret node value => exact covers_attempt (settles_of_ok fun _ _ => trivial) facts fun _ _ _ => ⟨nofun, trivial⟩
  | skip node => exact covers_done trivial
  | _ => exact covers_attempt (settles_of_ok fun _ _ => trivial) facts fun _ _ _ => covers_done trivial

theorem covers_block (enters : Enters m right f (ofFunc f u) Known) (b : Block) {tag : ContextTag} {own : Notes}
    (noted : (ofFunc f u).noteBlock tag b = .ok own) (listed : ∀ entry ∈ own.tags, tags.get? entry.1 = some entry.2)
    (within : ∀ other ∈ b.all, other ∈ f.body.all) {c : C} (sound : right tag c) (σ : State Value)
    (facts : (m.execBlock b c σ).Sees Known) : (outline right tags).Covers (fun _ => True) (m.execBlock b c σ) := by
  obtain ⟨id, stmts⟩ := b
  exact covers_stmts enters stmts noted listed within sound σ facts

theorem covers_stmts (enters : Enters m right f (ofFunc f u) Known) (stmts : List Stmt) {own : Notes}
    (noted : (ofFunc f u).noteStmts tag stmts = .ok own) (listed : ∀ entry ∈ own.tags, tags.get? entry.1 = some entry.2)
    (within : ∀ other ∈ Stmt.allOf stmts, other ∈ f.body.all) {c : C} (sound : right tag c) (σ : State Value)
    (facts : (m.execStmts stmts c σ).Sees Known) :
    (outline right tags).Covers (fun _ => True) (m.execStmts stmts c σ) := by
  cases stmts with
  | nil => exact covers_done trivial
  | cons s rest =>
    simp only [noteStmts, bind_ok] at noted
    obtain ⟨head, first, tail, later, result⟩ := noted
    cases result
    have own : ∀ entry ∈ head.tags, tags.get? entry.1 = some entry.2 :=
      fun entry mem => listed entry (mem_append_left _ mem)
    have here := right_of_listed first own sound
    refine covers_andThen facts (fun seen => (?_ : (outline right tags).Covers (fun _ => True) _))
      fun τ _ remaining => ?_
    · refine covers_after here seen fun known inside => ?_
      refine covers_stmt enters s first own (fun other mem => ?_) sound σ known inside
      exact within other (mem_append_left _ mem)
    · refine covers_stmts enters rest later (fun entry mem => ?_) (fun other mem => ?_) sound τ remaining
      · exact listed entry (mem_append_right _ mem)
      · exact within other (mem_append_right _ mem)

end

theorem seen_of_run {contexts : Contexts} (found : Contexts.ofUses f u = .ok contexts) (distinct : f.body.ids.Nodup)
    (enters : Enters m right f (ofFunc f u) Known) {c : C} (sound : right (.ofFunc f) c) {σ : State Value}
    (facts : (m.execBlock f.body c σ).Sees Known) : (m.execBlock f.body c σ).Sees fun moment => ∃ tag, contexts.ofStmt?
    moment.point.owner = some tag ∧ right tag moment.context := by
  obtain ⟨own, noted, found⟩ := bind_ok.mp found
  obtain ⟨values, _, result⟩ := bind_ok.mp found
  cases result
  have once := (tags_noteBlock f.body noted).nodup distinct
  refine (covers_block enters f.body noted ?_ (fun _ => id) sound σ facts).seen
  exact fun entry mem => (OrdMap.get?_ofList_iff once).mpr mem

end Runs

end StaticView

def ContextTag.Sound (tag : ContextTag) (c : Context) : Prop := tag = .known .real → c = .real

namespace StaticView

variable {round : Context → Rat → Rat} {f : Func} {u : Uses} {notes : Flow.Notes}

theorem grounds_rounded (round : Context → Rat → Rat) :
    Grounds (Machine.rounded round) (· = .real) f u notes fun _ _ => True where
  plain := by
    rintro n v vs ⟨⟩
    rfl
  upheld := {
    stuck := trivial
    reads _ _ _ _ _ := .inr trivial
    edge _ _ _ _ _ _ _ _ _ := trivial
    write _ _ _ _ _ _ _ _ _ _ _ _ := trivial }
  written _ _ computed trust written := by
    subst trust
    exact eval_of_written written computed

theorem enters_rounded (resolved : Uses.Resolved f u notes) : Enters (Machine.rounded round) ContextTag.Sound f
    (ofFunc f u) fun moment =>
    (notes.outline (fun env σ => True ∧ Traced (· = .real) f u notes env σ) fun _ => True).seen moment.point
    moment.context moment.store := by
  intro node name ctx body tag inner c entered σ writes mem inside known computed
  obtain ⟨value, valued, rfl⟩ := inside
  obtain ⟨v, evaluated, rest⟩ := bind_ok.mp computed
  obtain ⟨k, context, result⟩ := bind_ok.mp rest
  cases result
  intro exact
  cases value with
  | none => cases exact
  | some k' =>
    cases exact
    obtain ⟨env, ⟨holds, traced⟩, reads⟩ := resolved.reads_of_seen mem known
    have evaluates := evaluates_of_eval resolved (grounds_rounded round) (reads.exprs ctx mem_cons_self)
      holds traced evaluated
    cases evaluates.known resolved rfl valued
    cases context
    rfl

end StaticView

namespace Contexts

theorem sound_of_run {f : Func} {contexts : Contexts} (distinct : f.ids.Nodup)
    (found : Contexts.ofFunc f = .ok contexts) (captured : Rounded.Captured f free)
    (started : Machine.start f free args = some σ) (sound : (ContextTag.ofFunc f).Sound c) (round : Context → Rat → Rat)
    (fuel : Nat) :
    ((Machine.rounded round).execBlock f.body c ⟨σ, fuel⟩).Sees fun moment => ((contexts.ofStmt?
    moment.point.owner).getD .unknown).Sound moment.context := by
  obtain ⟨u, used, found⟩ := bind_ok.mp found
  obtain ⟨notes, resolved⟩ := Uses.resolved_of_func distinct used
  have known := (StaticView.upheld_traced resolved (StaticView.grounds_rounded round)).covers resolved.survey
    ⟨trivial, StaticView.traced_start resolved captured started⟩ (c := c) (σ := ⟨σ, fuel⟩)
  have seen := StaticView.seen_of_run found resolved.survey.nodup_body (StaticView.enters_rounded resolved)
    sound known.seen
  intro moment mem
  obtain ⟨tag, tagged, right⟩ := seen moment mem
  rw [tagged]
  exact right

end Contexts

end NumLang
