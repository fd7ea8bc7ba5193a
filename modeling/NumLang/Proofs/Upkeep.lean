import NumLang.Proofs.Standing

/-!
Rewriting that keeps programs well formed. An edit leads to what it gives from any state with some supply of names, and
does not fail.
-/

namespace NumLang

variable {names more : NameSupply} {old : Name → Prop}

/-! ### Where edits lead -/

namespace Edit

variable {α β : Type}

def Total (x : Edit α) : Prop := ∀ s, ∃ a s', Makes x s a s'

variable {k : α → Edit β}

theorem total_pure (a : α) : Total (pure a : Edit α) := fun s => ⟨a, s, rfl⟩

theorem Total.bind (first : Total x) (rest : ∀ a, Total (k a)) : Total (x >>= k) := by
  intro s
  obtain ⟨a, t, head⟩ := first s
  obtain ⟨b, s', tail⟩ := rest a t
  exact ⟨b, s', makes_bind.mpr ⟨a, t, head, tail⟩⟩

theorem total_note (kind : EventKind) (site : Option NodeId) (message : String) : Total (note kind site message) :=
  fun _ => ⟨(), _, rfl⟩

theorem total_skip : Total skip := fun _ => ⟨_, _, rfl⟩

theorem total_forIn {l : List α} (each : ∀ a r, Total (body a r)) : ∀ r, Total (forIn l r body) := by
  induction l with
  | nil => exact fun r => total_pure r
  | cons a rest ih =>
    intro r
    rw [List.forIn_cons]
    refine (each a r).bind fun step => ?_
    cases step with
    | done r => exact total_pure r
    | yield r => exact ih r

theorem perform_of_makes {pass : String} {edit : Func → Edit Func} {f g : Func} {session : Session} {s' : State}
    (made : Makes (edit f) { session := session, names := .ofFunc f } g s') (checked : g.check = .ok ()) :
    ∃ events after, (perform pass edit f).run session = (.ok (g, events), after) := by
  have ran : (edit f).run.run { session := session, names := .ofFunc f } = (.ok g, s') := made
  have verified : g.verify pass = .ok () := by
    rw [Func.verify, checked]
  have ends : perform pass edit f session = finish pass g s'.changes s'.session := by rw [perform, ran]
  rw [finish, verified] at ends
  exact ⟨_, _, ends⟩

def Leads (names : NameSupply) (x : Edit α) (post : α → NameSupply → Prop) : Prop :=
  ∀ s : State, s.names = names → ∃ a t, Makes x s a t ∧ post a t.names

variable {post : α → NameSupply → Prop} {x : Edit α}

theorem leads_pure (here : post a names) : Leads names (pure a) post :=
  fun s same => ⟨a, s, rfl, same ▸ here⟩

theorem leads_bind {post : β → NameSupply → Prop}
    (first : Leads names x fun a more => Leads more (k a) post) : Leads names (x >>= k) post := by
  intro s same
  obtain ⟨a, t, made, rest⟩ := first s same
  obtain ⟨b, u, others, here⟩ := rest t rfl
  exact ⟨b, u, makes_bind.mpr ⟨a, t, made, others⟩, here⟩

theorem Leads.imp (leads : Leads names x post) (stronger : ∀ a more, post a more → better a more) :
    Leads names x better := by
  intro s same
  obtain ⟨a, t, made, here⟩ := leads s same
  exact ⟨a, t, made, stronger a t.names here⟩

theorem Total.leads (total : Total x) (here : ∀ s a t, s.names = names → Makes x s a t → post a t.names) :
    Leads names x post := by
  intro s same
  obtain ⟨a, t, made⟩ := total s
  exact ⟨a, t, made, here s a t same made⟩

theorem total_supplied (make : Supply α) : Total (supplied make) := fun _ => ⟨_, _, rfl⟩

theorem total_freshName (base : String) : Total (freshName base) := fun _ => ⟨_, _, rfl⟩

section Parts

theorem leads_node {post : Node → NameSupply → Prop} (here : ∀ node, post node names) :
    Leads names (node loc) post := by
  have total : Total (node loc) := (total_supplied _).bind fun _ => total_pure _
  refine total.leads fun s a t same made => ?_
  rw [(makes_node made).2, same]
  exact here a

theorem leads_var {post : Expr → NameSupply → Prop} (here : ∀ node, post (.var node n) names) :
    Leads names (var n) post :=
  leads_bind (leads_node fun node => leads_pure (here node))

theorem leads_lit {post : Expr → NameSupply → Prop} (here : ∀ node, post (.lit node value) names) :
    Leads names (lit value) post :=
  leads_bind (leads_node fun node => leads_pure (here node))

theorem leads_assign {post : Stmt → NameSupply → Prop} (here : ∀ node, post (.assign node target none value) names) :
    Leads names (assign target value) post :=
  leads_bind (leads_node fun node => leads_pure (here node))

theorem leads_skip {post : Stmt → NameSupply → Prop} (here : ∀ node, post (.skip node) names) : Leads names skip post :=
  leads_bind (leads_node fun node => leads_pure (here node))

theorem leads_supplied (here : ∀ next, post (make next).1 names) : Leads names (supplied make) post := by
  refine (total_supplied make).leads fun s a t same made => ?_
  obtain ⟨rfl, still⟩ := makes_supplied made
  rw [still, same]
  exact here _

theorem leads_block {post : Block → NameSupply → Prop} (here : ∀ id, post ⟨id, stmts⟩ names) :
    Leads names (block stmts) post :=
  leads_bind (leads_supplied fun _ => leads_pure (here _))

theorem leads_note {post : Unit → NameSupply → Prop} (here : post () names) :
    Leads names (note kind site message) post := by
  refine (total_note kind site message).leads fun s a t same made => ?_
  rw [nameless_note _ _ _ _ _ _ made, same]
  exact here

theorem leads_lift {x : Except Error α} (ok : x = .ok a) (here : post a names) : Leads names (liftM x) post :=
  fun s same => ⟨a, s, makes_lift.mpr ⟨ok, rfl⟩, same ▸ here⟩

theorem leads_freshName {post : Name → NameSupply → Prop}
    (here : ∀ n more, n.base = base → n ∉ names.used → (∀ x, x ∈ more.used ↔ x = n ∨ x ∈ names.used) → post n more) :
    Leads names (freshName base) post := by
  rintro s rfl
  exact ⟨_, _, rfl, here _ _ rfl (s.names.fresh_notMem base) fun _ => OrdSet.mem_insert⟩

end Parts

def Retains (names more : NameSupply) : Prop := ∀ n ∈ names.used, n ∈ more.used

theorem Retains.refl (names : NameSupply) : Retains names names := fun _ => id

theorem Retains.trans (first : Retains names more) (second : Retains more most) :
    Retains names most := fun n here => second n (first n here)

end Edit

def NameSupply.state (names : NameSupply) : Edit.State := { session := {}, names := names }

def NameMap.Spelled (table : NameMap Name) : Prop := ∀ n x, table.get? n = some x → x.base = n.base

variable {good : Stmt → Prop} {r : Reaching}

theorem NameMap.spelled_empty : NameMap.Spelled ∅ := nofun

theorem NameMap.Fresh.renames {table : NameMap Name} (fresh : table.Fresh old s) (spelled : table.Spelled) :
    Renames old table.toRenaming := by
  refine ⟨fresh.apart, fun n _ plain => ?_⟩
  cases found : table.get? n with
  | none => simpa [toRenaming, found] using plain
  | some x =>
    rw [toRenaming, found, getD_some, Name.IsPlain, spelled n x found]
    exact plain

namespace Edit

variable {table : NameMap Name} {drawn : List Name}

theorem total_refreshNames (table : NameMap Name) (drawn : List Name) : Total (refreshNames table drawn) := by
  induction drawn generalizing table with
  | nil => exact total_pure table
  | cons n rest ih =>
    rw [refreshNames, List.foldlM_cons]
    exact ((total_freshName n.base).bind fun _ => total_pure _).bind fun table => ih table

theorem spelled_refreshNames {table' : NameMap Name} (spelled : table.Spelled)
    (made : Makes (refreshNames table drawn) s table' t) : table'.Spelled := by
  induction drawn generalizing s table with
  | nil =>
    obtain ⟨rfl, _⟩ := makes_pure.mp made
    exact spelled
  | cons n rest ih =>
    rw [refreshNames, List.foldlM_cons] at made
    obtain ⟨longer, _, first, made⟩ := makes_bind.mp made
    obtain ⟨x, _, fresh, first⟩ := makes_bind.mp first
    obtain ⟨rfl, _⟩ := makes_pure.mp first
    have same : x.base = n.base := by
      cases fresh
      rfl
    refine ih (fun m y found => ?_) made
    rw [OrdMap.get?_insert] at found
    split at found
    · cases found
      rename_i here
      rw [same, here]
    · exact spelled m y found

theorem leads_refreshNames (fresh : table.Fresh old names.state) (spelled : table.Spelled)
    (taken : ∀ n, old n → n ∈ names.used)
    (here : ∀ table' more, table'.Fresh old more.state → table'.Spelled → Retains names more → (∀ n ∈ drawn, ∃ x,
    table'.get? n = some x ∧ x ∉ names.used) → (∀ n ∉ drawn, table'.get? n = table.get? n) → post table' more) :
    Leads names (refreshNames table drawn) post := by
  refine (total_refreshNames table drawn).leads fun s table' t same made => ?_
  subst same
  have now : table.Fresh old s := ⟨fresh.drawn, fresh.distinct⟩
  obtain ⟨again, grows, covered, kept⟩ := makes_refreshNames now taken made
  exact here table' t.names ⟨again.drawn, again.distinct⟩ (spelled_refreshNames spelled made) grows covered kept

end Edit

/-! ### Rewriting -/

namespace Stmt

open Edit (Retains)

variable {before : NodeId → NameSet} {defined : Name → Prop} {s s' : Stmt}

/-- What can be said of statements and what they become, of the supplies of names before and after, and of the names
that are defined at their start. -/
abbrev Becoming := NameSupply → NameSupply → (Name → Prop) → List Stmt → List Stmt → Prop

/-- A statement in which the blocks may have been replaced, one after the other. -/
inductive Reshaped (R : Becoming) (names more : NameSupply) (defined : Name → Prop) : Stmt → Stmt → Prop where
  | leaf {st : Stmt} (only : st.blocks = []) : Reshaped R names more defined st st
  | when {node test} {body body' : Block} (inner : R names more defined body.stmts body'.stmts) :
    Reshaped R names more defined (.when node test body) (.when node test body')
  | branch {node test} {ift ift' iff iff' : Block} {middle : NameSupply} (kept : Retains names middle)
    (left : R names middle defined ift.stmts ift'.stmts) (later : Retains middle more)
    (right : R middle more defined iff.stmts iff'.stmts) :
    Reshaped R names more defined (.branch node test ift iff) (.branch node test ift' iff')
  | loop {node test} {body body' : Block} (inner : R names more defined body.stmts body'.stmts) :
    Reshaped R names more defined (.loop node test body) (.loop node test body')
  | each {node target iterable} {body body' : Block}
    (inner : R names more (fun n => n ∈ target.names ∨ defined n) body.stmts body'.stmts) :
    Reshaped R names more defined (.each node target iterable body) (.each node target iterable body')
  | scope {node name ctx} {body body' : Block}
    (inner : R names more (fun n => n ∈ name.toList ∨ defined n) body.stmts body'.stmts) :
    Reshaped R names more defined (.scope node name ctx body) (.scope node name ctx body')

/-- What can be said of the statements that others become, row by row. -/
structure Rows (R : Becoming) : Prop where
  nil : ∀ names defined, R names names defined [] []
  cons : ∀ {names middle more defined s rest out others}, Retains names middle → R names middle defined [s] out →
    Retains middle more → R middle more (fun n => defined n ∨ n ∈ s.defines) rest others →
    R names more defined (s :: rest) (out ++ others)

section Reshaped

variable {R : Becoming} (shape : Reshaped R names more defined s s')

include shape

theorem Reshaped.id : s'.id = s.id := by
  cases shape <;> rfl

theorem Reshaped.same : s'.binds = s.binds ∧ s'.reads = s.reads ∧ s'.exprs = s.exprs ∧ (s'.Bound ↔ s.Bound) ∧
    s'.inside = s.inside := by
  cases shape <;> exact ⟨rfl, rfl, rfl, Iff.rfl, rfl⟩

theorem Reshaped.blocks : Forall₂ (fun b b' => ∃ first last, Retains names first ∧
    R first last (s.inside defined) b.stmts b'.stmts ∧ Retains last more) s.blocks s'.blocks := by
  cases shape with
  | leaf only =>
    rw [only]
    exact .nil
  | branch kept left later right => exact .cons ⟨_, _, .refl _, left, later⟩ (.cons ⟨_, _, kept, right, .refl _⟩ .nil)
  | when inner | loop inner | each inner | scope inner => exact .cons ⟨_, _, .refl _, inner, .refl _⟩ .nil

theorem Reshaped.imp
    (weaker : ∀ {names more defined stmts out}, R names more defined stmts out → R' names more defined stmts out) :
    Reshaped R' names more defined s s' := by
  cases shape with
  | leaf only => exact .leaf only
  | branch kept left later right => exact .branch kept (weaker left) later (weaker right)
  | when inner => exact .when (weaker inner)
  | loop inner => exact .loop (weaker inner)
  | each inner => exact .each (weaker inner)
  | scope inner => exact .scope (weaker inner)

end Reshaped

def Taken : Becoming := fun _ more => Serves more.used

theorem serves_of_reshaped (settled : Settled before more.used defined [s])
    (shape : Reshaped Taken names more defined s s') : Serves more.used defined [s] [s'] := by
  obtain ⟨binds, reads, exprs, bound, start⟩ := shape.same
  obtain ⟨mentioned, held, own, side, within⟩ := stands_single.mp settled.toStands
  refine ⟨stands_single.mpr ⟨binds ▸ mentioned, reads ▸ held, exprs ▸ own, bound.mpr side, fun b' mem => ?_⟩,
    fun n here => ?_, fun _ => cons_ne_nil _ _⟩
  · obtain ⟨b, listed, _, _, _, serves, later⟩ := exists_of_forall₂ shape.blocks b' mem
    exact ⟨serves.filled (within b listed).1, start ▸ (serves.mono later).toStands⟩
  · rw [mem_definesAll_single] at here ⊢
    cases shape with
    | leaf => exact here
    | branch _ left _ right =>
      rw [Stmt.defines, mem_inter, Block.defines_eq, Block.defines_eq] at here ⊢
      exact ⟨left.defines n here.1, right.defines n here.2⟩
    | scope inner =>
      rw [Stmt.defines, mem_union, Block.defines_eq] at here ⊢
      exact here.imp_right (inner.defines n)
    | _ => cases here

/-- What is known of statements, of the names in use and of those that are defined before them is known of what is in
them. -/
structure Descends (K : NameSet → (Name → Prop) → List Stmt → Prop) : Prop where
  mono : ∀ {used more defined stmts}, K used defined stmts → (∀ n ∈ used, n ∈ more) → K more defined stmts
  head : ∀ {used defined s rest}, K used defined (s :: rest) → K used defined [s]
  tail : ∀ {used defined s rest}, K used defined (s :: rest) → K used (fun n => defined n ∨ n ∈ s.defines) rest
  block : ∀ {used defined s b}, K used defined [s] → b ∈ s.blocks → K used (s.inside defined) b.stmts

theorem descends_settled : Descends (Settled before) := ⟨Settled.mono, Settled.head, Settled.tail, Settled.block⟩

theorem rows_taken : Rows Taken :=
  ⟨fun names => .nil names.used, fun _ first later others => .cons (first.mono later) others⟩

end Stmt

namespace Rebuild

open Edit Stmt

variable {hooks : Rebuild Edit} {rewrite : Stmt → Edit (List Stmt)} {R : Becoming} {before : NodeId → NameSet}

theorem onStmts_single (hooks : Rebuild Edit) (s : Stmt) : hooks.onStmts [s] = hooks.onStmt s := by
  simp [onStmts]

theorem onStmts_cons (hooks : Rebuild Edit) (s : Stmt) (rest : List Stmt) : hooks.onStmts (s :: rest) =
    hooks.onStmts [s] >>= fun out => hooks.onStmts rest >>= fun others => pure (out ++ others) := by
  rw [onStmts_single, onStmts]

/-- The rewriting of a statement whose blocks have been replaced leads to what is said of it. -/
def Steps (before : NodeId → NameSet) (R : Becoming) (good : Stmt → Prop) (rewrite : Stmt → Edit (List Stmt)) : Prop :=
  ∀ names more defined s s', Settled before names.used defined [s] → good s → Retains names more →
    Reshaped R names more defined s s' →
    Leads more (rewrite s') fun out most => Retains more most ∧ R names most defined [s] out

theorem leads_onStmts (descends : Descends K) (rewrites : hooks.Rewrites rewrite) (rows : Rows R)
    (step : ∀ names more defined s s', K names.used defined [s] → good s → Retains names more → Reshaped R names more
    defined s s' → Leads more (rewrite s') fun out most => Retains more most ∧ R names most defined [s] out)
    (stmts : List Stmt) (each : ∀ part ∈ allOf stmts, good part) (known : K names.used defined stmts) :
    Leads names (hooks.onStmts stmts) fun out more => Retains names more ∧ R names more defined stmts out := by
  induction stmts using byBlocks generalizing names defined with
  | nil => exact leads_pure ⟨.refl _, rows.nil _ _⟩
  | cons s rest first others =>
    rw [onStmts_cons]
    rw [← singleton_append, allOf_append, forall_mem_append] at each
    refine leads_bind ((first each.1 (descends.head known)).imp fun out more ⟨kept, here⟩ => ?_)
    refine leads_bind ((others each.2 (descends.mono (descends.tail known) kept)).imp fun out' most ⟨later, there⟩ => ?_)
    exact leads_pure ⟨kept.trans later, rows.cons kept here later there⟩
  | step s inner =>
    obtain ⟨here, deeper⟩ := forall_allOf_single.mp each
    have inside : ∀ b ∈ s.blocks, ∀ {names : NameSupply}, K names.used defined [s] →
        Leads names (hooks.onBlock b) fun b' more => Retains names more ∧
          R names more (s.inside defined) b.stmts b'.stmts := by
      rintro ⟨id, stmts⟩ mem names known
      rw [rewrites.onBlock_eq]
      refine leads_bind ((inner _ mem (deeper _ mem) (descends.block known mem)).imp fun out more facts => ?_)
      exact leads_pure facts
    have shaped : Leads names (hooks.remake s) fun s' more =>
        Retains names more ∧ Reshaped R names more defined s s' := by
      have single : ∀ (make : Block → Stmt) (body : Block), body ∈ s.blocks →
          (∀ more body', R names more (s.inside defined) body.stmts body'.stmts →
            Reshaped R names more defined s (make body')) →
          Leads names (hooks.onBlock body >>= fun body' => pure (make body')) fun s' more =>
            Retains names more ∧ Reshaped R names more defined s s' := by
        intro make body mem shape
        refine leads_bind ((inside body mem known).imp fun body' more ⟨kept, facts⟩ => ?_)
        exact leads_pure ⟨kept, shape _ _ facts⟩
      cases s with
      | when node test body => exact single (.when node test) body mem_cons_self fun _ _ => .when
      | loop node test body => exact single (.loop node test) body mem_cons_self fun _ _ => .loop
      | each node target iterable body => exact single (.each node target iterable) body mem_cons_self fun _ _ => .each
      | scope node name ctx body => exact single (.scope node name ctx) body mem_cons_self fun _ _ => .scope
      | branch node test ift iff =>
        refine leads_bind ((inside ift mem_cons_self known).imp fun ift' more ⟨kept, left⟩ => ?_)
        have again := inside iff (mem_cons_of_mem _ mem_cons_self) (descends.mono known kept)
        refine leads_bind (again.imp fun iff' most ⟨kept', right⟩ => ?_)
        exact leads_pure ⟨kept.trans kept', .branch kept left kept' right⟩
      | _ => exact leads_pure ⟨.refl names, .leaf rfl⟩
    -- A statement is rewritten after the blocks in it.
    rw [onStmts_single, rewrites.onStmt_eq]
    refine leads_bind (shaped.imp fun s' more ⟨kept, shape⟩ => ?_)
    refine (step _ _ _ _ _ known here kept shape).imp fun out most ⟨later, done⟩ => ?_
    exact ⟨kept.trans later, done⟩

end Rebuild

variable {f : Func} {hooks : Rebuild Edit} {rewrite : Stmt → Edit (List Stmt)} {R : Stmt.Becoming}

/-- A rebuild of a function leads to one whose body is what the rewriting of single statements leads to. -/
theorem Rebuild.leads_body
    (descends : Stmt.Descends K) (rewrites : hooks.Rewrites rewrite) (rows : Stmt.Rows R)
    (step : ∀ names more defined s s', K names.used defined [s] → good s → Edit.Retains names more →
    Stmt.Reshaped R names more defined s s' → Edit.Leads more (rewrite s') fun out most => Edit.Retains more most ∧
    R names most defined [s] out) (known : K f.allNames f.Inputs f.body.stmts) (each : ∀ part ∈ f.body.all, good part) :
    Edit.Leads (.ofFunc f) (hooks.onFunc f) fun g more => ∃ b : Block, g = { f with body := b } ∧
    R (.ofFunc f) more f.Inputs f.body.stmts b.stmts := by
  rw [Block.all_eq] at each
  have inner : Edit.Leads (.ofFunc f) (hooks.onBlock f.body) fun b more =>
      R (.ofFunc f) more f.Inputs f.body.stmts b.stmts := by
    replace known : K (NameSupply.ofFunc f).used f.Inputs f.body.stmts := known
    generalize NameSupply.ofFunc f = names at known
    rcases body : f.body with ⟨id, stmts⟩
    rw [body] at known each
    rw [rewrites.onBlock_eq]
    refine Edit.leads_bind ((leads_onStmts descends rewrites rows step stmts each known).imp fun out more facts => ?_)
    exact Edit.leads_pure facts.2
  exact Edit.leads_bind (inner.imp fun b more facts => Edit.leads_pure ⟨b, rfl, facts⟩)

theorem Rebuild.leads_onFunc (rewrites : hooks.Rewrites rewrite)
    (rows : Stmt.Rows R) (step : Rebuild.Steps (Flow.inForce r) R good rewrite) (distinct : f.ids.Nodup)
    (checked : f.check = .ok ()) (analysed : Reaching.ofFunc f = .ok r) (each : ∀ part ∈ f.body.all, good part) :
    Edit.Leads (.ofFunc f) (hooks.onFunc f) fun g more => ∃ b : Block, g = { f with body := b } ∧
    R (.ofFunc f) more f.Inputs f.body.stmts b.stmts :=
  leads_body Stmt.descends_settled rewrites rows step (Func.settled_body distinct checked analysed) each

theorem Rebuild.leads_check (rewrites : hooks.Rewrites rewrite)
    (step : Rebuild.Steps (Flow.inForce r) Stmt.Taken (fun _ => True) rewrite) (distinct : f.ids.Nodup)
    (checked : f.check = .ok ()) (analysed : Reaching.ofFunc f = .ok r) :
    Edit.Leads (.ofFunc f) (hooks.onFunc f) fun g _ => g.check = .ok () := by
  have every : ∀ part ∈ f.body.all, (fun _ : Stmt => True) part := fun _ _ => trivial
  refine (leads_onFunc rewrites Stmt.rows_taken step distinct checked analysed every).imp ?_
  rintro _ more ⟨b, rfl, serves⟩
  exact Func.check_of_serves checked serves

/-- A pass succeeds on a function, and what it makes of it is well formed. -/
def Pass.Succeeds (p : Pass) (cfg : Config) (f : Func) (session : Session) : Prop :=
  ∃ g events after, (p.run cfg f).run session = (.ok (g, events), after) ∧ g.check = .ok ()

theorem Pass.succeeds_of_leads {name description : String} {edit : Func → Edit Func}
    (leads : Edit.Leads (.ofFunc f) (edit f) fun g _ => g.check = .ok ()) (cfg : Config) (session : Session) :
    (Pass.ofEdit name description edit).Succeeds cfg f session := by
  obtain ⟨g, t, made, checked⟩ := leads { session := session, names := .ofFunc f } rfl
  obtain ⟨events, after, ran⟩ := Edit.perform_of_makes made checked
  exact ⟨g, events, after, ran, checked⟩

end NumLang
