import NumLang.Proofs.Coupling
import NumLang.Proofs.FreshNames

/-!
Programs that are rewritten from the inside out.
-/

namespace NumLang

variable {others : List Name} {s : Stmt}

def Expr.vars (e : Expr) : List Name := e.all.flatMap Expr.reads

def Stmt.ownNames (s : Stmt) : List Name := s.binds ++ s.exprs.flatMap Expr.vars

def Stmt.names (stmts : List Stmt) : List Name := (Stmt.allOf stmts).flatMap Stmt.ownNames

namespace Stmt

@[simp] theorem names_nil : Stmt.names [] = [] := rfl

theorem names_cons (s : Stmt) (rest : List Stmt) : Stmt.names (s :: rest) = Stmt.names [s] ++ Stmt.names rest := by
  simp [Stmt.names, Stmt.allOf]

theorem names_append (stmts others : List Stmt) :
    Stmt.names (stmts ++ others) = Stmt.names stmts ++ Stmt.names others := by
  rw [Stmt.names, allOf_append, flatMap_append, Stmt.names, Stmt.names]

theorem names_single (s : Stmt) : Stmt.names [s] = s.ownNames ++ s.blocks.flatMap fun b => Stmt.names b.stmts := by
  simp [Stmt.names, Stmt.allOf, s.all_eq, List.flatMap_assoc, Block.all_eq]

end Stmt

variable {f : Func} {e : Expr}

theorem Func.mem_allNames_of_binds (mem : s ∈ f.body.all) (bound : n ∈ s.binds) : n ∈ f.allNames := by
  have assigned : n ∈ f.body.assigned := Flow.mem_assigned.mpr (mem_flatMap.mpr ⟨s, mem, bound⟩)
  simp [Func.allNames, Block.bound, assigned]

theorem Expr.mem_allOf (mem : e ∈ es) (inside : part ∈ e.all) : part ∈ allOf es := mem_allOf_iff.mpr ⟨e, mem, inside⟩

namespace Rebuild

/-- Nothing is done to names, nor to the expressions with a property once their parts have stayed as they are. -/
structure Plain {m : Type → Type} [Monad m] (hooks : Rebuild m) (P : Expr → Prop) : Prop where
  name : ∀ n, hooks.name n = pure n
  expr : ∀ e, P e → hooks.expr e (pure e) = pure e

section Plain

variable {m : Type → Type} [Monad m] [LawfulMonad m] {hooks : Rebuild m}

theorem Plain.threads (plain : hooks.Plain P) :
    Threads (.giving m) hooks (fun e => ∀ part ∈ e.all, P part) fun _ _ es es' => es' = es where
  name := plain.name
  nil _ := rfl
  append first second := by rw [first, second]
  length same := by rw [same]
  expr {e usual} here inside s := by
    rw [Expr.all_eq] at here
    obtain ⟨own, deeper⟩ := forall_mem_cons.mp here
    have below : ∀ part ∈ e.children, ∀ under ∈ part.all, P under := fun part mem under inside =>
      deeper under (Expr.mem_allOf mem inside)
    obtain ⟨e', rfl, rebuilt, same⟩ := inside below s
    cases rebuilt.eq same
    exact ⟨e, plain.expr e own, rfl⟩

theorem onExpr_eq_pure (plain : hooks.Plain P) (e : Expr) (all : ∀ part ∈ e.all, P part) : hooks.onExpr e = pure e := by
  obtain ⟨_, stays, same⟩ := threads_onExpr plain.threads e all ()
  cases same
  exact stays

theorem onExprs_eq_pure (plain : hooks.Plain P) (es : List Expr) (all : ∀ part ∈ Expr.allOf es, P part) :
    hooks.onExprs es = pure es := by
  have each : ∀ e ∈ es, ∀ part ∈ e.all, P part := fun e mem part inside => all part (Expr.mem_allOf mem inside)
  obtain ⟨_, stays, rfl⟩ := threads_onExprs plain.threads es each ()
  exact stays

theorem onOption_eq_pure (plain : hooks.Plain P) : (e : Option Expr) → (∀ part ∈ Expr.allOfOption e, P part) →
    hooks.onOption e = pure e
  | none, _ => rfl
  | some e, all => by simp [onOption, onExpr_eq_pure plain e all]

def remake {m : Type → Type} [Monad m] (hooks : Rebuild m) : Stmt → m Stmt
  | .when node test body => return .when node test (← hooks.onBlock body)
  | .branch node test ift iff => return .branch node test (← hooks.onBlock ift) (← hooks.onBlock iff)
  | .loop node test body => return .loop node test (← hooks.onBlock body)
  | .each node target iterable body => return .each node target iterable (← hooks.onBlock body)
  | .scope node name ctx body => return .scope node name ctx (← hooks.onBlock body)
  | s => return s

theorem onStmt_eq_remake (plain : hooks.Plain fun _ => True) (s : Stmt) :
    hooks.onStmt s = hooks.stmt s (hooks.remake s) := by
  cases s <;> simp [onStmt, remake, plain.name, onBinder_eq_pure plain.name, onName?_eq_pure plain.name,
    onExpr_eq_pure plain, onExprs_eq_pure plain, onOption_eq_pure plain]

end Plain

/-- A rebuild that leaves names and expressions as they are and rewrites every statement after the blocks in
it. -/
structure Rewrites {m : Type → Type} [Monad m] (hooks : Rebuild m) (rewrite : Stmt → m (List Stmt)) : Prop
    extends hooks.Plain fun _ => True where
  block : ∀ b usual, hooks.block b usual = usual
  stmt : ∀ s usual, hooks.stmt s usual = usual >>= rewrite

namespace Rewrites

variable {m : Type → Type} [Monad m] [LawfulMonad m] {hooks : Rebuild m} {rewrite : Stmt → m (List Stmt)}
  (rewrites : hooks.Rewrites rewrite)

include rewrites

theorem onStmt_eq (s : Stmt) : hooks.onStmt s = hooks.remake s >>= rewrite := by
  rw [onStmt_eq_remake rewrites.toPlain, rewrites.stmt]

theorem onBlock_eq (id : NodeId) (stmts : List Stmt) :
    hooks.onBlock ⟨id, stmts⟩ = hooks.onStmts stmts >>= fun stmts' => pure ⟨id, stmts'⟩ := by
  simp [onBlock, rewrites.block]

end Rewrites

section Related

variable {m n : Type → Type} [Monad m] [Monad n] {hooks : Rebuild m} {others : Rebuild n}
  {rel : (α : Type) → m α → n α → Prop}

/-- A relation between the computations of two monads that is kept when they are put together. -/
structure Relates (rel : (α : Type) → m α → n α → Prop) : Prop where
  pure : ∀ {α : Type} (a : α), rel α (pure a) (pure a)
  bind : ∀ {α β : Type} {x : m α} {y : n α} {k : α → m β} {l : α → n β}, rel α x y → (∀ a, rel β (k a) (l a)) →
    rel β (x >>= k) (y >>= l)

mutual

theorem related_onStmt [LawfulMonad m] [LawfulMonad n] (first : hooks.Rewrites rewrite)
    (second : others.Rewrites rewrite') (relates : Relates rel) (step : ∀ s, rel _ (rewrite s) (rewrite' s))
    (s : Stmt) : rel _ (hooks.onStmt s) (others.onStmt s) := by
  rw [first.onStmt_eq, second.onStmt_eq]
  refine relates.bind ?_ step
  cases s with
  | when _ _ body | loop _ _ body | each _ _ _ body | scope _ _ _ body =>
    exact relates.bind (related_onBlock first second relates step body) fun _ => relates.pure _
  | branch _ _ ift iff =>
    refine relates.bind (related_onBlock first second relates step ift) fun _ => ?_
    exact relates.bind (related_onBlock first second relates step iff) fun _ => relates.pure _
  | _ => exact relates.pure _

theorem related_onBlock [LawfulMonad m] [LawfulMonad n] (first : hooks.Rewrites rewrite)
    (second : others.Rewrites rewrite') (relates : Relates rel) (step : ∀ s, rel _ (rewrite s) (rewrite' s))
    (b : Block) : rel _ (hooks.onBlock b) (others.onBlock b) := by
  obtain ⟨id, stmts⟩ := b
  rw [first.onBlock_eq, second.onBlock_eq]
  exact relates.bind (related_onStmts first second relates step stmts) fun _ => relates.pure _

theorem related_onStmts [LawfulMonad m] [LawfulMonad n] (first : hooks.Rewrites rewrite)
    (second : others.Rewrites rewrite') (relates : Relates rel) (step : ∀ s, rel _ (rewrite s) (rewrite' s))
    (stmts : List Stmt) : rel _ (hooks.onStmts stmts) (others.onStmts stmts) := by
  cases stmts with
  | nil => exact relates.pure _
  | cons s rest =>
    refine relates.bind (related_onStmt first second relates step s) fun _ => ?_
    exact relates.bind (related_onStmts first second relates step rest) fun _ => relates.pure _

end

end Related

/-- Computations of a monad that take one state to another. -/
structure Transitions (m : Type → Type) [Monad m] (S : Type) where
  makes : {α : Type} → m α → S → α → S → Prop
  of_pure : ∀ {α : Type} {a b : α} {s s' : S}, makes (pure a) s b s' → b = a ∧ s' = s
  of_bind : ∀ {α β : Type} {x : m α} {k : α → m β} {b : β} {s s' : S}, makes (x >>= k) s b s' →
    ∃ a t, makes x s a t ∧ makes (k a) t b s'

def Transitions.logic {m : Type → Type} [Monad m] {S : Type} (tr : Transitions m S) : Logic m S where
  leads s x post := ∀ a t, tr.makes x s a t → post a t
  pure here _ _ made := by
    obtain ⟨rfl, rfl⟩ := tr.of_pure made
    exact here
  bind first b u made := by
    obtain ⟨a, t, early, late⟩ := tr.of_bind made
    exact first a t early b u late
  imp first stronger a t made := stronger a t (first a t made)

def Within (used : NameSet) (names : List Name) : Prop := ∀ n ∈ names, n ∈ used

theorem within_append : Within used (names ++ others) ↔ Within used names ∧ Within used others := by
  simp [Within, or_imp, forall_and]

theorem within_allNames (f : Func) : Within f.allNames (Stmt.names f.body.stmts) := by
  intro n named
  obtain ⟨s, mem, own⟩ := mem_flatMap.mp named
  have mem : s ∈ f.body.all := by
    rcases body : f.body with ⟨id, stmts⟩
    rwa [body] at mem
  rcases mem_append.mp own with bound | read
  · exact Func.mem_allNames_of_binds mem bound
  · obtain ⟨e, listed, read⟩ := mem_flatMap.mp read
    obtain ⟨part, inside, read⟩ := mem_flatMap.mp read
    have referenced : n ∈ f.body.referenced := by
      refine mem_ofList.mpr (mem_append_left _ (mem_flatMap.mpr ⟨part, ?_, read⟩))
      exact mem_flatMap.mpr ⟨s, mem, Expr.mem_allOf listed inside⟩
    simp [Func.allNames, referenced]

/-- Rewriting takes states further, and what comes out names nothing that is not in use then. -/
structure Careful {m : Type → Type} [Monad m] {S : Type} (tr : Transitions m S) (used : S → NameSet)
    (further : S → S → Prop) (rewrite : Stmt → m (List Stmt)) : Prop where
  refl : ∀ s, further s s
  trans : ∀ {s t u}, further s t → further t u → further s u
  grows : ∀ {s t}, further s t → ∀ n ∈ used s, n ∈ used t
  rewrite : ∀ {s t out u}, Within (used t) (Stmt.names [s]) → tr.makes (rewrite s) t out u →
    further t u ∧ Within (used u) (Stmt.names out)

section Revises

variable {m : Type → Type} [Monad m] {S : Type} {tr : Transitions m S} {hooks : Rebuild m}
  {rewrite : Stmt → m (List Stmt)} {used : S → NameSet} {further : S → S → Prop} {R : Revision} {stmts : List Stmt}
  {first last : S}

/-- What a revision takes a rewritten statement for. -/
structure Revises (tr : Transitions m S) (used : S → NameSet) (further : S → S → Prop)
    (rewrite : Stmt → m (List Stmt)) (R : Revision) (stmts : List Stmt) (first last : S) : Prop where
  agrees : ∀ s ∈ stmts, ∀ e ∈ s.exprs, R.agrees s.point e e
  held : ∀ s ∈ stmts, ∀ node name path value, s = .store node name path value →
    R.agrees (.stmt node.id) (.var node name) (.var node name)
  rewrites : ∀ s ∈ stmts, ∀ s' t out u, further first t → further u last →
    Within (used t) (Stmt.names [s']) → tr.makes (rewrite s') t out u → R.rewrites s s' out

/-- What is known of statements that were rewritten: the states went further, what came out names nothing that is
not in use, and it is a revision as long as the states go on within the given ones. -/
structure Done (used : S → NameSet) (further : S → S → Prop) (first last t : S) (names : List Name) (u : S)
    (revised : Prop) : Prop where
  went : further t u
  within : Within (used u) names
  revised : further first t → further u last → revised

theorem done_of_inner (careful : Careful tr used further rewrite)
    (revises : Revises tr used further rewrite R stmts first last) {s' : Stmt} (mem : s ∈ stmts) {inner : S}
    (done : Done used further first last t (Stmt.names [s']) inner (R.Shape s s')) {out : List Stmt}
    (made : tr.makes (rewrite s') inner out u) :
    Done used further first last t (Stmt.names out) u (R.OnStmt s out) :=
    by
  obtain ⟨more, within⟩ := careful.rewrite done.within made
  refine ⟨careful.trans done.went more, within, fun after before => ?_⟩
  refine .rewrite (done.revised after (careful.trans more before)) ?_
  exact revises.rewrites s mem s' inner out u (careful.trans after done.went) before done.within made

theorem Within.mono (careful : Careful tr used further rewrite) (more : further t u) (within : Within (used t) names) :
    Within (used u) names :=
  fun n mem => careful.grows more n (within n mem)

theorem Done.imp {revised weaker : Prop} (done : Done used further first last t names u revised)
    (follows : revised → weaker) : Done used further first last t names u weaker :=
  ⟨done.went, done.within, fun after before => follows (done.revised after before)⟩

theorem Done.andThen (careful : Careful tr used further rewrite) (early : Done used further first last t names u P)
    (late : Done used further first last u others v Q) :
    Done used further first last t (names ++ others) v (P ∧ Q) := by
  refine ⟨careful.trans early.went late.went, ?_, fun after before => ⟨?_, ?_⟩⟩
  · exact within_append.mpr ⟨early.within.mono careful late.went, late.within⟩
  · exact early.revised after (careful.trans late.went before)
  · exact late.revised (careful.trans after early.went) before

/-- What blocks and statements are rewritten to is a revision of them, if they are of the given ones. -/
theorem weaves_done [LawfulMonad m] (rewrites : hooks.Rewrites rewrite) (careful : Careful tr used further rewrite)
    (revises : Revises tr used further rewrite R stmts first last) : Weaves tr.logic hooks
    (fun t u es es' => u = t ∧ es' = es)
    (fun t u bs bs' => (∀ b ∈ bs, ∀ part ∈ b.all, part ∈ stmts) →
      Within (used t) (bs.flatMap fun b => Stmt.names b.stmts) →
      Done used further first last t (bs'.flatMap fun b => Stmt.names b.stmts) u (Forall₂ R.OnBlock bs bs'))
    (fun t u body body' => (∀ part ∈ Stmt.allOf body, part ∈ stmts) → Within (used t) (Stmt.names body) →
      Done used further first last t (Stmt.names body') u (R.OnStmts body body')) where
  name := rewrites.name
  nil _ := ⟨rfl, rfl⟩
  append := by
    rintro _ _ _ _ _ _ _ ⟨rfl, rfl⟩ ⟨rfl, rfl⟩
    exact ⟨rfl, rfl⟩
  length made := by rw [made.2]
  onExpr e t e' u made := by
    rw [onExpr_eq_pure rewrites.toPlain e fun _ _ => trivial] at made
    obtain ⟨rfl, rfl⟩ := tr.of_pure made
    exact ⟨rfl, rfl⟩
  noBlocks t _ _ := ⟨careful.refl t, nofun, fun _ _ => .nil⟩
  blocks early late inside within := by
    obtain ⟨here, there⟩ := forall_mem_append.mp inside
    rw [flatMap_append, within_append] at within
    have done := early here within.1
    rw [flatMap_append]
    exact (done.andThen careful (late there (within.2.mono careful done.went))).imp fun ⟨left, right⟩ =>
      rel_append left right
  noStmts t _ _ := ⟨careful.refl t, nofun, fun _ _ => .nil⟩
  stmts {_ _ _ st rest out others} early late inside within := by
    rw [Stmt.allOf, forall_mem_append] at inside
    rw [Stmt.names_cons, within_append] at within
    have done := early (by simpa [Stmt.allOf] using inside.1) within.1
    rw [Stmt.names_append]
    refine (done.andThen careful (late inside.2 (within.2.mono careful done.went))).imp fun ⟨head, tail⟩ => ?_
    cases head with
    | cons head none =>
      cases none
      rw [append_nil]
      exact .cons head tail
  stmt {st usual} parts t out u made inside within := by
    simp only [Stmt.allOf, append_nil] at inside
    have mem := inside st (Stmt.mem_all st)
    rw [rewrites.stmt] at made
    obtain ⟨st', inner, found, later⟩ := tr.of_bind made
    obtain ⟨rebuilt, middle, ⟨rfl, exprs⟩, blocks⟩ := parts t st' inner found
    rw [Stmt.names_single, within_append] at within
    have done := blocks (fun b listed part below => inside part (by
      rw [st.all_eq]
      exact mem_cons_of_mem _ (mem_flatMap.mpr ⟨b, listed, below⟩))) within.2
    have single : Done used further first last middle (Stmt.names out) u (R.OnStmt st out) := by
      refine done_of_inner careful revises mem ⟨done.went, ?_, fun after before => ?_⟩ later
      · rw [Stmt.names_single, within_append, Stmt.ownNames, rebuilt.binds, exprs]
        exact ⟨within.1.mono careful done.went, done.within⟩
      · refine Revision.shape_of_rebuilt rebuilt ?_ (done.revised after before) (revises.held st mem)
        rw [exprs]
        exact List.forall₂_same.mpr (revises.agrees st mem)
    exact single.imp fun head => by simpa using Revision.OnStmts.cons head .nil
  block {b usual} parts t b' u made inside within := by
    rw [rewrites.block] at made
    obtain ⟨same, done⟩ := parts t b' u made
    obtain ⟨id, body⟩ := b
    obtain ⟨id', body'⟩ := b'
    cases same
    rw [flatMap_singleton] at within ⊢
    refine (done (inside _ mem_cons_self) within).imp fun revised => ?_
    exact .cons (.block revised rfl) .nil

theorem done_onBlock [LawfulMonad m] (rewrites : hooks.Rewrites rewrite) (careful : Careful tr used further rewrite)
    (revises : Revises tr used further rewrite R stmts first last) (b : Block) (inside : ∀ part ∈ b.all, part ∈ stmts)
    (within : Within (used t) (Stmt.names b.stmts)) {b' : Block} (made : tr.makes (hooks.onBlock b) t b' u) :
    Done used further first last t (Stmt.names b'.stmts) u (R.OnBlock b b') := by
  have done := weaves_onBlock (weaves_done rewrites careful revises) b t b' u made (by simpa using inside)
  simp only [flatMap_singleton] at done
  exact (done within).imp fun revised => (forall₂_cons.mp revised).1

end Revises

end Rebuild

namespace Flow

variable {V : Type}

def Scoped (env : Env) (e : Expr) : Prop := ∃ records, ofExpr env e = .ok records

variable {env : Env} {σ : Store V}

theorem scoped_of_exprs (walked : ofExprs env es = .ok records) : ∀ e ∈ es, Scoped env e := by
  induction es generalizing records with
  | nil => simp
  | cons first rest ih =>
    simp only [ofExprs, bind_ok] at walked
    obtain ⟨own, head, others, tail, _⟩ := walked
    intro e mem
    rcases mem_cons.mp mem with rfl | later
    · exact ⟨own, head⟩
    · exact ih tail e later

theorem Scoped.operand (inScope : Scoped env e) (mem : part ∈ e.operands) : Scoped env part := by
  obtain ⟨records, walked⟩ := inScope
  obtain ⟨parts, child⟩ := Expr.mem_children_of_operands mem
  rw [ofExpr_eq_ofExprs parts] at walked
  exact scoped_of_exprs walked part child

def SameValues (known unset : Name → Prop) (env : Env) (w : Store V × Store V) : Prop :=
  Satisfies (fun n _ x => x.1.map Cell.value = x.2.map Cell.value ∧ known n ∧ (x.1.isSome = true ∨ unset n)) env
    (World.pair.look w)

theorem upheld_sameValues (m : Machine V C) (notes : Notes) (unset : Name → Prop)
    (bound_ : ∀ s ∈ stmts, ∀ n ∈ s.binds, known n) :
    Upheld m .pair notes (SameValues known unset) (fun _ => True) stmts where
  stuck := trivial
  reads _ _ _ _ _ := .inr trivial
  edge s _ span _ env next w flows holds := by
    refine holds.into flows ?_
    rintro n lhs rhs x recorded (left | right)
    · exact left
    · exact right
  write s mem span _ _ _ c w writes names _ holds := by
    rw [bound, ← names]
    refine holds.write fun i n v written => ⟨rfl, bound_ s mem n ?_, .inl rfl⟩
    rw [← names]
    exact mem_map.mpr ⟨(n, v), mem_of_getElem? written, rfl⟩

namespace SameValues

variable {τ : Store V} (same : SameValues known unset env (σ, τ))

include same

theorem read (inForce : env.contains n = true) : τ.value? n = σ.value? n := by
  obtain ⟨p, found⟩ := isSome_iff_exists.mp inForce
  exact (same n p found).1.symm

theorem of_inForce (inForce : env.contains n = true) : known n := by
  obtain ⟨p, found⟩ := isSome_iff_exists.mp inForce
  exact (same n p found).2.1

theorem held (inForce : env.contains n = true) : (σ.value? n).isSome = true ∨ unset n := by
  obtain ⟨p, found⟩ := isSome_iff_exists.mp inForce
  exact (same n p found).2.2.imp_left fun held => by rwa [Store.value?, Option.isSome_map]

theorem replace {τ' : Store V} (alike : ∀ n, env.contains n = true → τ'.value? n = τ.value? n) :
    SameValues known unset env (σ, τ') := by
  intro n p found
  obtain ⟨values, rest⟩ := same n p found
  exact ⟨values.trans (alike n (by rw [OrdMap.contains, found]; rfl)).symm, rest⟩

end SameValues

theorem sameValues_start (started : Machine.start f free args = some σ) (params : ∀ n ∈ f.paramNames, known n)
    (inputs : ∀ n ∈ f.freeVars, known n) (missing : ∀ n ∈ f.freeVars, free n = none → unset n) :
    SameValues known unset (Reaching.entryOf f) (σ, σ) := by
  have here : Satisfies (fun n _ (x : Option (Cell V)) => known n ∧ (x.isSome = true ∨ unset n))
      (Reaching.entryOf f) (World.single.look σ) := by
    refine satisfies_start started (fun p mem n named v => ⟨params n ?_, .inl rfl⟩) fun i n named => ?_
    · exact List.mem_filterMap.mpr ⟨p, mem, named⟩
    · have listed := (mem_filter.mp (mem_of_getElem? named)).1
      refine ⟨inputs n listed, ?_⟩
      cases value : free n with
      | none => exact .inr (missing n listed value)
      | some v => exact .inl rfl
  exact fun n p found => ⟨rfl, here n p found⟩

def plainResults : Results Id Unit where
  gives _ x a := a = x
  of_pure given := given
  of_bind given := ⟨_, rfl, given⟩

theorem SameValues.eval (same : SameValues known unset env (σ, τ)) (inScope : Scoped env e) :
    Rebuild.Follows m c σ τ e e := by
  have plain : (({} : Rebuild Id)).Plain fun _ => True := ⟨fun _ => rfl, fun _ _ => rfl⟩
  have still : ∀ e, ({} : Rebuild Id).onExpr e = e := fun e => Rebuild.onExpr_eq_pure plain e fun _ _ => trivial
  have keeps : ({} : Rebuild Id).Preserves plainResults m c σ τ () (Scoped env) := by
    refine ⟨fun e inScope part => inScope.operand, ?_, fun e _ usual e' given rest => rest e' given⟩
    rintro node name ⟨records, walked⟩ e' rfl
    rw [still]
    intro v read
    have held : env.contains name = true := by
      by_contra missing
      cases (if_neg missing).symm.trans walked
    exact Store.read_eq_ok_iff.mpr ((same.read held).trans (Store.read_eq_ok_iff.mp read))
  exact Rebuild.follows_onExpr (fun _ => rfl) keeps e inScope (still e).symm

/-- At a point where an assertion holds, what the statement there reads is in scope in the environment that the
assertion is about. -/
theorem scoped_of_seen (survey : Reaching.Survey f notes) (mem : s ∈ f.body.all)
    (seen : (notes.outline A fault).seen s.point c w) :
    ∃ env, A env w ∧ (∀ e ∈ s.exprs, Scoped env e) ∧ ∀ node name path value, s = .store node name path value →
    env.contains name = true := by
  obtain ⟨⟨before, after⟩, sub, noted, (walk : StmtWalk before s after sub), _⟩ := survey.spans.visits s mem
  obtain ⟨held, reads, _, rfl, _⟩ := walk
  refine ⟨evalEnv before s, ?_, scoped_of_exprs reads, ?_⟩
  · cases s with
    | loop =>
      obtain ⟨other, _, found, _, _, holds⟩ := seen
      cases span_unique survey.stmts found noted
      exact holds
    | _ => exact (seen_stmt survey noted).mp seen
  · rintro node name path value rfl
    exact held name mem_cons_self

end Flow

def Func.ReadsAt (f : Func) (p : Point) (e : Expr) : Prop :=
  ∃ s ∈ f.body.all, s.point = p ∧
    (e ∈ s.exprs ∨ ∃ node name path value, s = .store node name path value ∧ e = .var node name)

open Flow in
theorem Func.ReadsAt.follows (survey : Reaching.Survey f notes) (reads : f.ReadsAt p e)
    (seen : (notes.outline (SameValues known unset) fault).seen p c w) : Rebuild.Follows m c w.1 w.2 e e := by
  obtain ⟨s, mem, rfl, listed⟩ := reads
  obtain ⟨env, same, inScope, held⟩ := scoped_of_seen survey mem seen
  rcases listed with listed | ⟨node, name, path, value, rfl, rfl⟩
  · exact same.eval (inScope e listed)
  · intro v read
    have here := held node name path value rfl
    exact Store.read_eq_ok_iff.mpr ((same.read here).trans (Store.read_eq_ok_iff.mp read))

namespace Edit

open Flow Rebuild Outcome

def transitions : Transitions Edit Edit.State where
  makes := Makes
  of_pure := makes_pure.mp
  of_bind := makes_bind.mp

/-- Rewriting by an edit as a revision: a statement is rewritten after its parts, while all names of the function are
in use. -/
def revision (rewrite : Stmt → Edit (List Stmt)) (f : Func) : Revision where
  drops _ := False
  idle _ := False
  agrees p e e' := e' = e ∧ f.ReadsAt p e
  rewrites s s' out := s ∈ f.body.all ∧ ∃ t u, (∀ n ∈ f.allNames, n ∈ t.names.used) ∧
    Within t.names.used (Stmt.names [s']) ∧ Makes (rewrite s') t out u

theorem revises (rewrite : Stmt → Edit (List Stmt)) (first last : Edit.State)
    (used : ∀ n ∈ f.allNames, n ∈ first.names.used) :
    Revises transitions (·.names.used) Grows rewrite (revision rewrite f) f.body.all first last where
  agrees s mem e listed := ⟨rfl, s, mem, rfl, .inl listed⟩
  held s mem node name path value stores := by
    refine ⟨rfl, s, mem, by rw [stores]; rfl, .inr ⟨node, name, path, value, stores, rfl⟩⟩
  rewrites s mem s' t out u before after within made :=
    ⟨mem, t, u, fun n known => before n (used n known), within, made⟩

variable {m : Machine V C} {hooks : Rebuild Edit}

/-- A rewritten function returns what the function returns, if wherever the run comes by a statement that is rewritten,
what comes of it ends as the statement does. -/
theorem run_of_rewrites (rewrites : hooks.Rewrites rewrite)
    (careful : Careful transitions (·.names.used) Grows rewrite) (survey : Reaching.Survey f notes)
    (unset : Name → Prop) (fact : Moment V C → Prop)
    (sound : ∀ s s' out, (revision rewrite f).Shape s s' → (revision rewrite f).rewrites s s' out →
      ∀ c (σ τ : NumLang.State V), (notes.outline (SameValues (· ∈ f.allNames) unset) fun _ => True).Reached .pair fact
          (.stmt s.id) c (σ.store, τ.store) →
        (m.exec s c σ).Follows (fun _ => False)
          ((notes.outline (SameValues (· ∈ f.allNames) unset) fun _ => True).after s.id c) (m.exec s' c τ) →
        (m.exec s c σ).Follows (fun _ => False)
          ((notes.outline (SameValues (· ∈ f.allNames) unset) fun _ => True).after s.id c) (m.execStmts out c τ))
   
    (made : Makes (hooks.onBlock f.body) { session := session, names := .ofFunc f } body last) {c : C} {fuel : Nat}
    {free : Name → Option V} {args : List V} {v : V} (missing : ∀ n ∈ f.freeVars, free n = none → unset n)
    (facts : ∀ σ, Machine.start f free args = some σ → (m.execBlock f.body c ⟨σ, fuel⟩).Sees fact)
    (returns : m.run c fuel f free args = some v) : m.run c fuel { f with body := body } free args = some v := by
  have done := done_onBlock rewrites careful (revises rewrite { session := session, names := .ofFunc f } last
    fun _ known => known) f.body (fun _ => id) (within_allNames f) made
  have keeps : (revision rewrite f).Sound m fact (notes.outline (SameValues (· ∈ f.allNames) unset) fun _ => True) := by
    refine ⟨fun _ never => never.elim, fun _ never => never.elim, ?_, ?_⟩
    · rintro p e e' ⟨rfl, reads⟩ c w reached v
      exact reads.follows survey reached.1 v
    · exact fun s s' out shape treated c σ τ _ reached both => sound s s' out shape treated c σ τ reached both
  refine run_of_revision survey (upheld_sameValues m notes _ fun s mem n => Func.mem_allNames_of_binds mem) keeps
    (done.revised (.refl _) (.refl _)) rfl ?_ facts returns fun _ => id
  intro σ started
  refine sameValues_start started ?_ ?_ missing
  · intro n mem
    simp [Func.allNames, mem]
  · intro n mem
    simp [Func.allNames, mem]

end Edit

end NumLang
