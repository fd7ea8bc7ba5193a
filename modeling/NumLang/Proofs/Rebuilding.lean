import NumLang.Proofs.Simulation
import NumLang.Proofs.Threading

/-!
Rebuilt programs are revised programs.
-/

namespace NumLang

variable {es' es : List Expr} {e' : Expr}

/-- What computations of a monad may give, in a setting from `ι`. -/
structure Results (m : Type → Type) [Monad m] (ι : Type) where
  gives : {α : Type} → ι → m α → α → Prop
  of_pure : ∀ {α : Type} {i : ι} {a b : α}, gives i (pure a) b → b = a
  of_bind : ∀ {α β : Type} {i : ι} {x : m α} {k : α → m β} {b : β}, gives i (x >>= k) b →
    ∃ a, gives i x a ∧ gives i (k a) b

def Results.logic {m : Type → Type} [Monad m] {ι : Type} (res : Results m ι) : Logic m ι where
  leads i x post := ∀ a, res.gives i x a → post a i
  pure here _ given := res.of_pure given ▸ here
  bind first b given := by
    obtain ⟨a, found, rest⟩ := res.of_bind given
    exact first a found b rest
  imp first stronger a given := stronger a _ (first a given)

def Results.only {m : Type → Type} [Monad m] {ι : Type} (res : Results m ι) (i : ι) : Logic m Unit where
  leads _ x post := ∀ a, res.gives i x a → post a ()
  pure here _ given := res.of_pure given ▸ here
  bind first b given := by
    obtain ⟨a, found, rest⟩ := res.of_bind given
    exact first a found b rest
  imp first stronger a given := stronger a _ (first a given)

namespace Revision

variable {R : Revision}

theorem agreesAll_of_forall₂ (each : Forall₂ (R.agrees p) es es') : R.AgreesAll p es es' := by
  induction each with
  | nil => trivial
  | cons first _ ih => exact ⟨first, ih⟩

/-- A statement put together again from revised parts has the shape of the statement. -/
theorem shape_of_rebuilt {s s' : Stmt} (rebuilt : s.Rebuilt s') (own : Forall₂ (R.agrees s.point) s.exprs s'.exprs)
    (inner : Forall₂ R.OnBlock s.blocks s'.blocks)
    (held : ∀ node name path value, s = .store node name path value →
      R.agrees (.stmt node.id) (.var node name) (.var node name)) : R.Shape s s' := by
  cases rebuilt with
  | assign => exact .assign (forall₂_cons.mp own).1
  | store same =>
    obtain ⟨places, last⟩ := forall₂_split same own
    exact .store (agreesAll_of_forall₂ places) (forall₂_cons.mp last).1 (held _ _ _ _ rfl)
  | when => exact .when (forall₂_cons.mp own).1 (forall₂_cons.mp inner).1
  | branch =>
    obtain ⟨left, rest⟩ := forall₂_cons.mp inner
    exact .branch (forall₂_cons.mp own).1 left (forall₂_cons.mp rest).1
  | loop => exact .loop (forall₂_cons.mp own).1 (forall₂_cons.mp inner).1
  | each => exact .each (forall₂_cons.mp own).1 (forall₂_cons.mp inner).1
  | scope => exact .scope (forall₂_cons.mp own).1 (forall₂_cons.mp inner).1
  | assert => exact .assert (forall₂_cons.mp own).1
  | effect => exact .effect (forall₂_cons.mp own).1
  | ret => exact .ret (forall₂_cons.mp own).1
  | skip => exact .skip

end Revision

namespace Rebuild

variable {m : Type → Type} [Monad m] {ι : Type} {res : Results m ι} {hooks : Rebuild m}

/-- The hooks of a rebuild keep to a revision at the statements of a program. The setting of the expressions
of a statement is one of its own. -/
structure Keeps (res : Results m ι) (hooks : Rebuild m) (R : Revision) (own : Stmt → ι → Prop)
    (stmts : List Stmt) : Prop where
  name : ∀ n, hooks.name n = pure n
  stmt : ∀ s ∈ stmts, ∀ i usual out, res.gives i (hooks.stmt s usual) out →
    (R.drops s ∧ out = []) ∨ ∃ j s', own s j ∧ res.gives j usual s' ∧ (out = [s'] ∨ out = [] ∧ R.idle s')
  block : ∀ i b usual b', res.gives i (hooks.block b usual) b' →
    ∃ inner, res.gives i usual inner ∧ b'.id = inner.id ∧ Stmt.active b'.stmts = Stmt.active inner.stmts
  expr : ∀ s ∈ stmts, ∀ j, own s j → ∀ e ∈ s.exprs, ∀ e', res.gives j (hooks.onExpr e) e' → R.agrees s.point e e'
  held : ∀ s ∈ stmts, ∀ node name path value, s = .store node name path value →
    R.agrees (.stmt node.id) (.var node name) (.var node name)

variable {R : Revision} {own : Stmt → ι → Prop} {stmts : List Stmt}

/-- What blocks and statements are rebuilt to is a revision of them, if they are of the given ones. -/
theorem Keeps.weaves (keeps : hooks.Keeps res R own stmts) : Weaves res.logic hooks
    (fun i j es es' => j = i ∧ Forall₂ (fun e e' => res.gives i (hooks.onExpr e) e') es es')
    (fun _ _ bs bs' => (∀ b ∈ bs, ∀ part ∈ b.all, part ∈ stmts) → Forall₂ R.OnBlock bs bs')
    (fun _ _ body body' => (∀ part ∈ Stmt.allOf body, part ∈ stmts) → R.OnStmts body body') where
  name := keeps.name
  nil _ := ⟨rfl, .nil⟩
  append := by
    rintro i _ _ _ _ _ _ ⟨rfl, first⟩ ⟨rfl, others⟩
    exact ⟨rfl, rel_append first others⟩
  length made := made.2.length_eq
  onExpr _ _ _ given := ⟨rfl, .cons given .nil⟩
  noBlocks _ _ := .nil
  blocks first second within := by
    obtain ⟨here, there⟩ := forall_mem_append.mp within
    exact rel_append (first here) (second there)
  noStmts _ _ := .nil
  stmts {_ _ _ st rest out others} first second within := by
    rw [Stmt.allOf, forall_mem_append] at within
    have head := first (by simpa [Stmt.allOf] using within.1)
    cases head with
    | cons head tail =>
      cases tail
      rw [append_nil]
      exact .cons head (second within.2)
  stmt {st usual} inside i out given within := by
    simp only [Stmt.allOf, append_nil] at within
    have mem := within st (Stmt.mem_all st)
    have shaped : ∀ j s', own st j → res.gives j usual s' → R.Shape st s' := by
      intro j s' here found
      obtain ⟨rebuilt, _, ⟨rfl, exprs⟩, blocks⟩ := inside j s' found
      refine Revision.shape_of_rebuilt rebuilt ?_ (blocks fun b listed part inner => within part ?_) (keeps.held st mem)
      · refine List.forall₂_iff_zip.mpr ⟨exprs.length_eq, fun listed => ?_⟩
        exact keeps.expr st mem _ here _ (List.of_mem_zip listed).1 _ ((List.forall₂_iff_zip.mp exprs).2 listed)
      · rw [st.all_eq]
        exact mem_cons_of_mem _ (mem_flatMap.mpr ⟨b, listed, inner⟩)
    have single : R.OnStmt st out := by
      rcases keeps.stmt st mem i usual out given with ⟨drops, rfl⟩ | ⟨j, s', here, found, rfl | ⟨rfl, idle⟩⟩
      · exact .drop drops
      · exact .keep (shaped j s' here found)
      · exact .idle (shaped j s' here found) idle
    simpa using Revision.OnStmts.cons single .nil
  block {b usual} inside i b' given within := by
    obtain ⟨inner, found, same, active⟩ := keeps.block i b usual b' given
    obtain ⟨again, revised⟩ := inside i inner found
    obtain ⟨id, body⟩ := b
    obtain ⟨id', filled⟩ := b'
    cases same.trans again
    exact .cons (.block (revised (within _ mem_cons_self)) active) .nil

theorem revises_onBlock [LawfulMonad m] (keeps : hooks.Keeps res R own stmts) (b : Block)
    (within : ∀ part ∈ b.all, part ∈ stmts) (given : res.gives i (hooks.onBlock b) b') : R.OnBlock b b' :=
  (forall₂_cons.mp (weaves_onBlock keeps.weaves b i b' given (by simpa using within))).1

section Values

variable {V C : Type} {mach : Machine V C} {c : C} {σ τ : Store V} {j : ι} {P : Expr → Prop}

def Follows (mach : Machine V C) (c : C) (σ τ : Store V) (e e' : Expr) : Prop :=
  ∀ v, mach.eval c σ e = .ok v → mach.eval c τ e' = .ok v

/-- The hooks of a rebuild keep the values of the expressions with a property, given that the usual action
does, and of the variables in any case. -/
structure Preserves (res : Results m ι) (hooks : Rebuild m) (mach : Machine V C) (c : C) (σ τ : Store V) (j : ι)
    (P : Expr → Prop) : Prop where
  operand : ∀ e, P e → ∀ part ∈ e.operands, P part
  var : ∀ node name, P (.var node name) → ∀ e', res.gives j (hooks.onExpr (.var node name)) e' →
    Follows mach c σ τ (.var node name) e'
  expr : ∀ e, P e → ∀ usual e', res.gives j (hooks.expr e usual) e' →
    (∀ inner, res.gives j usual inner → Follows mach c σ τ e inner) → Follows mach c σ τ e e'

theorem follows_evalAll (each : Forall₂ (Follows mach c σ τ) es es') :
    ∀ vs, mach.evalAll c σ es = .ok vs → mach.evalAll c τ es' = .ok vs := by
  induction each with
  | nil => exact fun _ => id
  | cons first _ ih =>
    intro vs computed
    obtain ⟨a, head, computed⟩ := bind_ok.mp computed
    obtain ⟨more, tail, result⟩ := bind_ok.mp computed
    exact bind_ok.mpr ⟨a, first a head, bind_ok.mpr ⟨more, ih more tail, result⟩⟩

theorem follows_onExpr [LawfulMonad m] (plain : ∀ n, hooks.name n = pure n) (keeps : hooks.Preserves res mach c σ τ j P)
    (e : Expr) (holds : P e) (given : res.gives j (hooks.onExpr e) e') : Follows mach c σ τ e e' := by
  have chains : Chains hooks fun (_ _ : Unit) es es' => Forall₂ (fun e e' => P e → Follows mach c σ τ e e') es es' :=
    ⟨plain, fun _ => .nil, fun first second => rel_append first second, fun made => made.length_eq⟩
  induction e using Expr.byChildren generalizing e' with
  | step e ih =>
    obtain ⟨usual, whole, layer⟩ := chains.layer (res.only j) e
    have inside := layer fun part mem _ e' given => .cons (fun holds => ih part mem holds given) .nil
    cases e.valued with
    | var => exact keeps.var _ _ holds _ given
    | none valueless =>
      intro v computed
      rw [mach.eval_valueless valueless] at computed
      cases computed
    | lit =>
      refine keeps.expr _ holds _ _ (whole ▸ given) fun inner found v computed => ?_
      exact (inside () inner found).1.filled ▸ computed
    | cond =>
      refine keeps.expr _ holds _ _ (whole ▸ given) fun inner found v computed => ?_
      obtain ⟨⟨count, filled⟩, parts⟩ := inside () inner found
      obtain ⟨x, y, z, three⟩ := List.length_eq_three.mp count
      rw [three] at filled parts
      cases filled
      obtain ⟨test, others⟩ := forall₂_cons.mp parts
      obtain ⟨ift, others⟩ := forall₂_cons.mp others
      obtain ⟨iff, _⟩ := forall₂_cons.mp others
      obtain ⟨a, tested, computed⟩ := bind_ok.mp computed
      obtain ⟨b, decided, rest⟩ := bind_ok.mp computed
      have below := keeps.operand _ holds
      refine bind_ok.mpr ⟨a, test (below _ (by simp [Expr.operands])) a tested, bind_ok.mpr ⟨b, decided, ?_⟩⟩
      cases b with
      | true => exact ift (below _ (by simp [Expr.operands])) v rest
      | false => exact iff (below _ (by simp [Expr.operands])) v rest
    | form formed =>
      refine keeps.expr _ holds _ _ (whole ▸ given) fun inner found v computed => ?_
      obtain ⟨rebuilt, parts⟩ := inside () inner found
      have below := keeps.operand _ holds
      rw [Expr.operands_of_form formed] at below
      have row : Forall₂ (Follows mach c σ τ) e.children inner.children :=
        List.forall₂_iff_zip.mpr ⟨parts.length_eq, fun listed =>
          (List.forall₂_iff_zip.mp parts).2 listed (below _ (List.of_mem_zip listed).1)⟩
      rw [mach.eval_form formed] at computed
      obtain ⟨vs, all, applied⟩ := bind_ok.mp computed
      rw [mach.eval_form (rebuilt.valued.1.trans formed)]
      exact bind_ok.mpr ⟨vs, follows_evalAll row vs all, applied⟩

end Values

end Rebuild

end NumLang
