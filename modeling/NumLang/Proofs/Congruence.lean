import NumLang.Proofs.Equivalence
import NumLang.Proofs.Threading

/-!
Equivalence of programs is equality of what is left of them without identities, locations and spellings, and so a
congruence.
-/

namespace NumLang

mutual

def Stmt.erase : Stmt → Stmt
  | .assign _ target ann value => .assign Expr.blank target ann value.erase
  | .store _ name path value => .store Expr.blank name (Expr.eraseAll path) value.erase
  | .when _ test body => .when Expr.blank test.erase body.erase
  | .branch _ test ift iff => .branch Expr.blank test.erase ift.erase iff.erase
  | .loop _ test body => .loop Expr.blank test.erase body.erase
  | .each _ target iterable body => .each Expr.blank target iterable.erase body.erase
  | .scope _ name ctx body => .scope Expr.blank name ctx.erase body.erase
  | .assert _ test msg => .assert Expr.blank test.erase (Expr.eraseOption msg)
  | .effect _ value => .effect Expr.blank value.erase
  | .ret _ value => .ret Expr.blank value.erase
  | .skip _ => .skip Expr.blank

def Block.erase : Block → Block
  | ⟨_, stmts⟩ => ⟨⟨0⟩, Stmt.eraseAll stmts⟩

def Stmt.eraseAll : List Stmt → List Stmt
  | [] => []
  | s :: rest => s.erase :: Stmt.eraseAll rest

end

/-- A function without identities, locations, metadata and captured values. -/
def Func.erase (f : Func) : Func :=
  { f with
    id := ⟨0⟩, params := f.params.map ({ · with id := ⟨0⟩, loc := none }), body := f.body.erase, metadata := ∅,
    env := ∅, loc := none }

mutual

theorem Stmt.equiv_iff (s t : Stmt) : s.equiv t = true ↔ s.erase = t.erase := by
  cases s <;> cases t <;> first
    | exact iff_of_false Bool.false_ne_true Stmt.noConfusion
    | simp [Stmt.equiv, Stmt.erase, Expr.equiv_iff, Expr.equivAll_iff, Expr.equivOption_iff, Block.equiv_iff, and_assoc]
termination_by structural s

theorem Block.equiv_iff (b d : Block) : b.equiv d = true ↔ b.erase = d.erase := by
  obtain ⟨_, ss⟩ := b
  obtain ⟨_, ts⟩ := d
  simp [Block.equiv, Block.erase, Stmt.equivAll_iff]

theorem Stmt.equivAll_iff (ss ts : List Stmt) : Stmt.equivAll ss ts = true ↔ Stmt.eraseAll ss = Stmt.eraseAll ts := by
  cases ss <;> cases ts <;> simp [Stmt.equivAll, Stmt.eraseAll, Stmt.equiv_iff, Stmt.equivAll_iff]

end

theorem Param.equivAll_iff (ps qs : List Param) : equivAll ps qs = true ↔
    ps.map ({ · with id := ⟨0⟩, loc := none }) = qs.map ({ · with id := ⟨0⟩, loc := none }) := by
  induction ps generalizing qs with
  | nil => cases qs <;> simp [equivAll]
  | cons p ps ih => cases qs <;> simp [equivAll, equiv, ih]

theorem Func.equiv_iff (f g : Func) : f.equiv g = true ↔ f.erase = g.erase := by
  simp [equiv, erase, Param.equivAll_iff, Block.equiv_iff, and_assoc]
  grind

theorem map_eq_of_forall₂ {α β : Type} {f : α → β} {as bs : List α} (same : Forall₂ (fun a b => f a = f b) as bs) :
    as.map f = bs.map f := by
  induction same with
  | nil => rfl
  | cons first _ ih => rw [map_cons, map_cons, first, ih]

namespace Expr

theorem eraseAll_eq (es : List Expr) : eraseAll es = es.map erase := by
  induction es with
  | nil => rfl
  | cons e rest ih => rw [eraseAll, ih, map_cons]

theorem eraseKeyed_eq (es : List (String × Expr)) : eraseKeyed es = es.map fun entry => (entry.1, entry.2.erase) := by
  induction es with
  | nil => rfl
  | cons entry rest ih => rw [eraseKeyed, ih, map_cons]

theorem eraseOption_eq (e : Option Expr) : eraseOption e = e.map erase := by cases e <;> rfl

theorem children_erase (e : Expr) : e.erase.children = e.children.map erase := by
  cases e <;> simp [erase, children, eraseAll_eq, eraseKeyed_eq, eraseOption_eq, Option.toList_map]

theorem erase_fill : (e : Expr) → (es : List Expr) → es.length = e.children.length →
    (e.fill es).erase = e.erase.fill (es.map erase)
  | .var .., [], _ | .lit .., [], _ | .const .., [], _ | .unary .., [_], _ | .binary .., [_, _], _
  | .index .., [_, _], _ | .ternary .., [_, _, _], _ | .cond .., [_, _, _], _ | .slice _ _ none none, [_], _
  | .slice _ _ (some _) none, [_, _], _ | .slice _ _ none (some _), [_, _], _
  | .slice _ _ (some _) (some _), [_, _, _], _ => rfl
  | .nary .., _, _ | .compare .., _, _ | .tuple .., _, _ | .list .., _, _ => by simp [fill, erase, eraseAll_eq]
  | .call _ _ _ args kwargs, es, _ | .context _ _ args kwargs, es, _ => by
    simp [fill, erase, eraseAll_eq, eraseKeyed_eq, List.map_take, ← List.map_drop, List.zip_eq_zipWith,
      List.map_zipWith, List.zipWith_map_right, Function.comp_def]
  | .comprehension _ _ rows elt, es, _ | .update _ _ rows elt, _ :: es, _ => by
    simp [fill, erase, eraseAll_eq, List.map_dropLast, Option.getD_map]

theorem equiv_fill (e : Expr) (es : List Expr)
    (parts : Forall₂ (fun part other => part.equiv other = true) e.children es) : e.equiv (e.fill es) = true := by
  have same := map_eq_of_forall₂ (parts.imp fun part other => (equiv_iff part other).mp)
  rw [equiv_iff, erase_fill e es parts.length_eq.symm, ← same, ← children_erase, fill_children]

end Expr

theorem Stmt.erase_fill : (s : Stmt) → (es : List Expr) → (bs : List Block) → es.length = s.exprs.length →
    bs.length = s.blocks.length → (s.fill es bs).erase = s.erase.fill (es.map Expr.erase) (bs.map Block.erase)
  | .assign .., [_], [], _, _ | .when .., [_], [_], _, _ | .branch .., [_], [_, _], _, _ | .loop .., [_], [_], _, _
  | .each .., [_], [_], _, _ | .scope .., [_], [_], _, _ | .assert _ _ none, [_], [], _, _
  | .assert _ _ (some _), [_, _], [], _, _ | .effect .., [_], [], _, _ | .ret .., [_], [], _, _
  | .skip .., [], [], _, _ => rfl
  | .store .., es, [], _, _ => by simp [fill, erase, Expr.eraseAll_eq, List.map_dropLast, Option.getD_map]

theorem Stmt.equiv_fill (s : Stmt) (es : List Expr) (bs : List Block)
    (exprs : Forall₂ (fun e other => e.equiv other = true) s.exprs es)
    (blocks : Forall₂ (fun b other => b.equiv other = true) s.blocks bs) : s.equiv (s.fill es bs) = true := by
  have sameExprs := map_eq_of_forall₂ (exprs.imp fun e other => (Expr.equiv_iff e other).mp)
  have sameBlocks := map_eq_of_forall₂ (blocks.imp fun b other => (Block.equiv_iff b other).mp)
  have parts : s.erase.exprs = s.exprs.map Expr.erase ∧ s.erase.blocks = s.blocks.map Block.erase := by
    cases s <;> simp [erase, Stmt.exprs, Stmt.blocks, Expr.eraseAll_eq, Expr.eraseOption_eq, Option.toList_map]
  rw [equiv_iff, erase_fill s es bs exprs.length_eq.symm blocks.length_eq.symm, ← sameExprs, ← sameBlocks, ← parts.1,
    ← parts.2, fill_self]

theorem Block.equiv_of_stmts {b d : Block} (stmts : Forall₂ (fun s other => s.equiv other = true) b.stmts d.stmts) :
    b.equiv d = true := by
  obtain ⟨_, ss⟩ := b
  obtain ⟨_, ts⟩ := d
  change Forall₂ _ ss ts at stmts
  rw [equiv]
  induction stmts with
  | nil => rfl
  | cons first _ ih => rw [Stmt.equivAll, first, ih, Bool.and_self]

theorem equivalence_of_iff {α β : Type} {same : α → α → Bool} {f : α → β} (known : ∀ a b, same a b = true ↔ f a = f b) :
    Equivalence fun a b => same a b = true := by
  simp only [known]
  exact ⟨fun _ => rfl, Eq.symm, Eq.trans⟩

/-- Equivalence compares programs without what is erased, is an equivalence relation, and holds between programs
that differ in equivalent parts. -/
theorem equiv_congruence :
    (∀ a b : Expr, a.equiv b = true ↔ a.erase = b.erase) ∧ (∀ s t : Stmt, s.equiv t = true ↔ s.erase = t.erase) ∧
    (∀ b d : Block, b.equiv d = true ↔ b.erase = d.erase) ∧ (∀ f g : Func, f.equiv g = true ↔ f.erase = g.erase) ∧
    Equivalence (fun a b : Expr => a.equiv b = true) ∧ Equivalence (fun s t : Stmt => s.equiv t = true) ∧
    Equivalence (fun b d : Block => b.equiv d = true) ∧ Equivalence (fun f g : Func => f.equiv g = true) ∧
    (∀ (e : Expr) es, Forall₂ (fun part other => part.equiv other = true) e.children es → e.equiv (e.fill es) = true) ∧
    (∀ (s : Stmt) es bs, Forall₂ (fun e other => e.equiv other = true) s.exprs es →
      Forall₂ (fun b other => b.equiv other = true) s.blocks bs → s.equiv (s.fill es bs) = true) ∧
    (∀ b d : Block, Forall₂ (fun s other => s.equiv other = true) b.stmts d.stmts → b.equiv d = true) ∧
    ∀ (f : Func) b, f.body.equiv b = true → f.equiv { f with body := b } = true := by
  refine ⟨Expr.equiv_iff, Stmt.equiv_iff, Block.equiv_iff, Func.equiv_iff, equivalence_of_iff Expr.equiv_iff,
    equivalence_of_iff Stmt.equiv_iff, equivalence_of_iff Block.equiv_iff, equivalence_of_iff Func.equiv_iff,
    Expr.equiv_fill, Stmt.equiv_fill, fun _ _ => Block.equiv_of_stmts, fun f b body => ?_⟩
  rw [Func.equiv_iff, Func.erase, Func.erase, (Block.equiv_iff _ _).mp body]

theorem equiv_congruence_tuple :
    let e : Expr := .tuple ⟨⟨0⟩, none⟩ [.var ⟨⟨1⟩, none⟩ ⟨"x", none⟩]
    e.equiv (e.fill [.var ⟨⟨2⟩, none⟩ ⟨"x", none⟩]) = true :=
  equiv_congruence.2.2.2.2.2.2.2.2.1 _ _ (.cons (by decide) .nil)

end NumLang
