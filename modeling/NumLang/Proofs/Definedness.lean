import NumLang.Proofs.Scoping

/-!
Definedness. A statement needs some names to be defined before it, and some names are defined after it whatever was
defined before.
-/

namespace NumLang

variable {es : List Expr}

mutual

/-- The names that are defined after a statement, whatever is defined before it. -/
def Stmt.defines : Stmt → NameSet
  | .assign _ target _ _ => OrdSet.ofList target.names
  | .branch _ _ ift iff => ift.defines ∩ iff.defines
  | .scope _ name _ body => OrdSet.ofList name.toList ∪ body.defines
  | .store .. | .when .. | .loop .. | .each .. | .assert .. | .effect .. | .ret .. | .skip .. => ∅

def Block.defines : Block → NameSet
  | ⟨_, stmts⟩ => Stmt.definesAll stmts

def Stmt.definesAll : List Stmt → NameSet
  | [] => ∅
  | s :: rest => s.defines ∪ Stmt.definesAll rest

end

mutual

def Stmt.needs : Stmt → NameSet
  | .assign _ _ _ value | .effect _ value | .ret _ value => value.uses
  | .store _ name path value => OrdSet.singleton name ∪ Expr.usesAll path ∪ value.uses
  | .when _ test body | .loop _ test body => test.uses ∪ body.needs
  | .branch _ test ift iff => test.uses ∪ ift.needs ∪ iff.needs
  | .each _ target iterable body => iterable.uses ∪ (body.needs \ OrdSet.ofList target.names)
  | .scope _ name ctx body => ctx.uses ∪ (body.needs \ OrdSet.ofList name.toList)
  | .assert _ test msg => test.uses ∪ Expr.usesOption msg
  | .skip _ => ∅

def Block.needs : Block → NameSet
  | ⟨_, stmts⟩ => Stmt.needsAll stmts

def Stmt.needsAll : List Stmt → NameSet
  | [] => ∅
  | s :: rest => s.needs ∪ (Stmt.needsAll rest \ s.defines)

end

theorem Block.defines_eq (b : Block) : b.defines = Stmt.definesAll b.stmts := by
  cases b
  rfl

theorem Block.needs_eq (b : Block) : b.needs = Stmt.needsAll b.stmts := by
  cases b
  rfl

namespace Stmt

variable {n : Name} {stmts others : List Stmt} {s : Stmt}

theorem mem_definesAll_append : n ∈ definesAll (stmts ++ others) ↔ n ∈ definesAll stmts ∨ n ∈ definesAll others := by
  induction stmts with
  | nil => simp [definesAll]
  | cons s rest ih => simp [definesAll, ih, or_assoc]

theorem mem_needsAll_append : n ∈ needsAll (stmts ++ others) ↔
    n ∈ needsAll stmts ∨ n ∈ needsAll others ∧ n ∉ definesAll stmts := by
  induction stmts with
  | nil => simp [needsAll, definesAll]
  | cons s rest ih =>
    simp only [cons_append, needsAll, definesAll, mem_union, mem_diff, ih, not_or]
    grind

@[simp] theorem mem_needsAll_single : n ∈ needsAll [s] ↔ n ∈ s.needs := by simp [needsAll]

@[simp] theorem mem_definesAll_single : n ∈ definesAll [s] ↔ n ∈ s.defines := by simp [definesAll]

end Stmt

/-! ### Well-made parts -/

mutual

def Expr.layout : Expr → Binder
  | .tuple _ elts => .tuple (Expr.layouts elts)
  | _ => .wildcard

def Expr.layouts : List Expr → List Binder
  | [] => []
  | e :: rest => e.layout :: Expr.layouts rest

end

mutual

def Binder.Fits : Binder → Binder → Prop
  | .tuple parts, .tuple values => parts.length = values.length ∧ Binder.FitsAll parts values
  | _, _ => True

def Binder.FitsAll : List Binder → List Binder → Prop
  | b :: bs, v :: vs => b.Fits v ∧ Binder.FitsAll bs vs
  | _, _ => True

end

def Name.IsPlain (n : Name) : Prop := n.base ≠ "_"

def Expr.Formed : Expr → Prop
  | .compare _ ops args => ops.length + 1 = args.length
  | .comprehension _ targets iterables _ => targets.length = iterables.length ∧
    (∀ n ∈ Binder.namesAll targets, n.IsPlain) ∧ ∀ target ∈ targets, target.names.Nodup
  | _ => True

def Expr.WellMade (e : Expr) : Prop := ∀ part ∈ e.all, part.Formed

def Stmt.Bound : Stmt → Prop
  | .assign _ target _ value => target.names.Nodup ∧ target.Fits value.layout
  | .each _ target _ _ => target.names.Nodup
  | _ => True

/-- What is asked of a statement, but not of those in it. -/
structure Stmt.Formed (s : Stmt) : Prop where
  names : ∀ n ∈ s.binds, n.IsPlain
  exprs : ∀ e ∈ s.exprs, e.WellMade
  bound : s.Bound
  blocks : ∀ b ∈ s.blocks, b.stmts ≠ []

def Stmt.WellMade (stmts : List Stmt) : Prop := ∀ s ∈ Stmt.allOf stmts, s.Formed

namespace Stmt

variable {s : Stmt} {stmts others : List Stmt}

theorem wellMade_append : WellMade (stmts ++ others) ↔ WellMade stmts ∧ WellMade others := by
  unfold WellMade
  rw [allOf_append]
  exact forall_mem_append

theorem wellMade_cons : WellMade (s :: others) ↔ WellMade [s] ∧ WellMade others :=
  @wellMade_append [s] others

theorem wellMade_nil : WellMade [] := nofun

theorem forall_allOf_single {P : Stmt → Prop} :
    (∀ t ∈ allOf [s], P t) ↔ P s ∧ ∀ b ∈ s.blocks, ∀ t ∈ allOf b.stmts, P t := by
  have parts : allOf [s] = s :: s.blocks.flatMap fun b => allOf b.stmts := by
    rw [allOf, allOf, append_nil, all_eq, funext Block.all_eq]
  rw [parts, forall_mem_cons]
  simp only [mem_flatMap, forall_exists_index, and_imp]
  exact and_congr_right fun _ => ⟨fun each b mem t inside => each t b mem inside,
    fun each t b mem inside => each b mem t inside⟩

theorem wellMade_single : WellMade [s] ↔ s.Formed ∧ ∀ b ∈ s.blocks, WellMade b.stmts := forall_allOf_single

end Stmt

/-! ### Well-formed functions -/

def Succeeds {α : Type} (x : Except Error α) : Prop := ∃ a, x = .ok a

section Succeeds

variable {α β : Type} {x : Except Error α} {k : α → Except Error β} {P : Prop}

theorem succeeds_bind : Succeeds (x >>= k) ↔ ∃ a, x = .ok a ∧ Succeeds (k a) := by
  constructor
  · rintro ⟨b, ran⟩
    obtain ⟨a, first, rest⟩ := bind_ok.mp ran
    exact ⟨a, first, b, rest⟩
  · rintro ⟨a, first, b, rest⟩
    exact ⟨b, bind_ok.mpr ⟨a, first, rest⟩⟩

theorem succeeds_then (rest : ∀ a, Succeeds (k a) ↔ P) : Succeeds (x >>= k) ↔ Succeeds x ∧ P := by
  rw [succeeds_bind]
  simp only [rest]
  exact ⟨fun ⟨a, first, last⟩ => ⟨⟨a, first⟩, last⟩, fun ⟨⟨a, first⟩, last⟩ => ⟨a, first, last⟩⟩

theorem succeeds_pure (a : α) : Succeeds (pure a : Except Error α) ↔ True := iff_true_intro ⟨a, rfl⟩

theorem ok_iff_succeeds {x : Except Error Unit} : x = .ok () ↔ Succeeds x :=
  ⟨fun ran => ⟨(), ran⟩, fun ⟨_, ran⟩ => ran⟩

theorem succeeds_ite_throw [Decidable P] : Succeeds (if P then throw e else x) ↔ ¬ P ∧ Succeeds x := by
  split
  · rename_i holds
    exact ⟨fun ⟨_, ran⟩ => (nomatch ran), fun ⟨fails, _⟩ => absurd holds fails⟩
  · rename_i fails
    exact ⟨fun succeeds => ⟨fails, succeeds⟩, And.right⟩

end Succeeds

def Expr.Distinct : Expr → Prop
  | .comprehension _ targets _ _ => ∀ target ∈ targets, target.names.Nodup
  | _ => True

def Stmt.Binding (s : Stmt) : Prop := s.Bound ∧ ∀ e ∈ s.exprs, ∀ part ∈ e.all, part.Distinct

namespace Flow

variable {env : Env} {names : List Name} {rest : List Stmt}

theorem firstRepeated_eq_none : firstRepeated seen names = none ↔ (∀ n ∈ names, n ∉ seen) ∧ names.Nodup := by
  induction names generalizing seen with
  | nil => simp [firstRepeated]
  | cons n rest ih =>
    by_cases before : n ∈ seen
    · simp [firstRepeated, before]
    · simp only [firstRepeated, if_neg before, ih, nodup_cons, mem_cons, not_or, forall_eq_or_imp]
      constructor
      · rintro ⟨apart, distinct⟩
        exact ⟨⟨before, fun m mem => (apart m mem).2⟩, fun mem => (apart n mem).1 rfl, distinct⟩
      · rintro ⟨⟨_, apart⟩, fresh, distinct⟩
        exact ⟨fun m mem => ⟨fun same => fresh (same ▸ mem), apart m mem⟩, distinct⟩

variable {site : NodeId} {e : Expr} {s : Stmt}

theorem succeeds_checkDistinct {target : Binder} : Succeeds (checkDistinct site target) ↔ target.names.Nodup := by
  have none : firstRepeated [] target.names = none ↔ target.names.Nodup := by
    simp [firstRepeated_eq_none]
  rw [← none, checkDistinct]
  cases firstRepeated [] target.names with
  | none => exact ⟨fun _ => rfl, fun _ => ⟨(), rfl⟩⟩
  | some n => exact ⟨fun ⟨_, ran⟩ => (nomatch ran), nofun⟩

theorem succeeds_checkAllDistinct :
    Succeeds (checkAllDistinct site targets) ↔ ∀ target ∈ targets, target.names.Nodup := by
  induction targets with
  | nil => simp [checkAllDistinct, succeeds_pure]
  | cons target rest ih => rw [checkAllDistinct, succeeds_then fun _ => ih, succeeds_checkDistinct, forall_mem_cons]

mutual

theorem succeeds_checkArity (site : NodeId) : (target : Binder) → (value : Expr) →
    (Succeeds (checkArity site target value) ↔ target.Fits value.layout)
  | .tuple parts, value => by
    cases value with
    | tuple _ values =>
      have length : (Expr.layouts values).length = values.length := by
        induction values with
        | nil => rfl
        | cons e rest ih => simp [Expr.layouts, ih]
      rw [checkArity, succeeds_ite_throw, Expr.layout, Binder.Fits, succeeds_checkArities site parts values, length,
        ne_eq, not_not]
    | _ => simp [checkArity, Expr.layout, Binder.Fits, succeeds_pure]
  | .wildcard, _ | .name _, _ => by simp [checkArity, Binder.Fits, succeeds_pure]

theorem succeeds_checkArities (site : NodeId) : (targets : List Binder) → (values : List Expr) →
    (Succeeds (checkArities site targets values) ↔ Binder.FitsAll targets (Expr.layouts values))
  | b :: bs, v :: vs => by
    rw [checkArities, succeeds_then fun _ => succeeds_checkArities site bs vs, succeeds_checkArity site b v,
      Expr.layouts, Binder.FitsAll]
  | [], _ | _ :: _, [] => by simp [checkArities, Expr.layouts, Binder.FitsAll, succeeds_pure]

end

theorem scoped_iff_of_children (parts : e.onlyParts = true) (distinct : e.Distinct)
    (each : ∀ part ∈ e.children, (Scoped env part ↔ (∀ n ∈ part.uses, env.contains n = true) ∧ ∀ inner ∈ part.all,
    inner.Distinct)) : Scoped env e ↔ (∀ n ∈ e.uses, env.contains n = true) ∧ e.Distinct ∧
    ∀ part ∈ Expr.allOf e.children, part.Distinct := by
  rw [scoped_iff_children parts, forall₂_congr each, forall₂_and, and_iff_right distinct]
  simp only [Expr.mem_uses_of_onlyParts parts, Expr.mem_allOf_iff]
  exact and_congr
    ⟨fun each n ⟨part, mem, used⟩ => each part mem n used, fun each part mem n used => each n ⟨part, mem, used⟩⟩
    ⟨fun each inner ⟨part, mem, inside⟩ => each part mem inner inside,
      fun each part mem inner inside => each inner ⟨part, mem, inside⟩⟩

/-- An expression is in scope where the names that it reads from outside are defined. -/
theorem scoped_iff : Scoped env e ↔ (∀ n ∈ e.uses, env.contains n = true) ∧ ∀ part ∈ e.all, part.Distinct :=
    by
  induction e using Expr.byChildren generalizing env with
  | step e ih =>
    rw [Expr.all_eq, forall_mem_cons]
    cases e with
    | var node name =>
      have own : ∀ n, n ∈ (Expr.var node name).uses ↔ n = name := fun n => OrdSet.mem_singleton
      simp [scoped_var, own, Expr.children, Expr.allOf, Expr.Distinct]
    | comprehension node targets iterables elt =>
      have inner : elt ∈ (Expr.comprehension node targets iterables elt).children := mem_append_right _ mem_cons_self
      rw [scoped_comprehension, ok_iff_succeeds, succeeds_checkAllDistinct, ih elt inner]
      have outer : (∀ e ∈ iterables, Scoped env e) ↔ (∀ e ∈ iterables, ∀ n ∈ e.uses, env.contains n = true) ∧
          ∀ e ∈ iterables, ∀ part ∈ e.all, part.Distinct := by
        rw [← forall₂_and]
        exact forall₂_congr fun e mem => ih e (mem_append_left _ mem)
      rw [outer]
      simp only [Expr.mem_uses_comprehension, Binder.nameSet, mem_ofList, contains_bound, Expr.children, Expr.mem_allOf_iff, mem_append,
        mem_singleton, Expr.Distinct]
      constructor
      · rintro ⟨⟨reads, apart⟩, distinct, within, parts⟩
        refine ⟨fun n used => ?_, distinct, ?_⟩
        · rcases used with ⟨e, mem, used⟩ | ⟨used, outside⟩
          · exact reads e mem n used
          · exact (within n used).resolve_left outside
        · rintro part ⟨e, mem | rfl, inside⟩
          · exact apart e mem part inside
          · exact parts part inside
      · rintro ⟨reads, distinct, apart⟩
        refine ⟨⟨fun e mem n used => reads n (.inl ⟨e, mem, used⟩), fun e mem part inside =>
          apart part ⟨e, .inl mem, inside⟩⟩, distinct, fun n used => ?_, fun part inside =>
          apart part ⟨elt, .inr rfl, inside⟩⟩
        by_cases named : n ∈ Binder.namesAll targets
        · exact .inl named
        · exact .inr (reads n (.inr ⟨used, named⟩))
    | _ => exact scoped_iff_of_children rfl trivial fun part mem => ih part mem

theorem contains_branchEnv_iff {first second : Env} :
    (branchEnv site first second).contains n = true ↔ first.contains n = true ∧ second.contains n = true := by
  unfold OrdMap.contains
  rw [branchEnv, OrdMap.get?_filterMap]
  cases first.get? n <;> simp

/-- After a statement, the names are defined that were so before it and those that it defines. -/
theorem contains_outEnv (held : ∀ n ∈ s.reads, (evalEnv env s).contains n = true)
    (inner : Forall₂ (fun b out => out.contains n = true ↔ (startEnv env s).contains n = true ∨ n ∈ b.defines) s.blocks
    outs) : (outEnv env s outs).contains n = true ↔ env.contains n = true ∨ n ∈ s.defines := by
  cases s with
  | assign => exact contains_bound.trans (by simp [headEnv, Stmt.binds, Stmt.defines, or_comm])
  | store =>
    refine contains_bound.trans ⟨?_, fun either => .inr (either.resolve_right (by simp [Stmt.defines]))⟩
    rintro (named | present)
    · exact .inl (held n named)
    · exact .inl present
  | when | loop | each =>
    obtain _ | ⟨_, _ | _⟩ := inner
    simp [outEnv, headEnv, loopHead, OrdMap.contains_mapValues, Stmt.defines]
  | branch =>
    obtain _ | ⟨left, _ | ⟨right, _ | _⟩⟩ := inner
    rw [outEnv, contains_branchEnv_iff, left, right, Stmt.defines, mem_inter, or_and_left]
    rfl
  | scope =>
    obtain _ | ⟨inside, _ | _⟩ := inner
    simp only [outEnv, inside, startEnv, headEnv, contains_bound, Stmt.binds, Stmt.defines, mem_union, mem_ofList]
    grind
  | assert | effect | ret | skip => simp [outEnv, startEnv, headEnv, Stmt.defines, Stmt.binds, bound, bindNames]

mutual

theorem ArmsWalk.contains_iff {env : Env} :
    ArmsWalk env blocks outs notes → Forall₂ (fun b out => out.contains n = true ↔ env.contains n = true ∨ n ∈
    b.defines) blocks outs
  | .nil => .nil
  | .cons (.block inside) tail => .cons (Block.defines_eq _ ▸ inside.contains_iff) tail.contains_iff

theorem StmtsWalk.contains_iff {env after : Env} :
    StmtsWalk env stmts after notes → (after.contains n = true ↔ env.contains n = true ∨ n ∈ Stmt.definesAll stmts)
  | .nil => by simp [Stmt.definesAll]
  | .cons (.stmt held _ arms out _) tail => by
    rw [tail.contains_iff, out, contains_outEnv held arms.contains_iff, Stmt.definesAll, mem_union, or_assoc]

end

theorem StmtWalk.contains_iff {env after : Env} (walk : StmtWalk env s after notes) :
    after.contains n = true ↔ env.contains n = true ∨ n ∈ s.defines := by
  obtain ⟨held, _, arms, rfl, _⟩ := walk
  exact contains_outEnv held arms.contains_iff

def Bindable (stmts : List Stmt) : Prop := ∀ s ∈ Stmt.allOf stmts, s.Binding

theorem bindable_single : Bindable [s] ↔ s.Binding ∧ ∀ b ∈ s.blocks, Bindable b.stmts :=
  Stmt.forall_allOf_single

theorem bindable_cons : Bindable (s :: rest) ↔ Bindable [s] ∧ Bindable rest := by
  unfold Bindable
  rw [← singleton_append, Stmt.allOf_append]
  exact forall_mem_append

theorem succeeds_ofExpr : Succeeds (ofExpr env e) ↔ (∀ n ∈ e.uses, env.contains n = true) ∧ ∀ part ∈ e.all,
    part.Distinct := scoped_iff

theorem succeeds_ofExprs : Succeeds (ofExprs env es) ↔
    (∀ n ∈ Expr.usesAll es, env.contains n = true) ∧ ∀ e ∈ es, ∀ part ∈ e.all, part.Distinct := by
  have each : Succeeds (ofExprs env es) ↔ ∀ e ∈ es, Scoped env e := exists_ofExprs
  simp only [each, scoped_iff, Expr.mem_usesAll, forall_exists_index, and_imp, forall₂_and]
  exact and_congr_left fun _ => ⟨fun each n e mem used => each e mem n used, fun each e mem n used => each n e mem used⟩

theorem held_needsAll_cons :
    (∀ n ∈ Stmt.needsAll (s :: rest), env.contains n = true) ↔ (∀ n ∈ s.needs, env.contains n = true) ∧ ∀ n ∈
      Stmt.needsAll rest, env.contains n = true ∨ n ∈ s.defines := by
  simp only [Stmt.needsAll, mem_union, mem_diff, or_imp, forall_and, and_imp]
  exact and_congr_right fun _ => forall₂_congr fun n _ => or_iff_not_imp_right.symm

/-- What a statement needs is what it and its expressions read and what its blocks need besides what is bound there. -/
theorem held_needs : (∀ n ∈ s.needs, env.contains n = true) ↔ (∀ n ∈ s.reads, env.contains n = true) ∧
    (∀ n ∈ Expr.usesAll s.exprs, (evalEnv env s).contains n = true) ∧
    ∀ b ∈ s.blocks, ∀ n ∈ Stmt.needsAll b.stmts, (startEnv env s).contains n = true := by
  simp only [← Block.needs_eq, startEnv, contains_bound]
  cases s <;> simp [Stmt.needs, Stmt.reads, Stmt.exprs, Stmt.blocks, Stmt.binds, evalEnv, headEnv, loopHead, or_imp,
    forall_and, ← or_iff_not_imp_left, Expr.mem_usesOption, Expr.mem_usesAll, OrdMap.contains_mapValues, and_assoc]

theorem succeeds_checkFirst : Succeeds (checkFirst env s) ↔ ∀ n ∈ s.reads, env.contains n = true := by
  cases s <;> simp [checkFirst, succeeds_ite_throw, succeeds_pure, Stmt.reads]

theorem succeeds_checkTarget : Succeeds (checkTarget s) ↔ s.Bound := by
  cases s <;> simp [checkTarget, Stmt.Bound, succeeds_pure, succeeds_then fun _ => succeeds_checkArity _ _ _,
    succeeds_checkDistinct]

theorem succeeds_ofBlock {b : Block} : Succeeds (ofBlock env b) ↔ Succeeds (ofStmts env b.stmts) := by
  rw [ofBlock_eq, succeeds_then fun _ => succeeds_pure _, and_true]

theorem succeeds_ofBlocks : Succeeds (ofBlocks env blocks) ↔ ∀ b ∈ blocks, Succeeds (ofStmts env b.stmts) := by
  induction blocks with
  | nil => simp [ofBlocks, succeeds_pure]
  | cons b rest ih =>
    rw [ofBlocks, succeeds_then fun _ => succeeds_then fun _ => succeeds_pure _, succeeds_ofBlock, ih, and_true,
      forall_mem_cons]

theorem succeeds_row
    (each : ∀ s ∈ stmts, ∀ env, (Succeeds (ofStmt env s) ↔ Bindable [s] ∧ ∀ n ∈ s.needs, env.contains n = true)) :
    Succeeds (ofStmts env stmts) ↔ Bindable stmts ∧ ∀ n ∈ Stmt.needsAll stmts, env.contains n = true := by
  induction stmts generalizing env with
  | nil => simp [ofStmts, succeeds_pure, Bindable, Stmt.allOf, Stmt.needsAll]
  | cons s rest ih =>
    obtain ⟨here, later⟩ := forall_mem_cons.mp each
    have tail : ∀ middle first, ofStmt env s = .ok (middle, first) → (Succeeds (ofStmts middle rest) ↔ Bindable rest ∧
        ∀ n ∈ Stmt.needsAll rest, env.contains n = true ∨ n ∈ s.defines) := by
      intro middle first walked
      rw [ih later]
      exact and_congr_right fun _ => forall₂_congr fun n _ => (walk_of_stmt s walked).contains_iff
    rw [ofStmts, succeeds_bind, bindable_cons, held_needsAll_cons, and_and_and_comm, ← here env]
    constructor
    · rintro ⟨⟨middle, first⟩, walked, others⟩
      exact ⟨⟨_, walked⟩, (tail middle first walked).mp ((succeeds_then fun _ => succeeds_pure _).mp others).1⟩
    · rintro ⟨⟨⟨middle, first⟩, walked⟩, others⟩
      exact ⟨_, walked, (succeeds_then fun _ => succeeds_pure _).mpr ⟨(tail middle first walked).mpr others, trivial⟩⟩

/-- The definitions of a statement are found where the names that it needs are defined. -/
theorem succeeds_ofStmt (s : Stmt) : ∀ env,
    (Succeeds (ofStmt env s) ↔ Bindable [s] ∧ ∀ n ∈ s.needs, env.contains n = true) := by
  induction s using Stmt.byParts with
  | step s ih =>
    intro env
    rw [ofStmt_eq, succeeds_then fun _ => succeeds_then fun _ => succeeds_then fun _ => succeeds_then fun _ =>
      succeeds_pure _, succeeds_checkFirst, succeeds_ofExprs, succeeds_checkTarget, succeeds_ofBlocks,
      forall₂_congr fun b mem => succeeds_row (ih b mem), forall₂_and, bindable_single, Stmt.Binding, held_needs]
    grind

end Flow

namespace WellFormed

open Flow

variable {n : Name} {f : Func}

theorem checkNames_ok : checkNames site names = .ok () ↔ ∀ n ∈ names, n.IsPlain := by
  induction names with
  | nil => simp [checkNames, pure, Except.pure]
  | cons n rest ih =>
    have first : Succeeds (checkName site n) ↔ n.IsPlain := by
      rw [checkName, succeeds_ite_throw, succeeds_pure, and_true, Name.IsPlain]
    rw [ok_iff_succeeds] at ih ⊢
    rw [checkNames, succeeds_then fun _ => ih, first, forall_mem_cons]

theorem formed_iff {e : Expr} : e.Formed ↔ checkNode e = .ok () ∧ e.Distinct := by
  cases e with
  | compare node ops args =>
    rw [ok_iff_succeeds, checkNode, succeeds_ite_throw, succeeds_pure, not_not, and_true]
    simp [Expr.Formed, Expr.Distinct]
  | comprehension node targets iterables elt =>
    rw [ok_iff_succeeds, checkNode, succeeds_ite_throw, ← ok_iff_succeeds, checkNames_ok, not_not, and_assoc]
    rfl
  | _ => exact ⟨fun _ => ⟨rfl, trivial⟩, fun _ => trivial⟩

theorem checkNodes_ok : checkNodes es = .ok () ↔ ∀ e ∈ es, checkNode e = .ok () := by
  induction es with
  | nil => simp [checkNodes, pure, Except.pure]
  | cons e rest ih =>
    simp only [ok_iff_succeeds] at ih ⊢
    rw [checkNodes, succeeds_then fun _ => ih, forall_mem_cons]

/-- What is asked of a statement by itself, apart from where names are bound. -/
structure Shapely (s : Stmt) : Prop where
  names : ∀ n ∈ s.binds, n.IsPlain
  exprs : ∀ e ∈ s.exprs, ∀ part ∈ e.all, checkNode part = .ok ()
  blocks : ∀ b ∈ s.blocks, b.stmts ≠ []

variable {s : Stmt}

theorem formed_iff_shapely : s.Formed ↔ Shapely s ∧ s.Binding := by
  have exprs : (∀ e ∈ s.exprs, e.WellMade) ↔ (∀ e ∈ s.exprs, ∀ part ∈ e.all, checkNode part = .ok ()) ∧
      ∀ e ∈ s.exprs, ∀ part ∈ e.all, part.Distinct := by
    simp only [Expr.WellMade, formed_iff, forall_and]
  constructor
  · rintro ⟨names, made, bound, blocks⟩
    exact ⟨⟨names, (exprs.mp made).1, blocks⟩, bound, (exprs.mp made).2⟩
  · rintro ⟨⟨names, made, blocks⟩, bound, distinct⟩
    exact ⟨names, exprs.mpr ⟨made, distinct⟩, bound, blocks⟩

theorem checkExprs_ok : checkExprs s = .ok () ↔ ∀ e ∈ s.exprs, ∀ part ∈ e.all, checkNode part = .ok () := by
  simp only [checkExprs, checkNodes_ok, Expr.mem_allOf_iff, forall_exists_index, and_imp]
  exact ⟨fun each e mem part inside => each part e mem inside, fun each part e mem inside => each e mem part inside⟩

theorem shapely_all_iff (each : ∀ b ∈ s.blocks,
    (checkBlock b = .ok () ↔ b.stmts ≠ [] ∧ ∀ t ∈ Stmt.allOf b.stmts, Shapely t)) : (∀ t ∈ Stmt.allOf [s], Shapely t) ↔
    checkNames s.id s.binds = .ok () ∧ checkExprs s = .ok () ∧ ∀ b ∈ s.blocks, checkBlock b = .ok () := by
  rw [Stmt.forall_allOf_single, checkNames_ok, checkExprs_ok, forall₂_congr each, forall₂_and]
  exact ⟨fun ⟨⟨names, exprs, filled⟩, inner⟩ => ⟨names, exprs, filled, inner⟩,
    fun ⟨names, exprs, filled, inner⟩ => ⟨⟨names, exprs, filled⟩, inner⟩⟩

mutual

theorem checkStmt_iff : (s : Stmt) → (checkStmt s = .ok () ↔ ∀ t ∈ Stmt.allOf [s], Shapely t)
  | .when _ _ body | .loop _ _ body | .each _ _ _ body | .scope _ _ _ body => by
    have inner := checkBlock_iff body
    rw [shapely_all_iff, ok_iff_succeeds, checkStmt, succeeds_then fun _ => succeeds_then fun _ => Iff.rfl]
    · simp only [← ok_iff_succeeds, Stmt.blocks, forall_mem_singleton]
    · intro b mem
      cases mem_singleton.mp mem
      exact inner
  | .branch _ _ ift iff => by
    have first := checkBlock_iff ift
    have second := checkBlock_iff iff
    rw [shapely_all_iff, ok_iff_succeeds, checkStmt, succeeds_then fun _ => succeeds_then fun _ => Iff.rfl]
    · simp only [← ok_iff_succeeds, Stmt.blocks, forall_mem_cons, checkNames_ok,
        Stmt.binds, not_mem_nil, false_imp_iff, implies_true, true_and, and_true]
    · intro b mem
      rcases mem_cons.mp mem with rfl | mem
      · exact first
      · cases mem_singleton.mp mem
        exact second
  | .assign .. | .store .. | .assert .. | .effect .. | .ret .. | .skip .. => by
    rw [shapely_all_iff, ok_iff_succeeds, checkStmt, succeeds_then fun _ => Iff.rfl]
    · simp [← ok_iff_succeeds, Stmt.blocks]
    · intro b mem
      cases mem

theorem checkBlock_iff : (b : Block) →
    (checkBlock b = .ok () ↔ b.stmts ≠ [] ∧ ∀ t ∈ Stmt.allOf b.stmts, Shapely t)
  | ⟨_, []⟩ => ⟨nofun, fun ⟨filled, _⟩ => absurd rfl filled⟩
  | ⟨_, s :: rest⟩ => by
    rw [checkBlock, checkStmts_iff (s :: rest)]
    simp

theorem checkStmts_iff : (stmts : List Stmt) → (checkStmts stmts = .ok () ↔ ∀ t ∈ Stmt.allOf stmts, Shapely t)
  | [] => by simp [checkStmts, Stmt.allOf, pure, Except.pure]
  | s :: rest => by
    have first := checkStmt_iff s
    have others := checkStmts_iff rest
    rw [ok_iff_succeeds] at first others ⊢
    rw [checkStmts, succeeds_then fun _ => others, first, Stmt.allOf, Stmt.allOf, append_nil, Stmt.allOf,
      forall_mem_append]

end

theorem contains_bindParams {params : List Param} :
    (Reaching.bindParams params env).1.contains n = true ↔ n ∈ params.filterMap (·.name) ∨ env.contains n = true := by
  induction params generalizing env with
  | nil => simp [Reaching.bindParams]
  | cons p rest ih =>
    have first : (bound ⟨.param, p.id⟩ p.name.toList env).contains n = true ↔ _ := contains_bound
    rw [Reaching.bindParams, ih, filterMap_cons]
    refine (or_congr_right first).trans ?_
    cases p.name with
    | none => simp
    | some name => rw [Option.toList_some, mem_singleton, mem_cons, or_left_comm, or_assoc]

theorem contains_entryOf : (Reaching.entryOf f).contains n = true ↔ n ∈ f.paramNames ∨ n ∈ f.freeVars := by
  have free : n ∈ f.freeVars.toList ↔ n ∈ f.freeVars := Iff.rfl
  have params : (Reaching.bindParams f.params ∅).1.contains n = true ↔ n ∈ f.paramNames := by
    rw [contains_bindParams]
    simp [OrdMap.contains, Func.paramNames]
  have entry : (Reaching.entryOf f).contains n = true ↔ _ := contains_bound
  rw [entry, mem_filter, free, ← params]
  by_cases given : (Reaching.bindParams f.params ∅).1.contains n = true <;> simp [given]

theorem check_ok :
    f.check = .ok () ↔ checkParams f.name [] f.params = .ok () ∧ checkBlock f.body = .ok () ∧ ∃ r, Reaching.ofFunc f =
      .ok r := by
  simp only [Func.check, bind_ok]
  constructor
  · rintro ⟨⟨⟩, params, ⟨⟩, body, r, walked, _⟩
    exact ⟨params, body, r, walked⟩
  · rintro ⟨params, body, r, walked⟩
    exact ⟨(), params, (), body, r, walked, rfl⟩

theorem check_iff :
    f.check = .ok () ↔ checkParams f.name [] f.params = .ok () ∧ f.body.stmts ≠ [] ∧ Stmt.WellMade f.body.stmts ∧ ∀ n ∈
      f.body.needs, n ∈ f.paramNames ∨ n ∈ f.freeVars := by
  have found : (∃ r, Reaching.ofFunc f = .ok r) ↔ Bindable f.body.stmts ∧
      ∀ n ∈ f.body.needs, n ∈ f.paramNames ∨ n ∈ f.freeVars := by
    have body := @succeeds_row (Reaching.entryOf f) f.body.stmts fun s _ => succeeds_ofStmt s
    simp only [← contains_entryOf, Block.needs_eq, ← body, ← succeeds_ofBlock]
    have walked : Succeeds (Reaching.ofWalk (Reaching.entryOf f) (Reaching.inputsOf f) f.body) ↔ _ :=
      succeeds_then fun _ => succeeds_pure _
    rw [and_true] at walked
    exact walked
  have made : Stmt.WellMade f.body.stmts ↔ (∀ s ∈ Stmt.allOf f.body.stmts, Shapely s) ∧ Bindable f.body.stmts := by
    simp only [Stmt.WellMade, formed_iff_shapely, forall_and, Bindable]
  rw [check_ok, checkBlock_iff, found, made]
  grind

end WellFormed

end NumLang
