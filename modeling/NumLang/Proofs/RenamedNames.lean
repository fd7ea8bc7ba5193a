import NumLang.Proofs.Renaming

/-!
Renaming and the names of a program. A renaming to new names can be taken back, and the names of a renamed block are
the new names of its names.
-/

namespace NumLang

variable {ρ back : Name → Name}

theorem map_eq_self {α : Type} {f : α → α} {l : List α} (same : ∀ a ∈ l, f a = a) : l.map f = l :=
  (List.map_congr_left same).trans (List.map_id l)

namespace Binder

mutual

theorem rename_rename : (b : Binder) → (∀ n ∈ b.names, back (ρ n) = n) → (b.rename ρ).rename back = b
  | .wildcard, _ => rfl
  | .name n, known => by rw [rename, rename, known n mem_cons_self]
  | .tuple parts, known => by rw [rename, rename, renameAll_renameAll parts known]

theorem renameAll_renameAll :
    (bs : List Binder) → (∀ n ∈ namesAll bs, back (ρ n) = n) → renameAll back (renameAll ρ bs) = bs
  | [], _ => rfl
  | b :: rest, known => by
    obtain ⟨first, others⟩ := forall_mem_append.mp known
    rw [renameAll, renameAll, rename_rename b first, renameAll_renameAll rest others]

end

end Binder

namespace Expr

/-- The names that stand in an expression, but not in its parts. -/
def own (e : Expr) : List Name := e.reads ++ e.calls ++ e.binds

theorem children_rename (ρ : Name → Name) (e : Expr) : (e.rename ρ).children = e.children.map (rename ρ) := by
  rw [rename_eq, children_fill _ _ (by simp [children_under])]

theorem all_rename (ρ : Name → Name) (e : Expr) : (e.rename ρ).all = e.all.map (rename ρ) := by
  induction e using byChildren with
  | step e ih =>
    rw [all_eq, all_eq e, children_rename, map_cons, allOf_eq, allOf_eq, List.flatMap_map, map_flatMap]
    exact congrArg _ (List.flatMap_congr ih)

theorem under_under (e : Expr) (known : ∀ n ∈ e.own, back (ρ n) = n) : (e.under ρ).under back = e := by
  cases e with
  | var node n => rw [under, under, known n mem_cons_self]
  | call node func => rw [under, under, known func mem_cons_self]
  | comprehension node targets => rw [under, under, Binder.renameAll_renameAll targets known]
  | _ => rfl

theorem rename_rename (e : Expr) (known : ∀ part ∈ e.all, ∀ n ∈ part.own, back (ρ n) = n) :
    (e.rename ρ).rename back = e := by
  induction e using byChildren with
  | step e ih =>
    rw [all_eq, forall_mem_cons] at known
    have parts : (e.rename ρ).children.map (rename back) = e.children := by
      rw [children_rename, List.map_map]
      refine map_eq_self fun part mem => ih part mem fun inner inside => ?_
      exact known.2 inner (mem_allOf_iff.mpr ⟨part, mem, inside⟩)
    have count : (e.children.map (rename ρ)).length = (e.under ρ).children.length := by simp [children_under]
    have layer := under_fill back (e.under ρ).node (e.under ρ) _ e.children count (by rw [children_under])
    rw [withNode_self (e.under ρ), ← (rebuilt_fill count).node, withNode_self] at layer
    rw [rename_eq back, parts, rename_eq ρ, layer, under_under e known.1, fill_children]

end Expr

namespace Stmt

theorem blocks_rename (ρ : Name → Name) (s : Stmt) : (s.rename ρ).blocks = s.blocks.map (Block.rename ρ) := by
  cases s <;> rfl

theorem allOf_rename (ρ : Name → Name) (stmts : List Stmt) :
    allOf (renameAll ρ stmts) = (allOf stmts).map (rename ρ) := by
  induction stmts using byBlocks with
  | nil => rfl
  | cons s rest first others =>
    simp only [renameAll, allOf, append_nil] at first others ⊢
    rw [first, others, map_append]
  | step s inner =>
    simp only [renameAll, allOf, append_nil, all_eq, blocks_rename, map_cons, List.flatMap_map, map_flatMap]
    refine congrArg _ (List.flatMap_congr ?_)
    rintro ⟨id, stmts⟩ mem
    exact inner _ mem

theorem renameAll_renameAll (stmts : List Stmt) (known : ∀ s ∈ allOf stmts,
    (∀ n ∈ s.binds, back (ρ n) = n) ∧ ∀ e ∈ s.exprs, ∀ part ∈ e.all, ∀ n ∈ part.own, back (ρ n) = n) :
    renameAll back (renameAll ρ stmts) = stmts := by
  induction stmts using byBlocks with
  | nil => rfl
  | cons s rest first others =>
    rw [allOf, forall_mem_append] at known
    have head := first (by simpa only [allOf, append_nil] using known.1)
    simp only [renameAll, List.cons.injEq, and_true] at head
    rw [renameAll, renameAll, head, others known.2]
  | step s inner =>
    simp only [allOf, append_nil, all_eq, forall_mem_cons] at known
    obtain ⟨⟨binds, exprs⟩, below⟩ := known
    replace exprs : ∀ e ∈ s.exprs, (e.rename ρ).rename back = e := fun e mem => e.rename_rename (exprs e mem)
    have blocks : ∀ b ∈ s.blocks, (b.rename ρ).rename back = b := by
      rintro ⟨id, stmts⟩ mem
      rw [Block.rename, Block.rename, inner _ mem fun st inside => below st (mem_flatMap.mpr ⟨_, mem, inside⟩)]
    clear inner below
    cases s with
    | store node name path value =>
      obtain ⟨path, value⟩ := forall_mem_append.mp exprs
      simp_all [renameAll, rename, Stmt.binds, Expr.renameAll_eq, map_eq_self]
    | scope node name => cases name <;> simp_all [renameAll, rename, Stmt.binds, Stmt.exprs, Stmt.blocks]
    | assert node test msg => cases msg <;> simp_all [renameAll, rename, Expr.renameOption, Stmt.exprs]
    | _ => simp_all only [renameAll, rename, Stmt.binds, Stmt.exprs, Stmt.blocks, forall_mem_cons, implies_true,
      Binder.rename_rename]

end Stmt

/-- Takes the values of a map back to their keys. -/
def NameMap.inverse (m : NameMap Name) : NameMap Name := OrdMap.ofList (m.entries.map Prod.swap)

theorem NameMap.toRenaming_inverse {m : NameMap Name} (distinct : m.values.Nodup) (new : n ∉ m.values) :
    m.inverse.toRenaming (m.toRenaming n) = n := by
  have back : ∀ x t, m.inverse.get? t = some x ↔ m.get? x = some t := by
    intro x t
    rw [inverse, OrdMap.get?_ofList_iff (by simpa [Function.comp_def, OrdMap.values] using distinct), OrdMap.get?_eq_some_iff]
    simp
  unfold toRenaming
  cases found : m.get? n with
  | some t => simp [(back n t).mpr found]
  | none =>
    cases taken : m.inverse.get? n with
    | none => simp [taken]
    | some x => exact absurd (mem_map_of_mem (OrdMap.mem_of_get? ((back x n).mp taken))) new

theorem OrdSet.ofList_map {α β : Type} [Ord α] [Std.TransOrd α] [Std.LawfulEqOrd α] [Ord β] [Std.TransOrd β]
    [Std.LawfulEqOrd β] (f : α → β) (l : List α) : OrdSet.ofList (l.map f) = (OrdSet.ofList l).map f := by
  refine OrdSet.ext fun b => ?_
  simp

namespace Block

theorem all_rename (ρ : Name → Name) (b : Block) : (b.rename ρ).all = b.all.map (Stmt.rename ρ) := by
  cases b
  exact Stmt.allOf_rename ρ _

theorem allExprs_rename (ρ : Name → Name) (b : Block) : (b.rename ρ).allExprs = b.allExprs.map (Expr.rename ρ) := by
  have exprs : ∀ s : Stmt, (s.rename ρ).exprs = s.exprs.map (Expr.rename ρ) := by
    intro s
    cases s with
    | store => rw [Stmt.exprs, map_append, ← Expr.renameAll_eq]; rfl
    | assert _ _ msg => cases msg <;> rfl
    | _ => rfl
  simp only [allExprs, all_rename, exprs, Expr.allOf_eq, List.flatMap_map, map_flatMap, Expr.all_rename]

variable (ρ)

theorem assigned_rename (b : Block) : (b.rename ρ).assigned = b.assigned.map ρ := by
  have binds : ∀ s : Stmt, (s.rename ρ).binds = s.binds.map ρ := by
    intro s
    cases s with
    | assign | each => exact Binder.names_rename ..
    | scope _ name => cases name <;> rfl
    | _ => rfl
  simp only [assigned, all_rename, List.flatMap_map, binds, ← map_flatMap, OrdSet.ofList_map]

theorem locals_rename (b : Block) : (b.rename ρ).locals = b.locals.map ρ := by
  have binds : ∀ e : Expr, (e.rename ρ).binds = e.binds.map ρ := by
    intro e
    cases e with
    | comprehension => exact Binder.namesAll_rename ..
    | _ => rfl
  simp only [locals, allExprs_rename, List.flatMap_map, binds, ← map_flatMap, OrdSet.ofList_map]

theorem referenced_rename (b : Block) : (b.rename ρ).referenced = b.referenced.map ρ := by
  have reads : ∀ e : Expr, (e.rename ρ).reads = e.reads.map ρ := by
    intro e
    cases e <;> rfl
  have stores : ∀ s : Stmt, (s.rename ρ).reads = s.reads.map ρ := by
    intro s
    cases s <;> rfl
  simp only [referenced, all_rename, allExprs_rename, List.flatMap_map, reads, stores, ← map_flatMap, ← map_append,
    OrdSet.ofList_map]

theorem called_rename (b : Block) : (b.rename ρ).called = b.called.map ρ := by
  have calls : ∀ e : Expr, (e.rename ρ).calls = e.calls.map ρ := by
    intro e
    cases e <;> rfl
  simp only [called, allExprs_rename, List.flatMap_map, calls, ← map_flatMap, OrdSet.ofList_map]

theorem rename_back_and_names (b : Block) (m : NameMap Name) :
    (m.values.Nodup → (∀ t ∈ m.values, t ∉ b.bound ∧ t ∉ b.referenced ∧ t ∉ b.called) →
      (b.rename m.toRenaming).rename m.inverse.toRenaming = b) ∧
    (b.rename m.toRenaming).assigned = b.assigned.map m.toRenaming ∧
    (b.rename m.toRenaming).bound = b.bound.map m.toRenaming ∧
    (b.rename m.toRenaming).referenced = b.referenced.map m.toRenaming ∧
    (b.rename m.toRenaming).called = b.called.map m.toRenaming := by
  refine ⟨fun distinct absent => ?_, assigned_rename _ b, ?_, referenced_rename _ b, called_rename _ b⟩
  · have back : ∀ n, n ∈ b.bound ∨ n ∈ b.referenced ∨ n ∈ b.called → m.inverse.toRenaming (m.toRenaming n) = n := by
      intro n mem
      refine NameMap.toRenaming_inverse distinct fun target => ?_
      obtain ⟨bound, referenced, called⟩ := absent n target
      rcases mem with mem | mem | mem <;> contradiction
    obtain ⟨id, stmts⟩ := b
    rw [rename, rename, Stmt.renameAll_renameAll stmts]
    refine fun s mem => ⟨fun n own => back n (.inl ?_), fun e listed part inside n own => back n ?_⟩
    · exact mem_union.mpr (.inl (mem_ofList.mpr (mem_flatMap.mpr ⟨s, mem, own⟩)))
    · have part : part ∈ allExprs ⟨id, stmts⟩ :=
        mem_flatMap.mpr ⟨s, mem, Expr.mem_allOf_iff.mpr ⟨e, listed, inside⟩⟩
      simp only [Expr.own, mem_append] at own
      rcases own with (own | own) | own
      · exact .inr (.inl (mem_ofList.mpr (mem_append_left _ (mem_flatMap.mpr ⟨_, part, own⟩))))
      · exact .inr (.inr (mem_ofList.mpr (mem_flatMap.mpr ⟨_, part, own⟩)))
      · exact .inl (mem_union.mpr (.inr (mem_ofList.mpr (mem_flatMap.mpr ⟨_, part, own⟩))))
  · refine OrdSet.ext fun n => ?_
    simp [bound, assigned_rename, locals_rename, or_and_right, exists_or]

theorem rename_back_and_names_counting :
    let b : Block := ⟨⟨0⟩, [.assign ⟨⟨1⟩, none⟩ (.name ⟨"y", none⟩) none (.call ⟨⟨2⟩, none⟩ ⟨"h", none⟩ none [] []),
      .store ⟨⟨3⟩, none⟩ ⟨"y", none⟩ [.var ⟨⟨4⟩, none⟩ ⟨"x", none⟩] (.var ⟨⟨5⟩, none⟩ ⟨"y", none⟩)]⟩
    let m : NameMap Name := OrdMap.ofList [(⟨"y", none⟩, ⟨"y", some 7⟩), (⟨"h", none⟩, ⟨"x", some 0⟩)]
    (b.rename m.toRenaming).rename m.inverse.toRenaming = b :=
  (rename_back_and_names _ _).1 (by decide) (by decide)

end Block

end NumLang
