import NumLang.Proofs.Captures
import NumLang.Proofs.Copying
import NumLang.Proofs.Definedness

/-!
Copies under new names. A copy needs the new names of what the original needs and defines the new names of what it
defines.
-/

namespace NumLang

variable {ρ : Name → Name}

/-- A renaming keeps names apart, and none of them becomes a wildcard. -/
structure Renames (old : Name → Prop) (ρ : Name → Name) : Prop where
  apart : Apart old ρ
  plain : ∀ n, old n → n.IsPlain → (ρ n).IsPlain

variable {old : Name → Prop} {names : List Name}

theorem Renames.mono {others : Name → Prop} (renames : Renames old ρ) (fewer : ∀ n, others n → old n) :
    Renames others ρ :=
  ⟨fun m n here there => renames.apart m n (fewer m here) (fewer n there), fun n here => renames.plain n (fewer n here)⟩

theorem Renames.nodup (renames : Renames old ρ) (inside : ∀ n ∈ names, old n) (distinct : names.Nodup) :
    (names.map ρ).Nodup :=
  distinct.map_on fun m here n there => renames.apart m n (inside m here) (inside n there)

theorem Renames.isPlain (renames : Renames old ρ) (inside : ∀ n ∈ names, old n) (plain : ∀ n ∈ names, n.IsPlain) :
    ∀ n ∈ names.map ρ, n.IsPlain := by
  intro n mem
  obtain ⟨m, here, rfl⟩ := mem_map.mp mem
  exact renames.plain m (inside m here) (plain m here)

def Comes (ρ : Name → Name) (old new : NameSet) : Prop := ∀ n ∈ new, ∃ m ∈ old, ρ m = n

namespace Comes

variable {old new others more : NameSet}

theorem singleton (n : Name) : Comes ρ (OrdSet.singleton n) (OrdSet.singleton (ρ n)) := by
  intro x mem
  exact ⟨n, OrdSet.mem_singleton.mpr rfl, (OrdSet.mem_singleton.mp mem).symm⟩

theorem union (first : Comes ρ old new) (second : Comes ρ others more) : Comes ρ (old ∪ others) (new ∪ more) := by
  intro n mem
  rcases mem_union.mp mem with here | here
  · obtain ⟨m, found, same⟩ := first n here
    exact ⟨m, mem_union.mpr (.inl found), same⟩
  · obtain ⟨m, found, same⟩ := second n here
    exact ⟨m, mem_union.mpr (.inr found), same⟩

theorem diff (whole : Comes ρ old new) (less : ∀ n ∈ others, ρ n ∈ more) : Comes ρ (old \ others) (new \ more) := by
  intro n mem
  obtain ⟨here, outside⟩ := mem_diff.mp mem
  obtain ⟨m, found, rfl⟩ := whole n here
  exact ⟨m, mem_diff.mpr ⟨found, fun inside => outside (less m inside)⟩, rfl⟩

end Comes

theorem exists_of_forall₂ {α β : Type} {R : α → β → Prop} {xs : List α} {ys : List β} (related : Forall₂ R xs ys) :
    ∀ y ∈ ys, ∃ x ∈ xs, R x y := by
  induction related with
  | nil => exact nofun
  | cons first _ ih =>
    refine forall_mem_cons.mpr ⟨⟨_, mem_cons_self, first⟩, fun y mem => ?_⟩
    obtain ⟨x, listed, here⟩ := ih y mem
    exact ⟨x, mem_cons_of_mem _ listed, here⟩

namespace Binder

variable {targets : List Binder}

theorem length_renameAll (targets : List Binder) : (renameAll ρ targets).length = targets.length := by
  induction targets with
  | nil => rfl
  | cons b rest ih => rw [renameAll, length_cons, length_cons, ih]

theorem mem_renameAll : b ∈ renameAll ρ targets ↔ ∃ target ∈ targets, target.rename ρ = b := by
  induction targets with
  | nil => simp [renameAll]
  | cons first rest ih => simp [renameAll, ih, eq_comm]

mutual

theorem fits_rename : (target layout : Binder) → ((target.rename ρ).Fits layout ↔ target.Fits layout)
  | .tuple parts, .tuple values => by
    rw [rename, Fits, Fits, fitsAll_rename parts values, length_renameAll]
  | .wildcard, _ | .name _, _ | .tuple _, .wildcard | .tuple _, .name _ => by simp [rename, Fits]

theorem fitsAll_rename : (targets layouts : List Binder) →
    (FitsAll (renameAll ρ targets) layouts ↔ FitsAll targets layouts)
  | b :: bs, v :: vs => by rw [renameAll, FitsAll, FitsAll, fits_rename b v, fitsAll_rename bs vs]
  | [], _ | _ :: _, [] => by simp [renameAll, FitsAll]

end

theorem mem_namesAll : n ∈ namesAll targets ↔ ∃ b ∈ targets, n ∈ b.names := by
  induction targets with
  | nil => simp [namesAll]
  | cons b rest ih => simp [namesAll, ih]

end Binder

namespace Expr

variable {e e' : Expr}

theorem formed_comprehension {node node' : Node} {rows rows' : List Expr} (same : rows.length = rows'.length)
    (renames : Renames (· ∈ (Expr.comprehension node targets rows elt).mentions) ρ)
    (formed : (Expr.comprehension node targets rows elt).Formed) :
    (Expr.comprehension node' (Binder.renameAll ρ targets) rows' elt').Formed := by
  have inside : ∀ n ∈ Binder.namesAll targets, n ∈ (Expr.comprehension node targets rows elt).mentions :=
    fun n bound => mem_mentions.mpr (.inr (.inl bound))
  obtain ⟨fits, plain, distinct⟩ := formed
  refine ⟨?_, ?_, fun target' mem => ?_⟩
  · rw [Binder.length_renameAll, fits, same]
  · rw [Binder.namesAll_rename]
    exact renames.isPlain inside plain
  · obtain ⟨target, listed, rfl⟩ := Binder.mem_renameAll.mp mem
    rw [Binder.names_rename]
    exact renames.nodup (fun n bound => inside n (Binder.mem_namesAll.mpr ⟨target, listed, bound⟩))
      (distinct target listed)

theorem Copy.comprehension {node : Node} {targets : List Binder} {rows : List Expr} {elt : Expr}
    (copy : (Expr.comprehension node targets rows elt).Copy ρ e') : ∃ node' rows' elt',
    e' = .comprehension node' (Binder.renameAll ρ targets) rows' elt' ∧ Forall₂ (Copy ρ) rows rows' ∧ elt.Copy ρ elt' := by
  have parts := copy.alike.children
  obtain ⟨node', _⟩ := copy
  obtain ⟨outer, _ | ⟨inner, _⟩⟩ := forall₂_split (by simpa [children, fill, under, withNode] using parts.length_eq) parts
  exact ⟨node', _, _, rfl, outer, inner⟩

theorem Copy.formed (copy : e.Copy ρ e') (renames : Renames (· ∈ e.mentions) ρ) (formed : e.Formed) : e'.Formed := by
  cases e with
  | comprehension =>
    obtain ⟨_, _, _, rfl, rows, _⟩ := copy.comprehension
    exact formed_comprehension rows.length_eq renames formed
  | compare =>
    obtain ⟨_, parts⟩ := copy
    exact formed.trans parts.length_eq
  | _ =>
    obtain @⟨_, es⟩ := copy
    rcases es with _ | ⟨_, _ | ⟨_, _ | ⟨_, _ | _⟩⟩⟩ <;> trivial

theorem Copy.mentions (copy : e.Copy ρ e') : ∀ n ∈ e'.mentions, ∃ m ∈ e.mentions, ρ m = n := by
  induction e using byChildren generalizing e' with
  | step e ih =>
    intro n mem
    rcases mem_mentions.mp mem with read | bound | ⟨part', listed, inside⟩
    · rw [copy.alike.reads] at read
      obtain ⟨m, here, rfl⟩ := mem_map.mp read
      exact ⟨m, mem_mentions.mpr (.inl here), rfl⟩
    · rw [copy.alike.binds] at bound
      obtain ⟨m, here, rfl⟩ := mem_map.mp bound
      exact ⟨m, mem_mentions.mpr (.inr (.inl here)), rfl⟩
    · obtain ⟨part, below, copied⟩ := exists_of_forall₂ copy.alike.children part' listed
      obtain ⟨m, here, rfl⟩ := ih part below copied n inside
      exact ⟨m, mem_mentions.mpr (.inr (.inr ⟨part, below, here⟩)), rfl⟩

/-- A copy reads from outside the new names of what the expression reads from outside. -/
theorem Copy.uses (copy : e.Copy ρ e') : Comes ρ e.uses e'.uses := by
  induction e using byChildren generalizing e' with
  | step e ih =>
    intro n used
    cases parts : e.onlyParts with
    | true =>
      rw [mem_uses_of_onlyParts (copy.alike.onlyParts.trans parts)] at used
      obtain ⟨part', listed, inside⟩ := used
      obtain ⟨part, mem, copied⟩ := exists_of_forall₂ copy.alike.children part' listed
      obtain ⟨m, here, rfl⟩ := ih part mem copied n inside
      exact ⟨m, (mem_uses_of_onlyParts parts).mpr ⟨part, mem, here⟩, rfl⟩
    | false =>
      cases e with
      | var node name =>
        obtain ⟨_, _ | _⟩ := copy
        exact ⟨name, OrdSet.mem_singleton.mpr rfl, (OrdSet.mem_singleton.mp used).symm⟩
      | comprehension node targets iterables elt =>
        obtain ⟨_, rows, element, rfl, outer, inner⟩ := copy.comprehension
        rw [mem_uses_comprehension, Binder.nameSet, mem_ofList, Binder.namesAll_rename] at used
        simp only [mem_uses_comprehension, Binder.nameSet, mem_ofList]
        rcases used with ⟨row', listed, inside⟩ | ⟨inside, outside⟩
        · obtain ⟨row, mem, copied⟩ := exists_of_forall₂ outer row' listed
          obtain ⟨m, here, rfl⟩ := ih row (mem_append_left _ mem) copied n inside
          exact ⟨m, .inl ⟨row, mem, here⟩, rfl⟩
        · obtain ⟨m, here, rfl⟩ := ih elt (mem_append_right _ mem_cons_self) inner n inside
          exact ⟨m, .inr ⟨here, fun bound => outside (mem_map_of_mem bound)⟩, rfl⟩
      | _ => cases parts

theorem uses_copyAll {es es' : List Expr} (copied : Forall₂ (Copy ρ) es es') : Comes ρ (usesAll es) (usesAll es') := by
  intro n used
  obtain ⟨e', listed, inside⟩ := mem_usesAll.mp used
  obtain ⟨e, mem, copy⟩ := exists_of_forall₂ copied e' listed
  obtain ⟨m, here, rfl⟩ := copy.uses n inside
  exact ⟨m, mem_usesAll.mpr ⟨e, mem, here⟩, rfl⟩

theorem Copy.wellMade (copy : e.Copy ρ e') (renames : Renames (· ∈ e.mentions) ρ) (made : e.WellMade) :
    e'.WellMade := by
  induction e using byChildren generalizing e' with
  | step e ih =>
    unfold WellMade at made ⊢
    rw [all_eq, forall_mem_cons] at made ⊢
    refine ⟨copy.formed renames made.1, fun inner' inside' => ?_⟩
    obtain ⟨part', listed, inside'⟩ := mem_allOf_iff.mp inside'
    obtain ⟨part, mem, copied⟩ := exists_of_forall₂ copy.alike.children part' listed
    refine ih part mem copied ?_ ?_ inner' inside'
    · exact renames.mono fun n here => mem_mentions.mpr (.inr (.inr ⟨part, mem, here⟩))
    · exact fun inner inside => made.2 inner (mem_allOf_iff.mpr ⟨part, mem, inside⟩)

theorem layout_copy (e : Expr) {e' : Expr} (copy : e.Copy ρ e') : e'.layout = e.layout := by
  induction e using byChildren generalizing e' with
  | step e ih =>
    obtain @⟨_, es, node, parts⟩ := copy
    cases e with
    | tuple _ elts =>
      have rows : ∀ {es es' : List Expr}, Forall₂ (Copy ρ) es es' → (∀ e ∈ es, ∀ {e'}, e.Copy ρ e' → e'.layout = e.layout) →
          layouts es' = layouts es := by
        intro es es' copied same
        induction copied with
        | nil => rfl
        | cons first _ ih =>
          obtain ⟨here, later⟩ := forall_mem_cons.mp same
          rw [layouts, layouts, here first, ih later]
      exact congrArg Binder.tuple (rows parts ih)
    | _ => rcases es with _ | ⟨_, _ | ⟨_, _ | ⟨_, _ | _⟩⟩⟩ <;> rfl

end Expr

/-! ### Statements -/

namespace Stmt

def mentioned (stmts : List Stmt) : List Name := (allOf stmts).flatMap Stmt.mentions

variable {s s' : Stmt} {stmts stmts' others : List Stmt} {n : Name} {node node' : Node} {target : Binder}

theorem mentioned_append : mentioned (stmts ++ others) = mentioned stmts ++ mentioned others := by
  rw [mentioned, allOf_append, flatMap_append, mentioned, mentioned]

theorem mentioned_cons : mentioned (s :: others) = mentioned [s] ++ mentioned others := @mentioned_append [s] others

theorem mem_mentioned_single : n ∈ mentioned [s] ↔ n ∈ s.mentions ∨ ∃ b ∈ s.blocks, n ∈ mentioned b.stmts := by
  have every : ∀ stmts, n ∈ mentioned stmts ↔ ¬ ∀ t ∈ allOf stmts, n ∉ t.mentions := by
    intro stmts
    simp [mentioned]
  simp only [every, forall_allOf_single]
  grind

theorem bound_assign {value value' : Expr} (copy : value.Copy ρ value')
    (renames : Renames (· ∈ (Stmt.assign node target ann value).mentions) ρ)
    (bound : (Stmt.assign node target ann value).Bound) : (Stmt.assign node' (target.rename ρ) ann value').Bound := by
  have inside : ∀ n ∈ target.names, n ∈ (Stmt.assign node target ann value).mentions :=
    fun n bound => mem_append_left _ (mem_append_left _ bound)
  refine ⟨?_, ?_⟩
  · rw [Binder.names_rename]
    exact renames.nodup inside bound.1
  · rw [Expr.layout_copy _ copy, Binder.fits_rename]
    exact bound.2

theorem bound_each (renames : Renames (· ∈ (Stmt.each node target iterable body).mentions) ρ)
    (bound : (Stmt.each node target iterable body).Bound) :
    (Stmt.each node' (target.rename ρ) iterable' body').Bound := by
  have inside : ∀ n ∈ target.names, n ∈ (Stmt.each node target iterable body).mentions :=
    fun n bound => mem_append_left _ (mem_append_left _ bound)
  rw [Bound, Binder.names_rename]
  exact renames.nodup inside bound

theorem Copy.bound (copy : s.Copy ρ s') (renames : Renames (· ∈ s.mentions) ρ) (bound : s.Bound) : s'.Bound := by
  cases s with
  | assign =>
    obtain ⟨_, _, rfl, part⟩ := copy
    exact bound_assign part renames bound
  | each =>
    obtain ⟨_, _, _, rfl, _⟩ := copy
    exact bound_each renames bound
  | store | when | loop | scope | assert =>
    obtain ⟨_, _, _, rfl, _⟩ := copy
    trivial
  | branch =>
    obtain ⟨_, _, _, _, rfl, _⟩ := copy
    trivial
  | effect | ret =>
    obtain ⟨_, _, rfl, _⟩ := copy
    trivial
  | skip =>
    obtain ⟨_, rfl⟩ := copy
    trivial

theorem mem_mentions : n ∈ s.mentions ↔ n ∈ s.binds ∨ n ∈ s.reads ∨ ∃ e ∈ s.exprs, n ∈ e.mentions := by
  simp [mentions]

theorem Alike.mentions (alike : Alike ρ s s') : ∀ n ∈ s'.mentions, ∃ m ∈ s.mentions, ρ m = n := by
  intro n mem
  rcases mem_mentions.mp mem with bound | read | ⟨e', listed, inside⟩
  · rw [alike.binds] at bound
    obtain ⟨m, here, rfl⟩ := mem_map.mp bound
    exact ⟨m, mem_mentions.mpr (.inl here), rfl⟩
  · rw [alike.reads] at read
    obtain ⟨m, here, rfl⟩ := mem_map.mp read
    exact ⟨m, mem_mentions.mpr (.inr (.inl here)), rfl⟩
  · obtain ⟨e, below, copied⟩ := exists_of_forall₂ alike.exprs e' listed
    obtain ⟨m, here, rfl⟩ := copied.mentions n inside
    exact ⟨m, mem_mentions.mpr (.inr (.inr ⟨e, below, here⟩)), rfl⟩

theorem copyAll_single : CopyAll ρ [s] stmts' ↔ ∃ s', stmts' = [s'] ∧ s.Copy ρ s' := by
  simp [CopyAll]

theorem copyAll_cons : CopyAll ρ (s :: others) stmts' ↔ ∃ s' rest, stmts' = s' :: rest ∧ s.Copy ρ s' ∧
    CopyAll ρ others rest := Iff.rfl

section

variable (copy : CopyAll ρ stmts stmts')

include copy

theorem exists_of_copyAll (inside : s' ∈ allOf stmts') : ∃ s ∈ allOf stmts, s.Copy ρ s' := by
  induction stmts using byBlocks generalizing stmts' with
  | nil =>
    cases copy
    cases inside
  | cons first rest head tail =>
    obtain ⟨first', rest', rfl, here, later⟩ := copy
    rw [← singleton_append, allOf_append, mem_append] at inside
    rw [← singleton_append, allOf_append]
    rcases inside with inside | inside
    · obtain ⟨s, found, copied⟩ := head ⟨first', [], rfl, here, rfl⟩ inside
      exact ⟨s, mem_append_left _ found, copied⟩
    · obtain ⟨s, found, copied⟩ := tail later inside
      exact ⟨s, mem_append_right _ found, copied⟩
  | step first inner =>
    obtain ⟨first', _, rfl, here, rfl⟩ := copy
    simp only [allOf, append_nil, all_eq, mem_cons, mem_flatMap, Block.all_eq] at inside ⊢
    rcases inside with rfl | ⟨b', listed, inside⟩
    · exact ⟨first, .inl rfl, here⟩
    · obtain ⟨b, mem, copied⟩ := exists_of_forall₂ here.alike.blocks b' listed
      obtain ⟨s, found, copied⟩ := inner b mem (copyAll_block copied) inside
      exact ⟨s, .inr ⟨b, mem, found⟩, copied⟩

theorem mentioned_copy : ∀ n ∈ mentioned stmts', ∃ m ∈ mentioned stmts, ρ m = n := by
  intro n mem
  obtain ⟨s', listed, here⟩ := mem_flatMap.mp mem
  obtain ⟨s, found, copied⟩ := exists_of_copyAll copy listed
  obtain ⟨m, mentioned, rfl⟩ := copied.alike.mentions n here
  exact ⟨m, mem_flatMap.mpr ⟨s, found, mentioned⟩, rfl⟩

theorem length_copyAll : stmts'.length = stmts.length := by
  induction stmts generalizing stmts' with
  | nil =>
    cases copy
    rfl
  | cons s rest ih =>
    obtain ⟨s', rest', rfl, _, later⟩ := copy
    rw [length_cons, length_cons, ih later]

theorem wellMade_copy (renames : Renames (· ∈ mentioned stmts) ρ) (made : WellMade stmts) : WellMade stmts' := by
  induction stmts using byBlocks generalizing stmts' with
  | nil =>
    cases copy
    exact wellMade_nil
  | cons s rest first others =>
    obtain ⟨s', rest', rfl, here, later⟩ := copy
    rw [mentioned_cons] at renames
    rw [wellMade_cons] at made ⊢
    exact ⟨first ⟨s', [], rfl, here, rfl⟩ (renames.mono fun _ => mem_append_left _) made.1,
      others later (renames.mono fun _ => mem_append_right _) made.2⟩
  | step s inner =>
    obtain ⟨s', rest', rfl, here, rfl⟩ := copy
    have own : Renames (· ∈ s.mentions) ρ := renames.mono fun _ listed => mem_mentioned_single.mpr (.inl listed)
    rw [wellMade_single] at made ⊢
    obtain ⟨formed, below⟩ := made
    refine ⟨⟨?_, fun e' listed => ?_, here.bound own formed.bound, fun b' listed => ?_⟩, fun b' listed => ?_⟩
    · rw [here.alike.binds]
      exact own.isPlain (fun n bound => mem_mentions.mpr (.inl bound)) formed.names
    · obtain ⟨e, mem, copied⟩ := exists_of_forall₂ here.alike.exprs e' listed
      exact copied.wellMade (own.mono fun n inside => mem_mentions.mpr (.inr (.inr ⟨e, mem, inside⟩)))
        (formed.exprs e mem)
    · obtain ⟨b, mem, copied⟩ := exists_of_forall₂ here.alike.blocks b' listed
      have filled := formed.blocks b mem
      have same := length_copyAll (copyAll_block copied)
      rw [← List.length_pos_iff] at filled ⊢
      omega
    · obtain ⟨b, mem, copied⟩ := exists_of_forall₂ here.alike.blocks b' listed
      refine inner b mem (copyAll_block copied) ?_ (below b mem)
      exact renames.mono fun n inside => mem_mentioned_single.mpr (.inr ⟨b, mem, inside⟩)

end

mutual

theorem defines_copy : (s : Stmt) → {s' : Stmt} → s.Copy ρ s' → ∀ n ∈ s.defines, ρ n ∈ s'.defines
  | .assign _ target _ _, _, ⟨_, _, rfl, _⟩ => by
    intro n mem
    rw [defines, mem_ofList] at mem ⊢
    rw [Binder.names_rename]
    exact mem_map_of_mem mem
  | .branch _ _ ift iff, _, ⟨_, _, _, _, rfl, _, first, second⟩ => by
    intro n mem
    rw [defines, mem_inter] at mem ⊢
    exact ⟨definesBlock_copy ift first n mem.1, definesBlock_copy iff second n mem.2⟩
  | .scope _ name _ body, _, ⟨_, _, _, rfl, _, inside⟩ => by
    intro n mem
    rw [defines, mem_union, mem_ofList] at mem ⊢
    refine mem.imp (fun named => ?_) (definesBlock_copy body inside n)
    rw [Option.mem_toList] at named ⊢
    exact Option.mem_map_of_mem ρ named
  | .store .., _, _ | .when .., _, _ | .loop .., _, _ | .each .., _, _ | .assert .., _, _ | .effect .., _, _
  | .ret .., _, _ | .skip .., _, _ => nofun

theorem definesBlock_copy : (b : Block) → {b' : Block} → b.Copy ρ b' → ∀ n ∈ b.defines, ρ n ∈ b'.defines
  | ⟨_, stmts⟩, ⟨_, _⟩, copy => definesAll_copy stmts copy

theorem definesAll_copy : (stmts : List Stmt) → {stmts' : List Stmt} → CopyAll ρ stmts stmts' →
    ∀ n ∈ definesAll stmts, ρ n ∈ definesAll stmts'
  | [], _, rfl => nofun
  | s :: rest, _, ⟨_, _, rfl, first, others⟩ => by
    intro n mem
    rw [definesAll, mem_union] at mem ⊢
    exact mem.imp (defines_copy s first n) (definesAll_copy rest others n)

end

mutual

theorem needs_copy : (s : Stmt) → {s' : Stmt} → s.Copy ρ s' → Comes ρ s.needs s'.needs
  | .assign .., _, ⟨_, _, rfl, part⟩ | .effect .., _, ⟨_, _, rfl, part⟩ | .ret .., _, ⟨_, _, rfl, part⟩ => part.uses
  | .store _ name path value, _, ⟨_, _, _, rfl, places, part⟩ =>
    .union (.union (.singleton name) (Expr.uses_copyAll places)) part.uses
  | .when _ _ body, _, ⟨_, _, _, rfl, part, inside⟩ | .loop _ _ body, _, ⟨_, _, _, rfl, part, inside⟩ =>
    .union part.uses (needsBlock_copy body inside)
  | .branch _ _ ift iff, _, ⟨_, _, _, _, rfl, part, first, second⟩ =>
    .union (.union part.uses (needsBlock_copy ift first)) (needsBlock_copy iff second)
  | .each _ target _ body, _, ⟨_, _, _, rfl, part, inside⟩ => by
    refine .union part.uses (.diff (needsBlock_copy body inside) fun n named => ?_)
    rw [mem_ofList, Binder.names_rename]
    exact mem_map_of_mem (mem_ofList.mp named)
  | .scope _ name _ body, _, ⟨_, _, _, rfl, part, inside⟩ => by
    refine .union part.uses (.diff (needsBlock_copy body inside) fun n named => ?_)
    rw [mem_ofList, Option.mem_toList] at named ⊢
    exact Option.mem_map_of_mem ρ named
  | .assert _ test msg, _, ⟨_, _, _, rfl, part, told⟩ => by
    refine .union part.uses fun n used => ?_
    obtain ⟨e', listed, inside⟩ := Expr.mem_usesOption.mp used
    obtain ⟨e, mem, copied⟩ := exists_of_forall₂ told e' listed
    obtain ⟨m, here, rfl⟩ := copied.uses n inside
    exact ⟨m, Expr.mem_usesOption.mpr ⟨e, mem, here⟩, rfl⟩
  | .skip _, _, ⟨_, rfl⟩ => nofun

theorem needsBlock_copy : (b : Block) → {b' : Block} → b.Copy ρ b' → Comes ρ b.needs b'.needs
  | ⟨_, stmts⟩, ⟨_, _⟩, copy => needsAll_copy stmts copy

theorem needsAll_copy : (stmts : List Stmt) → {stmts' : List Stmt} → CopyAll ρ stmts stmts' →
    Comes ρ (needsAll stmts) (needsAll stmts')
  | [], _, rfl => nofun
  | s :: rest, _, ⟨_, _, rfl, first, others⟩ =>
    .union (needs_copy s first) (.diff (needsAll_copy rest others) (defines_copy s first))

end

end Stmt

end NumLang
