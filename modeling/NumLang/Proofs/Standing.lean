import NumLang.Proofs.BranchMergingSound
import NumLang.Proofs.Copied

/-!
Statements that may stand at a place: they are well made, and what they need is defined there.
-/

namespace NumLang

/-- The names that are defined at the start of the blocks in a statement, if some are so before it. -/
def Stmt.inside (s : Stmt) (defined : Name → Prop) (n : Name) : Prop :=
  match s with
  | .each _ target _ _ => n ∈ target.names ∨ defined n
  | .scope _ name _ _ => n ∈ name.toList ∨ defined n
  | _ => defined n

/-- Something is known of every statement in a row, and of those in them, and of the names that are defined before it. -/
inductive Stmt.Along (P : (Name → Prop) → Stmt → Prop) : (Name → Prop) → List Stmt → Prop where
  | nil {defined} : Along P defined []
  | cons {defined s rest} (here : P defined s) (inner : ∀ b ∈ s.blocks, Along P (s.inside defined) b.stmts)
    (later : Along P (fun n => defined n ∨ n ∈ s.defines) rest) : Along P defined (s :: rest)

theorem Binder.fits_wildcard (target : Binder) : target.Fits .wildcard := by
  cases target <;> exact trivial

/-- An expression that may stand where names are defined: it is well made, what it reads from outside is defined, and
what it mentions is in use. -/
structure Expr.Stands (used : NameSet) (defined : Name → Prop) (e : Expr) : Prop where
  made : e.WellMade
  uses : ∀ n ∈ e.uses, defined n
  known : ∀ n ∈ e.mentions, n ∈ used

namespace Expr

variable {defined : Name → Prop} {used : NameSet} {e : Expr} {node : Node} {more : NameSet}

theorem wellMade_iff : e.WellMade ↔ e.Formed ∧ ∀ part ∈ e.children, part.WellMade := by
  unfold WellMade
  rw [all_eq, forall_mem_cons]
  simp only [mem_allOf_iff, forall_exists_index, and_imp]
  exact and_congr_right fun _ => ⟨fun each part mem inner inside => each inner part mem inside,
    fun each inner part mem inside => each part mem inner inside⟩

theorem stands_of_children (parts : e.onlyParts = true) (formed : e.Formed)
    (each : ∀ part ∈ e.children, part.Stands used defined) : e.Stands used defined := by
  refine ⟨wellMade_iff.mpr ⟨formed, fun part mem => (each part mem).made⟩, fun n used => ?_, fun n here => ?_⟩
  · obtain ⟨part, mem, inside⟩ := (mem_uses_of_onlyParts parts).mp used
    exact (each part mem).uses n inside
  · obtain ⟨part, mem, inside⟩ := (mem_mentions_of_onlyParts parts).mp here
    exact (each part mem).known n inside

theorem Stands.child (stands : e.Stands used defined) (parts : e.onlyParts = true) {part : Expr}
    (mem : part ∈ e.children) : part.Stands used defined := by
  refine ⟨(wellMade_iff.mp stands.made).2 part mem, fun n here => stands.uses n ?_, fun n here => stands.known n ?_⟩
  · exact (mem_uses_of_onlyParts parts).mpr ⟨part, mem, here⟩
  · exact (mem_mentions_of_onlyParts parts).mpr ⟨part, mem, here⟩

theorem stands_var (here : defined n) (known : n ∈ used) : (Expr.var node n).Stands used defined := by
  refine ⟨wellMade_iff.mpr ⟨trivial, nofun⟩, fun m mem => ?_, fun m mem => ?_⟩
  · cases OrdSet.mem_singleton.mp mem
    exact here
  · cases mem_singleton.mp mem
    exact known

theorem Stands.mono (stands : e.Stands used defined) (grows : ∀ n ∈ used, n ∈ more) : e.Stands more defined :=
  ⟨stands.made, stands.uses, fun n here => grows n (stands.known n here)⟩

theorem Stands.wider {wider : Name → Prop} (stands : e.Stands used defined) (grows : ∀ n, defined n → wider n) :
    e.Stands used wider :=
  ⟨stands.made, fun n here => grows n (stands.uses n here), stands.known⟩

theorem stands_copy {e' : Expr} (copy : e.Copy ρ e') (stands : e.Stands used defined) (renames : Renames (· ∈ used) ρ)
    (taken : ∀ n ∈ used, ρ n ∈ more) (moves : ∀ n, defined n → wider (ρ n)) : e'.Stands more wider := by
  refine ⟨copy.wellMade (renames.mono stands.known) stands.made, fun n here => ?_, fun n here => ?_⟩
  · obtain ⟨m, used, rfl⟩ := copy.uses n here
    exact moves m (stands.uses m used)
  · obtain ⟨m, mentioned, rfl⟩ := copy.mentions n here
    exact taken m (stands.known m mentioned)

theorem stands_lit : (Expr.lit node value).Stands used defined :=
  stands_of_children rfl trivial (by rintro _ ⟨⟩)

end Expr

namespace Stmt

variable {before : NodeId → NameSet} {defined : Name → Prop} {used more : NameSet} {s s' : Stmt}
  {stmts rest out : List Stmt} {b : Block} {P : (Name → Prop) → Stmt → Prop} {value : Expr}

theorem along_cons : Along P defined (s :: rest) ↔ P defined s ∧
    (∀ b ∈ s.blocks, Along P (s.inside defined) b.stmts) ∧ Along P (fun n => defined n ∨ n ∈ s.defines) rest :=
  ⟨fun | .cons here inner later => ⟨here, inner, later⟩, fun ⟨here, inner, later⟩ => .cons here inner later⟩

theorem along_single : Along P defined [s] ↔ P defined s ∧ ∀ b ∈ s.blocks, Along P (s.inside defined) b.stmts :=
  along_cons.trans (and_congr_right fun _ => and_iff_left .nil)

/-- The names that must be defined before a statement, if for the blocks in it those are given that must be defined at
their start. -/
def asks (inner : Block → NameSet) : Stmt → NameSet
  | .assign _ _ _ value | .effect _ value | .ret _ value => value.uses
  | .store _ name path value => OrdSet.singleton name ∪ Expr.usesAll path ∪ value.uses
  | .when _ test body | .loop _ test body => test.uses ∪ inner body
  | .branch _ test ift iff => test.uses ∪ inner ift ∪ inner iff
  | .each _ target iterable body => iterable.uses ∪ (inner body \ OrdSet.ofList target.names)
  | .scope _ name ctx body => ctx.uses ∪ (inner body \ OrdSet.ofList name.toList)
  | .assert _ test msg => test.uses ∪ Expr.usesOption msg
  | .skip _ => ∅

theorem asks_iff {inner : Block → NameSet} : (∀ n ∈ s.asks inner, defined n) ↔ (∀ n ∈ s.reads, defined n) ∧
    (∀ e ∈ s.exprs, ∀ n ∈ e.uses, defined n) ∧ ∀ b ∈ s.blocks, ∀ n ∈ inner b, s.inside defined n := by
  have bound : ∀ (need : NameSet) (names : List Name),
      (∀ n ∈ need \ OrdSet.ofList names, defined n) ↔ ∀ n ∈ need, n ∈ names ∨ defined n := by
    intro need names
    simp only [mem_diff, mem_ofList, and_imp]
    exact forall₂_congr fun n _ => or_iff_not_imp_left.symm
  cases s with
  | store node name path value =>
    simp only [asks, reads, exprs, blocks, mem_union, OrdSet.mem_singleton, Expr.mem_usesAll,
      forall_mem_append, forall_mem_singleton, not_mem_nil]
    grind
  | assert node test msg =>
    simp only [asks, reads, exprs, blocks, mem_union, Expr.mem_usesOption, forall_mem_cons, not_mem_nil]
    grind
  | each | scope =>
    simp only [asks, reads, exprs, blocks, inside, mem_union, or_imp, forall_and, bound,
      forall_mem_singleton, not_mem_nil, false_imp_iff, implies_true, true_and]
  | _ => simp [asks, reads, exprs, blocks, inside, or_imp, forall_and, and_assoc]

theorem needs_eq_asks : s.needs = s.asks Block.needs := by
  cases s <;> rfl

theorem needs_iff : (∀ n ∈ s.needs, defined n) ↔ (∀ n ∈ s.reads, defined n) ∧ (∀ e ∈ s.exprs, ∀ n ∈ e.uses, defined n) ∧
    ∀ b ∈ s.blocks, ∀ n ∈ needsAll b.stmts, s.inside defined n := by
  rw [needs_eq_asks, asks_iff]
  simp only [Block.needs_eq]

/-- Statements that may stand where names are defined: they are well made, what they need is defined, and what they
mention is in use. -/
structure Stands (used : NameSet) (defined : Name → Prop) (stmts : List Stmt) : Prop where
  made : WellMade stmts
  needs : ∀ n ∈ needsAll stmts, defined n
  known : ∀ n ∈ mentioned stmts, n ∈ used

theorem stands_nil (used : NameSet) (defined : Name → Prop) : Stands used defined [] :=
  ⟨wellMade_nil, by rintro _ ⟨⟩, by rintro _ ⟨⟩⟩

theorem stands_append : Stands used defined (stmts ++ rest) ↔
    Stands used defined stmts ∧ Stands used (fun n => defined n ∨ n ∈ definesAll stmts) rest := by
  constructor
  · intro stands
    obtain ⟨first, others⟩ := wellMade_append.mp stands.made
    refine ⟨⟨first, fun n need => ?_, fun n here => ?_⟩, others, fun n need => ?_, fun n here => ?_⟩
    · exact stands.needs n (mem_needsAll_append.mpr (.inl need))
    · exact stands.known n (mentioned_append ▸ mem_append_left _ here)
    · refine or_iff_not_imp_right.mpr fun late => stands.needs n ?_
      exact mem_needsAll_append.mpr (.inr ⟨need, late⟩)
    · exact stands.known n (mentioned_append ▸ mem_append_right _ here)
  · rintro ⟨first, others⟩
    refine ⟨wellMade_append.mpr ⟨first.made, others.made⟩, fun n need => ?_, fun n here => ?_⟩
    · rcases mem_needsAll_append.mp need with need | ⟨need, late⟩
      · exact first.needs n need
      · exact (others.needs n need).resolve_right late
    · rw [mentioned_append, mem_append] at here
      exact here.elim (first.known n) (others.known n)

theorem stands_cons : Stands used defined (s :: rest) ↔
    Stands used defined [s] ∧ Stands used (fun n => defined n ∨ n ∈ s.defines) rest := by
  simpa using @stands_append defined used [s] rest

/-- A statement stands if what it binds, reads and evaluates does, and the blocks in it do where its names are bound. -/
theorem stands_single : Stands used defined [s] ↔ (∀ n ∈ s.binds, n.IsPlain ∧ n ∈ used) ∧
    (∀ n ∈ s.reads, defined n) ∧ (∀ e ∈ s.exprs, e.Stands used defined) ∧ s.Bound ∧
    ∀ b ∈ s.blocks, b.stmts ≠ [] ∧ Stands used (s.inside defined) b.stmts := by
  have holds : ∀ n ∈ s.reads, n ∈ s.binds := by
    cases s <;> simp [reads, binds]
  constructor
  · intro stands
    obtain ⟨formed, inner⟩ := wellMade_single.mp stands.made
    obtain ⟨held, own, deeper⟩ := needs_iff.mp fun n need => stands.needs n (mem_needsAll_single.mpr need)
    have known : ∀ n ∈ s.mentions, n ∈ used := fun n here => stands.known n (mem_mentioned_single.mpr (.inl here))
    refine ⟨fun n bound => ⟨formed.names n bound, known n (mem_mentions.mpr (.inl bound))⟩, held,
      fun e mem => ⟨formed.exprs e mem, own e mem, fun n here => ?_⟩, formed.bound, fun b mem =>
      ⟨formed.blocks b mem, inner b mem, deeper b mem, fun n here => ?_⟩⟩
    · exact known n (mem_mentions.mpr (.inr (.inr ⟨e, mem, here⟩)))
    · exact stands.known n (mem_mentioned_single.mpr (.inr ⟨b, mem, here⟩))
  · rintro ⟨names, held, exprs, bound, inner⟩
    refine ⟨wellMade_single.mpr ⟨⟨fun n here => (names n here).1, fun e mem => (exprs e mem).made, bound,
      fun b mem => (inner b mem).1⟩, fun b mem => (inner b mem).2.made⟩, ?_, fun n here => ?_⟩
    · have needed := needs_iff.mpr ⟨held, fun e mem => (exprs e mem).uses, fun b mem => (inner b mem).2.needs⟩
      exact fun n need => needed n (mem_needsAll_single.mp need)
    · rcases mem_mentioned_single.mp here with here | ⟨b, mem, here⟩
      · rcases mem_mentions.mp here with bound | read | ⟨e, mem, here⟩
        · exact (names n bound).2
        · exact (names n (holds n read)).2
        · exact (exprs e mem).known n here
      · exact (inner b mem).2.known n here

variable {node : Node} {n : Name}

theorem stands_skip : Stands used defined [.skip node] := by
  refine stands_single.mpr ⟨?_, ?_, ?_, trivial, ?_⟩ <;> rintro _ ⟨⟩

theorem stands_withNode : Stands used defined [s.withNode node] ↔ Stands used defined [s] := by
  rw [stands_single, stands_single]
  cases s <;> rfl

theorem defines_withNode : (s.withNode node).defines = s.defines := by
  cases s <;> rfl

theorem stands_assign {target : Binder} (names : ∀ n ∈ target.names, n.IsPlain ∧ n ∈ used)
    (distinct : target.names.Nodup) (fits : target.Fits value.layout) (stands : value.Stands used defined) :
    Stands used defined [.assign node target ann value] :=
  stands_single.mpr ⟨names, nofun, forall_mem_singleton.mpr stands, ⟨distinct, fits⟩, nofun⟩

theorem stands_set (plain : n.IsPlain) (known : n ∈ used) (stands : value.Stands used defined) :
    Stands used defined [.assign node (.name n) none value] :=
  stands_assign (forall_mem_singleton.mpr ⟨plain, known⟩) (List.nodup_singleton n) (by simp [Binder.Fits]) stands

namespace Stands

theorem mono (stands : Stands used defined stmts) (grows : ∀ n ∈ used, n ∈ more) : Stands more defined stmts :=
  ⟨stands.made, stands.needs, fun n here => grows n (stands.known n here)⟩

theorem wider {wider : Name → Prop} (stands : Stands used defined stmts) (grows : ∀ n, defined n → wider n) :
    Stands used wider stmts :=
  ⟨stands.made, fun n need => grows n (stands.needs n need), stands.known⟩

end Stands

theorem stands_copy (copy : CopyAll ρ stmts stmts') (stands : Stands used defined stmts)
    (renames : Renames (· ∈ used) ρ) (taken : ∀ n ∈ used, ρ n ∈ more) (moves : ∀ n, defined n → wider (ρ n)) :
    Stands more wider stmts' := by
  refine ⟨wellMade_copy copy (renames.mono stands.known) stands.made, fun n need => ?_, fun n here => ?_⟩
  · obtain ⟨m, needed, rfl⟩ := needsAll_copy stmts copy n need
    exact moves m (stands.needs m needed)
  · obtain ⟨m, mentioned, rfl⟩ := mentioned_copy copy n here
    exact taken m (stands.known m mentioned)

def bindsAll (stmts : List Stmt) : List Name := (allOf stmts).flatMap Stmt.binds

theorem bindsAll_append : bindsAll (stmts ++ rest) = bindsAll stmts ++ bindsAll rest := by
  rw [bindsAll, allOf_append, flatMap_append, bindsAll, bindsAll]

theorem mem_bindsAll_single : n ∈ bindsAll [s] ↔ n ∈ s.binds ∨ ∃ b ∈ s.blocks, n ∈ bindsAll b.stmts := by
  have every := @forall_allOf_single s fun t => n ∉ t.binds
  simp only [bindsAll, mem_flatMap]
  grind

theorem mem_bindsAll_assigned : n ∈ b.assigned ↔ n ∈ bindsAll b.stmts := by
  rw [Flow.mem_assigned, Block.all_eq, bindsAll]

theorem bindsAll_of_definesAll (here : n ∈ definesAll stmts) : n ∈ bindsAll stmts := by
  induction stmts using byBlocks with
  | nil => cases here
  | cons s rest first others =>
    rw [← singleton_append, mem_definesAll_append] at here
    rw [← singleton_append, bindsAll_append]
    exact mem_append.mpr (here.imp first others)
  | step s inner =>
    rw [mem_definesAll_single] at here
    rw [mem_bindsAll_single]
    have deeper : ∀ b ∈ s.blocks, n ∈ b.defines → n ∈ bindsAll b.stmts := fun b mem below =>
      inner b mem (Block.defines_eq b ▸ below)
    cases s with
    | assign => exact .inl (mem_ofList.mp here)
    | branch => exact .inr ⟨_, mem_cons_self, deeper _ mem_cons_self (mem_inter.mp here).1⟩
    | scope =>
      rcases mem_union.mp here with bound | below
      · exact .inl (mem_ofList.mp bound)
      · exact .inr ⟨_, mem_cons_self, deeper _ mem_cons_self below⟩
    | _ => cases here

theorem mentioned_of_bindsAll (bound : n ∈ bindsAll stmts) : n ∈ mentioned stmts := by
  obtain ⟨s, mem, bound⟩ := mem_flatMap.mp bound
  exact mem_flatMap.mpr ⟨s, mem, mem_mentions.mpr (.inl bound)⟩

theorem Stands.bound (stands : Stands used defined stmts) (here : n ∈ bindsAll stmts) : n.IsPlain ∧ n ∈ used := by
  obtain ⟨s, mem, bound⟩ := mem_flatMap.mp here
  exact ⟨(stands.made s mem).names n bound, stands.known n (mentioned_of_bindsAll here)⟩

theorem Stands.assigned (stands : Stands used defined b.stmts) (here : n ∈ b.assigned) : n.IsPlain ∧ n ∈ used :=
  stands.bound (mem_bindsAll_assigned.mp here)

/-- What is known of statements before they are rewritten: they may stand, and the names in force are defined. Names
that are defined are in use. -/
structure Settled (before : NodeId → NameSet) (used : NameSet) (defined : Name → Prop) (stmts : List Stmt) : Prop
    extends Stands used defined stmts where
  located : Along (fun defined s => ∀ n ∈ before s.id, defined n) defined stmts
  bounded : ∀ n, defined n → n ∈ used

namespace Settled

theorem mono (settled : Settled before used defined stmts) (grows : ∀ n ∈ used, n ∈ more) :
    Settled before more defined stmts :=
  ⟨settled.toStands.mono grows, settled.located, fun n here => grows n (settled.bounded n here)⟩

theorem head (settled : Settled before used defined (s :: rest)) : Settled before used defined [s] :=
  have ⟨own, inner, _⟩ := along_cons.mp settled.located
  ⟨(stands_cons.mp settled.toStands).1, along_single.mpr ⟨own, inner⟩, settled.bounded⟩

theorem own (settled : Settled before used defined [s]) : ∀ n ∈ before s.id, defined n :=
  (along_single.mp settled.located).1

theorem tail (settled : Settled before used defined (s :: rest)) :
    Settled before used (fun n => defined n ∨ n ∈ s.defines) rest := by
  obtain ⟨first, others⟩ := stands_cons.mp settled.toStands
  refine ⟨others, (along_cons.mp settled.located).2.2, fun n here => here.elim (settled.bounded n) fun here => ?_⟩
  exact (first.bound (bindsAll_of_definesAll (mem_definesAll_single.mpr here))).2

theorem block (settled : Settled before used defined [s]) (mem : b ∈ s.blocks) :
    Settled before used (s.inside defined) b.stmts := by
  obtain ⟨names, _, _, _, within⟩ := stands_single.mp settled.toStands
  refine ⟨(within b mem).2, (along_single.mp settled.located).2 b mem, fun n here => ?_⟩
  cases s with
  | each | scope => exact here.elim (fun bound => (names n bound).2) (settled.bounded n)
  | _ => exact settled.bounded n here

end Settled

/-- Statements that may stand in place of others: they are well made, what they need is defined, they define what the
others do, and what they mention is in use. -/
structure Serves (used : NameSet) (defined : Name → Prop) (stmts out : List Stmt) : Prop
    extends Stands used defined out where
  defines : ∀ n ∈ definesAll stmts, n ∈ definesAll out
  filled : stmts ≠ [] → out ≠ []

namespace Serves

theorem nil (used : NameSet) (defined : Name → Prop) : Serves used defined [] [] :=
  ⟨stands_nil used defined, fun _ here => here, fun filled => filled⟩

theorem mono (serves : Serves used defined stmts out) (grows : ∀ n ∈ used, n ∈ more) : Serves more defined stmts out :=
  ⟨serves.toStands.mono grows, serves.defines, serves.filled⟩

theorem wider {wider : Name → Prop} (serves : Serves used defined stmts out) (grows : ∀ n, defined n → wider n) :
    Serves used wider stmts out :=
  ⟨serves.toStands.wider grows, serves.defines, serves.filled⟩

theorem cons (first : Serves used defined [s] out)
    (later : Serves used (fun n => defined n ∨ n ∈ s.defines) rest others) :
    Serves used defined (s :: rest) (out ++ others) := by
  have early : ∀ n ∈ s.defines, n ∈ definesAll out := fun n here => first.defines n (mem_definesAll_single.mpr here)
  refine ⟨stands_append.mpr ⟨first.toStands, later.toStands.wider fun n => Or.imp_right (early n)⟩, fun n here => ?_,
    fun _ empty => ?_⟩
  · rw [mem_definesAll_append]
    rw [definesAll, mem_union] at here
    exact here.imp (early n) (later.defines n)
  · exact first.filled (cons_ne_nil _ _) (List.append_eq_nil_iff.mp empty).1

theorem trans (first : Serves used defined stmts middle) (second : Serves more defined middle out) :
    Serves more defined stmts out :=
  ⟨second.toStands, fun n here => second.defines n (first.defines n here),
    fun filled => second.filled (first.filled filled)⟩

end Serves

end Stmt

/-! ### Whole functions -/

theorem Stmt.mem_mentioned_block {b : Block} : n ∈ Stmt.mentioned b.stmts ↔ n ∈ b.bound ∨ n ∈ b.referenced := by
  simp only [Stmt.mentioned, ← Block.all_eq, mem_flatMap, Stmt.mem_mentions, Expr.mentions, mem_append,
    Block.bound, Block.assigned, Block.locals, Block.referenced, Block.allExprs, mem_union, mem_ofList,
    Expr.mem_allOf_iff]
  grind

namespace Flow

open Reaching

variable {f : Func} {notes : Notes} {exit : Env}

/-- The names in force before each statement of a function. -/
abbrev inForce (r : Reaching) (id : NodeId) : NameSet := BranchMerging.namesBefore r id

theorem inside_startEnv {env : Env} {s : Stmt} (mem : b ∈ s.blocks) :
    s.inside (fun n => env.contains n = true) = fun n => (startEnv env s).contains n = true := by
  funext n
  cases s with
  | assign | store | assert | effect | ret | skip => cases mem
  | _ => simp [Stmt.inside, startEnv, headEnv, contains_bound, loopHead, OrdMap.contains_mapValues, Stmt.binds]

mutual

/-- What is known of the walk through every statement is known along the statements of the names in its environments. -/
theorem along_of_walk
    (each : ∀ {env s after sub}, StmtWalk env s after sub → sub.Within notes → P (fun n => env.contains n = true) s)
    {stmts : List Stmt} {env after : Env} {sub : Notes} :
    StmtsWalk env stmts after sub → sub.Within notes → Stmt.Along P (fun n => env.contains n = true) stmts
  | .nil, _ => .nil
  | .cons walk@(.stmt _ _ arms _ whole) tail, within => by
    have first := (Notes.Within.left _ _).trans within
    have later := along_of_walk each tail ((Notes.Within.right _ _).trans within)
    rw [funext fun n => propext walk.contains_iff] at later
    refine .cons (each walk first) (fun b mem => ?_) later
    rw [inside_startEnv mem]
    exact along_of_arms each arms ((whole ▸ Notes.Within.middle ..).trans first) b mem

theorem along_of_arms
    (each : ∀ {env s after sub}, StmtWalk env s after sub → sub.Within notes → P (fun n => env.contains n = true) s)
    {blocks : List Block} {env : Env} {sub : Notes} :
    ArmsWalk env blocks outs sub → sub.Within notes → ∀ b ∈ blocks, Stmt.Along P (fun n => env.contains n = true)
    b.stmts
  | .nil, _ => nofun
  | .cons (.block inside) tail, within => forall_mem_cons.mpr
    ⟨along_of_walk each inside ((Notes.Within.left _ _).trans ((Notes.Within.left _ _).trans within)),
      along_of_arms each tail ((Notes.Within.right _ _).trans within)⟩

end

end Flow

namespace Func

open Flow Edit Stmt

variable {f : Func} {r : Reaching}

def Inputs (f : Func) (n : Name) : Prop := n ∈ f.paramNames ∨ n ∈ f.freeVars

theorem along_of_survey {notes : Notes} (survey : Reaching.Survey f notes)
    (each : ∀ {env s after sub}, StmtWalk env s after sub → sub.Within notes → P (fun n => env.contains n = true) s) :
    Along P f.Inputs f.body.stmts := by
  obtain ⟨_, _, walk, rfl⟩ := survey.walk
  rw [show f.Inputs = fun n => (Reaching.entryOf f).contains n = true from
    funext fun n => propext WellFormed.contains_entryOf.symm]
  obtain ⟨inside⟩ := walk
  exact along_of_walk each inside ((Notes.Within.left _ _).trans (.right _ _))

theorem stands_body (checked : f.check = .ok ()) : Stands f.allNames f.Inputs f.body.stmts := by
  obtain ⟨_, _, made, needs⟩ := WellFormed.check_iff.mp checked
  refine ⟨made, ?_, fun n mem => ?_⟩
  · rw [← Block.needs_eq]
    exact needs
  · have named := mem_mentioned_block.mp mem
    simp only [Func.allNames, mem_union]
    grind

theorem settled_body (distinct : f.ids.Nodup) (checked : f.check = .ok ()) (analysed : Reaching.ofFunc f = .ok r) :
    Settled (inForce r) f.allNames f.Inputs f.body.stmts := by
  obtain ⟨exit, notes, survey, rfl⟩ := Reaching.survey_of_func distinct analysed
  refine ⟨stands_body checked, ?_, fun n given => ?_⟩
  · exact along_of_survey survey fun walk within n => (BranchMerging.mem_namesBefore survey (within.stmts _ walk.noted)).mp
  · simp only [Func.allNames, mem_union, mem_ofList]
    have named : n ∈ f.paramNames ∨ n ∈ f.freeVars := given
    grind

theorem check_of_serves (checked : f.check = .ok ()) {b : Block} (serves : Serves used f.Inputs f.body.stmts b.stmts) :
    Func.check { f with body := b } = .ok () := by
  obtain ⟨params, filled, _, _⟩ := WellFormed.check_iff.mp checked
  exact WellFormed.check_iff.mpr ⟨params, serves.filled filled, serves.made, Block.needs_eq b ▸ serves.needs⟩

end Func

end NumLang
