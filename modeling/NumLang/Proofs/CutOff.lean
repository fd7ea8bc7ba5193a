import Mathlib.Data.List.Pairwise
import NumLang.Proofs.Sweeping

/-!
What removal of dead code cuts off.
-/

namespace NumLang

variable {stmts : List Stmt} {here : Bool} {b' : Block} {s : Stmt}

mutual

/-- Nothing in a statement stands behind the end of a block that is entered. -/
def Stmt.Uncut : Stmt → Bool → Prop
  | .when _ test body, here | .loop _ test body, here => body.Uncut (here && test.truth? ≠ some false)
  | .branch _ test ift iff, here =>
    ift.Uncut (here && test.truth? ≠ some false) ∧ iff.Uncut (here && test.truth? ≠ some true)
  | .each _ _ _ body, here | .scope _ _ _ body, here => body.Uncut here
  | .assign .., _ | .store .., _ | .assert .., _ | .effect .., _ | .ret .., _ | .skip .., _ => True

def Block.Uncut : Block → Bool → Prop
  | ⟨_, stmts⟩, here => Stmt.UncutAll stmts here

def Stmt.UncutAll : List Stmt → Bool → Prop
  | [], _ => True
  | s :: rest, here =>
    s.Uncut here ∧ (here = true → s.goesOn here = false → rest = []) ∧ Stmt.UncutAll rest (s.goesOn here)

end

variable {id : NodeId} {part : Stmt}

mutual

theorem Stmt.goesOn_false : (s : Stmt) → s.goesOn false = false
  | .when _ test body => by
    rw [Stmt.goesOn]
    split
    · exact body.goesOn_false
    · rfl
  | .branch _ _ ift iff => by simp [Stmt.goesOn, ift.goesOn_false, iff.goesOn_false]
  | .scope _ _ _ body => body.goesOn_false
  | .loop .. | .assert .. => by simp [Stmt.goesOn]
  | .each .. | .assign .. | .store .. | .effect .. | .ret .. | .skip .. => rfl

theorem Block.goesOn_false : (b : Block) → b.goesOn false = false
  | ⟨_, stmts⟩ => Stmt.goesOnAll_false stmts

theorem Stmt.goesOnAll_false : (stmts : List Stmt) → Stmt.goesOnAll stmts false = false
  | [] => rfl
  | s :: rest => by rw [Stmt.goesOnAll, s.goesOn_false, Stmt.goesOnAll_false rest]

end

namespace Stmt

theorem goesOnAll_append (first others : List Stmt) (here : Bool) :
    goesOnAll (first ++ others) here = goesOnAll others (goesOnAll first here) := by
  induction first generalizing here with
  | nil => rfl
  | cons s rest ih => exact ih (s.goesOn here)

theorem goesOn_skip (idle : DeadCode.isSkip s = true) (here : Bool) : s.goesOn here = here := by
  cases s with
  | skip => rfl
  | _ => cases idle

theorem goesOnAll_active (stmts : List Stmt) (here : Bool) : goesOnAll (active stmts) here = goesOnAll stmts here := by
  induction stmts generalizing here with
  | nil => rfl
  | cons s rest ih =>
    rw [active, List.filter_cons]
    cases idle : DeadCode.isSkip s with
    | true => rw [goesOnAll, goesOn_skip idle here]; exact ih here
    | false => exact ih (s.goesOn here)

theorem goesOn_of_isEmptyBranch (empty : DeadCode.isEmptyBranch s = true) (here : Bool) : s.goesOn here = here := by
  have skips : ∀ {b : Block}, b.stmts.all DeadCode.isSkip = true → ∀ here, b.goesOn here = here := by
    rintro ⟨id, stmts⟩ idle here
    have none : active stmts = [] :=
      List.filter_eq_nil_iff.mpr fun s mem => by simpa using all_eq_true.mp idle s mem
    rw [Block.goesOn, ← goesOnAll_active, none, goesOnAll]
  cases s with
  | when node test body =>
    simp only [DeadCode.isEmptyBranch, Bool.and_eq_true] at empty
    rw [goesOn]
    split
    · exact skips empty.1 here
    · rfl
  | branch node test ift iff =>
    simp only [DeadCode.isEmptyBranch, Bool.and_eq_true] at empty
    rw [goesOn, skips empty.1.1, skips empty.1.2, ← Bool.and_or_distrib_left]
    rcases test.truth? with _ | _ | _ <;> simp
  | _ => cases empty

theorem uncutAll_append (head : UncutAll first here) (ends : here = true → goesOnAll first here = false → others = [])
    (tail : UncutAll others (goesOnAll first here)) : UncutAll (first ++ others) here := by
  induction first generalizing here with
  | nil => exact tail
  | cons s rest ih =>
    obtain ⟨inside, last, later⟩ := head
    refine ⟨inside, fun entered stops => ?_, ih later (fun goes stops => ?_) tail⟩
    · cases last entered stops
      exact ends entered stops
    · refine ends ?_ stops
      cases here with
      | true => rfl
      | false => exact absurd goes (by rw [s.goesOn_false]; exact Bool.false_ne_true)

theorem uncutAll_active (uncut : UncutAll stmts here) : UncutAll (active stmts) here := by
  induction stmts generalizing here with
  | nil => exact uncut
  | cons s rest ih =>
    obtain ⟨inside, last, later⟩ := uncut
    rw [active, List.filter_cons]
    cases idle : DeadCode.isSkip s with
    | true =>
      rw [goesOn_skip idle] at later
      exact ih later
    | false =>
      refine ⟨inside, fun entered stops => ?_, ih later⟩
      rw [last entered stops]
      rfl

theorem uncutAll_skip (idle : DeadCode.isSkip s = true) (here : Bool) : UncutAll [s] here := by
  cases s with
  | skip => exact ⟨trivial, fun _ _ => rfl, trivial⟩
  | _ => cases idle

end Stmt

theorem Stmt.map_stmt_reachAll (stmts : List Stmt) :
    ∀ here, (reachAll stmts here).stmts.map (·.stmt) = (allOf stmts).map Stmt.id := by
  have append : ∀ a b : ReachNotes, (a ++ b).stmts = a.stmts ++ b.stmts := fun _ _ => rfl
  induction stmts using byBlocks with
  | nil => exact fun _ => rfl
  | cons s rest first later =>
    simp only [reachAll, allOf, append, map_append, append_nil] at first ⊢
    exact fun here => congrArg₂ _ (by simpa using first here) (later _)
  | step s ih =>
    have inner : ∀ b ∈ s.blocks, ∀ here, (b.reach here).stmts.map (·.stmt) = b.all.map Stmt.id := by
      rintro ⟨id, stmts⟩ mem here
      simpa [Block.reach, Block.all, append] using ih _ mem here
    intro here
    cases s <;>
      simp only [Stmt.blocks, forall_mem_cons] at inner <;>
      simp [reachAll, reach, allOf, append, all, inner]

theorem Block.map_stmt_reach (b : Block) (here : Bool) : (b.reach here).stmts.map (·.stmt) = b.all.map Stmt.id := by
  obtain ⟨id, stmts⟩ := b
  exact (congrArg (List.map _) (append_nil _)).trans (Stmt.map_stmt_reachAll stmts here)

theorem Stmt.noted_reach (s : Stmt) (here : Bool) : ⟨s.id, here⟩ ∈ (s.reach here).stmts := by
  unfold Stmt.reach
  exact mem_append_left _ mem_cons_self

theorem Reachability.isReachable_of_mem {f : Func} (distinct : f.body.ids.Nodup) (noted : ⟨id, here⟩ ∈ (ofFunc f).stmts)
    : (ofFunc f).isReachable id = here := by
  have once : ((ofFunc f).stmts.map (·.stmt)).Nodup := by
    have same : (ofFunc f).stmts.map (·.stmt) = f.body.all.map Stmt.id := f.body.map_stmt_reach true
    rw [same]
    exact f.body.map_id_sublist.nodup distinct
  cases here with
  | true => exact List.any_eq_true.mpr ⟨_, noted, by simp⟩
  | false =>
    refine List.any_eq_false.mpr fun entry mem reached => ?_
    simp only [Bool.and_eq_true, decide_eq_true_eq] at reached
    cases List.inj_on_of_nodup_map once mem noted reached.1
    nomatch reached.2

def Block.row (b : Block) : List NodeId := b.stmts.map Stmt.id

theorem Stmt.count_rows (id : NodeId) (stmts : List Stmt) : (stmts.map Stmt.id).count id +
    ((allBlocksOf stmts).flatMap Block.row).count id = ((allOf stmts).map Stmt.id).count id := by
  induction stmts using byBlocks with
  | nil => rfl
  | cons s rest first later =>
    simp only [allBlocksOf, allOf, append_nil, map_cons, map_nil, map_append, flatMap_append, count_append, count_cons,
      count_nil] at first later ⊢
    omega
  | step s ih =>
    have inner : ∀ b ∈ s.blocks, (b.allBlocks.flatMap Block.row).count id = (b.all.map Stmt.id).count id := by
      intro b mem
      rw [b.allBlocks_eq, flatMap_cons, count_append, Block.row, ih b mem, b.all_eq]
    have sums : (s.blocks.flatMap fun b => b.allBlocks.flatMap Block.row).count id =
        (s.blocks.flatMap fun b => b.all.map Stmt.id).count id := by
      rw [List.count_flatMap, List.count_flatMap]
      exact congrArg _ (List.map_congr_left inner)
    simpa [allBlocksOf, allOf, s.allBlocks_eq, s.all_eq, List.flatMap_assoc, map_flatMap, count_cons,
      Nat.add_comm] using sums

theorem Block.count_rows (id : NodeId) (b : Block) :
    (b.allBlocks.flatMap Block.row).count id = (b.all.map Stmt.id).count id := by
  rw [b.allBlocks_eq, flatMap_cons, count_append, Block.row, Stmt.count_rows, b.all_eq]

theorem Block.eq_of_mem_row {body b : Block} (distinct : body.ids.Nodup) (mem : b ∈ body.allBlocks)
    (member' : b' ∈ body.allBlocks) (here : id ∈ b.row) (there : id ∈ b'.row) : b = b' := by
  have once : (body.allBlocks.flatMap Block.row).Nodup := by
    refine nodup_iff_count.mpr fun id => ?_
    rw [body.count_rows id]
    exact nodup_iff_count.mp (body.map_id_sublist.nodup distinct) id
  by_contra differ
  have symm : Std.Symm (Function.onFun List.Disjoint Block.row) := ⟨fun _ _ apart _ here there => apart there here⟩
  exact (List.nodup_flatMap.mp once).2.forall mem member' differ here there

theorem Closed.allBlocks (closed : Closed stmts blocks) (s : Stmt) : s ∈ stmts → s.allBlocks ⊆ blocks := by
  induction s using Stmt.byParts with
  | step s ih =>
    intro mem b listed
    rw [s.allBlocks_eq] at listed
    obtain ⟨own, inside, listed⟩ := mem_flatMap.mp listed
    rw [own.allBlocks_eq, Stmt.allBlocksOf_eq] at listed
    have here := closed.inner s mem own inside
    rcases mem_cons.mp listed with rfl | listed
    · exact here
    · obtain ⟨part, row, listed⟩ := mem_flatMap.mp listed
      exact ih own inside part row (closed.rows own here part row) listed

namespace DeadCode

def arms : Stmt → List Block
  | .branch _ _ ift iff => ift.allBlocks ++ iff.allBlocks
  | _ => []

def Tidy (f : Func) : Prop := ∀ s ∈ f.body.all, ∀ b ∈ arms s, cutOff (Reachability.ofFunc f) b = []

variable {b : Block}

theorem mem_allBlocks_of_arms (inArm : b ∈ arms s) : b ∈ s.allBlocks := by
  cases s with
  | branch => exact inArm
  | _ => cases inArm

instance (f : Func) : Decidable (Tidy f) :=
  inferInstanceAs (Decidable (∀ s ∈ f.body.all, ∀ b ∈ arms s, cutOff (Reachability.ofFunc f) b = []))

open Reachability (ofFunc)

theorem mem_cutOff {r : Reachability} {id : NodeId} : id ∈ cutOff r b ↔
    id ∈ b.row ∧ r.isReachable id = false ∧ ∃ first ∈ b.stmts.head?, r.isReachable first.id = true := by
  unfold cutOff Block.row
  split
  · rename_i none
    simp [none]
  · rename_i first rest same
    rw [same]
    by_cases entered : r.isReachable first.id = true
    · rw [if_pos entered, mem_filter]
      simp [entered]
    · simp [entered]

section Uncut

variable {f : Func}

theorem isReachable_of_uncut (distinct : f.body.ids.Nodup) (uncut : Stmt.UncutAll stmts here)
    (noted : (Stmt.reachAll stmts here).stmts ⊆ (ofFunc f).stmts) (mem : s ∈ stmts) :
    (ofFunc f).isReachable s.id = here := by
  induction stmts with
  | nil => cases mem
  | cons first rest ih =>
    obtain ⟨_, last, later⟩ := uncut
    rcases mem_cons.mp mem with rfl | inRest
    · exact Reachability.isReachable_of_mem distinct (noted (mem_append_left _ (s.noted_reach here)))
    · have same : first.goesOn here = here := by
        cases here with
        | false => exact first.goesOn_false
        | true =>
          refine Bool.of_not_eq_false fun stops => ?_
          rw [last rfl stops] at inRest
          cases inRest
      rw [same] at later
      exact ih later (same ▸ (append_subset.mp noted).2) inRest

mutual

theorem cutOff_of_uncut_stmt (distinct : f.body.ids.Nodup) : (s : Stmt) → (here : Bool) → s.Uncut here →
    (s.reach here).stmts ⊆ (ofFunc f).stmts →
    ∀ b ∈ s.allBlocks, cutOff (ofFunc f) b = []
  | .when _ test body, here, uncut, noted | .loop _ test body, here, uncut, noted
  | .each _ _ _ body, here, uncut, noted | .scope _ _ _ body, here, uncut, noted => by
    unfold Stmt.reach at noted
    exact cutOff_of_uncut_block distinct body _ uncut (append_subset.mp noted).2
  | .branch _ test ift iff, here, uncut, noted => by
    unfold Stmt.reach at noted
    have inside := append_subset.mp (append_subset.mp noted).2
    refine forall_mem_append.mpr ⟨?_, ?_⟩
    · exact cutOff_of_uncut_block distinct ift _ uncut.1 inside.1
    · exact cutOff_of_uncut_block distinct iff _ uncut.2 inside.2
  | .assign .., _, _, _ | .store .., _, _, _ | .assert .., _, _, _ | .effect .., _, _, _ | .ret .., _, _, _
  | .skip .., _, _, _ => nofun

theorem cutOff_of_uncut_block (distinct : f.body.ids.Nodup) : (b : Block) → (here : Bool) → b.Uncut here →
    (b.reach here).stmts ⊆ (ofFunc f).stmts →
    ∀ part ∈ b.allBlocks, cutOff (ofFunc f) part = []
  | ⟨id, stmts⟩, here, uncut, noted => by
    have noted := (append_subset.mp noted).1
    refine forall_mem_cons.mpr ⟨?_, cutOff_of_uncut_stmts distinct stmts here uncut noted⟩
    refine List.eq_nil_iff_forall_not_mem.mpr fun id cut => ?_
    obtain ⟨inRow, missed, first, isFirst, reached⟩ := mem_cutOff.mp cut
    obtain ⟨s, mem, rfl⟩ := mem_map.mp inRow
    rw [isReachable_of_uncut distinct uncut noted mem] at missed
    rw [isReachable_of_uncut distinct uncut noted (List.mem_of_mem_head? isFirst), missed] at reached
    cases reached

theorem cutOff_of_uncut_stmts (distinct : f.body.ids.Nodup) : (stmts : List Stmt) → (here : Bool) →
    Stmt.UncutAll stmts here →
    (Stmt.reachAll stmts here).stmts ⊆ (ofFunc f).stmts →
    ∀ b ∈ Stmt.allBlocksOf stmts, cutOff (ofFunc f) b = []
  | [], _, _, _ => nofun
  | s :: rest, here, uncut, noted => by
    have noted := append_subset.mp noted
    refine forall_mem_append.mpr ⟨?_, ?_⟩
    · exact cutOff_of_uncut_stmt distinct s here uncut.1 noted.1
    · exact cutOff_of_uncut_stmts distinct rest _ uncut.2.2 noted.2

end

end Uncut

open Edit Flow

section Inversion

variable {plan : Plan} {s s' : Edit.State}

theorem plain_hooks (plan : Plan) : plan.hooks.Plain fun _ => True where
  name _ := rfl
  expr _ _ := rfl

/-- What is left of a block are the statements that do something, or one that does nothing. -/
theorem makes_block (made : Makes (plan.hooks.block b usual) s b' s') :
    ∃ inner t, Makes usual s inner t ∧ b'.id = inner.id ∧ b'.stmts ≠ [] ∧ (b'.stmts = Stmt.active inner.stmts ∨ ∃ st,
    isSkip st = true ∧ b'.stmts = [st] ∧ Stmt.active inner.stmts = []) := by
  obtain ⟨inner, t, rebuilt, made⟩ := makes_bind.mp made
  obtain ⟨kept, _, dropped, made⟩ := makes_bind.mp made
  refine ⟨inner, t, rebuilt, (makes_filled inner kept made).1, ?_⟩
  have chosen := makes_dropRedundant dropped
  by_cases skips : inner.stmts.all isSkip = true
  · rw [if_pos skips] at chosen
    have none : Stmt.active inner.stmts = [] :=
      List.filter_eq_nil_iff.mpr fun st mem => by simpa using all_eq_true.mp skips st mem
    split at made
    · obtain ⟨filler, _, filled, made⟩ := makes_bind.mp made
      obtain ⟨rfl, _⟩ := makes_skip filled
      cases (makes_pure.mp made).1
      exact ⟨cons_ne_nil _ _, .inr ⟨_, rfl, rfl, none⟩⟩
    · rename_i full
      cases (makes_pure.mp made).1
      rcases rows : inner.stmts with _ | ⟨st, rest⟩
      · rw [chosen, rows] at full
        exact absurd rfl full
      · rw [rows] at chosen skips
        cases chosen
        refine ⟨cons_ne_nil _ _, .inr ⟨st, ?_, rfl, rows ▸ none⟩⟩
        exact all_eq_true.mp skips st mem_cons_self
  · rw [if_neg skips] at chosen
    subst chosen
    split at made
    · rename_i empty
      refine absurd (all_eq_true.mpr fun st mem => ?_) skips
      simpa using List.filter_eq_nil_iff.mp (List.isEmpty_iff.mp empty) st mem
    · rename_i full
      cases (makes_pure.mp made).1
      exact ⟨fun empty => full (List.isEmpty_iff.mpr empty), .inl rfl⟩

end Inversion

/-- What a round leaves of statements: nothing is missing if control goes on behind them, is not there at all or finds
nothing cut off; control goes on as before; and nothing more is to be cut off. -/
structure Leaves (tidy : Prop) (goes here : Bool) (out : List Stmt) (whole : Bool) : Prop where
  whole : goes = true ∨ here = false ∨ tidy → whole = true
  goes : Stmt.goesOnAll out here = goes
  uncut : Stmt.UncutAll out here

/-- A plan that clears a function in which nothing is cut off in the arms of a branch. -/
structure Plan.Clears (plan : Plan) (f : Func) (K : Name → Place → Prop) (notes : Notes) : Prop where
  distinct : f.body.ids.Nodup
  tidy : Tidy f
  unreachable : plan.unreachable = f.body.allBlocks.flatMap (cutOff (Reachability.ofFunc f))
  spares : Sparing K (· ∈ plan.dead) notes f.body.all

section Rounds

variable {f : Func} {plan : Plan} {K : Name → Place → Prop} {notes : Notes} {t t' : Edit.State} {out : List Stmt}

theorem leaves_leaf (leaf : s.blocks = []) (tidy : Prop) (here : Bool) : Leaves tidy (s.goesOn here) here [s] true := by
  refine ⟨fun _ => rfl, rfl, ?_⟩
  cases s with
  | when | branch | loop | each | scope => cases leaf
  | _ => exact ⟨trivial, fun _ _ => rfl, trivial⟩

theorem Plan.Clears.swept (clears : plan.Clears f K notes) (mem : s ∈ f.body.all)
    (kept : s.id ∉ plan.unreachable) {tidy : Prop}
    (made : Makes (plan.hooks.onStmt s) t out t')
    (inside : ∀ s' t t', Makes (plan.hooks.remake s) t s' t' →
      ∃ whole, s.Refit (fun e e' => e' = e) (ReducedIn K notes f.body.all whole s) s' ∧
        Leaves tidy (s.goesOn here) here [s'] whole) :
    ∃ whole, Reduced K notes f.body.all whole [s] out ∧ Leaves tidy (s.goesOn here) here out whole := by
  rw [Rebuild.onStmt_eq_remake (plain_hooks plan)] at made
  rcases makes_stmt made with ⟨rfl, unreachable | dead⟩ | ⟨_, alive, s', _, rebuilt, result⟩
  · exact absurd unreachable kept
  · obtain ⟨node, target, ann, value, rfl, _⟩ := clears.spares.makes s mem dead
    exact ⟨true, clears.spares.drop dead, fun _ => rfl, rfl, trivial⟩
  · obtain ⟨whole, refit, leaves⟩ := inside s' _ _ rebuilt
    have reduced := clears.spares.keep alive refit
    rcases result with rfl | ⟨rfl, empty⟩
    · exact ⟨whole, reduced, leaves⟩
    · refine ⟨whole, reduced.empty empty, leaves.whole, ?_, trivial⟩
      exact (Stmt.goesOn_of_isEmptyBranch empty here).symm.trans leaves.goes

/-- A statement of a block that is entered goes if it is not reached; the others stay. -/
theorem Plan.Clears.mem_unreachable (clears : plan.Clears f K notes) (mem : b ∈ f.body.allBlocks)
    (noted : (b.reach here).stmts ⊆ (Reachability.ofFunc f).stmts) (row : s ∈ b.stmts) :
    s.id ∈ plan.unreachable ↔ here = true ∧ (Reachability.ofFunc f).isReachable s.id = false := by
  have own : s.id ∈ b.row := mem_map_of_mem row
  have entered : ∀ first ∈ b.stmts.head?, (Reachability.ofFunc f).isReachable first.id = here := by
    obtain ⟨id, stmts⟩ := b
    intro first isFirst
    cases stmts with
    | nil => cases isFirst
    | cons other rest =>
      cases isFirst
      refine Reachability.isReachable_of_mem clears.distinct (noted ?_)
      exact mem_append_left _ (mem_append_left _ (first.noted_reach here))
  rw [clears.unreachable, mem_flatMap]
  constructor
  · rintro ⟨other, there, cut⟩
    obtain ⟨inRow, missed, first, isFirst, reached⟩ := mem_cutOff.mp cut
    cases Block.eq_of_mem_row clears.distinct mem there own inRow
    exact ⟨(entered first isFirst).symm.trans reached, missed⟩
  · rintro ⟨rfl, missed⟩
    refine ⟨b, mem, mem_cutOff.mpr ⟨own, missed, ?_⟩⟩
    cases rows : b.stmts with
    | nil => rw [rows] at row; nomatch row
    | cons first rest => exact ⟨first, rfl, entered first (rows ▸ rfl)⟩

theorem Plan.Clears.not_mem_unreachable (clears : plan.Clears f K notes) (mem : b ∈ f.body.allBlocks)
    (none : cutOff (Reachability.ofFunc f) b = []) (row : s ∈ b.stmts) : s.id ∉ plan.unreachable := by
  intro listed
  rw [clears.unreachable, mem_flatMap] at listed
  obtain ⟨other, there, cut⟩ := listed
  cases Block.eq_of_mem_row clears.distinct mem there (mem_map_of_mem row) (mem_cutOff.mp cut).1
  rw [none] at cut
  cases cut

theorem makes_onStmts_unreachable (gone : ∀ s ∈ stmts, s.id ∈ plan.unreachable) (made : Makes (plan.hooks.onStmts stmts) t out t') : out = [] := by
  induction stmts generalizing t t' out with
  | nil => exact (makes_pure.mp made).1
  | cons s rest ih =>
    obtain ⟨first, _, head, made⟩ := makes_bind.mp made
    obtain ⟨others, _, tail, made⟩ := makes_bind.mp made
    rw [(makes_pure.mp made).1, ih (fun s mem => gone s (mem_cons_of_mem _ mem)) tail]
    rw [Rebuild.onStmt_eq_remake (plain_hooks plan)] at head
    rcases makes_stmt head with ⟨rfl, _⟩ | ⟨kept, _⟩
    · rfl
    · exact absurd (gone s mem_cons_self) kept

theorem isReachable_of_behind (distinct : f.body.ids.Nodup)
    (noted : (Stmt.reachAll stmts false).stmts ⊆ (Reachability.ofFunc f).stmts) (mem : s ∈ stmts) :
    (Reachability.ofFunc f).isReachable s.id = false := by
  induction stmts with
  | nil => cases mem
  | cons first rest ih =>
    rcases mem_cons.mp mem with rfl | later
    · exact Reachability.isReachable_of_mem distinct (noted (mem_append_left _ (s.noted_reach false)))
    · exact ih (first.goesOn_false ▸ (append_subset.mp noted).2) later

mutual

theorem Plan.Clears.onStmt (clears : plan.Clears f K notes) : (s : Stmt) → s ∈ f.body.all → (here : Bool) →
    (s.reach here).stmts ⊆ (Reachability.ofFunc f).stmts → s.id ∉ plan.unreachable →
    {t t' : Edit.State} → {out : List Stmt} → Makes (plan.hooks.onStmt s) t out t' →
    ∃ whole, Reduced K notes f.body.all whole [s] out ∧
      Leaves (∀ b ∈ s.allBlocks, cutOff (Reachability.ofFunc f) b = []) (s.goesOn here) here out whole
  | .when _ test body, mem, here, noted, kept, _, _, _, made
  | .loop _ test body, mem, here, noted, kept, _, _, _, made
  | .each _ _ _ body, mem, here, noted, kept, _, _, _, made
  | .scope _ _ _ body, mem, here, noted, kept, _, _, _, made => by
    refine clears.swept mem kept made fun s' t t' rebuilt => ?_
    obtain ⟨⟨_, stmts⟩, _, entered, rebuilt⟩ := makes_bind.mp rebuilt
    cases (makes_pure.mp rebuilt).1
    unfold Stmt.reach at noted
    obtain ⟨whole, reduced, filled, leaves⟩ := clears.onBlock body
      (f.body.closed.inner _ mem _ mem_cons_self) _ (append_subset.mp noted).2 entered
    first
      | exact ⟨true, .loop rfl ⟨reduced.cut, nofun, filled⟩, fun _ => rfl, rfl, leaves.uncut, fun _ _ => rfl, trivial⟩
      | exact ⟨true, .each rfl ⟨reduced.cut, nofun, filled⟩, fun _ => rfl, rfl, leaves.uncut, fun _ _ => rfl, trivial⟩
      | exact ⟨whole, .scope rfl ⟨reduced.cut, fun _ full => full ▸ reduced, filled⟩, leaves.whole, leaves.goes,
          leaves.uncut, fun _ _ => rfl, trivial⟩
      | refine ⟨true, .when rfl ⟨reduced.cut, nofun, filled⟩, fun _ => rfl, ?_, leaves.uncut, fun _ _ => rfl, trivial⟩
        rw [Stmt.goesOnAll, Stmt.goesOnAll, Stmt.goesOn, Stmt.goesOn]
        have goes := leaves.goes
        split
        · rename_i known
          simpa [known, Block.goesOn] using goes
        · rfl
  | .branch node test ift iff, mem, here, noted, kept, _, _, _, made => by
    refine clears.swept mem kept made fun s' t t' rebuilt => ?_
    obtain ⟨⟨_, first⟩, _, entered, rebuilt⟩ := makes_bind.mp rebuilt
    obtain ⟨⟨_, second⟩, _, otherwise, rebuilt⟩ := makes_bind.mp rebuilt
    cases (makes_pure.mp rebuilt).1
    unfold Stmt.reach at noted
    have noted := append_subset.mp (append_subset.mp noted).2
    have tidy := forall_mem_append.mp (clears.tidy _ mem)
    obtain ⟨whole, toLeft, filled, left⟩ := clears.onBlock ift
      (f.body.closed.inner _ mem _ mem_cons_self) _ noted.1 entered
    cases left.whole (.inr (.inr tidy.1))
    obtain ⟨whole, toRight, filled', right⟩ := clears.onBlock iff
      (f.body.closed.inner _ mem _ (mem_cons_of_mem _ mem_cons_self)) _ noted.2 otherwise
    cases right.whole (.inr (.inr tidy.2))
    refine ⟨true, .branch rfl ⟨toLeft.cut, fun _ _ => toLeft, filled⟩ ⟨toRight.cut, fun _ _ => toRight, filled'⟩,
      fun _ => rfl, ?_, ⟨left.uncut, right.uncut⟩, fun _ _ => rfl, trivial⟩
    exact congrArg₂ (· || ·) left.goes right.goes
  | .assign .., mem, here, _, kept, _, _, _, made | .store .., mem, here, _, kept, _, _, _, made
  | .assert .., mem, here, _, kept, _, _, _, made | .effect .., mem, here, _, kept, _, _, _, made
  | .ret .., mem, here, _, kept, _, _, _, made | .skip .., mem, here, _, kept, _, _, _, made => by
    refine clears.swept mem kept made fun s' t t' rebuilt => ?_
    cases (makes_pure.mp rebuilt).1
    exact ⟨true, refit_leaf rfl, leaves_leaf rfl _ here⟩

theorem Plan.Clears.onBlock (clears : plan.Clears f K notes) : (b : Block) → b ∈ f.body.allBlocks → (here : Bool) →
    (b.reach here).stmts ⊆ (Reachability.ofFunc f).stmts →
    {t t' : Edit.State} → {b' : Block} → Makes (plan.hooks.onBlock b) t b' t' →
    ∃ whole, Reduced K notes f.body.all whole b.stmts b'.stmts ∧ b'.stmts ≠ [] ∧
      Leaves (∀ part ∈ b.allBlocks, cutOff (Reachability.ofFunc f) part = []) (b.goesOn here) here b'.stmts whole
  | ⟨id, stmts⟩, mem, here, noted, _, _, ⟨id', filled⟩, made => by
    obtain ⟨inner, _, rebuilt, same, full, result⟩ := makes_block made
    obtain ⟨out, _, row, rebuilt⟩ := makes_bind.mp rebuilt
    cases (makes_pure.mp rebuilt).1
    cases same
    obtain ⟨whole, reduced, leaves⟩ := clears.onStmts stmts (f.body.closed.rows _ mem) here
      (append_subset.mp noted).1 (fun s row => clears.mem_unreachable mem noted row) row
    have active : Stmt.active filled = Stmt.active out := by
      rcases result with rfl | ⟨st, idle, rfl, none⟩
      · simp [Stmt.active]
      · rw [none]
        simp [Stmt.active, idle]
    have among : ∀ s ∈ filled, s ∈ out ∨ isSkip s = true := by
      rcases result with rfl | ⟨st, idle, rfl, none⟩
      · exact fun s mem => .inl (mem_filter.mp mem).1
      · exact fun s mem => .inr (mem_singleton.mp mem ▸ idle)
    refine ⟨whole, reduced.active active among, full, ?_, ?_, ?_⟩
    · rintro (goes | absent | none)
      · exact leaves.whole (.inl goes)
      · exact leaves.whole (.inr (.inl absent))
      · obtain ⟨own, nested⟩ := forall_mem_cons.mp none
        exact leaves.whole (.inr (.inr ⟨nested, fun s row => clears.not_mem_unreachable mem own row⟩))
    · rw [← Stmt.goesOnAll_active, active, Stmt.goesOnAll_active]
      exact leaves.goes
    · rcases result with rfl | ⟨st, idle, rfl, _⟩
      · exact Stmt.uncutAll_active leaves.uncut
      · exact Stmt.uncutAll_skip idle here

theorem Plan.Clears.onStmts (clears : plan.Clears f K notes) : (stmts : List Stmt) →
    (∀ s ∈ stmts, s ∈ f.body.all) → (here : Bool) → (Stmt.reachAll stmts here).stmts ⊆ (Reachability.ofFunc f).stmts →
    (∀ s ∈ stmts, s.id ∈ plan.unreachable ↔ here = true ∧ (Reachability.ofFunc f).isReachable s.id = false) →
    {t t' : Edit.State} → {out : List Stmt} → Makes (plan.hooks.onStmts stmts) t out t' →
    ∃ whole, Reduced K notes f.body.all whole stmts out ∧
      Leaves ((∀ b ∈ Stmt.allBlocksOf stmts, cutOff (Reachability.ofFunc f) b = []) ∧
        ∀ s ∈ stmts, s.id ∉ plan.unreachable) (Stmt.goesOnAll stmts here) here out whole
  | [], _, here, _, _, _, _, _, made => by
    cases (makes_pure.mp made).1
    exact ⟨true, .nil, fun _ => rfl, rfl, trivial⟩
  | s :: rest, members, here, noted, listed, _, _, _, made => by
    obtain ⟨first, _, head, made⟩ := makes_bind.mp made
    obtain ⟨others, _, tail, made⟩ := makes_bind.mp made
    cases (makes_pure.mp made).1
    obtain ⟨notedFirst, notedRest⟩ := append_subset.mp noted
    obtain ⟨mem, members⟩ := forall_mem_cons.mp members
    have reached := Reachability.isReachable_of_mem clears.distinct (notedFirst (s.noted_reach here))
    have kept : s.id ∉ plan.unreachable := by
      intro gone
      obtain ⟨rfl, missed⟩ := (listed s mem_cons_self).mp gone
      rw [reached] at missed
      cases missed
    obtain ⟨whole, reduced, leaves⟩ := clears.onStmt s mem here notedFirst kept head
    by_cases same : s.goesOn here = here
    · -- Control is at the rest of the row as it was at the statement, so the rest is swept on its own.
      have nothing : whole = true := by
        cases here with
        | true => exact leaves.whole (.inl same)
        | false => exact leaves.whole (.inr (.inl rfl))
      subst nothing
      rw [same] at notedRest
      obtain ⟨whole, reducedRest, leavesRest⟩ := clears.onStmts rest members here notedRest
        (fun s mem => listed s (mem_cons_of_mem _ mem)) tail
      refine ⟨whole, reduced.cons reducedRest, ?_, ?_, ?_⟩
      · rintro (goes | absent | ⟨nested, stay⟩)
        · rw [Stmt.goesOnAll, same] at goes
          exact leavesRest.whole (.inl goes)
        · exact leavesRest.whole (.inr (.inl absent))
        · refine leavesRest.whole (.inr (.inr ⟨fun b mem => nested b (mem_append_right _ mem), ?_⟩))
          exact fun s mem => stay s (mem_cons_of_mem _ mem)
      · rw [Stmt.goesOnAll_append, leaves.goes, same, Stmt.goesOnAll, same]
        exact leavesRest.goes
      · refine Stmt.uncutAll_append leaves.uncut (fun entered stops => ?_) ?_
        · rw [leaves.goes, same, entered] at stops
          cases stops
        · rw [leaves.goes, same]
          exact leavesRest.uncut
    · -- Control ends here, and what comes behind is cut off.
      obtain ⟨rfl, stops⟩ : here = true ∧ s.goesOn here = false := by
        cases here with
        | true => exact ⟨rfl, Bool.eq_false_iff.mpr same⟩
        | false => exact absurd s.goesOn_false same
      rw [stops] at notedRest
      have gone : ∀ other ∈ rest, other.id ∈ plan.unreachable := fun other mem =>
        (listed other (mem_cons_of_mem _ mem)).mpr ⟨rfl, isReachable_of_behind clears.distinct notedRest mem⟩
      cases makes_onStmts_unreachable gone tail
      rw [append_nil]
      have ended : Stmt.goesOnAll (s :: rest) true = false := by
        rw [Stmt.goesOnAll, stops, Stmt.goesOnAll_false]
      refine ⟨decide (rest = []) && whole, ?_, ?_, ?_, leaves.uncut⟩
      · cases rest with
        | nil => exact reduced
        | cons => exact reduced.before
      · rintro (goes | absent | ⟨nested, stay⟩)
        · rw [ended] at goes
          cases goes
        · cases absent
        · have none : rest = [] := by
            refine List.eq_nil_iff_forall_not_mem.mpr fun other mem => ?_
            exact stay other (mem_cons_of_mem _ mem) (gone other mem)
          have nothing := leaves.whole (.inr (.inr fun b mem => nested b (mem_append_left _ mem)))
          simp [none, nothing]
      · rw [ended, leaves.goes, stops]

end

end Rounds

end DeadCode

end NumLang
