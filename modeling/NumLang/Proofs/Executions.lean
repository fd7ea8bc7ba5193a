import NumLang.Proofs.DeadCodeSound

/-!
What control is said to reach, against what is executed.
-/

namespace NumLang

variable {V C : Type}

/-- A statement comes to execute a block in it. The state in which a round of a loop starts is left open. -/
inductive Machine.Enters (m : Machine V C) : Stmt → C → State V → Block → C → State V → Prop where
  | when {node test body c σ} (holds : m.test c σ.store test = .ok true) : Enters m (.when node test body) c σ body c σ
  | ift {node test ift iff c σ} (holds : m.test c σ.store test = .ok true) :
    Enters m (.branch node test ift iff) c σ ift c σ
  | iff {node test ift iff c σ} (fails : m.test c σ.store test = .ok false) :
    Enters m (.branch node test ift iff) c σ iff c σ
  | loop {node test body c σ τ} (holds : m.test c τ.store test = .ok true) :
    Enters m (.loop node test body) c σ body c τ
  | each {node target iterable body c σ τ} : Enters m (.each node target iterable body) c σ body c τ
  | scope {node name ctx body c σ inner writes} (entered : m.entered c σ.store name ctx = .ok (inner, writes)) :
    Enters m (.scope node name ctx body) c σ body inner (σ.write ⟨.stmt, node.id⟩ writes)

/-- The execution of a block comes to execute a block in it, or is it itself. -/
inductive Machine.Executes (m : Machine V C) (b : Block) (c : C) (σ : State V) : Block → C → State V → Prop where
  | self : Executes m b c σ b c σ
  | inside {id first s rest d τ} {inner : Block} {e υ} (outer : Executes m b c σ ⟨id, first ++ s :: rest⟩ d τ)
    (goes : (m.execStmts first d τ).exit = .next) (enters : m.Enters s d (m.execStmts first d τ).state inner e υ) :
    Executes m b c σ inner e υ

namespace Reachability

variable {m : Machine V C} {b : Block} {c d : C} {σ τ : State V}

theorem goesOn_of_next (truthful : m.Truthful) (next : (m.execBlock b c σ).exit = .next) : b.goesOn true = true := by
  have ends := (covers_block truthful b (fun _ => id) c σ).ends
  simpa only [Outcome.Ends, next] using ends

theorem blocks_middle (first : List Stmt) (s : Stmt) (rest : List Stmt) (here : Bool) :
    ∀ entry ∈ (s.reach (Stmt.goesOnAll first here)).blocks,
      entry ∈ (Stmt.reachAll (first ++ s :: rest) here).blocks := by
  induction first generalizing here with
  | nil => exact fun _ => mem_append_left _
  | cons f others ih => exact fun entry mem => mem_append_right _ (ih _ entry mem)

theorem blocks_of_enters (truthful : m.Truthful) {s : Stmt} (enters : m.Enters s c σ b d τ) :
    ∀ entry ∈ (b.reach true).blocks, entry ∈ (s.reach true).blocks := by
  intro entry mem
  cases enters with
  | when holds | loop holds =>
    rw [Stmt.reach, here_of_true (truthful.test holds)]
    exact mem_append_right _ mem
  | ift holds =>
    rw [Stmt.reach, here_of_true (truthful.test holds)]
    exact mem_append_right _ (mem_append_left _ mem)
  | iff fails =>
    rw [Stmt.reach, here_of_false (truthful.test fails)]
    exact mem_append_right _ (mem_append_right _ mem)
  | each | scope => exact mem_append_right _ mem

theorem blocks_of_executes (truthful : m.Truthful) {inner : Block} (executes : m.Executes b c σ inner d τ) :
    ∀ entry ∈ (inner.reach true).blocks, entry ∈ (b.reach true).blocks := by
  induction executes with
  | self => exact fun _ => id
  | @inside id first _ _ _ _ _ _ _ _ goes enters ih =>
    intro entry mem
    refine ih entry (mem_append_left _ (blocks_middle _ _ _ _ entry ?_))
    have goes : Stmt.goesOnAll first true = true := goesOn_of_next truthful (b := ⟨id, first⟩) goes
    rw [goes]
    exact blocks_of_enters truthful enters entry mem

@[simp] theorem blocks_append (a b : ReachNotes) : (a ++ b).blocks = a.blocks ++ b.blocks := rfl

theorem blocks_reach (b : Block) (here : Bool) :
    (b.reach here).blocks.map Prod.fst = (Stmt.reachAll b.stmts here).blocks.map Prod.fst ++ [b.id] := by
  obtain ⟨id, stmts⟩ := b
  simp [Block.reach]

theorem count_reachAll (id : NodeId) (stmts : List Stmt) : ∀ here,
    ((Stmt.reachAll stmts here).blocks.map Prod.fst).count id ≤ (Stmt.idsAll stmts).count id := by
  induction stmts using Stmt.byBlocks with
  | nil => exact fun _ => Nat.le_refl 0
  | cons s rest first later =>
    intro here
    have own := first here
    have others := later (s.goesOn here)
    simp only [Stmt.reachAll, Stmt.idsAll, blocks_append, map_append, count_append, map_nil, count_nil] at *
    omega
  | step s inside =>
    intro here
    cases s <;> simp only [Stmt.blocks, forall_mem_cons, not_mem_nil, false_implies, implies_true, and_true] at inside
    all_goals simp [Stmt.reachAll, Stmt.reach, Stmt.idsAll, Stmt.ids, blocks_reach, Block.ids_eq]
    all_goals grind

theorem blockFallsThrough_of_mem {f : Func} (distinct : f.ids.Nodup) {b : NodeId}
    (listed : (b, true) ∈ (f.body.reach true).blocks) : (ofFunc f).blockFallsThrough b = true := by
  have once : ((f.body.reach true).blocks.map Prod.fst).Nodup := by
    refine nodup_iff_count.mpr fun id => ?_
    have inside := count_reachAll id f.body.stmts true
    have bound := nodup_iff_count.mp distinct id
    simp only [blocks_reach, Func.ids, Block.ids_eq, count_cons, count_append, count_nil] at *
    omega
  simp only [blockFallsThrough, ofFunc, (OrdMap.get?_ofList_iff once).mpr listed, getD_some]

end Reachability

namespace Reference

open Machine (reference)

/-- Whatever the state at its start, a run comes by reachable statements only; control can come to the end of every
block that is executed to its end, and so of the body. -/
theorem reachability_of_run (f : Func) (distinct : f.ids.Nodup) (σ : State Value) :
    (∀ moment ∈ (reference.execBlock f.body () σ).trace, ∀ id, moment.point = .stmt id →
      (Reachability.ofFunc f).isReachable id = true) ∧
    (∀ b c τ, reference.Executes f.body () σ b c τ → (reference.execBlock b c τ).exit = .next →
      (Reachability.ofFunc f).blockFallsThrough b.id = true) ∧
    ((reference.execBlock f.body () σ).exit = .next → (Reachability.ofFunc f).fallsThrough = true) := by
  have truthful := Machine.reference_truthful
  refine ⟨fun moment seen id => Reachability.isReachable_of_mem_trace truthful seen, ?_, ?_⟩
  · rintro ⟨id, stmts⟩ c τ executes next
    refine Reachability.blockFallsThrough_of_mem distinct (Reachability.blocks_of_executes truthful executes _ ?_)
    have goes : Stmt.goesOnAll stmts true = true := Reachability.goesOn_of_next truthful next
    rw [Block.reach, goes]
    exact mem_append_right _ mem_cons_self
  · exact Reachability.goesOn_of_next truthful

open Sample in
/-- Counts up, with a statement that is never reached, and returns nothing. -/
def rising : Func :=
  func [] [] [
    set 1 "x" (int 2 0),
    .loop (node 10) (less 11 (var 12 "x") (int 13 2)) ⟨⟨14⟩, [set 15 "x" (add 16 (var 17 "x") (int 18 1))]⟩,
    .when (node 19) (.lit (node 20) (.bool false)) ⟨⟨21⟩, [.ret (node 22) (var 23 "x")]⟩]

theorem reachability_of_run_rising : rising.ids.Nodup ∧ (reference.execBlock rising.body () ⟨∅, 5⟩).exit = .next ∧
    (Reachability.ofFunc rising).fallsThrough = true := by
  have distinct : rising.ids.Nodup := by decide
  have next : (reference.execBlock rising.body () ⟨∅, 5⟩).exit = .next := by decide +kernel
  exact ⟨distinct, next, (reachability_of_run rising distinct _).2.2 next⟩

end Reference

end NumLang
