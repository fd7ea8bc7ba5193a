import NumLang.Flow.Reachability
import NumLang.Proofs.Outline
import NumLang.Proofs.Walk

/-!
Reachability is sound: a run comes by reachable statements only, and goes on after a statement or block only if
reachability says so.
-/

namespace NumLang

variable {V C : Type}

def Machine.Truthful (m : Machine V C) : Prop :=
  ∀ b v t, m.literal (.bool b) = some v → m.truth v = some t → t = b

theorem Machine.Truthful.test {m : Machine V C} (truthful : m.Truthful) {e : Expr} (tested : m.test c σ e = .ok t) :
    e.truth? ≠ some !t := by
  intro written
  unfold Expr.truth? at written
  split at written
  · obtain ⟨v, computed, decided⟩ := bind_ok.mp tested
    cases written
    unfold Machine.eval at computed
    cases literal : m.literal (.bool !t) with
    | none =>
      rw [literal] at computed
      cases computed
    | some u =>
      rw [literal] at computed
      cases computed
      cases truth : m.truth v with
      | none =>
        rw [truth] at decided
        cases decided
      | some s =>
        rw [truth] at decided
        cases decided
        have same := truthful _ v t literal truth
        cases t <;> nomatch same
  · cases written

namespace Reachability

open Outline

def outline (stmts : List Reached) : Outline C (Store V) where
  seen
    | .stmt id, _, _ => ⟨id, true⟩ ∈ stmts
    | _, _, _ => True
  after _ _ _ := True
  start _ _ _ := True
  finish _ _ _ := True
  fault _ := True

variable {m : Machine V C} {stmts : List Reached} {e : Expr}

theorem here_of_true (written : e.truth? ≠ some !true) : (true && decide (e.truth? ≠ some false)) = true := by
  simpa using written

theorem here_of_false (written : e.truth? ≠ some !false) : (true && decide (e.truth? ≠ some true)) = true := by
  simpa using written

theorem sees_all (out : Outcome V C) : out.Sees fun _ => True := fun _ _ => trivial

theorem covers_step {α : Type} {x : Except Fault α} {k : α → Outcome V C}
    (rest : ∀ a, x = .ok a → (outline stmts).Covers post (k a)) : (outline stmts).Covers post (Outcome.attempt x σ k) :=
  covers_attempt (settles_of_ok fun _ => id) (sees_all _) fun a computed _ => rest a computed

mutual

/-- A statement that is reached comes by reached statements only, and goes on only where that is said. -/
theorem covers_stmt (truthful : m.Truthful) (s : Stmt) (listed : (s.reach true).stmts ⊆ stmts) (c : C)
    (σ : State V) : (outline stmts).Covers (fun _ => s.goesOn true = true) (m.exec s c σ) := by
  cases s with
  | when node test body =>
    refine covers_step fun holds tested => ?_
    have written := truthful.test tested
    cases holds with
    | true =>
      rw [Stmt.reach, here_of_true written] at listed
      refine (covers_block truthful body (append_subset.mp listed).2 c σ).imp fun _ goes => ?_
      unfold Stmt.goesOn
      split
      · exact goes
      · rfl
    | false =>
      refine covers_done ?_
      unfold Stmt.goesOn
      split
      · rename_i known
        exact absurd known written
      · rfl
  | branch node test ift iff =>
    refine covers_step fun holds tested => ?_
    have written := truthful.test tested
    cases holds with
    | true =>
      rw [Stmt.reach, here_of_true written] at listed
      have listed := (append_subset.mp (append_subset.mp listed).2).1
      refine (covers_block truthful ift listed c σ).imp fun _ goes => ?_
      rw [Stmt.goesOn, here_of_true written, goes, Bool.true_or]
    | false =>
      rw [Stmt.reach, here_of_false written] at listed
      have listed := (append_subset.mp (append_subset.mp listed).2).2
      refine (covers_block truthful iff listed c σ).imp fun _ goes => ?_
      rw [Stmt.goesOn, here_of_false written, goes, Bool.or_true]
  | loop node test body =>
    refine covers_repeatWhile (fun _ => True) trivial trivial (sees_all _) (fun _ _ => trivial) ?_
    intro τ _ _
    refine settles_of_ok fun holds tested => ?_
    have written := truthful.test tested
    cases holds with
    | true =>
      rw [Stmt.reach, here_of_true written] at listed
      intro fuel _
      exact (covers_block truthful body (append_subset.mp listed).2 c ⟨τ.store, fuel⟩).imp fun _ _ => trivial
    | false => exact here_of_false written
  | each node target iterable body =>
    refine covers_step fun elements _ => ?_
    refine (covers_forEach (fun _ => True) trivial (sees_all _) ?_).imp fun _ _ => rfl
    intro v _ τ _ _
    refine covers_after trivial (sees_all _) fun _ _ => covers_step fun writes _ => ?_
    exact (covers_block truthful body (append_subset.mp listed).2 c _).imp fun _ _ => trivial
  | scope node name ctx body =>
    exact covers_step fun (inner, writes) _ => covers_block truthful body (append_subset.mp listed).2 inner _
  | assert node test msg =>
    refine covers_step fun holds tested => ?_
    have written := truthful.test tested
    cases holds with
    | true => exact covers_done (here_of_true written)
    | false => exact covers_failed trivial
  | ret node value => exact covers_step fun _ _ => ⟨nofun, trivial⟩
  | skip node => exact covers_done rfl
  | _ => exact covers_step fun _ _ => covers_done rfl

theorem covers_block (truthful : m.Truthful) (b : Block) (listed : (b.reach true).stmts ⊆ stmts) (c : C)
    (σ : State V) : (outline stmts).Covers (fun _ => b.goesOn true = true) (m.execBlock b c σ) := by
  obtain ⟨id, body⟩ := b
  exact covers_stmts truthful body (append_subset.mp listed).1 c σ

theorem covers_stmts (truthful : m.Truthful) (body : List Stmt)
    (listed : (Stmt.reachAll body true).stmts ⊆ stmts) (c : C) (σ : State V) :
    (outline stmts).Covers (fun _ => Stmt.goesOnAll body true = true) (m.execStmts body c σ) := by
  cases body with
  | nil => exact covers_done rfl
  | cons s rest =>
    have own := (append_subset.mp listed).1
    have here : ⟨s.id, true⟩ ∈ stmts := by
      refine own ?_
      unfold Stmt.reach
      exact mem_append_left _ mem_cons_self
    have first : (outline stmts).Covers (fun _ => s.goesOn true = true)
        (Outcome.after [⟨.stmt s.id, c, σ.store⟩] (m.exec s c σ)) :=
      covers_after here (sees_all _) fun _ _ => covers_stmt truthful s own c σ
    refine covers_andThen (sees_all _) (fun _ => first) fun τ goes _ => ?_
    rw [Stmt.goesOnAll, goes]
    refine covers_stmts truthful rest (fun entry mem => listed ?_) c τ
    rw [Stmt.reachAll, goes]
    exact mem_append_right _ mem

end

theorem isReachable_of_mem_trace (truthful : m.Truthful) {f : Func} {moment : Moment V C}
    (seen : moment ∈ (m.execBlock f.body c σ).trace) {id : NodeId} (here : moment.point = .stmt id) :
    (ofFunc f).isReachable id = true := by
  have covered := covers_block truthful f.body (fun _ mem => mem) c σ
  have listed : (outline (f.body.reach true).stmts).seen moment.point moment.context moment.store :=
    covered.seen moment seen
  rw [here] at listed
  exact List.any_eq_true.mpr ⟨_, listed, by simp⟩

end Reachability

end NumLang
