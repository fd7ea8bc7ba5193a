import NumLang.Proofs.FlowInvariant
import NumLang.Proofs.Simulation

/-!
Coupled runs. The run of a function and that of a revised one go side by side; their stores agree on the names whose
definitions in force are kept.
-/

namespace NumLang

variable {V C : Type}

namespace Flow

def Agrees (kept : Place → Prop) (env : Env) (w : Store V × Store V) : Prop :=
  Satisfies (fun _ p x => kept p → x.1 = x.2) env (World.pair.look w)

variable {kept : Place → Prop} {writes : List (Name × V)} {σ : Store V} {m : Machine V C} {c : C} {target : Binder}
  {value : Expr}

theorem upheld_agrees (m : Machine V C) (notes : Notes) (stmts : List Stmt)
    (meets : ∀ n site lhs rhs, ⟨.join site n, .join n site lhs rhs⟩ ∈ notes.records → kept (.join site n) →
      kept lhs ∧ kept rhs) :
    Upheld m .pair notes (Agrees kept) (fun _ => True) stmts where
  stuck := trivial
  reads _ _ _ _ _ := .inr trivial
  edge s _ span _ env next w flows holds := by
    refine holds.into flows ?_
    rintro n lhs rhs x recorded (left | right) joined
    · exact left (meets n _ lhs rhs recorded joined).1
    · exact right (meets n _ lhs rhs recorded joined).2
  write s _ span _ _ _ c w writes names _ holds := by
    rw [bound, ← names]
    exact holds.write fun _ _ _ _ _ => rfl

theorem get?_writeAll_of_notMem (absent : n ∉ writes.map Prod.fst) : (σ.writeAll site writes).get? n = σ.get? n := by
  induction writes generalizing σ with
  | nil => rfl
  | cons entry rest ih =>
    simp only [map_cons, mem_cons, not_or] at absent
    rw [Store.writeAll, ih absent.2, OrdMap.get?_insert, if_neg absent.1]

theorem names_of_assigned (assigned : m.assigned c σ target value = .ok writes) :
    writes.map Prod.fst = target.names := by
  obtain ⟨v, _, written⟩ := bind_ok.mp assigned
  have settled : Settles (fun _ => True) (m.writes target v) fun writes => writes.map Prod.fst = target.names :=
    settles_writes trivial target v
  rwa [written] at settled

/-- An assignment can be left out of the second run, if what it defines is not kept. -/
theorem matches_dropped {f : Func} {notes : Notes} (survey : Reaching.Survey f notes) {node : Node}
    (mem : .assign node target ann value ∈ f.body.all)
    (dropped : ∀ i n, target.names[i]? = some n → ¬ kept (.binder node.id i)) {σ τ : State V} (fuel : τ.fuel = σ.fuel)
    (seen : (notes.outline (Agrees kept) fault).seen (.stmt node.id) c (σ.store, τ.store)) :
    (m.exec (.assign node target ann value) c σ).Matches ((notes.outline (Agrees kept) fault).after node.id c) (.done τ)
    := by
  obtain ⟨⟨before, after⟩, sub, noted, (walk : StmtWalk before _ after sub), _⟩ := survey.spans.visits _ mem
  obtain ⟨_, _, _, rfl, _⟩ := walk
  have holds : Agrees kept before (σ.store, τ.store) := (seen_stmt survey noted).mp seen
  rw [Machine.exec]
  cases assigned : m.assigned c σ.store target value with
  | error e => trivial
  | ok writes =>
    refine ⟨rfl, fuel, (outline_after survey noted).mpr ?_⟩
    intro n p found keeps
    rcases bindNames_cases found with ⟨absent, earlier⟩ | ⟨i, named, rfl⟩
    · have untouched : (σ.store.writeAll ⟨.stmt, node.id⟩ writes).get? n = σ.store.get? n :=
        get?_writeAll_of_notMem (by rwa [names_of_assigned assigned])
      exact untouched.trans (holds n p earlier keeps)
    · rw [Nat.zero_add] at keeps
      exact absurd keeps (dropped i n named)

theorem agrees_self (kept : Place → Prop) (env : Env) (σ : Store V) : Agrees kept env (σ, σ) :=
  fun _ _ _ _ => rfl

end Flow

open Flow

section Revised

variable {R : Revision} {m : Machine V C} {fact : Moment V C → Prop} {f g : Func} {notes : Notes}
  {A : Env → Store V × Store V → Prop} {c : C} {fuel : Nat} {free : Name → Option V} {args : List V} {v : V}
  (survey : Reaching.Survey f notes) (upheld : Upheld m .pair notes A (fun _ => True) f.body.all)
  (sound : R.Sound m fact (notes.outline A fun _ => True)) (revised : R.OnBlock f.body g.body)
  (same : Machine.start g free args = Machine.start f free args)
  (starts : ∀ σ, Machine.start f free args = some σ → A (Reaching.entryOf f) (σ, σ))
  (facts : ∀ σ, Machine.start f free args = some σ → (m.execBlock f.body c ⟨σ, fuel⟩).Sees fact)
  (returns : m.run c fuel f free args = some v)

include survey upheld sound revised same starts facts returns

theorem ends_of_revision : ∃ out, m.execFunc c fuel g free args = some out ∧
    (out.FailsAt R.excused ∨ out.exit = .ret v) := by
  obtain ⟨out, ran, value⟩ := bind_eq_some_iff.mp returns
  obtain ⟨σ, started, rfl⟩ := map_eq_some_iff.mp ran
  obtain ⟨exit, inner, walk, whole⟩ := survey.walk
  have opened : (f.body.id, ⟨Reaching.entryOf f, exit⟩) ∈ notes.blocks := by
    rw [whole]
    exact mem_append_right _ walk.noted
  have both := Revision.follows_block sound (upheld.valid survey) f.body revised f.body.mem_allBlocks c ⟨σ, fuel⟩ ⟨σ, fuel⟩ rfl
    ((outline_start survey opened).mpr (starts σ started)) (facts σ started)
  refine ⟨m.execBlock g.body c ⟨σ, fuel⟩, ?_, Or.imp id (fun both => ?_) both⟩
  · rw [Machine.execFunc, same, started]
    rfl
  · cases exit : (m.execBlock f.body c ⟨σ, fuel⟩).exit with
    | next =>
      rw [exit] at value
      cases value
    | fault e =>
      rw [exit] at value
      cases value
    | ret result =>
      rw [exit] at value
      cases value
      rwa [Outcome.Matches, exit] at both

theorem run_of_revision (strict : ∀ id, ¬ R.excused id) : m.run c fuel g free args = some v := by
  obtain ⟨out, ran, ⟨_, _, id, _, _, excused⟩ | exit⟩ :=
    ends_of_revision survey upheld sound revised same starts facts returns
  · exact absurd excused (strict id)
  · refine bind_eq_some_iff.mpr ⟨out, ran, ?_⟩
    rw [exit]

end Revised

end NumLang
