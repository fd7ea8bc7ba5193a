import NumLang.Proofs.Grounded

/-!
What the analyses refuse.
-/

namespace NumLang

namespace Flow

/-- What the walk through a function stops at. -/
inductive Refusal : Error → Prop where
  | undefinedName (name : Name) (site : NodeId) : Refusal (.undefinedName name site)
  | boundTwice (name : Name) (site : NodeId) : Refusal (.malformed (.boundTwice name site))
  | arityMismatch (site : NodeId) (expected actual : Nat) : Refusal (.arityMismatch site expected actual)

def Refuses {α : Type} (x : Except Error α) : Prop := ∀ e, x = .error e → Refusal e

section Refuses

variable {α β : Type} {x : Except Error α} {k : α → Except Error β} {env : Env}

theorem refuses_pure (a : α) : Refuses (pure a : Except Error α) := nofun

theorem refuses_throw (refusal : Refusal e) : Refuses (throw e : Except Error α) := by
  rintro _ ⟨⟩
  exact refusal

theorem Refuses.bind (first : Refuses x) (rest : ∀ a, Refuses (k a)) : Refuses (x >>= k) := by
  intro e failed
  cases x with
  | error _ =>
    cases failed
    exact first _ rfl
  | ok a => exact rest a e failed

theorem refuses_checkDistinct (site : NodeId) (target : Binder) : Refuses (checkDistinct site target) := by
  unfold checkDistinct
  split
  · exact refuses_throw (.boundTwice _ _)
  · exact refuses_pure ()

theorem refuses_checkAllDistinct (site : NodeId) (targets : List Binder) : Refuses (checkAllDistinct site targets) := by
  induction targets with
  | nil => exact refuses_pure ()
  | cons target rest ih => exact (refuses_checkDistinct site target).bind fun _ => ih

mutual

theorem refuses_checkArity (site : NodeId) : (target : Binder) → (value : Expr) → Refuses (checkArity site target value)
  | .wildcard, _ | .name _, _ => by
    unfold checkArity
    exact refuses_pure ()
  | .tuple parts, value => by
    unfold checkArity
    split
    · rename_i node values same
      cases Binder.tuple.inj same
      split
      · exact refuses_throw (.arityMismatch _ _ _)
      · exact refuses_checkArities site parts values
    · exact refuses_pure ()

theorem refuses_checkArities (site : NodeId) : (targets : List Binder) → (values : List Expr) →
    Refuses (checkArities site targets values)
  | [], _ | _ :: _, [] => by
    unfold checkArities
    exact refuses_pure ()
  | b :: bs, v :: vs => by
    unfold checkArities
    exact (refuses_checkArity site b v).bind fun _ => refuses_checkArities site bs vs

end

theorem refuses_row (each : ∀ e ∈ es, Refuses (ofExpr env e)) : Refuses (ofExprs env es) := by
  induction es with
  | nil => exact refuses_pure []
  | cons e rest ih =>
    obtain ⟨here, later⟩ := forall_mem_cons.mp each
    exact here.bind fun _ => (ih later).bind fun _ => refuses_pure _

theorem refuses_ofExpr (e : Expr) : Refuses (ofExpr env e) := by
  induction e using Expr.byChildren generalizing env with
  | step e ih =>
    cases e with
    | var node name =>
      show Refuses (if env.contains name then pure [] else throw (.undefinedName name node.id))
      split
      · exact refuses_pure []
      · exact refuses_throw (.undefinedName _ _)
    | comprehension node targets iterables elt =>
      refine (refuses_row fun e listed => ih e (mem_append_left _ listed)).bind fun _ => ?_
      refine (refuses_checkAllDistinct node.id targets).bind fun _ => ?_
      exact (ih elt (mem_append_right _ mem_cons_self)).bind fun _ => refuses_pure _
    | _ =>
      rw [ofExpr_eq_ofExprs rfl]
      exact refuses_row fun e listed => ih e listed

theorem refuses_ofExprs (es : List Expr) : Refuses (ofExprs env es) := refuses_row fun e _ => refuses_ofExpr e

theorem refuses_checkFirst (s : Stmt) : Refuses (checkFirst env s) := by
  unfold checkFirst
  split
  · split
    · exact refuses_throw (.undefinedName _ _)
    · exact refuses_pure ()
  · exact refuses_pure ()

theorem refuses_checkTarget : (s : Stmt) → Refuses (checkTarget s)
  | .assign node target _ value =>
    (refuses_checkDistinct node.id target).bind fun _ => refuses_checkArity node.id target value
  | .each node target .. => refuses_checkDistinct node.id target
  | .store .. | .when .. | .branch .. | .loop .. | .scope .. | .assert .. | .effect .. | .ret .. | .skip .. =>
    refuses_pure ()

theorem refuses_each (each : ∀ s ∈ stmts, ∀ env, Refuses (ofStmt env s)) : Refuses (ofStmts env stmts) := by
  induction stmts generalizing env with
  | nil => exact refuses_pure _
  | cons s rest ih =>
    obtain ⟨here, later⟩ := forall_mem_cons.mp each
    exact (here env).bind fun _ => (ih later).bind fun _ => refuses_pure _

theorem refuses_arms (each : ∀ b ∈ blocks, ∀ s ∈ b.stmts, ∀ env, Refuses (ofStmt env s)) :
    Refuses (ofBlocks env blocks) := by
  induction blocks with
  | nil => exact refuses_pure _
  | cons b rest ih =>
    obtain ⟨here, later⟩ := forall_mem_cons.mp each
    have first : Refuses (ofBlock env b) := ofBlock_eq b ▸ (refuses_each here).bind fun _ => refuses_pure _
    exact first.bind fun _ => (ih later).bind fun _ => refuses_pure _

theorem refuses_ofStmt (s : Stmt) : ∀ env, Refuses (ofStmt env s) := by
  induction s using Stmt.byParts with
  | step s ih =>
    intro env
    rw [ofStmt_eq]
    exact (refuses_checkFirst s).bind fun _ => (refuses_ofExprs _).bind fun _ => (refuses_checkTarget s).bind fun _ =>
      (refuses_arms ih).bind fun _ => refuses_pure _

theorem refuses_ofBlock (b : Block) : Refuses (ofBlock env b) :=
  ofBlock_eq b ▸ (refuses_each fun s _ => refuses_ofStmt s).bind fun _ => refuses_pure _

end Refuses

end Flow

namespace Analysis

/-- Of a function with distinct identities the uses and the contexts are found just if the reaching definitions are, and
whatever else comes of the analyses is a refusal of the walk that finds these. -/
theorem found_iff_reaching (f : Func) (distinct : f.ids.Nodup) :
    ((∃ u, Uses.ofFunc f = .ok u) ↔ ∃ r, Reaching.ofFunc f = .ok r) ∧
    ((∃ c, Contexts.ofFunc f = .ok c) ↔ ∃ r, Reaching.ofFunc f = .ok r) ∧
    ∀ e, Uses.ofFunc f = .error e ∨ Contexts.ofFunc f = .error e → Reaching.ofFunc f = .error e ∧ Flow.Refusal e := by
  have refuses : Flow.Refuses (Reaching.ofFunc f) :=
    (Flow.refuses_ofBlock f.body).bind fun _ => Flow.refuses_pure _
  cases walked : Reaching.ofFunc f with
  | error e =>
    have uses : Uses.ofFunc f = .error e := by rw [Uses.ofFunc, walked]; rfl
    have contexts : Contexts.ofFunc f = .error e := by rw [Contexts.ofFunc, uses]; rfl
    rw [uses, contexts]
    refine ⟨by simp, by simp, ?_⟩
    rintro _ (same | same)
    all_goals
      cases same
      exact ⟨rfl, refuses e walked⟩
  | ok r =>
    obtain ⟨u, uses⟩ := Uses.exists_of_reaching distinct walked
    obtain ⟨c, contexts⟩ := Contexts.exists_of_reaching distinct walked
    rw [uses, contexts]
    exact ⟨by simp, by simp, by simp⟩

open Sample in
/-- Copies a context around a loop, so that the joins at its head take over each other. -/
def handing : Func :=
  func ["n"] ["ctx"] [
    set 10 "a" (var 11 "ctx"),
    set 12 "b" (var 13 "a"),
    .loop (node 14) (less 15 (var 16 "n") (int 17 3)) ⟨⟨18⟩, [
      set 19 "t" (var 20 "a"),
      set 21 "a" (var 22 "b"),
      set 23 "b" (var 24 "t"),
      set 25 "n" (add 26 (var 27 "n") (int 28 1))]⟩,
    .scope (node 29) none (var 30 "a") ⟨⟨31⟩, [.ret (node 32) (var 33 "n")]⟩]

theorem found_iff_reaching_handing : handing.ids.Nodup ∧ (∃ r, Reaching.ofFunc handing = .ok r) ∧
    (∃ u, Uses.ofFunc handing = .ok u) ∧ ∃ c, Contexts.ofFunc handing = .ok c := by
  have distinct : handing.ids.Nodup := by decide
  have reaching : ∃ r, Reaching.ofFunc handing = .ok r := ⟨_, rfl⟩
  obtain ⟨uses, contexts, _⟩ := found_iff_reaching handing distinct
  exact ⟨distinct, reaching, uses.mpr reaching, contexts.mpr reaching⟩

end Analysis

end NumLang
