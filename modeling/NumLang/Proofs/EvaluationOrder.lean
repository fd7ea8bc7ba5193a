import NumLang.Proofs.Accounts
import NumLang.Proofs.Refitting
import NumLang.Proofs.RenamedNames

/-!
The order in which the expressions of a program are evaluated: each after its parts, which are evaluated from left to
right, and the expressions of a statement before the statements in it.
-/

namespace NumLang

mutual

/-- The expressions in an expression in the order of evaluation: each comes after its parts. Only the parts of those are
listed that are to be entered. -/
def Expr.evaluated (enters : Expr → Bool) : Expr → List Expr
  | e@(.var ..) | e@(.lit ..) | e@(.const ..) => [e]
  | e@(.unary _ _ _ arg) => (if enters e then arg.evaluated enters else []) ++ [e]
  | e@(.binary _ _ _ x y) | e@(.index _ x y) =>
    (if enters e then x.evaluated enters ++ y.evaluated enters else []) ++ [e]
  | e@(.ternary _ _ _ x y z) | e@(.cond _ x y z) =>
    (if enters e then x.evaluated enters ++ (y.evaluated enters ++ z.evaluated enters) else []) ++ [e]
  | e@(.nary _ _ _ args) | e@(.compare _ _ args) | e@(.tuple _ args) | e@(.list _ args) =>
    (if enters e then Expr.evaluatedAll enters args else []) ++ [e]
  | e@(.call _ _ _ args kwargs) | e@(.context _ _ args kwargs) =>
    (if enters e then Expr.evaluatedAll enters args ++ Expr.evaluatedKeyed enters kwargs else []) ++ [e]
  | e@(.comprehension _ _ iterables elt) =>
    (if enters e then Expr.evaluatedAll enters iterables ++ elt.evaluated enters else []) ++ [e]
  | e@(.slice _ value start stop) =>
    (if enters e then value.evaluated enters ++
      (Expr.evaluatedOption enters start ++ Expr.evaluatedOption enters stop) else []) ++ [e]
  | e@(.update _ value path elt) =>
    (if enters e then value.evaluated enters ++ (Expr.evaluatedAll enters path ++ elt.evaluated enters) else []) ++ [e]

def Expr.evaluatedAll (enters : Expr → Bool) : List Expr → List Expr
  | [] => []
  | e :: rest => e.evaluated enters ++ Expr.evaluatedAll enters rest

def Expr.evaluatedKeyed (enters : Expr → Bool) : List (String × Expr) → List Expr
  | [] => []
  | (_, e) :: rest => e.evaluated enters ++ Expr.evaluatedKeyed enters rest

def Expr.evaluatedOption (enters : Expr → Bool) : Option Expr → List Expr
  | none => []
  | some e => e.evaluated enters

end

namespace Expr

variable {enters : Expr → Bool}

theorem evaluatedAll_append (first others : List Expr) :
    evaluatedAll enters (first ++ others) = evaluatedAll enters first ++ evaluatedAll enters others := by
  induction first with
  | nil => rfl
  | cons e rest ih => simp [evaluatedAll, ih]

theorem evaluatedKeyed_eq (es : List (String × Expr)) :
    evaluatedKeyed enters es = evaluatedAll enters (es.map Prod.snd) := by
  induction es with
  | nil => rfl
  | cons entry rest ih => simp [evaluatedKeyed, evaluatedAll, ih]

theorem evaluatedOption_eq (e : Option Expr) : evaluatedOption enters e = evaluatedAll enters e.toList := by
  cases e <;> simp [evaluatedOption, evaluatedAll]

theorem evaluated_eq (e : Expr) :
    e.evaluated enters = (if enters e then evaluatedAll enters e.children else []) ++ [e] := by
  cases e <;> simp only [children, evaluatedAll, evaluatedAll_append, ← evaluatedKeyed_eq, ← evaluatedOption_eq,
    append_nil, ite_self] <;> rfl

theorem mem_evaluatedAll : part ∈ evaluatedAll enters es ↔ ∃ e ∈ es, part ∈ e.evaluated enters := by
  induction es with
  | nil => simp [evaluatedAll]
  | cons e rest ih => simp [evaluatedAll, ih]

theorem idsAll_single (e : Expr) : idsAll [e] = e.id :: idsAll e.children := by
  rw [idsAll, idsAll, append_nil, ids_eq]

def order (es : List Expr) : List Expr := evaluatedAll (fun _ => true) es

theorem order_append (first others : List Expr) : order (first ++ others) = order first ++ order others :=
  evaluatedAll_append first others

theorem order_single (e : Expr) : order [e] = order e.children ++ [e] := by
  simp [order, evaluatedAll, evaluated_eq]

theorem order_cons (e : Expr) (rest : List Expr) : order (e :: rest) = order [e] ++ order rest := order_append [e] rest

theorem order_perm (es : List Expr) : (order es).Perm (allOf es) := by
  have rows : ∀ es : List Expr, (∀ e ∈ es, (order [e]).Perm e.all) → (order es).Perm (allOf es) := by
    intro es each
    induction es with
    | nil => exact .nil
    | cons e rest ih =>
      obtain ⟨first, others⟩ := forall_mem_cons.mp each
      rw [order_cons]
      exact first.append (ih others)
  refine rows es fun e _ => byChildren (P := fun e => (order [e]).Perm e.all) (fun e parts => ?_) e
  rw [order_single, all_eq]
  exact (List.perm_append_singleton _ _).trans ((rows e.children parts).cons e)

end Expr

namespace Stmt

def order (stmts : List Stmt) : List Expr := (allOf stmts).flatMap fun s => Expr.order s.exprs

theorem order_append (first others : List Stmt) : order (first ++ others) = order first ++ order others := by
  rw [order, allOf_append, flatMap_append, order, order]

theorem order_cons (s : Stmt) (rest : List Stmt) : order (s :: rest) = order [s] ++ order rest := order_append [s] rest

theorem order_single (s : Stmt) : order [s] = Expr.order s.exprs ++ s.blocks.flatMap fun b => order b.stmts := by
  have own : allOf [s] = s.all := by simp [allOf]
  rw [order, own, all_eq, flatMap_cons, List.flatMap_assoc]
  congr 2
  funext b
  rw [Block.all_eq, order]

/-- No identity stands more often among what is evaluated than in the statements. -/
theorem order_ids : (stmts : List Stmt) → ((order stmts).map Expr.id).Subperm (idsAll stmts) := by
  refine byBlocks (.refl _) (fun s rest first later => ?_) fun s inner => ?_
  · have same : idsAll (s :: rest) = idsAll [s] ++ idsAll rest := idsAll_append [s] rest
    rw [order_cons, map_append, same]
    exact first.append later
  · have own : ((Expr.order s.exprs).map Expr.id).Subperm (Expr.idsAll s.exprs) := by
      rw [← Expr.map_id_allOf]
      exact ((Expr.order_perm s.exprs).map Expr.id).subperm
    have rows : ∀ blocks : List Block, (∀ b ∈ blocks, ((order b.stmts).map Expr.id).Subperm (idsAll b.stmts)) →
        ((blocks.flatMap fun b => order b.stmts).map Expr.id).Subperm (blocks.flatMap Block.ids) := by
      intro blocks each
      induction blocks with
      | nil => exact .refl _
      | cons b rest ih =>
        obtain ⟨first, others⟩ := forall_mem_cons.mp each
        rw [flatMap_cons, map_append, flatMap_cons, Block.ids_eq]
        exact (first.trans (List.sublist_cons_self b.id _).subperm).append (ih others)
    have same : idsAll [s] = s.ids := by simp [idsAll]
    rw [order_single, map_append, same, ids_eq]
    exact (own.append (rows s.blocks inner)).trans (List.sublist_cons_self _ _).subperm

end Stmt

namespace Expr

theorem drawn_refreshRow (each : ∀ e ∈ es, ∀ next, Drawn next (e.refresh next).2 (e.refresh next).1.ids) (next : Nat) :
    Drawn next (refreshAll es next).2 (idsAll (refreshAll es next).1) := by
  induction es generalizing next with
  | nil => exact .nil next
  | cons e rest ih =>
    obtain ⟨here, later⟩ := forall_mem_cons.mp each
    exact (here next).append (ih later _)

theorem drawn_refresh (e : Expr) (next : Nat) : Drawn next (e.refresh next).2 (e.refresh next).1.ids := by
  induction e using byChildren generalizing next with
  | step e ih =>
    have count := (copyAll_refresh (fun n => n) e.children (next + 1)).length_eq
    rw [renameAll_eq, length_map] at count
    rw [refresh_eq, ids_eq, children_withNode, children_fill _ _ count.symm, id, node_withNode]
    exact .cons (drawn_refreshRow ih _)

theorem drawn_refreshAll (es : List Expr) (next : Nat) : Drawn next (refreshAll es next).2 (idsAll (refreshAll es next).1) :=
  drawn_refreshRow (fun e _ => e.drawn_refresh) next

theorem drawn_refreshOption : (e : Option Expr) → (next : Nat) →
    Drawn next (refreshOption e next).2 (idsOption (refreshOption e next).1)
  | none, next => .nil next
  | some e, _ => e.drawn_refresh _

end Expr

mutual

theorem Stmt.drawn_refresh : (s : Stmt) → (next : Nat) → Drawn next (s.refresh next).2 (s.refresh next).1.ids
  | .assign _ _ _ value, _ | .effect _ value, _ | .ret _ value, _ => .cons (value.drawn_refresh _)
  | .store _ _ path value, _ => .cons ((Expr.drawn_refreshAll path _).append (value.drawn_refresh _))
  | .when _ test body, _ | .loop _ test body, _ | .each _ _ test body, _ | .scope _ _ test body, _ =>
    .cons ((test.drawn_refresh _).append (Block.drawn_refresh body _))
  | .branch _ test ift iff, _ =>
    .cons ((test.drawn_refresh _).append ((Block.drawn_refresh ift _).append (Block.drawn_refresh iff _)))
  | .assert _ test msg, _ => .cons ((test.drawn_refresh _).append (Expr.drawn_refreshOption msg _))
  | .skip _, _ => .cons (.nil _)

theorem Block.drawn_refresh : (b : Block) → (next : Nat) → Drawn next (b.refresh next).2 (b.refresh next).1.ids
  | ⟨_, stmts⟩, _ => .cons (Stmt.drawn_refreshAll stmts _)

theorem Stmt.drawn_refreshAll : (stmts : List Stmt) → (next : Nat) →
    Drawn next (Stmt.refreshAll stmts next).2 (Stmt.idsAll (Stmt.refreshAll stmts next).1)
  | [], next => .nil next
  | s :: rest, _ => (s.drawn_refresh _).append (Stmt.drawn_refreshAll rest _)

end

/-! ### Renaming leaves identities alone -/

theorem Expr.ids_rename (ρ : Name → Name) (e : Expr) : (e.rename ρ).ids = e.ids := by
  rw [← map_id_all, all_rename, List.map_map, ← map_id_all]
  exact List.map_congr_left fun part _ => by cases part <;> rfl

theorem Expr.idsAll_rename (ρ : Name → Name) (es : List Expr) : idsAll (renameAll ρ es) = idsAll es := by
  induction es with
  | nil => rfl
  | cons e rest ih => rw [renameAll, idsAll, ids_rename, ih, idsAll]

theorem Expr.idsOption_rename (ρ : Name → Name) (e : Option Expr) : idsOption (renameOption ρ e) = idsOption e := by
  cases e <;> simp only [renameOption, idsOption, ids_rename]

mutual

theorem Stmt.ids_rename (ρ : Name → Name) (s : Stmt) : (s.rename ρ).ids = s.ids := by
  cases s <;> simp only [Stmt.rename, Stmt.ids, Expr.ids_rename, Expr.idsAll_rename, Expr.idsOption_rename,
    Block.ids_rename]

theorem Block.ids_rename (ρ : Name → Name) (b : Block) : (b.rename ρ).ids = b.ids := by
  obtain ⟨id, stmts⟩ := b
  simp only [Block.rename, Block.ids, Stmt.idsAll_rename]

theorem Stmt.idsAll_rename (ρ : Name → Name) (stmts : List Stmt) :
    Stmt.idsAll (Stmt.renameAll ρ stmts) = Stmt.idsAll stmts := by
  cases stmts <;> simp only [Stmt.renameAll, Stmt.idsAll, Stmt.ids_rename, Stmt.idsAll_rename]

end

end NumLang
