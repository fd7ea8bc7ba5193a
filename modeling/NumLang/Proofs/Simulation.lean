import NumLang.Pass.DeadCode
import NumLang.Proofs.Outline
import NumLang.Proofs.Walk

/-!
Revised programs. A program is revised where statements are dropped or rewritten and expressions are replaced;
everything else keeps its shape.
-/

namespace NumLang

variable {V C : Type}

/-- What may be changed in a program. -/
structure Revision where
  /-- Statements that are taken out. -/
  drops : Stmt → Prop
  /-- Revised statements that are taken out because they do nothing. -/
  idle : Stmt → Prop
  /-- Expressions that stand for each other where a run comes by a point. -/
  agrees : Point → Expr → Expr → Prop
  /-- A statement becomes others, after its parts have been revised. -/
  rewrites : Stmt → Stmt → List Stmt → Prop := fun _ _ _ => False
  /-- Statements at which the revised program may fail where the program does not. -/
  excused : NodeId → Prop := fun _ => False

def Stmt.active (stmts : List Stmt) : List Stmt := stmts.filter fun s => !DeadCode.isSkip s

namespace Revision

def AgreesAll (R : Revision) (p : Point) : List Expr → List Expr → Prop
  | [], [] => True
  | e :: rest, e' :: rest' => R.agrees p e e' ∧ R.AgreesAll p rest rest'
  | _, _ => False

mutual

/-- A statement becomes statements. -/
inductive OnStmt (R : Revision) : Stmt → List Stmt → Prop where
  | drop {s : Stmt} (drops : R.drops s) : OnStmt R s []
  | keep {s s' : Stmt} (shape : Shape R s s') : OnStmt R s [s']
  | idle {s s' : Stmt} (shape : Shape R s s') (idle : R.idle s') : OnStmt R s []
  | rewrite {s s' : Stmt} {out : List Stmt} (shape : Shape R s s') (rewrites : R.rewrites s s' out) : OnStmt R s out

/-- A statement becomes one of the same shape. -/
inductive Shape (R : Revision) : Stmt → Stmt → Prop where
  | assign {node target ann ann' value value'} (same : R.agrees (.stmt node.id) value value') :
    Shape R (.assign node target ann value) (.assign node target ann' value')
  | store {node name path path' value value'} (places : R.AgreesAll (.stmt node.id) path path')
    (same : R.agrees (.stmt node.id) value value')
    (held : R.agrees (.stmt node.id) (.var node name) (.var node name)) :
    Shape R (.store node name path value) (.store node name path' value')
  | when {node test test' body body'} (same : R.agrees (.stmt node.id) test test')
    (inside : OnBlock R body body') : Shape R (.when node test body) (.when node test' body')
  | branch {node test test' ift ift' iff iff'} (same : R.agrees (.stmt node.id) test test')
    (left : OnBlock R ift ift') (right : OnBlock R iff iff') :
    Shape R (.branch node test ift iff) (.branch node test' ift' iff')
  | loop {node test test' body body'} (same : R.agrees (.test node.id body.id) test test')
    (inside : OnBlock R body body') : Shape R (.loop node test body) (.loop node test' body')
  | each {node target iterable iterable' body body'}
    (same : R.agrees (.stmt node.id) iterable iterable') (inside : OnBlock R body body') :
    Shape R (.each node target iterable body) (.each node target iterable' body')
  | scope {node name ctx ctx' body body'} (same : R.agrees (.stmt node.id) ctx ctx')
    (inside : OnBlock R body body') : Shape R (.scope node name ctx body) (.scope node name ctx' body')
  | assert {node test test' msg msg'} (same : R.agrees (.stmt node.id) test test') :
    Shape R (.assert node test msg) (.assert node test' msg')
  | effect {node value value'} (same : R.agrees (.stmt node.id) value value') :
    Shape R (.effect node value) (.effect node value')
  | ret {node value value'} (same : R.agrees (.stmt node.id) value value') :
    Shape R (.ret node value) (.ret node value')
  | skip {node} : Shape R (.skip node) (.skip node)

/-- A block becomes one with the revised statements, apart from those that fill it. -/
inductive OnBlock (R : Revision) : Block → Block → Prop where
  | block {id stmts stmts' filled} (inside : OnStmts R stmts stmts')
    (same : Stmt.active filled = Stmt.active stmts') : OnBlock R ⟨id, stmts⟩ ⟨id, filled⟩

inductive OnStmts (R : Revision) : List Stmt → List Stmt → Prop where
  | nil : OnStmts R [] []
  | cons {s rest first others} (head : OnStmt R s first) (tail : OnStmts R rest others) :
    OnStmts R (s :: rest) (first ++ others)

end

end Revision

namespace Outcome

/-- The second execution ends as the first one, if that does not fail. -/
def Matches (post : Store V × Store V → Prop) (first second : Outcome V C) : Prop :=
  match first.exit with
  | .next => second.exit = .next ∧ second.state.fuel = first.state.fuel ∧ post (first.state.store, second.state.store)
  | .ret v => second.exit = .ret v
  | .fault _ => True

variable {post : Store V × Store V → Prop} {first second out : Outcome V C} {sites : NodeId → Prop}

theorem Matches.imp (both : first.Matches post second) (follows : ∀ w, post w → weaker w) :
    first.Matches weaker second := by
  unfold Matches at both ⊢
  cases exit : first.exit with
  | next =>
    rw [exit] at both
    exact ⟨both.1, both.2.1, follows _ both.2.2⟩
  | ret v => simpa only [exit] using both
  | fault f => trivial

theorem Matches.trans (left : first.Matches post second) (right : second.Matches mid third)
    (moves : ∀ σ a b, post (σ, a) → mid (a, b) → post (σ, b)) : first.Matches post third := by
  unfold Matches at *
  cases exit : first.exit with
  | next =>
    rw [exit] at left
    rw [left.1] at right
    exact ⟨right.1, right.2.1.trans left.2.1, moves _ _ _ left.2.2 right.2.2⟩
  | ret v =>
    rw [exit] at left
    rw [left] at right
    exact right
  | fault f => trivial

def FailsAt (sites : NodeId → Prop) (out : Outcome V C) : Prop :=
  (∃ f, out.exit = .fault f) ∧ ∃ moment id, out.trace.getLast? = some moment ∧ moment.point = .stmt id ∧ sites id

theorem FailsAt.after (fails : out.FailsAt sites) (trace : List (Moment V C)) : (after trace out).FailsAt sites := by
  obtain ⟨faulty, moment, id, last, here⟩ := fails
  refine ⟨faulty, moment, id, ?_, here⟩
  rw [after_trace, List.getLast?_append, last]
  rfl

theorem FailsAt.andThen (fails : out.FailsAt sites) (k : State V → Outcome V C) : (out.andThen k).FailsAt sites := by
  obtain ⟨⟨f, exit⟩, _⟩ := id fails
  rwa [andThen_of_ne (by simp [exit])]

def Follows (sites : NodeId → Prop) (post : Store V × Store V → Prop) (first second : Outcome V C) : Prop :=
  second.FailsAt sites ∨ first.Matches post second

section Sequencing

variable {σ τ : State V} {α : Type}

theorem follows_failed : (failed f σ).Follows sites post second :=
  .inr trivial

theorem follows_done (fuel : τ.fuel = σ.fuel) (holds : post (σ.store, τ.store)) :
    (done σ : Outcome V C).Follows sites post (done τ) :=
  .inr ⟨rfl, fuel, holds⟩

theorem Follows.imp (both : first.Follows sites post second) (follows : ∀ w, post w → weaker w) :
    first.Follows sites weaker second :=
  Or.imp id (fun both => Matches.imp both follows) both

theorem Follows.toMatches
    (both : first.Follows (fun _ => False) post second) : first.Matches post second :=
  both.resolve_left fun ⟨_, _, _, _, _, never⟩ => never

theorem Follows.after (both : first.Follows sites post second) (earlier earlier' : List (Moment V C)) :
    (after earlier first).Follows sites post (after earlier' second) :=
  Or.imp (fun fails => fails.after earlier') id both

theorem follows_attempt {k k' : α → Outcome V C} (settled : Settles fault x good) (same : ∀ a, x = .ok a → x' = .ok a)
    (facts : (attempt x σ k).Sees fact) (rest : ∀ a, good a → (k a).Sees fact → (k a).Follows sites post (k' a)) :
    (attempt x σ k).Follows sites post (attempt x' τ k') := by
  cases x with
  | ok a =>
    rw [same a rfl]
    exact rest a settled facts
  | error f => exact follows_failed

theorem follows_andThen (facts : (first.andThen k).Sees fact) (both : first.Sees fact → first.Follows sites mid second)
    (rest : ∀ σ τ, τ.fuel = σ.fuel → mid (σ.store, τ.store) → (k σ).Sees fact → (k σ).Follows sites post (k' τ)) :
    (first.andThen k).Follows sites post (second.andThen k') := by
  rcases both (sees_of_andThen facts) with fails | paired
  · exact .inl (fails.andThen k')
  by_cases next : first.exit = .next
  · rw [andThen_of_next next] at facts
    unfold Matches at paired
    rw [next] at paired
    obtain ⟨next', fuel, holds⟩ := paired
    rw [andThen_of_next next, andThen_of_next next']
    have later := rest _ _ fuel holds fun moment mem => facts moment (mem_append_right _ mem)
    exact later.after _ _
  · refine .inr ?_
    rw [andThen_of_ne next]
    unfold Matches at paired ⊢
    cases exit : first.exit with
    | next => exact absurd exit next
    | ret v =>
      rw [exit] at paired
      have stops : second.exit ≠ .next := by
        rw [paired]
        exact nofun
      rw [andThen_of_ne stops]
      exact paired
    | fault f => trivial

theorem follows_forEach (inv : Store V × Store V → Prop) (fuel : τ.fuel = σ.fuel) (start : inv (σ.store, τ.store))
    (facts : (forEach body elements σ).Sees fact)
    (round : ∀ a ∈ elements, ∀ σ τ : State V, τ.fuel = σ.fuel → inv (σ.store, τ.store) → (body a σ).Sees fact → (body a
    σ).Follows sites inv (body' a τ)) : (forEach body elements σ).Follows sites inv (forEach body' elements τ) := by
  induction elements generalizing σ τ with
  | nil => exact follows_done fuel start
  | cons a rest ih =>
    refine follows_andThen facts (round a mem_cons_self σ τ fuel start) ?_
    intro σ τ fuel holds later
    exact ih fuel holds later fun b mem => round b (mem_cons_of_mem a mem)

theorem follows_repeatWhile (fault : Fault → Prop) (inv : Store V × Store V → Prop) {rounds : Nat}
    (fuel : τ.fuel = σ.fuel) (start : inv (σ.store, τ.store))
    (facts : (repeatWhile moment test body rounds σ).Sees fact)
    (same : ∀ w, inv w → fact (moment w.1) → ∀ holds, test w.1 = .ok holds → test' w.2 = .ok holds)
    (decided : ∀ w : Store V × Store V, inv w → fact (moment w.1) → Settles fault (test w.1) fun holds => if holds then
    ∀ fuel, (body ⟨w.1, fuel⟩).Sees fact → (body ⟨w.1, fuel⟩).Follows sites inv (body' ⟨w.2, fuel⟩) else post w) :
    (repeatWhile moment test body rounds σ).Follows sites post (repeatWhile moment' test' body' rounds τ) := by
  induction rounds generalizing σ τ with
  | zero =>
    unfold repeatWhile at facts ⊢
    have known := facts _ mem_cons_self
    have later := fun other mem => facts other (mem_cons_of_mem _ mem)
    refine (follows_attempt (decided _ start known) (same _ start known) later ?_).after _ _
    intro holds good _
    cases holds with
    | true => exact follows_failed
    | false => exact follows_done fuel good
  | succ rounds ih =>
    unfold repeatWhile at facts ⊢
    have known := facts _ mem_cons_self
    have later := fun other mem => facts other (mem_cons_of_mem _ mem)
    refine (follows_attempt (decided _ start known) (same _ start known) later ?_).after _ _
    intro holds good remaining
    obtain ⟨store, amount⟩ := σ
    obtain ⟨store', amount'⟩ := τ
    cases fuel
    cases holds with
    | false => exact follows_done rfl good
    | true =>
      cases amount with
      | zero => exact follows_failed
      | succ amount =>
        refine follows_andThen remaining (good amount) ?_
        intro σ τ fuel holds rest
        exact ih fuel holds rest

end Sequencing

theorem after_after (earlier later : List (Moment V C)) (out : Outcome V C) :
    after earlier (after later out) = after (earlier ++ later) out := by
  simp only [after, append_assoc]

theorem after_andThen (trace : List (Moment V C)) (out : Outcome V C) (k : State V → Outcome V C) :
    (after trace out).andThen k = after trace (out.andThen k) := by
  obtain ⟨later, exit, σ⟩ := out
  cases exit with
  | next => exact (after_after trace later (k σ)).symm
  | ret v => rfl
  | fault f => rfl

theorem andThen_assoc (first : Outcome V C) (k l : State V → Outcome V C) :
    (first.andThen k).andThen l = first.andThen fun σ => (k σ).andThen l := by
  obtain ⟨trace, exit, σ⟩ := first
  cases exit with
  | next => exact after_andThen trace (k σ) l
  | ret v => rfl
  | fault f => rfl

/-- Two executions end alike. -/
structure Alike (first second : Outcome V C) : Prop where
  exit : first.exit = second.exit
  state : first.state = second.state
  fails : ∀ sites, first.FailsAt sites ↔ second.FailsAt sites

theorem Alike.trans (left : first.Alike second) (right : second.Alike third) : first.Alike third :=
  ⟨left.exit.trans right.exit, left.state.trans right.state, fun sites => (left.fails sites).trans (right.fails sites)⟩

theorem Alike.symm (same : first.Alike second) : second.Alike first :=
  ⟨same.exit.symm, same.state.symm, fun sites => (same.fails sites).symm⟩

theorem alike_after (trace : List (Moment V C)) (seen : ∀ f, out.exit = .fault f → out.trace ≠ []) :
    (after trace out).Alike out := by
  refine ⟨rfl, rfl, fun sites => ⟨?_, fun fails => fails.after trace⟩⟩
  rintro ⟨⟨f, exit⟩, moment, id, last, here⟩
  refine ⟨⟨f, exit⟩, moment, id, ?_, here⟩
  rw [after_trace, List.getLast?_append] at last
  cases ends : out.trace.getLast? with
  | none => exact absurd (List.getLast?_eq_none_iff.mp ends) (seen f exit)
  | some other =>
    rw [ends] at last
    exact last

theorem Alike.andThen (first : Outcome V C) (seen : ∀ σ f, (k σ).exit = .fault f → (k σ).trace ≠ [])
    (seen' : ∀ σ f, (l σ).exit = .fault f → (l σ).trace ≠ []) (rest : ∀ σ, (k σ).Alike (l σ)) :
    (first.andThen k).Alike (first.andThen l) := by
  by_cases next : first.exit = .next
  · rw [andThen_of_next next, andThen_of_next next]
    exact (alike_after _ (seen _)).trans ((rest _).trans (alike_after _ (seen' _)).symm)
  · rw [andThen_of_ne next, andThen_of_ne next]
    exact ⟨rfl, rfl, fun _ => .rfl⟩

theorem Follows.alike (both : first.Follows sites post second) (same : second.Alike second') :
    first.Follows sites post second' := by
  refine Or.imp (same.fails sites).mp (fun both => ?_) both
  unfold Matches at both ⊢
  rw [← same.exit, ← same.state]
  exact both

section Goes

def Goes (out : Outcome V C) (σ : State V) : Prop := out.exit = .next ∧ out.state = σ

theorem Goes.andThen (head : first.Goes σ) (tail : (k σ).Goes τ) : (first.andThen k).Goes τ := by
  obtain ⟨next, rfl⟩ := head
  rwa [andThen_of_next next]

theorem Goes.failsAt (head : first.Goes σ) (tail : (k σ).FailsAt sites) : (first.andThen k).FailsAt sites := by
  obtain ⟨next, rfl⟩ := head
  rw [andThen_of_next next]
  exact tail.after _

theorem Goes.follows (goes : first.Goes τ)
    (rest : out.Follows sites post (k τ)) : out.Follows sites post (first.andThen k) := by
  obtain ⟨next, rfl⟩ := goes
  rw [andThen_of_next next]
  exact rest.after [] _

theorem FailsAt.imp (fails : first.FailsAt sites) (wider : ∀ id, sites id → more id) : first.FailsAt more := by
  obtain ⟨faulty, moment, id, last, point, here⟩ := fails
  exact ⟨faulty, moment, id, last, point, wider id here⟩

end Goes

end Outcome

namespace Machine

variable (m : Machine V C)

theorem execBlock_eq (b : Block) (c : C) (σ : State V) : m.execBlock b c σ = m.execStmts b.stmts c σ := by
  cases b
  rfl

theorem execStmts_append (first others : List Stmt) (c : C) (σ : State V) :
    m.execStmts (first ++ others) c σ = (m.execStmts first c σ).andThen (m.execStmts others c) := by
  induction first generalizing σ with
  | nil => rfl
  | cons s rest ih => simp only [cons_append, execStmts, ih, Outcome.andThen_assoc]

theorem execStmts_cons (s : Stmt) (rest : List Stmt) (c : C) (σ : State V) :
    m.execStmts (s :: rest) c σ = (m.execStmts [s] c σ).andThen (m.execStmts rest c) :=
  m.execStmts_append [s] rest c σ

theorem execStmts_single (s : Stmt) (c : C) (σ : State V) :
    m.execStmts [s] c σ = .after [⟨.stmt s.id, c, σ.store⟩] (m.exec s c σ) := by
  unfold execStmts
  obtain ⟨trace, exit, τ⟩ := m.exec s c σ
  cases exit with
  | next => simp [Outcome.after, Outcome.andThen, execStmts, Outcome.done]
  | ret v => rfl
  | fault f => rfl

theorem trace_ne_nil (fails : (m.execStmts stmts c σ).exit = .fault f) : (m.execStmts stmts c σ).trace ≠ [] := by
  cases stmts with
  | nil => cases fails
  | cons s rest =>
    rw [execStmts, Outcome.after_andThen]
    simp

theorem execStmts_active (stmts : List Stmt) (c : C) (σ : State V) :
    (m.execStmts stmts c σ).Alike (m.execStmts (Stmt.active stmts) c σ) := by
  induction stmts generalizing σ with
  | nil => exact ⟨rfl, rfl, fun _ => .rfl⟩
  | cons s rest ih =>
    cases filler : DeadCode.isSkip s with
    | true =>
      have shorter : Stmt.active (s :: rest) = Stmt.active rest := by
        simp [Stmt.active, filler]
      cases s with
      | skip node =>
        rw [shorter]
        exact (Outcome.alike_after [_] fun f fails => m.trace_ne_nil fails).trans (ih σ)
      | _ => cases filler
    | false =>
      have same : Stmt.active (s :: rest) = s :: Stmt.active rest := by
        simp [Stmt.active, filler]
      rw [same]
      exact .andThen _ (fun τ f fails => m.trace_ne_nil fails) (fun τ f fails => m.trace_ne_nil fails) ih

def Idle (s : Stmt) : Prop :=
  ∀ c σ, ((m.exec s c σ).exit = .next → (m.exec s c σ).state = σ) ∧ ∀ v, (m.exec s c σ).exit ≠ .ret v

section Goes

variable {m : Machine V C} {c : C}

theorem goes_append (head : (m.execStmts first c σ).Goes τ) (tail : (m.execStmts others c τ).Goes υ) :
    (m.execStmts (first ++ others) c σ).Goes υ := by
  rw [execStmts_append]
  exact head.andThen tail

theorem failsAt_append (head : (m.execStmts first c σ).Goes τ) (tail : (m.execStmts others c τ).FailsAt sites) :
    (m.execStmts (first ++ others) c σ).FailsAt sites := by
  rw [execStmts_append]
  exact head.failsAt tail

theorem failsAt_first (others : List Stmt) (head : (m.execStmts first c σ).FailsAt sites) :
    (m.execStmts (first ++ others) c σ).FailsAt sites := by
  rw [execStmts_append]
  exact head.andThen _

variable {σ : Store V} {fuel : Nat} {node : Node} {value : Expr}

theorem goes_assign {writes : List (Name × V)} (assigned : m.assigned c σ target value = .ok writes) :
    (m.execStmts [.assign node target ann value] c ⟨σ, fuel⟩).Goes ⟨σ.writeAll ⟨.stmt, node.id⟩ writes, fuel⟩ := by
  rw [execStmts_single, exec, assigned]
  exact ⟨rfl, rfl⟩

theorem failsAt_assign (fails : m.assigned c σ target value = .error f) :
    (m.execStmts [.assign node target ann value] c ⟨σ, fuel⟩).FailsAt (· = node.id) := by
  rw [execStmts_single, exec, fails]
  exact ⟨⟨f, rfl⟩, _, _, rfl, rfl, rfl⟩

end Goes

end Machine

namespace Revision

variable {s : Stmt}

theorem shape_id {R : Revision} {s' : Stmt} (shape : R.Shape s s') : s'.id = s.id := by
  cases shape <;> rfl

/-- What a revision owes along the outline of a run over two stores. -/
structure Sound (R : Revision) (m : Machine V C) (fact : Moment V C → Prop)
    (o : Outline C (Store V × Store V)) : Prop where
  drops : ∀ s, R.drops s → ∀ c (σ τ : State V), τ.fuel = σ.fuel →
    o.Reached .pair fact (.stmt s.id) c (σ.store, τ.store) →
    (m.exec s c σ).Matches (o.after s.id c) (.done τ)
  idle : ∀ s, R.idle s → m.Idle s ∧ ∀ id, ¬ R.excused id
  agrees : ∀ p e e', R.agrees p e e' → ∀ c w, o.Reached .pair fact p c w →
    ∀ v, m.eval c w.1 e = .ok v → m.eval c w.2 e' = .ok v
  rewrites : ∀ s s' out, R.Shape s s' → R.rewrites s s' out → ∀ c (σ τ : State V), τ.fuel = σ.fuel →
    o.Reached .pair fact (.stmt s.id) c (σ.store, τ.store) →
    (m.exec s c σ).Follows R.excused (o.after s.id c) (m.exec s' c τ) →
    (m.exec s c σ).Follows R.excused (o.after s.id c) (m.execStmts out c τ)

section Agreement

variable {m : Machine V C} {c : C} {σ τ : Store V} {e e' : Expr}

section

variable (same : ∀ v, m.eval c σ e = .ok v → m.eval c τ e' = .ok v)

include same

theorem test_agrees (tested : m.test c σ e = .ok b) : m.test c τ e' = .ok b := by
  obtain ⟨v, computed, rest⟩ := bind_ok.mp tested
  exact bind_ok.mpr ⟨v, same v computed, rest⟩

theorem assigned_agrees (assigned : m.assigned c σ target e = .ok writes) : m.assigned c τ target e' = .ok writes := by
  obtain ⟨v, computed, rest⟩ := bind_ok.mp assigned
  exact bind_ok.mpr ⟨v, same v computed, rest⟩

theorem drawn_agrees (drawn : m.drawn c σ e = .ok elements) : m.drawn c τ e' = .ok elements := by
  obtain ⟨v, computed, rest⟩ := bind_ok.mp drawn
  exact bind_ok.mpr ⟨v, same v computed, rest⟩

theorem entered_agrees (run : m.entered c σ name e = .ok entered) : m.entered c τ name e' = .ok entered := by
  unfold Machine.entered at run ⊢
  split at run
  · exact run
  · exact run
  · obtain ⟨v, computed, rest⟩ := bind_ok.mp run
    exact bind_ok.mpr ⟨v, same v computed, rest⟩

end

variable {R : Revision}

theorem evalAll_agrees (same : ∀ e e', R.agrees p e e' → ∀ v, m.eval c σ e = .ok v → m.eval c τ e' = .ok v) :
    ∀ es es' : List Expr, R.AgreesAll p es es' → ∀ vs, m.evalAll c σ es = .ok vs → m.evalAll c τ es' = .ok vs
  | [], [], _, _, computed => computed
  | e :: rest, e' :: rest', ⟨first, others⟩, vs, computed => by
    obtain ⟨v, head, tail⟩ := bind_ok.mp computed
    obtain ⟨us, tail, result⟩ := bind_ok.mp tail
    refine bind_ok.mpr ⟨v, same e e' first v head, ?_⟩
    exact bind_ok.mpr ⟨us, evalAll_agrees same rest rest' others us tail, result⟩

theorem replaced_agrees (same : ∀ e e', R.agrees p e e' → ∀ v, m.eval c σ e = .ok v → m.eval c τ e' = .ok v)
    (places : R.AgreesAll p path path') (value : R.agrees p e e') (held : R.agrees p (.var node name) (.var node name))
    (run : m.replaced c σ name path e = .ok v) : m.replaced c τ name path' e' = .ok v := by
  obtain ⟨steps, path, rest⟩ := bind_ok.mp run
  obtain ⟨elt, computed, rest⟩ := bind_ok.mp rest
  obtain ⟨list, read, result⟩ := bind_ok.mp rest
  refine bind_ok.mpr ⟨steps, evalAll_agrees same _ _ places steps path, ?_⟩
  refine bind_ok.mpr ⟨elt, same _ _ value elt computed, ?_⟩
  exact bind_ok.mpr ⟨list, same _ _ held list read, result⟩

end Agreement

variable {R : Revision}

/-- A statement may also be dropped, taken out for doing nothing, or rewritten. -/
theorem follows_onStmt (sound : R.Sound m fact o) (revised : R.OnStmt s out) {σ τ : State V} (fuel : τ.fuel = σ.fuel)
    (reached : o.Reached .pair fact (.stmt s.id) c (σ.store, τ.store))
    (shaped : ∀ s', R.Shape s s' → (m.exec s c σ).Follows R.excused (o.after s.id c) (m.exec s' c τ)) :
    (m.exec s c σ).Follows R.excused (o.after s.id c) (m.execStmts out c τ) := by
  cases revised with
  | drop drops => exact .inr (sound.drops s drops c σ τ fuel reached)
  | keep shape =>
    rw [m.execStmts_single]
    exact (shaped _ shape).after [] _
  | idle shape idle =>
    obtain ⟨still, goes⟩ := (sound.idle _ idle).1 c τ
    rcases shaped _ shape with ⟨_, _, id, _, _, excused⟩ | both
    · exact absurd excused ((sound.idle _ idle).2 id)
    refine .inr ?_
    unfold Outcome.Matches at both ⊢
    cases exit : (m.exec s c σ).exit with
    | next =>
      rw [exit] at both
      obtain ⟨next, amount, holds⟩ := both
      rw [still next] at amount holds
      exact ⟨rfl, amount, holds⟩
    | ret v =>
      rw [exit] at both
      exact absurd both (goes v)
    | fault f => trivial
  | rewrite shape rewrites => exact sound.rewrites _ _ _ shape rewrites c σ τ fuel reached (shaped _ shape)

mutual

/-- A statement of the same shape, with revised parts, ends as the statement does. -/
theorem follows_shape (sound : R.Sound m fact o) (valid : o.Valid m .pair fact stmts blocks) : (s : Stmt) → {s' : Stmt} → R.Shape s s' →
    s ∈ stmts → ∀ c (σ τ : State V), τ.fuel = σ.fuel →
    o.Reached .pair fact (.stmt s.id) c (σ.store, τ.store) → (m.exec s c σ).Sees fact →
    (m.exec s c σ).Follows R.excused (o.after s.id c) (m.exec s' c τ)
  | .assign node target ann value, _, .assign same, mem, c, σ, τ, fuel, reached, facts => by
    have step := valid.step _ mem c _ reached
    refine Outcome.follows_attempt step ?_ facts ?_
    · exact fun writes => assigned_agrees (sound.agrees _ _ _ same c _ reached)
    · intro writes good _
      rw [World.write_pair] at good
      exact Outcome.follows_done fuel good
  | .store node name path value, _, .store places same held, mem, c, σ, τ, fuel, reached, facts => by
    have step := valid.step _ mem c _ reached
    refine Outcome.follows_attempt step ?_ facts ?_
    · exact fun v => replaced_agrees (fun e e' same => sound.agrees _ e e' same c _ reached) places same held
    · intro v good _
      rw [World.write_pair] at good
      exact Outcome.follows_done fuel good
  | .when node test body, _, .when same inside, mem, c, σ, τ, fuel, reached, facts => by
    obtain ⟨step, leave⟩ := valid.step _ mem
    have inner := valid.inner _ mem body mem_cons_self
    refine Outcome.follows_attempt (step c _ reached) ?_ facts ?_
    · exact fun holds => test_agrees (sound.agrees _ _ _ same c _ reached)
    · intro holds good later
      cases holds with
      | true => exact (follows_block sound valid body inside inner c σ τ fuel good later).imp (leave c)
      | false => exact Outcome.follows_done fuel good
  | .branch node test ift iff, _, .branch same left right, mem, c, σ, τ, fuel, reached, facts => by
    obtain ⟨step, leave, leaveElse⟩ := valid.step _ mem
    have first := valid.inner _ mem ift mem_cons_self
    have second := valid.inner _ mem iff (mem_cons_of_mem _ mem_cons_self)
    refine Outcome.follows_attempt (step c _ reached) ?_ facts ?_
    · exact fun holds => test_agrees (sound.agrees _ _ _ same c _ reached)
    · intro holds good later
      cases holds with
      | true => exact (follows_block sound valid ift left first c σ τ fuel good later).imp (leave c)
      | false => exact (follows_block sound valid iff right second c σ τ fuel good later).imp (leaveElse c)
  | .loop node test body, _, .loop same inside, mem, c, σ, τ, fuel, reached, facts => by
    obtain ⟨enter, step, back⟩ := valid.step _ mem
    have inner := valid.inner _ mem body mem_cons_self
    unfold Machine.exec
    rw [fuel]
    refine Outcome.follows_repeatWhile o.fault (o.seen (.test node.id body.id) c) fuel (enter c _ reached) facts ?_ ?_
    · intro w holds known decided
      exact test_agrees (sound.agrees _ _ _ same c w ⟨holds, known⟩)
    · intro w holds known
      refine (step c w ⟨holds, known⟩).imp fun decided good => ?_
      cases decided with
      | false => exact good
      | true =>
        intro amount later
        exact (follows_block sound valid body inside inner c ⟨w.1, amount⟩ ⟨w.2, amount⟩ rfl good later).imp (back c)
  | .each node target iterable body, _, .each same inside, mem, c, σ, τ, fuel, reached, facts => by
    obtain ⟨step, back, leave⟩ := valid.step _ mem
    have inner := valid.inner _ mem body mem_cons_self
    refine Outcome.follows_attempt (step c _ reached) ?_ facts ?_
    · exact fun elements => drawn_agrees (sound.agrees _ _ _ same c _ reached)
    · intro elements good later
      refine (Outcome.follows_forEach (o.seen (.draw node.id) c) fuel good.1 later ?_).imp (leave c)
      intro v mem σ τ fuel holds rest
      have known := rest _ mem_cons_self
      have remaining := fun other mem => rest other (mem_cons_of_mem _ mem)
      refine (Outcome.follows_attempt (good.2 v mem _ ⟨holds, known⟩) (fun _ => id) remaining ?_).after _ _
      intro writes ready inside'
      rw [World.write_pair] at ready
      exact (follows_block sound valid body inside inner c (σ.write _ writes) (τ.write _ writes) fuel ready
        inside').imp (back c)
  | .scope node name ctx body, _, .scope same inside, mem, c, σ, τ, fuel, reached, facts => by
    have step := valid.step _ mem c _ reached
    have inner := valid.inner _ mem body mem_cons_self
    refine Outcome.follows_attempt step ?_ facts ?_
    · exact fun entered => entered_agrees (sound.agrees _ _ _ same c _ reached)
    · rintro ⟨within, writes⟩ ⟨ready, finish⟩ later
      rw [World.write_pair] at ready
      exact (follows_block sound valid body inside inner within (σ.write _ writes) (τ.write _ writes) fuel
        ready later).imp finish
  | .assert node test msg, _, .assert same, mem, c, σ, τ, fuel, reached, facts => by
    have step := valid.step _ mem c _ reached
    refine Outcome.follows_attempt step ?_ facts ?_
    · exact fun holds => test_agrees (sound.agrees _ _ _ same c _ reached)
    · intro holds good _
      cases holds with
      | true => exact Outcome.follows_done fuel good
      | false => exact Outcome.follows_failed
  | .effect node value, _, .effect same, mem, c, σ, τ, fuel, reached, facts => by
    have step := valid.step _ mem c _ reached
    exact Outcome.follows_attempt step (sound.agrees _ _ _ same c _ reached) facts
      fun _ good _ => Outcome.follows_done fuel good
  | .ret node value, _, .ret same, mem, c, σ, τ, fuel, reached, facts => by
    have step := valid.step _ mem c _ reached
    exact Outcome.follows_attempt step (sound.agrees _ _ _ same c _ reached) facts fun _ _ _ => .inr rfl
  | .skip node, _, .skip, mem, c, σ, τ, fuel, reached, _ =>
    Outcome.follows_done fuel (valid.step _ mem c _ reached)

theorem follows_block (sound : R.Sound m fact o) (valid : o.Valid m .pair fact stmts blocks) : (b : Block) → {b' : Block} → R.OnBlock b b' →
    b ∈ blocks → ∀ c (σ τ : State V), τ.fuel = σ.fuel →
    o.start b.id c (σ.store, τ.store) → (m.execBlock b c σ).Sees fact →
    (m.execBlock b c σ).Follows R.excused (o.finish b.id c) (m.execBlock b' c τ)
  | ⟨_, stmts⟩, _, .block inside same, mem, c, σ, τ, fuel, start, facts => by
    have both := follows_stmts sound valid stmts inside (valid.rows _ mem) (valid.chain _ mem) c σ τ fuel start facts
    refine both.alike ((m.execStmts_active _ c τ).trans ?_)
    rw [← same]
    exact (m.execStmts_active _ c τ).symm

theorem follows_stmts (sound : R.Sound m fact o) (valid : o.Valid m .pair fact stmts blocks) :
    (row : List Stmt) → {out : List Stmt} → R.OnStmts row out → (∀ s ∈ row, s ∈ stmts) → o.Chain post pre row → ∀ c (σ τ
    : State V), τ.fuel = σ.fuel → pre c (σ.store, τ.store) → (m.execStmts row c σ).Sees fact → (m.execStmts row c
    σ).Follows R.excused (post c) (m.execStmts out c τ)
  | [], _, .nil, _, chain, c, σ, τ, fuel, start, _ => Outcome.follows_done fuel (chain c _ start)
  | s :: rest, _, .cons head tail, mem, chain, c, σ, τ, fuel, start, facts => by
    obtain ⟨own, others⟩ := forall_mem_cons.mp mem
    have here := chain.1 c _ start
    rw [m.execStmts_append]
    refine Outcome.follows_andThen facts (fun seen => ?_) fun σ τ fuel holds later =>
      follows_stmts sound valid rest tail others chain.2 c σ τ fuel holds later
    have reached : o.Reached .pair fact (.stmt s.id) c (σ.store, τ.store) := ⟨here, seen _ mem_cons_self⟩
    have inside := fun other mem => seen other (mem_cons_of_mem _ mem)
    refine (follows_onStmt sound head fuel reached fun s' shape => ?_).after _ []
    exact follows_shape sound valid s shape own c σ τ fuel reached inside

end

end Revision

end NumLang
