import NumLang.Proofs.Semantics

/-!
Proof outlines. An outline gives assertions before and after every statement and block and at the head of every loop.
-/

namespace NumLang

variable {V C W X : Type}

def Settles {α : Type} (fault : Fault → Prop) (x : Except Fault α) (good : α → Prop) : Prop :=
  match x with
  | .ok a => good a
  | .error f => fault f

variable {α : Type}

theorem Settles.imp (settled : Settles fault x good) (stronger : ∀ a, good a → better a) : Settles fault x better := by
  cases x with
  | ok a => exact stronger a settled
  | error f => exact settled

theorem settles_of_ok {good : α → Prop} (result : ∀ a, x = .ok a → good a) : Settles (fun _ => True) x good := by
  cases x with
  | ok a => exact result a rfl
  | error f => trivial

/-- What a run is followed in: something that shows the store of the run, takes part in its writes and can be
looked into name by name. -/
structure World (V W X : Type) where
  store : W → Store V
  put : Name → Cell V → W → W
  look : W → Name → X
  /-- What is seen of a name after it is written. -/
  fill : Cell V → X
  look_put : ∀ n cell w x, look (put n cell w) x = if x = n then fill cell else look w x

namespace World

def write (world : World V W X) (site : Site) : List (Name × V) → W → W
  | [], w => w
  | (n, v) :: rest, w => world.write site rest (world.put n ⟨v, site⟩ w)

def single : World V (Store V) (Option (Cell V)) where
  store := id
  put n cell σ := σ.insert n cell
  look σ n := σ.get? n
  fill := some
  look_put n cell σ x := OrdMap.get?_insert σ n x cell

/-- A run with the store of a second one, which makes the same writes. -/
def pair : World V (Store V × Store V) (Option (Cell V) × Option (Cell V)) where
  store := Prod.fst
  put n cell w := (w.1.insert n cell, w.2.insert n cell)
  look w n := (w.1.get? n, w.2.get? n)
  fill cell := (some cell, some cell)
  look_put n cell w x := by
    simp only [OrdMap.get?_insert]
    split <;> rfl

theorem write_single (site : Site) (writes : List (Name × V)) (σ : Store V) :
    single.write site writes σ = σ.writeAll site writes := by
  induction writes generalizing σ with
  | nil => rfl
  | cons entry rest ih => exact ih _

theorem store_write (site : Site) (writes : List (Name × V)) (σ : State V) :
    (σ.write site writes).store = single.write site writes σ.store :=
  (write_single site writes σ.store).symm

theorem write_pair (site : Site) (writes : List (Name × V)) (w : Store V × Store V) :
    pair.write site writes w = (w.1.writeAll site writes, w.2.writeAll site writes) := by
  induction writes generalizing w with
  | nil => rfl
  | cons entry rest ih => exact ih _

end World

/-- Assertions about what a run is followed in, and the faults that may happen. -/
structure Outline (C W : Type) where
  seen : Point → C → W → Prop
  /-- After a statement. -/
  after : NodeId → C → W → Prop
  /-- At the start of a block. -/
  start : NodeId → C → W → Prop
  /-- At the end of a block. -/
  finish : NodeId → C → W → Prop
  fault : Fault → Prop

namespace Outline

section Conditions

variable (m : Machine V C) (world : World V W X) (fact : Moment V C → Prop) (o : Outline C W)

def Reached (p : Point) (c : C) (w : W) : Prop := o.seen p c w ∧ fact ⟨p, c, world.store w⟩

/-- What a statement owes: its assertions follow from each other as it is executed. -/
def Step : Stmt → Prop
  | .assign node target _ value => ∀ c w, o.Reached world fact (.stmt node.id) c w →
    Settles o.fault (m.assigned c (world.store w) target value) fun writes =>
      o.after node.id c (world.write ⟨.stmt, node.id⟩ writes w)
  | .store node name path value => ∀ c w, o.Reached world fact (.stmt node.id) c w →
    Settles o.fault (m.replaced c (world.store w) name path value) fun v =>
      o.after node.id c (world.write ⟨.stmt, node.id⟩ [(name, v)] w)
  | .when node test body =>
    (∀ c w, o.Reached world fact (.stmt node.id) c w →
      Settles o.fault (m.test c (world.store w) test) fun holds =>
        if holds then o.start body.id c w else o.after node.id c w) ∧
    ∀ c w, o.finish body.id c w → o.after node.id c w
  | .branch node test ift iff =>
    (∀ c w, o.Reached world fact (.stmt node.id) c w →
      Settles o.fault (m.test c (world.store w) test) fun holds =>
        if holds then o.start ift.id c w else o.start iff.id c w) ∧
    (∀ c w, o.finish ift.id c w → o.after node.id c w) ∧
    ∀ c w, o.finish iff.id c w → o.after node.id c w
  | .loop node test body =>
    (∀ c w, o.Reached world fact (.stmt node.id) c w → o.seen (.test node.id body.id) c w) ∧
    (∀ c w, o.Reached world fact (.test node.id body.id) c w →
      Settles o.fault (m.test c (world.store w) test) fun holds =>
        if holds then o.start body.id c w else o.after node.id c w) ∧
    ∀ c w, o.finish body.id c w → o.seen (.test node.id body.id) c w
  | .each node target iterable body =>
    (∀ c w, o.Reached world fact (.stmt node.id) c w →
      Settles o.fault (m.drawn c (world.store w) iterable) fun elements =>
        o.seen (.draw node.id) c w ∧ ∀ v ∈ elements, ∀ w, o.Reached world fact (.draw node.id) c w →
          Settles o.fault (m.writes target v) fun writes => o.start body.id c (world.write ⟨.stmt, node.id⟩ writes w)) ∧
    (∀ c w, o.finish body.id c w → o.seen (.draw node.id) c w) ∧
    ∀ c w, o.seen (.draw node.id) c w → o.after node.id c w
  | .scope node name ctx body => ∀ c w, o.Reached world fact (.stmt node.id) c w →
    Settles o.fault (m.entered c (world.store w) name ctx) fun (inner, writes) =>
      o.start body.id inner (world.write ⟨.stmt, node.id⟩ writes w) ∧
        ∀ w, o.finish body.id inner w → o.after node.id c w
  | .assert node test _ => ∀ c w, o.Reached world fact (.stmt node.id) c w →
    Settles o.fault (m.test c (world.store w) test) fun _ => o.after node.id c w
  | .effect node value => ∀ c w, o.Reached world fact (.stmt node.id) c w →
    Settles o.fault (m.eval c (world.store w) value) fun _ => o.after node.id c w
  | .ret node value => ∀ c w, o.Reached world fact (.stmt node.id) c w →
    Settles o.fault (m.eval c (world.store w) value) fun _ => True
  | .skip node => ∀ c w, o.Reached world fact (.stmt node.id) c w → o.after node.id c w

def Chain (post : C → W → Prop) : (C → W → Prop) → List Stmt → Prop
  | pre, [] => ∀ c w, pre c w → post c w
  | pre, s :: rest => (∀ c w, pre c w → o.seen (.stmt s.id) c w) ∧ Chain post (o.after s.id) rest

/-- Everything that a part of a program owes. -/
structure Valid (stmts : List Stmt) (blocks : List Block) : Prop extends Closed stmts blocks where
  stuck : o.fault .stuck
  step : ∀ s ∈ stmts, o.Step m world fact s
  chain : ∀ b ∈ blocks, o.Chain (o.finish b.id) (o.start b.id) b.stmts

end Conditions

end Outline

namespace Outcome

def Sees (fact : Moment V C → Prop) (out : Outcome V C) : Prop := ∀ moment ∈ out.trace, fact moment

def Ends (fault : Fault → Prop) (post : Store V → Prop) (out : Outcome V C) : Prop :=
  match out.exit with
  | .next => post out.state.store
  | .ret _ => True
  | .fault f => fault f

@[simp] theorem after_trace (trace : List (Moment V C)) (out : Outcome V C) :
    (after trace out).trace = trace ++ out.trace := rfl

@[simp] theorem after_exit (trace : List (Moment V C)) (out : Outcome V C) :
    (after trace out).exit = out.exit := rfl

@[simp] theorem after_state (trace : List (Moment V C)) (out : Outcome V C) :
    (after trace out).state = out.state := rfl

variable {out : Outcome V C}

theorem andThen_of_next (next : out.exit = .next) (k : State V → Outcome V C) :
    out.andThen k = after out.trace (k out.state) := by
  obtain ⟨trace, exit, σ⟩ := out
  cases next
  rfl

theorem andThen_of_ne (stops : out.exit ≠ .next) (k : State V → Outcome V C) : out.andThen k = out := by
  obtain ⟨trace, exit, σ⟩ := out
  cases exit with
  | next => exact absurd rfl stops
  | ret v => rfl
  | fault f => rfl

theorem sees_of_andThen (facts : (out.andThen k).Sees fact) : out.Sees fact := by
  by_cases next : out.exit = .next
  · rw [andThen_of_next next] at facts
    exact fun moment mem => facts moment (mem_append_left _ mem)
  · rwa [andThen_of_ne next] at facts

end Outcome

namespace Outline

variable {m : Machine V C} {fact : Moment V C → Prop} {o : Outline C (Store V)}

/-- The assertions of an outline hold all along an execution, and `post` holds at its end. -/
structure Covers (o : Outline C (Store V)) (post : Store V → Prop) (out : Outcome V C) : Prop where
  seen : out.Sees fun moment => o.seen moment.point moment.context moment.store
  ends : out.Ends o.fault post

variable {out : Outcome V C} {post : Store V → Prop} {σ : State V}

theorem Covers.imp (covered : o.Covers post out) (follows : ∀ σ, post σ → weaker σ) : o.Covers weaker out := by
  refine ⟨covered.seen, ?_⟩
  have ends := covered.ends
  unfold Outcome.Ends at ends ⊢
  cases exit : out.exit with
  | next => exact follows _ (by simpa only [exit] using ends)
  | ret v => trivial
  | fault f => simpa only [exit] using ends

theorem covers_done (holds : post σ.store) : o.Covers post (.done σ : Outcome V C) :=
  ⟨nofun, holds⟩

theorem covers_failed (allowed : o.fault f) : o.Covers post (.failed f σ : Outcome V C) :=
  ⟨nofun, allowed⟩

theorem covers_attempt (settled : Settles o.fault x good) (facts : (Outcome.attempt x σ k).Sees fact)
    (rest : ∀ a, good a → (k a).Sees fact → o.Covers post (k a)) : o.Covers post (Outcome.attempt x σ k) := by
  cases x with
  | ok a => exact rest a settled facts
  | error f => exact covers_failed settled

theorem covers_andThen (facts : (out.andThen k).Sees fact) (first : out.Sees fact → o.Covers mid out)
    (rest : ∀ σ, mid σ.store → (k σ).Sees fact → o.Covers post (k σ)) : o.Covers post (out.andThen k) := by
  have covered := first (Outcome.sees_of_andThen facts)
  by_cases next : out.exit = .next
  · rw [Outcome.andThen_of_next next] at facts ⊢
    have reached : mid out.state.store := by
      have ends := covered.ends
      simpa only [Outcome.Ends, next] using ends
    have later := rest out.state reached fun moment mem => facts moment (mem_append_right _ mem)
    refine ⟨?_, later.ends⟩
    intro moment mem
    rcases mem_append.mp mem with mem | mem
    · exact covered.seen moment mem
    · exact later.seen moment mem
  · rw [Outcome.andThen_of_ne next]
    refine ⟨covered.seen, ?_⟩
    have ends := covered.ends
    unfold Outcome.Ends at ends ⊢
    cases exit : out.exit with
    | next => exact absurd exit next
    | ret v => trivial
    | fault f => simpa only [exit] using ends

theorem covers_after {moment : Moment V C} (here : o.seen moment.point moment.context moment.store)
    (facts : (Outcome.after [moment] out).Sees fact) (rest : fact moment → out.Sees fact → o.Covers post out) :
    o.Covers post (Outcome.after [moment] out) := by
  have known : fact moment := facts moment mem_cons_self
  have covered := rest known fun other mem => facts other (mem_cons_of_mem _ mem)
  refine ⟨?_, covered.ends⟩
  intro other mem
  rcases mem_cons.mp mem with rfl | mem
  · exact here
  · exact covered.seen other mem

theorem covers_forEach (inv : Store V → Prop) (start : inv σ.store)
    (facts : (Outcome.forEach body elements σ).Sees fact)
    (round : ∀ a ∈ elements, ∀ σ : State V, inv σ.store → (body a σ).Sees fact → o.Covers inv (body a σ)) :
    o.Covers inv (Outcome.forEach body elements σ) := by
  induction elements generalizing σ with
  | nil => exact covers_done start
  | cons a rest ih =>
    refine covers_andThen facts (round a mem_cons_self σ start) ?_
    intro τ holds later
    exact ih holds later fun b mem => round b (mem_cons_of_mem a mem)

theorem covers_repeatWhile (inv : Store V → Prop) (stuck : o.fault .stuck) (start : inv σ.store)
    (facts : (Outcome.repeatWhile moment test body rounds σ).Sees fact)
    (here : ∀ σ, inv σ → o.seen (moment σ).point (moment σ).context (moment σ).store)
    (decided : ∀ σ : State V, inv σ.store → fact (moment σ.store) → Settles o.fault (test σ.store) fun holds => if holds
    then ∀ fuel, (body ⟨σ.store, fuel⟩).Sees fact → o.Covers inv (body ⟨σ.store, fuel⟩) else post σ.store) :
    o.Covers post (Outcome.repeatWhile moment test body rounds σ) := by
  induction rounds generalizing σ with
  | zero =>
    unfold Outcome.repeatWhile at facts ⊢
    refine covers_after (here _ start) facts fun known later => ?_
    refine covers_attempt (decided σ start known) later fun holds good _ => ?_
    cases holds with
    | true => exact covers_failed stuck
    | false => exact covers_done good
  | succ rounds ih =>
    unfold Outcome.repeatWhile at facts ⊢
    refine covers_after (here _ start) facts fun known later => ?_
    refine covers_attempt (decided σ start known) later fun holds good remaining => ?_
    cases holds with
    | false => exact covers_done good
    | true =>
      obtain ⟨store, fuel⟩ := σ
      cases fuel with
      | zero => exact covers_failed stuck
      | succ fuel =>
        refine covers_andThen remaining (good fuel) ?_
        intro τ holds rest
        exact ih holds rest

variable {stmts : List Stmt} {blocks : List Block}

mutual

theorem covers_exec (valid : o.Valid m .single fact stmts blocks) (s : Stmt) (mem : s ∈ stmts) (c : C) (σ : State V)
    (reached : o.Reached .single fact (.stmt s.id) c σ.store) (facts : (m.exec s c σ).Sees fact) :
    o.Covers (o.after s.id c) (m.exec s c σ) := by
  cases s with
  | assign node target ann value =>
    have step := valid.step _ mem c σ.store reached
    exact covers_attempt step facts fun writes good _ => covers_done (World.store_write _ _ σ ▸ good)
  | store node name path value =>
    have step := valid.step _ mem c σ.store reached
    exact covers_attempt step facts fun v good _ => covers_done (World.store_write _ _ σ ▸ good)
  | when node test body =>
    obtain ⟨step, leave⟩ := valid.step _ mem
    have inner := valid.inner _ mem body mem_cons_self
    refine covers_attempt (step c σ.store reached) facts fun holds good later => ?_
    cases holds with
    | true => exact (covers_execBlock valid body inner c σ good later).imp (leave c)
    | false => exact covers_done good
  | branch node test ift iff =>
    obtain ⟨step, leave, leaveElse⟩ := valid.step _ mem
    have first := valid.inner _ mem ift mem_cons_self
    have second := valid.inner _ mem iff (mem_cons_of_mem _ mem_cons_self)
    refine covers_attempt (step c σ.store reached) facts fun holds good later => ?_
    cases holds with
    | true => exact (covers_execBlock valid ift first c σ good later).imp (leave c)
    | false => exact (covers_execBlock valid iff second c σ good later).imp (leaveElse c)
  | loop node test body =>
    obtain ⟨enter, step, back⟩ := valid.step _ mem
    have inner := valid.inner _ mem body mem_cons_self
    refine covers_repeatWhile (o.seen (.test node.id body.id) c) valid.stuck (enter c _ reached) facts
      (fun _ => id) fun τ holds known => ?_
    refine (step c τ.store ⟨holds, known⟩).imp fun decided good => ?_
    cases decided with
    | false => exact good
    | true =>
      intro fuel later
      exact (covers_execBlock valid body inner c ⟨τ.store, fuel⟩ good later).imp (back c)
  | each node target iterable body =>
    obtain ⟨step, back, leave⟩ := valid.step _ mem
    have inner := valid.inner _ mem body mem_cons_self
    refine covers_attempt (step c σ.store reached) facts fun elements good later => ?_
    refine (covers_forEach (o.seen (.draw node.id) c) good.1 later ?_).imp (leave c)
    intro v mem τ holds rest
    refine covers_after holds rest fun known rest => ?_
    refine covers_attempt (good.2 v mem τ.store ⟨holds, known⟩) rest fun writes ready rest => ?_
    exact (covers_execBlock valid body inner c (τ.write _ writes) (World.store_write _ _ τ ▸ ready) rest).imp (back c)
  | scope node name ctx body =>
    have step := valid.step _ mem c σ.store reached
    have inner := valid.inner _ mem body mem_cons_self
    refine covers_attempt step facts fun (inside, writes) good later => ?_
    exact (covers_execBlock valid body inner inside (σ.write _ writes) (World.store_write _ _ σ ▸ good.1) later).imp good.2
  | assert node test msg =>
    have step := valid.step _ mem c σ.store reached
    refine covers_attempt step facts fun holds good _ => ?_
    cases holds with
    | true => exact covers_done good
    | false => exact covers_failed valid.stuck
  | effect node value =>
    have step := valid.step _ mem c σ.store reached
    exact covers_attempt step facts fun _ good _ => covers_done good
  | ret node value =>
    have step := valid.step _ mem c σ.store reached
    exact covers_attempt step facts fun _ _ _ => ⟨nofun, trivial⟩
  | skip node => exact covers_done (valid.step _ mem c σ.store reached)

theorem covers_execBlock (valid : o.Valid m .single fact stmts blocks) (b : Block) (mem : b ∈ blocks) (c : C)
    (σ : State V) (start : o.start b.id c σ.store) (facts : (m.execBlock b c σ).Sees fact) :
    o.Covers (o.finish b.id c) (m.execBlock b c σ) := by
  obtain ⟨block, stmts⟩ := b
  exact covers_execStmts valid stmts (valid.rows _ mem) (valid.chain _ mem) c σ start facts

theorem covers_execStmts (valid : o.Valid m .single fact stmts blocks) {pre post : C → Store V → Prop} (row : List Stmt)
    (mem : ∀ s ∈ row, s ∈ stmts) (chain : o.Chain post pre row) (c : C) (σ : State V) (start : pre c σ.store)
    (facts : (m.execStmts row c σ).Sees fact) : o.Covers (post c) (m.execStmts row c σ) := by
  cases row with
  | nil => exact covers_done (chain c σ.store start)
  | cons s rest =>
    obtain ⟨own, others⟩ := forall_mem_cons.mp mem
    have here := chain.1 c σ.store start
    refine covers_andThen facts (fun seen => ?_) fun τ holds later =>
      covers_execStmts valid rest others chain.2 c τ holds later
    exact covers_after here seen fun known inside => covers_exec valid s own c σ ⟨here, known⟩ inside

end

end Outline

end NumLang
