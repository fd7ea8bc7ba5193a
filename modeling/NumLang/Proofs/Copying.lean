import NumLang.Proofs.Renaming

/-!
Copies of statements under new names.
-/

namespace NumLang

variable {V C : Type}

mutual

/-- One statement is another under new names. Identities and locations may differ. -/
def Stmt.Copy (ρ : Name → Name) : Stmt → Stmt → Prop
  | .assign _ target ann value, s' =>
    ∃ node value', s' = .assign node (target.rename ρ) ann value' ∧ value.Copy ρ value'
  | .store _ name path value, s' =>
    ∃ node path' value', s' = .store node (ρ name) path' value' ∧ Forall₂ (Expr.Copy ρ) path path' ∧ value.Copy ρ value'
  | .when _ test body, s' =>
    ∃ node test' body', s' = .when node test' body' ∧ test.Copy ρ test' ∧ Block.Copy ρ body body'
  | .branch _ test ift iff, s' =>
    ∃ node test' ift' iff', s' = .branch node test' ift' iff' ∧ test.Copy ρ test' ∧ Block.Copy ρ ift ift' ∧
      Block.Copy ρ iff iff'
  | .loop _ test body, s' =>
    ∃ node test' body', s' = .loop node test' body' ∧ test.Copy ρ test' ∧ Block.Copy ρ body body'
  | .each _ target iterable body, s' =>
    ∃ node iterable' body', s' = .each node (target.rename ρ) iterable' body' ∧ iterable.Copy ρ iterable' ∧
      Block.Copy ρ body body'
  | .scope _ name ctx body, s' =>
    ∃ node ctx' body', s' = .scope node (name.map ρ) ctx' body' ∧ ctx.Copy ρ ctx' ∧ Block.Copy ρ body body'
  | .assert _ test msg, s' =>
    ∃ node test' msg', s' = .assert node test' msg' ∧ test.Copy ρ test' ∧ Forall₂ (Expr.Copy ρ) msg.toList msg'.toList
  | .effect _ value, s' => ∃ node value', s' = .effect node value' ∧ value.Copy ρ value'
  | .ret _ value, s' => ∃ node value', s' = .ret node value' ∧ value.Copy ρ value'
  | .skip _, s' => ∃ node, s' = .skip node
termination_by structural s => s

def Block.Copy (ρ : Name → Name) : Block → Block → Prop
  | ⟨_, stmts⟩, b' => Stmt.CopyAll ρ stmts b'.stmts

def Stmt.CopyAll (ρ : Name → Name) : List Stmt → List Stmt → Prop
  | [], stmts' => stmts' = []
  | s :: rest, stmts' => ∃ s' rest', stmts' = s' :: rest' ∧ Stmt.Copy ρ s s' ∧ Stmt.CopyAll ρ rest rest'

end

mutual

theorem Stmt.copy_refresh (ρ : Name → Name) : (s : Stmt) → (next : Nat) → s.Copy ρ ((s.refresh next).1.rename ρ)
  | .assign _ _ _ value, _ | .effect _ value, _ | .ret _ value, _ => ⟨_, _, rfl, value.copy_refresh ρ _⟩
  | .store _ _ path value, _ => ⟨_, _, _, rfl, Expr.copyAll_refresh ρ path _, value.copy_refresh ρ _⟩
  | .when _ test body, _ | .loop _ test body, _ | .each _ _ test body, _ | .scope _ _ test body, _ =>
    ⟨_, _, _, rfl, test.copy_refresh ρ _, Block.copy_refresh ρ body _⟩
  | .branch _ test ift iff, _ =>
    ⟨_, _, _, _, rfl, test.copy_refresh ρ _, Block.copy_refresh ρ ift _, Block.copy_refresh ρ iff _⟩
  | .assert _ test msg, _ => ⟨_, _, _, rfl, test.copy_refresh ρ _, Expr.copyOption_refresh ρ _ msg⟩
  | .skip _, _ => ⟨_, rfl⟩

theorem Block.copy_refresh (ρ : Name → Name) : (b : Block) → (next : Nat) → b.Copy ρ ((b.refresh next).1.rename ρ)
  | ⟨_, stmts⟩, _ => Stmt.copyAll_refresh ρ stmts _

theorem Stmt.copyAll_refresh (ρ : Name → Name) : (stmts : List Stmt) → (next : Nat) →
    Stmt.CopyAll ρ stmts (Stmt.renameAll ρ (Stmt.refreshAll stmts next).1)
  | [], _ => rfl
  | s :: rest, _ => ⟨_, _, rfl, Stmt.copy_refresh ρ s _, Stmt.copyAll_refresh ρ rest _⟩

end

section Names

variable {ρ : Name → Name}

namespace Stmt

/-- What a copy has in common with the statement. -/
structure Alike (ρ : Name → Name) (s s' : Stmt) : Prop where
  binds : s'.binds = s.binds.map ρ
  reads : s'.reads = s.reads.map ρ
  exprs : Forall₂ (Expr.Copy ρ) s.exprs s'.exprs
  blocks : Forall₂ (Block.Copy ρ) s.blocks s'.blocks

theorem Copy.alike {s s' : Stmt} (copy : s.Copy ρ s') : Alike ρ s s' := by
  cases s with
  | assign node target =>
    obtain ⟨_, _, rfl, part⟩ := copy
    exact ⟨Binder.names_rename ρ target, rfl, .cons part .nil, .nil⟩
  | store =>
    obtain ⟨_, _, _, rfl, places, part⟩ := copy
    exact ⟨rfl, rfl, rel_append places (.cons part .nil), .nil⟩
  | when | loop =>
    obtain ⟨_, _, _, rfl, part, body⟩ := copy
    exact ⟨rfl, rfl, .cons part .nil, .cons body .nil⟩
  | branch =>
    obtain ⟨_, _, _, _, rfl, part, first, second⟩ := copy
    exact ⟨rfl, rfl, .cons part .nil, .cons first (.cons second .nil)⟩
  | each node target =>
    obtain ⟨_, _, _, rfl, part, body⟩ := copy
    exact ⟨Binder.names_rename ρ target, rfl, .cons part .nil, .cons body .nil⟩
  | scope node name =>
    obtain ⟨_, _, _, rfl, part, body⟩ := copy
    exact ⟨by cases name <;> rfl, rfl, .cons part .nil, .cons body .nil⟩
  | assert =>
    obtain ⟨_, _, _, rfl, part, told⟩ := copy
    exact ⟨rfl, rfl, .cons part told, .nil⟩
  | effect | ret =>
    obtain ⟨_, _, rfl, part⟩ := copy
    exact ⟨rfl, rfl, .cons part .nil, .nil⟩
  | skip =>
    obtain ⟨_, rfl⟩ := copy
    exact ⟨rfl, rfl, .nil, .nil⟩

theorem copyAll_block {b b' : Block} (copy : b.Copy ρ b') : CopyAll ρ b.stmts b'.stmts := by
  cases b
  exact copy

theorem names_copyAll (copy : CopyAll ρ stmts stmts') : Stmt.names stmts' = (Stmt.names stmts).map ρ := by
  induction stmts using byBlocks generalizing stmts' with
  | nil =>
    cases copy
    rfl
  | cons s rest head tail =>
    obtain ⟨s', rest', rfl, first, others⟩ := copy
    rw [names_cons, names_cons s, map_append, head ⟨s', [], rfl, first, rfl⟩, tail others]
  | step s inner =>
    obtain ⟨s', _, rfl, copy, rfl⟩ := copy
    rw [names_single, names_single s, ownNames, ownNames, copy.alike.binds]
    simp only [map_append, map_flatMap]
    rw [flatMap_of_forall₂ copy.alike.exprs fun e _ _ copied => e.vars_copy copied,
      flatMap_of_forall₂ copy.alike.blocks fun b mem _ copied => inner b mem (copyAll_block copied)]

end Stmt

end Names

/-- The new names hold in the second store what the names hold in the first; all other names hold there what they
hold in a third. -/
structure Tracks (old : Name → Prop) (ρ : Name → Name) (still : Store V) (w : Store V × Store V) : Prop where
  carries : Carries old ρ w.1 w.2
  rest : ∀ x, (∀ n, old n → ρ n ≠ x) → w.2.value? x = still.value? x

theorem Tracks.write (apart : Apart old ρ) {still σ τ : Store V} (tracks : Tracks old ρ still (σ, τ))
    {names : List Name} {values : List V} (fits : values.length = names.length) (inside : ∀ n ∈ names, old n)
    (site site' : Site) :
    Tracks old ρ still (σ.writeAll site (names.zip values), τ.writeAll site' ((names.map ρ).zip values)) := by
  refine ⟨carries_writeAll apart fits inside fun n here _ => tracks.carries n here, fun x outside => ?_⟩
  rw [← tracks.rest x outside]
  refine Store.value?_writeAll_of_notMem fun listed => ?_
  rw [map_fst_zip (by simp [fits])] at listed
  obtain ⟨n, mem, rfl⟩ := mem_map.mp listed
  exact outside n (inside n mem) rfl

theorem Outcome.sees_true (out : Outcome V C) : out.Sees fun _ => True := fun _ _ => trivial

theorem Outcome.follows_attempt_of {α β : Type} {x : Except Fault α} {x' : Except Fault β} {k : α → Outcome V C}
    {k' : β → Outcome V C} (rest : ∀ a, x = .ok a → ∃ b, x' = .ok b ∧ (k a).Follows sites post (k' b)) :
    (attempt x σ k).Follows sites post (attempt x' τ k') := by
  cases x with
  | error f => exact follows_failed
  | ok a =>
    obtain ⟨b, same, both⟩ := rest a rfl
    rw [same]
    exact both

namespace Machine

variable {m : Machine V C} {c : C} {σ τ : Store V} {ρ : Name → Name} {v : V} {writes : List (Name × V)}

theorem writes_copy (shaped : m.Shaped) {target : Binder} (written : m.writes target v = .ok writes) :
    ∃ values : List V, values.length = target.names.length ∧ writes = target.names.zip values ∧ m.writes
      (target.rename ρ) v = .ok ((target.names.map ρ).zip values) := by
  obtain ⟨values, spread, fits, rfl⟩ := writes_eq_ok_iff.mp written
  refine ⟨values, fits, rfl, writes_eq_ok_iff.mpr ⟨values, ?_, ?_, ?_⟩⟩
  · rwa [shaped.rename]
  · rwa [Binder.names_rename, length_map]
  · rw [Binder.names_rename]

theorem replaced_copy {value value' : Expr} (places : Forall₂ (Expr.Copy ρ) path path') (part : value.Copy ρ value')
    (held : τ.value? (ρ name) = σ.value? name) (same : ∀ e ∈ path ++ [value], ∀ n ∈ e.uses, τ.value? (ρ n) = σ.value? n)
    (replaced : m.replaced c σ name path value = .ok v) : m.replaced c τ (ρ name) path' value' = .ok v := by
  have paths : (m.evalAll c τ path').toOption = (m.evalAll c σ path).toOption :=
    evalAll_of_forall₂ places fun e mem _ copied =>
      eval_copy e copied (same e (mem_append_left _ mem))
  have last := eval_copy (m := m) (c := c) value part (same value (mem_append_right _ mem_cons_self))
  rw [← toOption_eq_some] at replaced ⊢
  simpa only [Machine.replaced, toOption_bind, paths, last, Store.toOption_read, held] using replaced

theorem entered_copy {name : Option Name} {ctx ctx' : Expr} (part : ctx.Copy ρ ctx')
    (same : ∀ n ∈ ctx.uses, τ.value? (ρ n) = σ.value? n) {inner : C}
    (entered : m.entered c σ name ctx = .ok (inner, writes)) :
    ∃ values : List V, values.length = name.toList.length ∧ writes = name.toList.zip values ∧ m.entered c τ (name.map ρ)
      ctx' = .ok (inner, (name.toList.map ρ).zip values) :=
    by
  unfold Machine.entered at entered ⊢
  cases enter : m.enter with
  | none =>
    cases name with
    | none =>
      rw [enter] at entered
      cases entered
      exact ⟨[], rfl, rfl, rfl⟩
    | some n =>
      rw [enter] at entered
      cases entered
  | some enter' =>
    rw [enter] at entered
    obtain ⟨v, computed, rest⟩ := bind_ok.mp entered
    obtain ⟨other, demanded, rest⟩ := bind_ok.mp rest
    cases rest
    have again := (eval_copy_iff part same).mpr computed
    cases name with
    | none => exact ⟨[], rfl, rfl, bind_ok.mpr ⟨v, again, bind_ok.mpr ⟨inner, demanded, rfl⟩⟩⟩
    | some n => exact ⟨[v], rfl, rfl, bind_ok.mpr ⟨v, again, bind_ok.mpr ⟨inner, demanded, rfl⟩⟩⟩

end Machine

/-- A relation of stores as far as the names of a set go: the new names hold in the second what the names hold in the
first. -/
structure Bridge (old : Name → Prop) (ρ : Name → Name) (rel : NameSet → Store V × Store V → Prop) : Prop where
  mono : ∀ {live fewer w}, rel live w → (∀ n ∈ fewer, n ∈ live) → rel fewer w
  read : ∀ {live w}, rel live w → ∀ n ∈ live, old n → w.2.value? (ρ n) = w.1.value? n
  write : ∀ {live fewer σ τ} {names : List Name} {values : List V}, rel live (σ, τ) → values.length = names.length →
    (∀ n ∈ names, old n) → (∀ n ∈ fewer, n ∈ live ∨ n ∈ names) → ∀ site site',
    rel fewer (σ.writeAll site (names.zip values), τ.writeAll site' ((names.map ρ).zip values))

section Follows

open Outcome

variable {m : Machine V C} {old : Name → Prop} {ρ : Name → Name} {rel : NameSet → Store V × Store V → Prop}

theorem Tracks.bridge (apart : Apart old ρ) : Bridge old ρ fun _ => Tracks old ρ still where
  mono tracks _ := tracks
  read tracks n _ here := tracks.carries n here
  write tracks fits inside _ := tracks.write apart fits inside

mutual

/-- A copy of a statement ends as it does, from stores that are related as far as the names live before it go. -/
theorem follows_copy (shaped : m.Shaped) (bridge : Bridge old ρ rel) (s : Stmt) {s' : Stmt} (copy : s.Copy ρ s')
    (inside : ∀ n ∈ Stmt.names [s], old n) (out : NameSet) (c : C) (σ τ : State V) (fuel : τ.fuel = σ.fuel)
    (related : rel (s.liveIn out) (σ.store, τ.store)) :
    (m.exec s c σ).Follows (fun _ => False) (rel out) (m.exec s' c τ) := by
  rw [Stmt.names_single, forall_mem_append] at inside
  have binds : ∀ n ∈ s.binds, old n := fun n mem => inside.1 n (mem_append_left _ mem)
  have reads : ∀ {w}, rel (s.liveIn out) w → ∀ e ∈ s.exprs, ∀ n ∈ e.uses, w.2.value? (ρ n) = w.1.value? n :=
    fun related e mem n used => bridge.read related n (Stmt.mem_liveIn_of_uses mem used)
      (inside.1 n (mem_append_right _ (mem_flatMap.mpr ⟨e, mem, e.mem_vars_of_uses used⟩)))
  have tests : ∀ {w}, rel (s.liveIn out) w → ∀ e ∈ s.exprs, ∀ {e'}, e.Copy ρ e' → ∀ {holds}, m.test c w.1 e = .ok holds →
      m.test c w.2 e' = .ok holds := fun related e mem _ part _ =>
    Revision.test_agrees fun _ => (Machine.eval_copy_iff part (reads related e mem)).mpr
  have deeper : ∀ b ∈ s.blocks, ∀ n ∈ Stmt.names b.stmts, old n := fun b mem n named =>
    inside.2 n (mem_flatMap.mpr ⟨b, mem, named⟩)
  cases s with
  | assign _ target _ value =>
    obtain ⟨_, _, rfl, part⟩ := copy
    refine follows_attempt_of fun writes assigned => ?_
    obtain ⟨v, values, _, _, fits, rfl⟩ := Machine.assigned_eq_ok_iff.mp assigned
    refine ⟨_, (Machine.assigned_copy shaped part (reads related _ mem_cons_self)).mpr ⟨values, fits, rfl, assigned⟩,
      follows_done fuel (bridge.write related fits binds (fun n live => ?_) _ _)⟩
    simp only [Stmt.liveIn, mem_union, mem_diff, mem_ofList]
    grind
  | store _ name path value =>
    obtain ⟨_, _, _, rfl, places, part⟩ := copy
    have held := bridge.read related name (by simp [Stmt.liveIn]) (binds name mem_cons_self)
    refine follows_attempt_of fun v replaced => ⟨v, Machine.replaced_copy places part held (reads related) replaced, ?_⟩
    refine follows_done fuel (bridge.write related (rfl : [v].length = [name].length) binds (fun n live => ?_) _ _)
    simp [Stmt.liveIn, live]
  | when _ test body =>
    obtain ⟨_, _, _, rfl, part, within⟩ := copy
    refine follows_attempt_of fun holds tested => ⟨holds, tests related _ mem_cons_self part tested, ?_⟩
    cases holds with
    | true =>
      exact follows_copyBlock shaped bridge body within (deeper _ mem_cons_self) out c σ τ fuel
        (bridge.mono related fun n live => by simp [Stmt.liveIn, live])
    | false => exact follows_done fuel (bridge.mono related fun n live => by simp [Stmt.liveIn, live])
  | branch _ test ift iff =>
    obtain ⟨_, _, _, _, rfl, part, left, right⟩ := copy
    refine follows_attempt_of fun holds tested => ⟨holds, tests related _ mem_cons_self part tested, ?_⟩
    cases holds with
    | true =>
      exact follows_copyBlock shaped bridge ift left (deeper _ mem_cons_self) out c σ τ fuel
        (bridge.mono related fun n live => by simp [Stmt.liveIn, live])
    | false =>
      exact follows_copyBlock shaped bridge iff right (deeper _ (mem_cons_of_mem _ mem_cons_self)) out c σ τ fuel
        (bridge.mono related fun n live => by simp [Stmt.liveIn, live])
  | loop node test body =>
    obtain ⟨_, _, _, rfl, part, within⟩ := copy
    unfold Machine.exec
    rw [fuel]
    refine follows_repeatWhile (fun _ => True) _ fuel related (sees_true _)
      (fun w related _ holds => tests related _ mem_cons_self part) fun w related _ => ?_
    cases tested : m.test c w.1 test with
    | error f => trivial
    | ok holds =>
      cases holds with
      | true =>
        exact fun fuel _ => follows_copyBlock shaped bridge body within (deeper _ mem_cons_self) _ c _ _ rfl
          (bridge.mono related (Stmt.liveIn_loop node test body out))
      | false => exact bridge.mono related fun n live => by simp [Stmt.liveIn, live]
  | each node target iterable body =>
    obtain ⟨_, _, _, rfl, part, within⟩ := copy
    refine follows_attempt_of fun elements drawn => ⟨elements, ?_, ?_⟩
    · exact Revision.drawn_agrees (fun _ => (Machine.eval_copy_iff part (reads related _ mem_cons_self)).mpr) drawn
    · have start := bridge.mono related fun n live => mem_union.mpr (.inl live)
      refine (follows_forEach _ fuel start (sees_true _) ?_).imp fun w related =>
        bridge.mono related fun n live => mem_union.mpr (.inl live)
      intro v _ σ τ fuel related _
      refine (follows_attempt_of fun writes written => ?_).after _ _
      obtain ⟨values, fits, rfl, again⟩ := Machine.writes_copy (ρ := ρ) shaped written
      exact ⟨_, again, follows_copyBlock shaped bridge body within (deeper _ mem_cons_self) _ c _ _ fuel
        (bridge.write related fits binds (Stmt.liveIn_each node target iterable body out) _ _)⟩
  | scope _ name ctx body =>
    obtain ⟨_, _, _, rfl, part, within⟩ := copy
    refine follows_attempt_of ?_
    rintro ⟨inner, writes⟩ entered
    obtain ⟨values, fits, rfl, again⟩ := Machine.entered_copy part (reads related _ mem_cons_self) entered
    refine ⟨_, again, follows_copyBlock shaped bridge body within (deeper _ mem_cons_self) out inner _ _ fuel
      (bridge.write related fits binds (fun n live => ?_) _ _)⟩
    simp only [Stmt.liveIn, mem_union, mem_diff, mem_ofList]
    grind
  | assert _ test msg =>
    obtain ⟨_, _, _, rfl, part, _⟩ := copy
    refine follows_attempt_of fun holds tested => ⟨holds, tests related _ mem_cons_self part tested, ?_⟩
    cases holds with
    | true => exact follows_done fuel (bridge.mono related fun n live => by simp [Stmt.liveIn, live])
    | false => exact follows_failed
  | effect _ value =>
    obtain ⟨_, _, rfl, part⟩ := copy
    refine follows_attempt_of fun v computed => ⟨v, ?_, follows_done fuel (bridge.mono related fun n live => ?_)⟩
    · exact (Machine.eval_copy_iff part (reads related _ mem_cons_self)).mpr computed
    · simp [Stmt.liveIn, live]
  | ret _ value =>
    obtain ⟨_, _, rfl, part⟩ := copy
    exact follows_attempt_of fun v computed =>
      ⟨v, (Machine.eval_copy_iff part (reads related _ mem_cons_self)).mpr computed, .inr rfl⟩
  | skip =>
    obtain ⟨_, rfl⟩ := copy
    exact follows_done fuel related
termination_by structural s

theorem follows_copyBlock (shaped : m.Shaped) (bridge : Bridge old ρ rel) (b : Block) (copy : b.Copy ρ b')
    (inside : ∀ n ∈ Stmt.names b.stmts, old n) (out : NameSet) (c : C) (σ τ : State V) (fuel : τ.fuel = σ.fuel)
    (related : rel (b.liveIn out) (σ.store, τ.store)) :
    (m.execBlock b c σ).Follows (fun _ => False) (rel out) (m.execBlock b' c τ) := by
  obtain ⟨id, stmts⟩ := b
  obtain ⟨id', stmts'⟩ := b'
  exact follows_copyAll shaped bridge stmts copy inside out c σ τ fuel related

theorem follows_copyAll (shaped : m.Shaped) (bridge : Bridge old ρ rel) (stmts : List Stmt)
    (copy : Stmt.CopyAll ρ stmts stmts') (inside : ∀ n ∈ Stmt.names stmts, old n) (out : NameSet) (c : C)
    (σ τ : State V) (fuel : τ.fuel = σ.fuel) (related : rel (Stmt.liveInAll stmts out) (σ.store, τ.store)) :
    (m.execStmts stmts c σ).Follows (fun _ => False) (rel out) (m.execStmts stmts' c τ) := by
  cases stmts with
  | nil =>
    cases copy
    exact follows_done fuel related
  | cons s rest =>
    obtain ⟨_, _, rfl, head, tail⟩ := copy
    rw [Stmt.names_cons, forall_mem_append] at inside
    have first := follows_copy shaped bridge s head inside.1 _ c σ τ fuel related
    refine follows_andThen (sees_true _) (fun _ => first.after _ _) ?_
    intro σ τ fuel related _
    exact follows_copyAll shaped bridge rest tail inside.2 out c σ τ fuel related

end

end Follows

end NumLang
