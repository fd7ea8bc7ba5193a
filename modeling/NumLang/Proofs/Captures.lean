import NumLang.Proofs.Children
import NumLang.Proofs.Ordered
import NumLang.Rule.Match

/-!
What a walk of a pattern along a program captures.
-/

namespace NumLang

namespace Expr

/-- The names that an expression mentions other than to call them: those of its variables and of its targets. -/
def mentions (e : Expr) : List Name := e.all.flatMap fun part => part.reads ++ part.binds

variable {e : Expr} {n : Name}

theorem mem_mentions : n ∈ e.mentions ↔ n ∈ e.reads ∨ n ∈ e.binds ∨ ∃ part ∈ e.children, n ∈ part.mentions := by
  simp only [mentions, mem_flatMap, mem_append]
  rw [all_eq]
  simp only [mem_cons, mem_allOf_iff]
  constructor
  · rintro ⟨part, rfl | ⟨child, mem, inside⟩, own⟩
    · exact own.imp_right .inl
    · exact .inr (.inr ⟨child, mem, part, inside, own⟩)
  · rintro (read | bound | ⟨child, mem, part, inside, own⟩)
    · exact ⟨e, .inl rfl, .inl read⟩
    · exact ⟨e, .inl rfl, .inr bound⟩
    · exact ⟨part, .inr ⟨child, mem, inside⟩, own⟩

theorem mem_mentions_of_onlyParts (parts : e.onlyParts = true) :
    n ∈ e.mentions ↔ ∃ part ∈ e.children, n ∈ part.mentions := by
  rw [mem_mentions]
  cases e with
  | var | comprehension => cases parts
  | _ => simp [reads, binds]

end Expr

namespace Stmt

def mentions (s : Stmt) : List Name := s.binds ++ s.reads ++ s.exprs.flatMap Expr.mentions

theorem exists_mentions (s : Stmt) : (∃ part ∈ s.all, n ∈ part.mentions) ↔ n ∈ s.binds ∨ n ∈ s.reads ∨
    (∃ e ∈ s.exprs, n ∈ e.mentions) ∨ ∃ b ∈ s.blocks, ∃ part ∈ b.all, n ∈ part.mentions := by
  simp only [all_eq, mem_cons, exists_eq_or_imp, mentions, mem_append, mem_flatMap, or_assoc, ← exists_and_right]
  rw [exists_comm]
  simp only [and_assoc, exists_and_left]

end Stmt

namespace Capture

def Injective (c : Capture) : Prop :=
  ∀ n m target, c.names.get? n = some target → c.names.get? m = some target → n = m

end Capture

namespace Pattern

variable {p : Pattern}

/-- One capture comes from another when the given names are met. -/
structure Meets (p : Pattern) (names : Name → Prop) (c c' : Capture) : Prop where
  exprs : ∀ v, c'.exprs.contains v = true ↔ c.exprs.contains v = true ∨ (names v ∧ p.isVar v = true)
  free : ∀ n, c'.names.contains n = true ↔ c.names.contains n = true ∨ (names n ∧ p.isVar n = false ∧ p.isFree n = true)
  injective : c.Injective → c'.Injective

def Takes (p : Pattern) (names : Name → Prop) (step : Capture → Option Capture) : Prop :=
  ∀ c c', step c = some c' → p.Meets names c c'

section Takes

variable {names others : Name → Prop} {step next : Capture → Option Capture}

theorem takes_none (names : Name → Prop) : p.Takes names fun _ => none := nofun

theorem takes_some : p.Takes (fun _ => False) some := by
  intro c c' same
  cases same
  refine ⟨fun v => ?_, fun n => ?_, id⟩ <;> simp

theorem Takes.bind (first : p.Takes names step) (second : p.Takes others next) :
    p.Takes (fun n => names n ∨ others n) fun c => step c >>= next := by
  intro c c' walked
  obtain ⟨middle, head, tail⟩ := bind_eq_some_iff.mp walked
  have left := first c middle head
  have right := second middle c' tail
  refine ⟨fun v => ?_, fun n => ?_, right.injective ∘ left.injective⟩
  · rw [right.exprs, left.exprs, or_and_right, or_assoc]
  · rw [right.free, left.free, or_and_right, or_assoc]

theorem Takes.congr (takes : p.Takes names step) (same : ∀ n, names n ↔ others n) : p.Takes others step := by
  rwa [← funext fun n => propext (same n)]

theorem Takes.when [Decidable condition] (takes : p.Takes names step) :
    p.Takes names fun c => if condition then step c else none := by
  intro c c' walked
  split at walked
  · exact takes c c' walked
  · cases walked

end Takes

theorem contains_insert {α : Type} {m : NameMap α} {value : α} :
    (m.insert key value).contains other = true ↔ other = key ∨ m.contains other = true := by
  rw [OrdMap.contains, OrdMap.get?_insert]
  split
  · rename_i same
    simp [same]
  · rename_i differ
    simp [OrdMap.contains, differ]

theorem takes_meet {v : Name} (isVar : p.isVar v = true) (e : Expr) : p.Takes (· = v) (Capture.meet v e) := by
  intro c c' walked
  unfold Capture.meet at walked
  have free : ∀ n, (n = v ∧ p.isVar n = false ∧ p.isFree n = true) ↔ False := by
    intro n
    refine iff_false_intro ?_
    rintro ⟨rfl, other, _⟩
    rw [isVar] at other
    cases other
  split at walked
  · rename_i bound found
    split at walked
    · cases walked
      refine ⟨fun w => ⟨.inl, ?_⟩, fun n => by rw [free, or_false], id⟩
      rintro (held | ⟨rfl, _⟩)
      · exact held
      · rw [OrdMap.contains, found]
        rfl
    · cases walked
  · cases walked
    refine ⟨fun w => ?_, fun n => by rw [free, or_false], id⟩
    rw [contains_insert, or_comm]
    exact or_congr_right ⟨fun same => ⟨same, same ▸ isVar⟩, And.left⟩

theorem mem_values {m : NameMap Name} : target ∈ m.values ↔ ∃ n, m.get? n = some target := by
  simp only [OrdMap.values, mem_map, OrdMap.get?_eq_some_iff]
  exact ⟨fun ⟨⟨n, _⟩, mem, same⟩ => ⟨n, same ▸ mem⟩, fun ⟨n, mem⟩ => ⟨(n, target), mem, rfl⟩⟩

theorem takes_meetName {n : Name} (notVar : p.isVar n = false) (isFree : p.isFree n = true) (target : Name) :
    p.Takes (· = n) (Capture.meetName n target) := by
  intro c c' walked
  unfold Capture.meetName at walked
  have exprs : ∀ v, (v = n ∧ p.isVar v = true) ↔ False := by
    intro v
    refine iff_false_intro ?_
    rintro ⟨rfl, other⟩
    rw [notVar] at other
    cases other
  split at walked
  · rename_i known found
    split at walked
    · cases walked
      refine ⟨fun v => by rw [exprs, or_false], fun m => ⟨.inl, ?_⟩, id⟩
      rintro (held | ⟨rfl, _⟩)
      · exact held
      · rw [OrdMap.contains, found]
        rfl
    · cases walked
  · split at walked
    · cases walked
    · rename_i unused
      cases walked
      refine ⟨fun v => by rw [exprs, or_false], fun m => ?_, fun injective => ?_⟩
      · rw [contains_insert, or_comm]
        exact or_congr_right ⟨fun same => ⟨same, same ▸ notVar, same ▸ isFree⟩, And.left⟩
      · intro m k used first second
        rw [OrdMap.get?_insert] at first second
        -- The target is new, so that no other name stands for it.
        split at first <;> split at second
        · rename_i left right
          rw [left, right]
        · cases first
          exact absurd (mem_values.mpr ⟨k, second⟩) unused
        · cases second
          exact absurd (mem_values.mpr ⟨m, first⟩) unused
        · exact injective m k used first second

theorem takes_name (n target : Name) : p.Takes (· = n) (p.onName n target) := by
  unfold onName
  intro c c' walked
  split at walked
  · rename_i isVar
    exact takes_meet isVar _ c c' walked
  · rename_i notVar
    split at walked
    · rename_i isFree
      exact takes_meetName (Bool.eq_false_iff.mpr notVar) isFree target c c' walked
    · rename_i bound
      split at walked
      · cases walked
        refine ⟨fun v => ⟨.inl, ?_⟩, fun m => ⟨.inl, ?_⟩, id⟩
        · rintro (held | ⟨rfl, isVar⟩)
          · exact held
          · exact absurd isVar notVar
        · rintro (held | ⟨rfl, _, isFree⟩)
          · exact held
          · exact absurd isFree bound
      · cases walked

theorem takes_name? : (n target : Option Name) → p.Takes (· ∈ n.toList) (p.onName? n target)
  | none, none => takes_some.congr fun n => by simp
  | some n, some target => (takes_name n target).congr fun m => by simp [eq_comm]
  | none, some _ | some _, none => takes_none _

mutual

theorem takes_binder : (b t : Binder) → p.Takes (· ∈ b.names) (p.onBinder b t)
  | .wildcard, t => by
    cases t with
    | wildcard => exact takes_some.congr fun n => by simp [Binder.names]
    | _ => exact takes_none _
  | .name n, t => by
    cases t with
    | name target => exact (takes_name n target).congr fun m => by simp [Binder.names]
    | _ => exact takes_none _
  | .tuple parts, t => by
    cases t with
    | tuple targets => exact takes_binders parts targets
    | _ => exact takes_none _

theorem takes_binders : (bs ts : List Binder) → p.Takes (· ∈ Binder.namesAll bs) (p.onBinders bs ts)
  | [], [] => takes_some.congr fun n => by simp [Binder.namesAll]
  | b :: rest, t :: targets =>
    ((takes_binder b t).bind (takes_binders rest targets)).congr fun n => by simp [Binder.namesAll]
  | [], _ :: _ | _ :: _, [] => takes_none _

end

theorem Takes.parts {e : Expr} (takes : p.Takes (fun n => ∃ part ∈ e.children, n ∈ part.mentions) step)
    (parts : e.onlyParts = true) : p.Takes (· ∈ e.mentions) step :=
  takes.congr fun _ => (Expr.mem_mentions_of_onlyParts parts).symm

mutual

theorem takes_expr : (e t : Expr) → p.Takes (· ∈ e.mentions) (p.onExpr e t)
  | .var node n, t => by
    have own : ∀ m, m = n ↔ m ∈ (Expr.var node n).mentions := by
      intro m
      rw [Expr.mem_mentions]
      simp [Expr.reads, Expr.binds, Expr.children]
    intro c c' walked
    by_cases isVar : p.isVar n = true
    · exact (takes_meet isVar t).congr own c c' ((if_pos isVar).symm.trans walked)
    · replace walked := (if_neg isVar).symm.trans walked
      cases t with
      | var _ target => exact (takes_name n target).congr own c c' walked
      | _ => cases walked
  | .lit .., t | .const .., t => by
    cases t <;> first
      | exact takes_none _
      | exact (takes_some.when.congr fun n => by simp [Expr.children]).parts rfl
  | .unary _ _ _ x, t => by
    cases t with
    | unary _ _ _ x' => exact ((takes_expr x x').when.congr fun n => by simp [Expr.children]).parts rfl
    | _ => exact takes_none _
  | .binary _ _ _ x y, t | .index _ x y, t => by
    have both := fun x' y' => (takes_expr x x').bind (takes_expr y y')
    cases t <;> first
      | exact takes_none _
      | exact ((both _ _).when.congr fun n => by simp [Expr.children]).parts rfl
      | exact ((both _ _).congr fun n => by simp [Expr.children]).parts rfl
  | .ternary _ _ _ x y z, t | .cond _ x y z, t => by
    have all := fun x' y' z' => (takes_expr x x').bind ((takes_expr y y').bind (takes_expr z z'))
    cases t <;> first
      | exact takes_none _
      | exact ((all _ _ _).when.congr fun n => by simp [Expr.children]).parts rfl
      | exact ((all _ _ _).congr fun n => by simp [Expr.children]).parts rfl
  | .nary _ _ _ args, t | .compare _ _ args, t => by
    cases t <;> first
      | exact takes_none _
      | exact (takes_exprs args _).when.parts rfl
  | .call _ _ _ args kwargs, t | .context _ _ args kwargs, t => by
    have all := fun args' kwargs' => (takes_exprs args args').bind (takes_keyed kwargs kwargs')
    cases t <;> first
      | exact takes_none _
      | exact ((all _ _).when.congr fun n => by simp [Expr.children, or_and_right, exists_or]).parts rfl
  | .tuple _ args, t | .list _ args, t => by
    cases t <;> first
      | exact takes_none _
      | exact (takes_exprs args _).parts rfl
  | .comprehension node targets iterables elt, t => by
    cases t with
    | comprehension _ targets' iterables' elt' =>
      have all := (takes_exprs iterables iterables').bind ((takes_binders targets targets').bind (takes_expr elt elt'))
      refine all.congr fun n => ?_
      rw [Expr.mem_mentions (e := .comprehension node targets iterables elt)]
      simp [Expr.reads, Expr.binds, Expr.children, or_and_right, exists_or, or_left_comm]
    | _ => exact takes_none _
  | .slice _ x start stop, t => by
    cases t with
    | slice _ x' start' stop' =>
      have all := (takes_expr x x').bind ((takes_option start start').bind (takes_option stop stop'))
      exact (all.congr fun n => by simp [Expr.children, or_and_right, exists_or]).parts rfl
    | _ => exact takes_none _
  | .update _ x path y, t => by
    cases t with
    | update _ x' path' y' =>
      have all := (takes_expr x x').bind ((takes_exprs path path').bind (takes_expr y y'))
      exact (all.congr fun n => by simp [Expr.children, or_and_right, exists_or]).parts rfl
    | _ => exact takes_none _
termination_by structural e => e

theorem takes_exprs : (es ts : List Expr) → p.Takes (fun n => ∃ e ∈ es, n ∈ e.mentions) (p.onExprs es ts)
  | [], [] => takes_some.congr fun n => by simp
  | e :: rest, t :: targets => ((takes_expr e t).bind (takes_exprs rest targets)).congr fun n => by simp
  | [], _ :: _ | _ :: _, [] => takes_none _

theorem takes_keyed : (es ts : List (String × Expr)) →
    p.Takes (fun n => ∃ e ∈ es.map Prod.snd, n ∈ e.mentions) (p.onKeyed es ts)
  | [], [] => takes_some.congr fun n => by simp
  | (_, e) :: rest, (_, t) :: targets => ((takes_expr e t).bind (takes_keyed rest targets)).when.congr fun n => by simp
  | [], _ :: _ | _ :: _, [] => takes_none _

theorem takes_option : (e t : Option Expr) → p.Takes (fun n => ∃ part ∈ e.toList, n ∈ part.mentions) (p.onOption e t)
  | none, none => takes_some.congr fun n => by simp
  | some e, some t => (takes_expr e t).congr fun n => by simp
  | none, some _ | some _, none => takes_none _

end

open Stmt in
mutual

/-- Walking along a statement meets the names that the statements in it mention. -/
theorem takes_stmt : (s t : Stmt) → p.Takes (fun n => ∃ part ∈ s.all, n ∈ part.mentions) (p.onStmt s t)
  | .assign _ target _ value, t => by
    cases t with
    | assign _ target' _ value' =>
      refine ((takes_expr value value').bind (takes_binder target target')).when.congr fun n => ?_
      simp [exists_mentions, binds, reads, exprs, blocks, or_comm]
    | _ => exact takes_none _
  | .store _ name path value, t => by
    cases t with
    | store _ name' path' value' =>
      refine ((takes_exprs path path').bind ((takes_expr value value').bind (takes_name name name'))).congr fun n => ?_
      rw [← or_assoc, or_comm]
      simp [exists_mentions, binds, reads, exprs, blocks, or_and_right, exists_or]
    | _ => exact takes_none _
  | .when _ test body, t | .loop _ test body, t => by
    cases t <;> first
      | exact takes_none _
      | refine ((takes_expr test _).bind (takes_block body _)).congr fun n => ?_
        simp [exists_mentions, binds, reads, exprs, blocks]
  | .branch _ test ift iff, t => by
    cases t with
    | branch _ test' ift' iff' =>
      refine ((takes_expr test test').bind ((takes_block ift ift').bind (takes_block iff iff'))).congr fun n => ?_
      simp [exists_mentions, binds, reads, exprs, blocks, or_and_right, exists_or]
    | _ => exact takes_none _
  | .each _ target iterable body, t => by
    cases t with
    | each _ target' iterable' body' =>
      have steps := (takes_expr iterable iterable').bind ((takes_binder target target').bind (takes_block body body'))
      refine steps.congr fun n => or_left_comm.trans ?_
      simp [exists_mentions, binds, reads, exprs, blocks, or_assoc]
    | _ => exact takes_none _
  | .scope _ name ctx body, t => by
    cases t with
    | scope _ name' ctx' body' =>
      have steps := (takes_expr ctx ctx').bind ((takes_name? name name').bind (takes_block body body'))
      refine steps.congr fun n => or_left_comm.trans ?_
      simp [exists_mentions, binds, reads, exprs, blocks, or_assoc]
    | _ => exact takes_none _
  | .assert _ test msg, t => by
    cases t with
    | assert _ test' msg' =>
      refine ((takes_expr test test').bind (takes_option msg msg')).congr fun n => ?_
      simp [exists_mentions, binds, reads, exprs, blocks]
    | _ => exact takes_none _
  | .effect _ value, t | .ret _ value, t => by
    cases t <;> first
      | exact takes_none _
      | refine (takes_expr value _).congr fun n => ?_
        simp [exists_mentions, binds, reads, exprs, blocks]
  | .skip _, t => by
    cases t with
    | skip =>
      refine takes_some.congr fun n => ?_
      simp [exists_mentions, binds, reads, exprs, blocks]
    | _ => exact takes_none _

theorem takes_block : (b t : Block) → p.Takes (fun n => ∃ part ∈ b.all, n ∈ part.mentions) (p.onBlock b t)
  | ⟨_, ss⟩, ⟨_, ts⟩ => takes_stmts ss ts

theorem takes_stmts : (ss ts : List Stmt) →
    p.Takes (fun n => ∃ part ∈ Stmt.allOf ss, n ∈ part.mentions) (p.onStmts ss ts)
  | [], [] => takes_some.congr fun n => by simp [Stmt.allOf]
  | s :: rest, t :: targets => ((takes_stmt s t).bind (takes_stmts rest targets)).congr fun n => by
    simp [Stmt.allOf, or_and_right, exists_or]
  | [], _ :: _ | _ :: _, [] => takes_none _

end

end Pattern

end NumLang
