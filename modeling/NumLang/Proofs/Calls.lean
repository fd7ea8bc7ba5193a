import NumLang.Proofs.Fueled
import NumLang.Proofs.Reference

/-!
The reference evaluator with calls.
-/

namespace NumLang

variable {V : Type}

namespace Machine

variable (m : Machine V Unit)

def decided (x : Fueled V) : Fueled Bool := do .demand (m.truth (← x))

def put (target : Binder) (site : Site) (v : V) (σ : Store V) : Fueled (Store V) := do
  return σ.writeAll site (← .demand (m.writes target v).toOption)

mutual

def compute : Expr → Store V → Fueled V
  | .var _ name, σ => .demand (σ.value? name)
  | .lit _ value, _ => .demand (m.literal value)
  | .const _ op _, _ => .demand (m.apply () (.constant op) [])
  | .unary _ op _ arg, σ => do .demand (m.apply () (.unary op) [← compute arg σ])
  | .binary _ op _ lhs rhs, σ => do
    let lhs ← compute lhs σ
    let rhs ← compute rhs σ
    .demand (m.apply () (.binary op) [lhs, rhs])
  | .ternary _ op _ first second third, σ => do
    let first ← compute first σ
    let second ← compute second σ
    let third ← compute third σ
    .demand (m.apply () (.ternary op) [first, second, third])
  | .nary _ op _ args, σ => do .demand (m.apply () (.nary op) (← computeAll args σ))
  | .compare _ ops args, σ => do .demand (m.apply () (.compare ops) (← computeAll args σ))
  | .tuple _ elts, σ => do .demand (m.apply () .tuple (← computeAll elts σ))
  | .list _ elts, σ => do .demand (m.apply () .list (← computeAll elts σ))
  | .index _ value position, σ => do
    let value ← compute value σ
    let position ← compute position σ
    .demand (m.apply () .index [value, position])
  | .context _ ctor args [], σ => do .demand (m.apply () (.context ctor) (← computeAll args σ))
  | .cond _ test ift iff, σ => do if ← m.decided (compute test σ) then compute ift σ else compute iff σ
  | .call _ _ (some (.function f)) args [], σ => do call f (← computeAll args σ)
  | .context .., _ | .call .., _ | .comprehension .., _ | .slice .., _ | .update .., _ => .demand none

def computeAll : List Expr → Store V → Fueled (List V)
  | [], _ => return []
  | e :: rest, σ => do
    let first ← compute e σ
    let others ← computeAll rest σ
    return first :: others

def call : Func → List V → Fueled V
  | ⟨_, _, params, body, _, _, _, _, _⟩, args => do
    match ← performBlock body (← .demand (bindArgs params args ∅)) with
    | .ret v => return v
    | .next _ => .demand none

def perform : Stmt → Store V → Fueled (Ending V)
  | .assign node target _ value, σ => do return .next (← m.put target ⟨.stmt, node.id⟩ (← compute value σ) σ)
  | .store node name path value, σ => do
    let path ← computeAll path σ
    let value ← compute value σ
    let list ← .demand (σ.value? name)
    return .next (σ.writeAll ⟨.stmt, node.id⟩ [(name, ← .demand (m.replace list path value))])
  | .when _ test body, σ => do
    if ← m.decided (compute test σ) then performBlock body σ else return .next σ
  | .branch _ test ift iff, σ => do
    if ← m.decided (compute test σ) then performBlock ift σ else performBlock iff σ
  | .loop _ test body, σ => .repeatWhile (fun σ => m.decided (compute test σ)) (fun σ => performBlock body σ) σ
  | .each node target iterable body, σ => do
    let elements ← .demand (m.elements (← compute iterable σ))
    Fueled.forEach (fun v σ => do performBlock body (← m.put target ⟨.stmt, node.id⟩ v σ)) elements σ
  | .scope _ none _ body, σ => performBlock body σ
  | .scope _ (some _) _ _, _ => .demand none
  | .assert _ test _, σ => do if ← m.decided (compute test σ) then return .next σ else .demand none
  | .effect _ value, σ => do
    let _ ← compute value σ
    return .next σ
  | .ret _ value, σ => do return .ret (← compute value σ)
  | .skip _, σ => return .next σ

def performBlock : Block → Store V → Fueled (Ending V)
  | ⟨_, stmts⟩, σ => performAll stmts σ

def performAll : List Stmt → Store V → Fueled (Ending V)
  | [], σ => return .next σ
  | s :: rest, σ => (perform s σ).follow fun σ => performAll rest σ

end

variable {m}

theorem gives_call {f : Func} :
    (m.call f args).Gives cost v ↔ ∃ σ, bindArgs f.params args ∅ = some σ ∧ (m.performBlock f.body σ).Gives cost (.ret
    v) := by
  obtain ⟨_, _, params, body, _, _, _, _, _⟩ := f
  unfold call
  constructor
  · intro given
    obtain ⟨_, _, σ, rfl, bound, rest⟩ := Fueled.gives_bind.mp given
    obtain ⟨rfl, started⟩ := Fueled.gives_demand.mp bound
    obtain ⟨taken, _, r, rfl, performed, result⟩ := Fueled.gives_bind.mp rest
    cases r with
    | next => nomatch (Fueled.gives_demand.mp result).2
    | ret w =>
      obtain ⟨rfl, rfl⟩ := Fueled.gives_pure.mp result
      rw [Nat.zero_add]
      exact ⟨σ, started, performed⟩
  · rintro ⟨σ, bound, performed⟩
    refine Fueled.gives_bind.mpr ⟨0, cost, σ, (Nat.zero_add cost).symm, Fueled.gives_demand.mpr ⟨rfl, bound⟩, ?_⟩
    exact Fueled.gives_bind.mpr ⟨cost, 0, .ret v, rfl, performed, Fueled.gives_pure.mpr ⟨rfl, rfl⟩⟩

end Machine

namespace Calls

/-- The value that a function returns for the given arguments. Free names hold nothing. -/
def run (f : Func) (args : List Value) : Option Value :=
  ((Machine.reference.call f args).run Reference.fuel).map Prod.fst

end Calls

end NumLang
