import NumLang.Proofs.Grounded

/-!
Where the value of a definition comes from. Joins take over the values of both sides and copies that of their variable,
so every definition goes back to some that are neither.
-/

open Relation (ReflTransGen)

namespace NumLang

namespace StaticView

open Flow Reaching

/-- A definition is a copy of the variable at a node: `x = y`, or `y as x`. -/
def Copies (f : Func) (u : Uses) (d : DefId) (node : Node) : Prop :=
  ∃ n s prev x, u.reach.def? d = some (.assign n ⟨.stmt, s.id⟩ prev) ∧ s ∈ f.body.all ∧ s.source? = some (.var node x)

variable {f : Func} {u : Uses} {notes : Flow.Notes} (resolved : Uses.Resolved f u notes) {d e leaf : DefId} {c : Context}

include resolved

end StaticView

open StaticView

end NumLang
