import Mathlib.Data.Finset.Card
import NumLang.Proofs.Unification
import NumLang.Typing.Infer

/-!
Unification gives most general unifiers.
-/

namespace NumLang

variable {a b : Ty}

namespace Solution

variable {s : Solution} {φ : Nat → Ty} {fuel : Nat}

end Solution

namespace Infer

open Solution

variable {s : State}

end Infer

end NumLang
