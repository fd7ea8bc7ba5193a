import Mathlib.Algebra.Order.Ring.Unbundled.Rat
import Mathlib.Tactic.NormNum
import NumLang.Numeral

/-!
Decimal numerals: exactly the texts of a grammar are read, each as its exact value.
-/

namespace NumLang.Numeral

variable {cs sign front : List Char} {rest : Option (List Char)} {σ e : Int} {p : Char → Bool}

end NumLang.Numeral
