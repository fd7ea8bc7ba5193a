import NumLang.Text.Blank

/-!
Numerals: the exact rational value of a decimal text, of a hexadecimal text, of a fraction and of a significand with
base and exponent.
-/

namespace NumLang.Numeral

def exponentLimit : Nat := 0x8000000000000000

def scaleLimit : Nat := 0x100000000

def isSigned64 (n : Int) : Bool := -(exponentLimit : Int) ≤ n && n < (exponentLimit : Int)

def scaled? (m : Int) (base : Nat) (e : Int) : Option Rat :=
  if e.natAbs < scaleLimit then
    let scale := Nat.pow base e.natAbs
    if 0 ≤ e then some ((m * scale : Int) : Rat) else some ((m : Rat) / (scale : Rat))
  else none

def splitFirst (p : Char → Bool) : List Char → List Char × Option (List Char)
  | [] => ([], none)
  | c :: rest =>
    if p c then ([], some rest)
    else
      let parts := splitFirst p rest
      (c :: parts.1, parts.2)

def splitSign : List Char → Bool × List Char
  | '-' :: rest => (true, rest)
  | '+' :: rest => (false, rest)
  | cs => (false, cs)

def isDigit (c : Char) : Bool := '0' ≤ c && c ≤ '9'

def hexDigit? (c : Char) : Option Nat :=
  if isDigit c then some (c.toNat - '0'.toNat)
  else if 'a' ≤ c && c ≤ 'f' then some (c.toNat - 'a'.toNat + 10)
  else if 'A' ≤ c && c ≤ 'F' then some (c.toNat - 'A'.toNat + 10)
  else none

def ofDigitChars (cs : List Char) : Nat := cs.foldl (fun n c => n * 10 + (c.toNat - '0'.toNat)) 0

def hexDigits? (acc : Nat) : List Char → Option Nat
  | [] => some acc
  | '_' :: rest => hexDigits? acc rest
  | c :: rest => do hexDigits? (acc * 16 + (← hexDigit? c)) rest

/-- Reads a hexadecimal integer: an optional sign, then digits; an underscore may not come first. -/
def hexInteger? (cs : List Char) : Option Int :=
  let (negative, digits) := splitSign cs
  match digits with
  | [] => none
  | '_' :: _ => none
  | _ => (hexDigits? 0 digits).map fun n => if negative then -(n : Int) else n

def exponent? (cs : List Char) : Option Int :=
  let (negative, digits) := splitSign cs
  if digits.isEmpty || !digits.all isDigit then none
  else
    let n : Int := if negative then -(ofDigitChars digits : Int) else ofDigitChars digits
    if isSigned64 n then some n else none

def exponentPart? : Option (List Char) → Option Int
  | none => some 0
  | some cs => exponent? cs

def withSign (negative : Bool) (value : Rat) : Rat := if negative then -value else value

def decimal? (text : String) : Option Rat := do
  let (negative, unsigned) := splitSign (Text.trim text.toList)
  let (mantissa, tail) := splitFirst (fun c => c == 'e' || c == 'E') unsigned
  let e ← exponentPart? tail
  let (whole, fraction) := splitFirst (· == '.') mantissa
  let digits := whole ++ fraction.getD []
  if digits.isEmpty || !digits.all isDigit then none
  else (scaled? (ofDigitChars digits) 10 (e - (fraction.getD []).length)).map (withSign negative)

def hexadecimal? (text : String) : Option Rat := do
  let (negative, unsigned) := splitSign (Text.trim text.toList)
  let body ← match unsigned with
    | '0' :: 'x' :: rest => some rest
    | '0' :: 'X' :: rest => some rest
    | _ => none
  let (mantissa, tail) := splitFirst (fun c => c == 'p' || c == 'P') body
  let e ← exponentPart? tail
  let (whole, fraction) := splitFirst (· == '.') mantissa
  let m ← hexInteger? (whole ++ fraction.getD [])
  (scaled? m 2 (e - 4 * (fraction.getD []).length)).map (withSign negative)

def fraction? (p q : Int) : Option Rat := if q = 0 then none else some ((p : Rat) / (q : Rat))

def digits? (m e b : Int) : Option Rat :=
  if b ≤ 0 || !isSigned64 e then none else scaled? m b.toNat e

def text (r : Rat) : String :=
  if r.den = 1 then toString r.num else s!"rational({r.num}, {r.den})"

end NumLang.Numeral
