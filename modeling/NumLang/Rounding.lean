import NumLang.Numeral

/-!
Rounding modes and rounding contexts: under which precision, range and rounding mode arithmetic is carried out.
-/

namespace NumLang

inductive RoundingMode where
  /-- To nearest, ties to even. -/
  | rne
  /-- To nearest, ties away from zero. -/
  | rna
  /-- Toward positive infinity. -/
  | rtp
  /-- Toward negative infinity. -/
  | rtn
  /-- Toward zero. -/
  | rtz
  /-- Away from zero. -/
  | raz
  /-- To odd. -/
  | rto
  /-- To even. -/
  | rte
deriving DecidableEq, Repr, Inhabited, Ord

namespace RoundingMode

def all : List RoundingMode := [.rne, .rna, .rtp, .rtn, .rtz, .raz, .rto, .rte]

def text : RoundingMode → String
  | .rne => "RNE"
  | .rna => "RNA"
  | .rtp => "RTP"
  | .rtn => "RTN"
  | .rtz => "RTZ"
  | .raz => "RAZ"
  | .rto => "RTO"
  | .rte => "RTE"

def ofText? (s : String) : Option RoundingMode := all.find? (·.text == s)

end RoundingMode

/-- A rounding context that is known before the program runs. -/
inductive Context where
  /-- Exact arithmetic: nothing is rounded. -/
  | real
  /-- A binary interchange format: exponent width, total width. -/
  | ieee (es nbits : Nat) (rm : RoundingMode)
  /-- Floating point with `prec` digits and unbounded exponent. -/
  | mpFloat (prec : Nat) (rm : RoundingMode)
  /-- Unbounded fixed point; `nmin` is the first digit that is not kept. -/
  | mpFixed (nmin : Int) (rm : RoundingMode)
  /-- Bounded fixed point. -/
  | fixed (signed : Bool) (scale : Int) (nbits : Nat) (rm : RoundingMode)
deriving DecidableEq, Repr, Inhabited, Ord

namespace Context

def fp64 : Context := .ieee 11 64 .rne
def fp32 : Context := .ieee 8 32 .rne

def isReal : Context → Bool
  | .real => true
  | _ => false

def ctor : Context → String
  | .real => "RealContext"
  | .ieee .. => "IEEEContext"
  | .mpFloat .. => "MPFloatContext"
  | .mpFixed .. => "MPFixedContext"
  | .fixed .. => "FixedContext"

def truthText (b : Bool) : String := if b then "True" else "False"

def argTexts : Context → List String
  | .real => []
  | .ieee es nbits rm => [toString es, toString nbits, rm.text]
  | .mpFloat prec rm => [toString prec, rm.text]
  | .mpFixed nmin rm => [toString nmin, rm.text]
  | .fixed signed scale nbits rm => [truthText signed, toString scale, toString nbits, rm.text]

def text (c : Context) : String := c.ctor ++ "(" ++ ", ".intercalate c.argTexts ++ ")"

/-- An argument of a context constructor. -/
inductive Arg where
  | int (n : Int)
  | bool (b : Bool)
  | mode (rm : RoundingMode)
deriving DecidableEq, Repr, Inhabited

def width? (n : Int) : Option Nat := if 0 ≤ n ∧ n < 0x100000000 then some n.toNat else none

def position? (n : Int) : Option Int := if Numeral.isSigned64 n then some n else none

/-- The rounding mode that may follow the other arguments: ties to even where it is left out. -/
def mode? : List Arg → Option RoundingMode
  | [] => some .rne
  | [.mode rm] => some rm
  | _ => none

def build? (ctor : String) (args : List Arg) : Option Context :=
  match ctor, args with
  | "RealContext", [] => some .real
  | "IEEEContext", .int es :: .int nbits :: rest => do
    return .ieee (← width? es) (← width? nbits) (← mode? rest)
  | "MPFloatContext", .int prec :: rest => do return .mpFloat (← width? prec) (← mode? rest)
  | "MPFixedContext", .int nmin :: rest => do return .mpFixed (← position? nmin) (← mode? rest)
  | "FixedContext", .bool signed :: .int scale :: .int nbits :: rest => do
    return .fixed signed (← position? scale) (← width? nbits) (← mode? rest)
  | _, _ => none

end Context

end NumLang
