/-!
The operators of the language by number of operands, each with the name it is called by, and the order relations that
comparisons are made of.
-/

namespace NumLang

/-- The mathematical constants. -/
inductive Constant where
  | nan | inf | pi | e | log2e | log10e | ln2 | halfPi | quarterPi | invPi | twoInvPi | twoInvSqrtPi
  | sqrt2 | sqrtHalf
deriving DecidableEq, Repr, Inhabited

namespace Constant

def all : List Constant :=
  [.nan, .inf, .pi, .e, .log2e, .log10e, .ln2, .halfPi, .quarterPi, .invPi, .twoInvPi, .twoInvSqrtPi,
    .sqrt2, .sqrtHalf]

def name : Constant → String
  | .nan => "NAN"
  | .inf => "INF"
  | .pi => "PI"
  | .e => "E"
  | .log2e => "LOG2E"
  | .log10e => "LOG10E"
  | .ln2 => "LN2"
  | .halfPi => "PI2"
  | .quarterPi => "PI4"
  | .invPi => "M_1_PI"
  | .twoInvPi => "M_2_PI"
  | .twoInvSqrtPi => "M_2_SQRTPI"
  | .sqrt2 => "SQRT2"
  | .sqrtHalf => "SQRT1_2"

def ofName? (s : String) : Option Constant := all.find? (·.name == s)

end Constant

/-- Operators on one operand. -/
inductive UnaryOp where
  | neg | not | fabs | sqrt | cbrt | ceil | floor | nearbyint | round | trunc | acos | asin | atan | cos
  | sin | tan | acosh | asinh | atanh | cosh | sinh | tanh | exp | exp2 | expm1 | log | log10 | log1p
  | log2 | erf | erfc | lgamma | tgamma | isfinite | isinf | isnan | isnormal | signbit | cast | range
  | len | dim | sum | enumerate
deriving DecidableEq, Repr, Inhabited

namespace UnaryOp

def all : List UnaryOp :=
  [.neg, .not, .fabs, .sqrt, .cbrt, .ceil, .floor, .nearbyint, .round, .trunc, .acos, .asin, .atan,
    .cos, .sin, .tan, .acosh, .asinh, .atanh, .cosh, .sinh, .tanh, .exp, .exp2, .expm1, .log, .log10,
    .log1p, .log2, .erf, .erfc, .lgamma, .tgamma, .isfinite, .isinf, .isnan, .isnormal, .signbit, .cast,
    .range, .len, .dim, .sum, .enumerate]

def name : UnaryOp → String
  | .neg => "neg"
  | .not => "not"
  | .fabs => "fabs"
  | .sqrt => "sqrt"
  | .cbrt => "cbrt"
  | .ceil => "ceil"
  | .floor => "floor"
  | .nearbyint => "nearbyint"
  | .round => "round"
  | .trunc => "trunc"
  | .acos => "acos"
  | .asin => "asin"
  | .atan => "atan"
  | .cos => "cos"
  | .sin => "sin"
  | .tan => "tan"
  | .acosh => "acosh"
  | .asinh => "asinh"
  | .atanh => "atanh"
  | .cosh => "cosh"
  | .sinh => "sinh"
  | .tanh => "tanh"
  | .exp => "exp"
  | .exp2 => "exp2"
  | .expm1 => "expm1"
  | .log => "log"
  | .log10 => "log10"
  | .log1p => "log1p"
  | .log2 => "log2"
  | .erf => "erf"
  | .erfc => "erfc"
  | .lgamma => "lgamma"
  | .tgamma => "tgamma"
  | .isfinite => "isfinite"
  | .isinf => "isinf"
  | .isnan => "isnan"
  | .isnormal => "isnormal"
  | .signbit => "signbit"
  | .cast => "cast"
  | .range => "range"
  | .len => "len"
  | .dim => "dim"
  | .sum => "sum"
  | .enumerate => "enumerate"

def ofName? (s : String) : Option UnaryOp := all.find? (·.name == s)

end UnaryOp

/-- Operators on two operands. -/
inductive BinaryOp where
  | add | sub | mul | div | copysign | fdim | fmax | fmin | fmod | remainder | hypot | atan2 | pow
  | size | range
deriving DecidableEq, Repr, Inhabited

namespace BinaryOp

def all : List BinaryOp :=
  [.add, .sub, .mul, .div, .copysign, .fdim, .fmax, .fmin, .fmod, .remainder, .hypot, .atan2, .pow,
    .size, .range]

def name : BinaryOp → String
  | .add => "add"
  | .sub => "sub"
  | .mul => "mul"
  | .div => "div"
  | .copysign => "copysign"
  | .fdim => "fdim"
  | .fmax => "fmax"
  | .fmin => "fmin"
  | .fmod => "fmod"
  | .remainder => "remainder"
  | .hypot => "hypot"
  | .atan2 => "atan2"
  | .pow => "pow"
  | .size => "size"
  | .range => "range"

def ofName? (s : String) : Option BinaryOp := all.find? (·.name == s)

end BinaryOp

/-- Operators on three operands. -/
inductive TernaryOp where
  | fma | range
deriving DecidableEq, Repr, Inhabited

namespace TernaryOp

def all : List TernaryOp :=
  [.fma, .range]

def name : TernaryOp → String
  | .fma => "fma"
  | .range => "range"

def ofName? (s : String) : Option TernaryOp := all.find? (·.name == s)

end TernaryOp

/-- Operators on any number of operands. -/
inductive NaryOp where
  | and | or | zip | min | max | empty
deriving DecidableEq, Repr, Inhabited

namespace NaryOp

def all : List NaryOp :=
  [.and, .or, .zip, .min, .max, .empty]

def name : NaryOp → String
  | .and => "and"
  | .or => "or"
  | .zip => "zip"
  | .min => "min"
  | .max => "max"
  | .empty => "empty"

def ofName? (s : String) : Option NaryOp := all.find? (·.name == s)

end NaryOp

/-- The relations between consecutive operands of a comparison. -/
inductive Relation where
  | lt | le | ge | gt | eq | ne
deriving DecidableEq, Repr, Inhabited

namespace Relation

def all : List Relation :=
  [.lt, .le, .ge, .gt, .eq, .ne]

def symbol : Relation → String
  | .lt => "<"
  | .le => "<="
  | .ge => ">="
  | .gt => ">"
  | .eq => "=="
  | .ne => "!="

def ofSymbol? (s : String) : Option Relation := all.find? (·.symbol == s)

def isEquality : Relation → Bool
  | .eq | .ne => true
  | _ => false

end Relation

/-- An operator with its number of operands. Of the constants, none is told from another. -/
inductive Operator where
  | constant
  | unary (op : UnaryOp)
  | binary (op : BinaryOp)
  | ternary (op : TernaryOp)
  | nary (op : NaryOp)
deriving DecidableEq, Repr, Inhabited

end NumLang
