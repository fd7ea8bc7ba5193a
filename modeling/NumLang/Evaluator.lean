import NumLang.Flow.Contexts

/-!
Evaluation of operators on known values. What an operator gives depends on the rounding context in force; an
evaluator answers only where it knows the value.
-/

namespace NumLang

/-- Values of operators and comparisons in a rounding context, where they are known. -/
structure Evaluator where
  apply : Operator → List HostValue → ContextTag → Option HostValue
  compare : List Relation → List HostValue → ContextTag → Option Bool

namespace Exact

def truncate (a : Rat) : Rat := if a < 0 then a.ceil else a.floor

def roundHalfAway (a : Rat) : Rat := if a < 0 then (a - mkRat 1 2).ceil else (a + mkRat 1 2).floor

def natPower (a : Rat) : Nat → Rat
  | 0 => 1
  | n + 1 => natPower a n * a

def maxExponent : Nat := 64

def power? (a b : Rat) : Option Rat :=
  if b.den ≠ 1 || maxExponent < b.num.natAbs then none
  else if 0 ≤ b.num then some (natPower a b.num.natAbs)
  else if a = 0 then none
  else some (natPower a b.num.natAbs)⁻¹

def unary? (a : Rat) : UnaryOp → Option Rat
  | .neg => some (-a)
  | .fabs => some (if a < 0 then -a else a)
  | .ceil => some a.ceil
  | .floor => some a.floor
  | .trunc => some (truncate a)
  | .round => some (roundHalfAway a)
  | _ => none

def binary? (a b : Rat) : BinaryOp → Option Rat
  | .add => some (a + b)
  | .sub => some (a - b)
  | .mul => some (a * b)
  | .div => if b = 0 then none else some (a / b)
  | .fmax => some (if a ≤ b then b else a)
  | .fmin => some (if a ≤ b then a else b)
  | .fdim => some (if b < a then a - b else 0)
  | .copysign =>
    let size := if a < 0 then -a else a
    some (if b < 0 then -size else size)
  | .fmod => if b = 0 then none else some (a - b * truncate (a / b))
  | .pow => power? a b
  | _ => none

def arithmetic? : Operator → List Rat → Option Rat
  | .unary op, [a] => unary? a op
  | .binary op, [a, b] => binary? a b op
  | .ternary .fma, [a, b, c] => some (a * b + c)
  | .nary .min, a :: rest => some (rest.foldl (fun a b => if a ≤ b then a else b) a)
  | .nary .max, a :: rest => some (rest.foldl (fun a b => if a ≤ b then b else a) a)
  | _, _ => none

def isExact (tag : ContextTag) : Bool := tag = .known .real

def value? (op : Operator) (args : List HostValue) (tag : ContextTag) : Option HostValue :=
  match op with
  | .unary .not =>
    match args with
    | [.bool b] => some (.bool !b)
    | _ => none
  | .nary .and => do return .bool ((← args.mapM HostValue.asBool?).all id)
  | .nary .or => do return .bool ((← args.mapM HostValue.asBool?).any id)
  | _ => if isExact tag then do return .number (← arithmetic? op (← args.mapM HostValue.asNumber?)) else none

def holds (a b : Rat) : Relation → Bool
  | .lt => a < b
  | .le => a ≤ b
  | .ge => b ≤ a
  | .gt => b < a
  | .eq => a = b
  | .ne => a ≠ b

def related? (tag : ContextTag) (r : Relation) : HostValue → HostValue → Option Bool
  | .bool a, .bool b =>
    match r with
    | .eq => some (a = b)
    | .ne => some (a ≠ b)
    | _ => none
  | .number a, .number b => if isExact tag then some (holds a b r) else none
  | _, _ => none

def compare? : List Relation → List HostValue → ContextTag → Option Bool
  | [], [_], _ => some true
  | r :: ops, a :: b :: rest, tag => do
    let first ← related? tag r a b
    let others ← compare? ops (b :: rest) tag
    return first && others
  | _, _, _ => none

end Exact

namespace Evaluator

def exact : Evaluator := ⟨Exact.value?, Exact.compare?⟩

def constant (value : Option HostValue) (truth : Option Bool) : Evaluator :=
  ⟨fun _ _ _ => value, fun _ _ _ => truth⟩

end Evaluator

end NumLang
