import NumLang.HostValue
import NumLang.Operator

/-!
The values that programs compute with, and what the operators of the language do to them.
-/

namespace NumLang

/-- What a name may hold while a program runs. -/
inductive Value where
  | number (r : Rat)
  | bool (b : Bool)
  | context (c : Context)
  | mode (rm : RoundingMode)
  | object (name : String)
  | tuple (elts : List Value)
  | list (elts : List Value)
deriving Repr, Inhabited

namespace Value

mutual

def same : Value → Value → Bool
  | .number a, .number b => a = b
  | .bool a, .bool b => a = b
  | .context a, .context b => a = b
  | .mode a, .mode b => a = b
  | .object a, .object b => a = b
  | .tuple as, .tuple bs => sameAll as bs
  | .list as, .list bs => sameAll as bs
  | _, _ => false

def sameAll : List Value → List Value → Bool
  | [], [] => true
  | a :: as, b :: bs => a.same b && sameAll as bs
  | _, _ => false

end

mutual

theorem same_iff (a b : Value) : a.same b = true ↔ a = b := by
  cases a <;> cases b <;> simp [same, sameAll_iff]

theorem sameAll_iff (as bs : List Value) : sameAll as bs = true ↔ as = bs := by
  cases as <;> cases bs <;> simp [sameAll, same_iff, sameAll_iff]

end

instance : DecidableEq Value := fun a b => decidable_of_iff _ (same_iff a b)

mutual

def ofHost : HostValue → Value
  | .bool b => .bool b
  | .number r => .number r
  | .context c => .context c
  | .mode rm => .mode rm
  | .tuple elts => .tuple (ofHosts elts)
  | .object name => .object name

def ofHosts : List HostValue → List Value
  | [] => []
  | v :: rest => ofHost v :: ofHosts rest

end

def asNumber? : Value → Option Rat
  | .number r => some r
  | _ => none

def asBool? : Value → Option Bool
  | .bool b => some b
  | _ => none

def asContext? : Value → Option Context
  | .context c => some c
  | _ => none

def asList? : Value → Option (List Value)
  | .list elts => some elts
  | _ => none

def asArg? : Value → Option Context.Arg
  | .bool b => some (.bool b)
  | .mode rm => some (.mode rm)
  | .number r => if r.den = 1 then some (.int r.num) else none
  | _ => none

end Value

/-- A form of expression that has its value from the values of its parts. -/
inductive Form where
  | constant (op : Constant)
  | unary (op : UnaryOp)
  | binary (op : BinaryOp)
  | ternary (op : TernaryOp)
  | nary (op : NaryOp)
  | compare (ops : List Relation)
  | tuple
  | list
  | index
  | context (ctor : String)
deriving DecidableEq, Repr, Inhabited

namespace Form

def arithmetic? : Form → List Rat → Option Rat
  | .unary .neg, [a] => some (-a)
  | .unary .fabs, [a] => some (if a < 0 then -a else a)
  | .binary .add, [a, b] => some (a + b)
  | .binary .sub, [a, b] => some (a - b)
  | .binary .mul, [a, b] => some (a * b)
  | .binary .div, [a, b] => if b = 0 then none else some (a / b)
  | .binary .fmin, [a, b] => some (if a ≤ b then a else b)
  | .binary .fmax, [a, b] => some (if a ≤ b then b else a)
  | .ternary .fma, [a, b, c] => some (a * b + c)
  | .nary .min, a :: rest => some (rest.foldl (fun a b => if a ≤ b then a else b) a)
  | .nary .max, a :: rest => some (rest.foldl (fun a b => if a ≤ b then b else a) a)
  | _, _ => none

/-- Whether a relation holds between two values. Only numbers are ordered. -/
def related? : Relation → Value → Value → Option Bool
  | .eq, a, b => some (a = b)
  | .ne, a, b => some (a ≠ b)
  | .lt, .number a, .number b => some (a < b)
  | .le, .number a, .number b => some (a ≤ b)
  | .gt, .number a, .number b => some (b < a)
  | .ge, .number a, .number b => some (b ≤ a)
  | _, _, _ => none

def compared? : List Relation → List Value → Option Bool
  | r :: ops, a :: b :: rest => do
    let first ← related? r a b
    let others ← compared? ops (b :: rest)
    return first && others
  | _, _ => some true

/-- The value of an operator on values; what arithmetic gives is rounded. -/
def operate? (round : Rat → Rat) (form : Form) (args : List Value) : Option Value :=
  match form with
  | .unary .not =>
    match args with
    | [.bool b] => some (.bool !b)
    | _ => none
  | .nary .and => do return .bool ((← args.mapM Value.asBool?).all id)
  | .nary .or => do return .bool ((← args.mapM Value.asBool?).any id)
  | .compare ops => do return .bool (← compared? ops args)
  | form => do return .number (round (← arithmetic? form (← args.mapM Value.asNumber?)))

end Form

end NumLang
