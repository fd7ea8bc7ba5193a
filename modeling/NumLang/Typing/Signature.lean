import NumLang.Operator
import NumLang.Typing.Unify

/-!
Types of operators. A signature may hold variables, numbered from zero, that stand for any types.
-/

namespace NumLang

/-- The types that an operator takes and gives, with `vars` variables in them. -/
structure Signature where
  vars : Nat := 0
  params : List Ty
  ret : Ty
deriving Repr, Inhabited

namespace Signature

def subst (f : Nat → Ty) (s : Signature) : Signature where
  params := Ty.substAll f s.params
  ret := s.ret.subst f

def toTy (s : Signature) : Ty := .function s.params s.ret

def param (s : Signature) (i : Nat) : Ty := (s.params[i]?).getD s.ret

def ofReals (n : Nat) (ret : Ty) : Signature := { params := List.replicate n .real, ret := ret }

end Signature

def UnaryOp.signature : UnaryOp → Signature
  | .not => { params := [.bool], ret := .bool }
  | .isfinite | .isinf | .isnan | .isnormal | .signbit => .ofReals 1 .bool
  | .range => .ofReals 1 (.list .real)
  | .len | .dim => { vars := 1, params := [.list (.var 0)], ret := .real }
  | .sum => { params := [.list .real], ret := .real }
  | .enumerate => { vars := 1, params := [.list (.var 0)], ret := .list (.tuple [.real, .var 0]) }
  | _ => .ofReals 1 .real

def BinaryOp.signature : BinaryOp → Signature
  | .size => { vars := 1, params := [.list (.var 0), .real], ret := .real }
  | .range => .ofReals 2 (.list .real)
  | _ => .ofReals 2 .real

def TernaryOp.signature : TernaryOp → Signature
  | .fma => .ofReals 3 .real
  | .range => .ofReals 3 (.list .real)

def Ty.nested (t : Ty) : (depth : Nat) → Ty
  | 0 => t
  | depth + 1 => .list (t.nested depth)

/-- The signature for a number of operands. There is no least and no greatest of no numbers. -/
def NaryOp.signature? (arity : Nat) : NaryOp → Option Signature
  | .and | .or => some { params := List.replicate arity .bool, ret := .bool }
  | .min | .max => if 0 < arity then some (.ofReals arity .real) else none
  | .zip =>
    let elts := (List.range arity).map Ty.var
    some { vars := arity, params := elts.map Ty.list, ret := .list (.tuple elts) }
  | .empty => some { vars := 1, params := List.replicate arity .real, ret := (Ty.var 0).nested arity }

/-- The signature of an operator; only one that takes any number of operands depends on `arity`. -/
def Operator.signature? (arity : Nat) : Operator → Option Signature
  | .constant => some (.ofReals 0 .real)
  | .unary op => some op.signature
  | .binary op => some op.signature
  | .ternary op => some op.signature
  | .nary op => op.signature? arity

end NumLang
