import NumLang.Annotation
import NumLang.Ordered.Set

/-!
Types of values: truth values, real numbers, rounding contexts, tuples, lists, functions, and variables for types that
are not yet known.
-/

namespace NumLang

inductive Ty where
  | bool
  | real
  | context
  | tuple (elts : List Ty)
  | list (elt : Ty)
  | function (params : List Ty) (ret : Ty)
  | var (v : Nat)
deriving Repr, Inhabited

namespace Ty

mutual

def varList : Ty → List Nat
  | .bool | .real | .context => []
  | .tuple elts => varLists elts
  | .list elt => elt.varList
  | .function params ret => varLists params ++ ret.varList
  | .var v => [v]

def varLists : List Ty → List Nat
  | [] => []
  | t :: rest => t.varList ++ varLists rest

end

def vars (t : Ty) : OrdSet Nat := OrdSet.ofList t.varList

def isMonomorphic (t : Ty) : Bool := t.varList.isEmpty

def varText (v : Nat) : String := "'t" ++ toString v

mutual

def text : Ty → String
  | .bool => "bool"
  | .real => "real"
  | .context => "context"
  | .tuple elts => "tuple[" ++ ", ".intercalate (texts elts) ++ "]"
  | .list elt => "list[" ++ elt.text ++ "]"
  | .function params ret => "(" ++ ", ".intercalate (texts params) ++ ") -> " ++ ret.text
  | .var v => varText v

def texts : List Ty → List String
  | [] => []
  | t :: rest => t.text :: texts rest

end

mutual

def toAnn : Ty → Ann
  | .bool => .bool
  | .real => .real .any
  | .context => .context
  | .tuple elts => .tuple (toAnns elts)
  | .list elt => .list elt.toAnn
  | .function _ _ => .any
  | .var v => .var ("t" ++ toString v)

def toAnns : List Ty → List Ann
  | [] => []
  | t :: rest => t.toAnn :: toAnns rest

end

mutual

def same : Ty → Ty → Bool
  | .bool, .bool => true
  | .real, .real => true
  | .context, .context => true
  | .tuple as, .tuple bs => sameAll as bs
  | .list a, .list b => a.same b
  | .function as a, .function bs b => sameAll as bs && a.same b
  | .var v, .var w => v = w
  | _, _ => false

def sameAll : List Ty → List Ty → Bool
  | [], [] => true
  | a :: as, b :: bs => a.same b && sameAll as bs
  | _, _ => false

end

mutual

theorem same_iff (a b : Ty) : a.same b = true ↔ a = b := by
  cases a <;> cases b <;> simp [same, same_iff, sameAll_iff]

theorem sameAll_iff (as bs : List Ty) : sameAll as bs = true ↔ as = bs := by
  cases as <;> cases bs <;> simp [sameAll, same_iff, sameAll_iff]

end

instance : DecidableEq Ty := fun a b => decidable_of_iff _ (same_iff a b)

end Ty

end NumLang
