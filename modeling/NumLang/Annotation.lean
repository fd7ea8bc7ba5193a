import NumLang.Rounding

/-!
Type annotations as they are written in a program, with variables for types and for rounding contexts.
-/

namespace NumLang

namespace Ann

/-- The rounding context that an annotation of a real number asks for. -/
inductive Rounding where
  | any
  | var (name : String)
  | known (c : Context)
deriving DecidableEq, Repr, Inhabited

end Ann

inductive Ann where
  | any
  | bool
  | real (rounding : Ann.Rounding)
  | context
  | tuple (elts : List Ann)
  | list (elt : Ann)
  | var (name : String)
deriving Repr, Inhabited

namespace Ann

mutual

def isPolymorphic : Ann → Bool
  | .var _ => true
  | .real (.var _) => true
  | .tuple elts => anyPolymorphic elts
  | .list elt => elt.isPolymorphic
  | _ => false

def anyPolymorphic : List Ann → Bool
  | [] => false
  | a :: rest => a.isPolymorphic || anyPolymorphic rest

end

mutual

def text : Ann → String
  | .any => "any"
  | .bool => "bool"
  | .real .any => "real"
  | .real (.var name) => "real[" ++ name ++ "]"
  | .real (.known c) => "real[" ++ c.text ++ "]"
  | .context => "context"
  | .tuple elts => "tuple[" ++ ", ".intercalate (texts elts) ++ "]"
  | .list elt => "list[" ++ elt.text ++ "]"
  | .var name => name

def texts : List Ann → List String
  | [] => []
  | a :: rest => a.text :: texts rest

end

mutual

def same : Ann → Ann → Bool
  | .any, .any => true
  | .bool, .bool => true
  | .real a, .real b => a = b
  | .context, .context => true
  | .tuple as, .tuple bs => sameAll as bs
  | .list a, .list b => a.same b
  | .var a, .var b => a = b
  | _, _ => false

def sameAll : List Ann → List Ann → Bool
  | [], [] => true
  | a :: as, b :: bs => a.same b && sameAll as bs
  | _, _ => false

end

mutual

theorem same_iff (a b : Ann) : a.same b = true ↔ a = b := by
  cases a <;> cases b <;> simp [same, same_iff, sameAll_iff]

theorem sameAll_iff (as bs : List Ann) : sameAll as bs = true ↔ as = bs := by
  cases as <;> cases bs <;> simp [sameAll, same_iff, sameAll_iff]

end

instance : DecidableEq Ann := fun a b => decidable_of_iff _ (same_iff a b)

end Ann

end NumLang
