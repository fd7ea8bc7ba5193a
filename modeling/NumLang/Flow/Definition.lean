import NumLang.Name
import NumLang.Node

/-!
Definitions of names: where a name is given a value by a binder, and where two definitions of it meet because control
flow joins.
-/

namespace NumLang

/-- What kind of binder a name is bound by. -/
inductive BinderKind where
  | param
  | free
  | stmt
  | comprehension
deriving DecidableEq, Repr, Inhabited

/-- A binder: its kind and the node it belongs to. -/
structure Site where
  kind : BinderKind
  node : NodeId
deriving DecidableEq, Repr, Inhabited

/-- The place of a definition: the n-th name bound at a node, or the join of a name at a statement. -/
inductive Place where
  | binder (site : NodeId) (slot : Nat)
  | join (site : NodeId) (name : Name)
deriving DecidableEq, Repr, Inhabited

/-- A definition, which refers to others by keys in `κ`. -/
inductive Definition (κ : Type) where
  /-- Given by a binder; `prev` is the definition of the same name in force before. -/
  | assign (name : Name) (site : Site) (prev : Option κ)
  /-- The meeting of two definitions: of the two arms of a branch, of the state before and after a guarded
  block, or of the state before a loop and after its body. -/
  | join (name : Name) (site : NodeId) (lhs rhs : κ)
deriving DecidableEq, Repr, Inhabited

namespace Definition

variable {κ ι : Type}

def name : Definition κ → Name
  | .assign name _ _ | .join name _ _ _ => name

def site : Definition κ → NodeId
  | .assign _ site _ => site.node
  | .join _ site _ _ => site

def isJoin : Definition κ → Bool
  | .join .. => true
  | .assign .. => false

def operands : Definition κ → List κ
  | .assign _ _ prev => prev.toList
  | .join _ _ lhs rhs => [lhs, rhs]

def sources : Definition κ → List κ
  | .assign .. => []
  | .join _ _ lhs rhs => [lhs, rhs]

def map (f : κ → ι) : Definition κ → Definition ι
  | .assign name site prev => .assign name site (prev.map f)
  | .join name site lhs rhs => .join name site (f lhs) (f rhs)

def binder? : Definition κ → Option Site
  | .assign _ site _ => some site
  | .join .. => none

end Definition

abbrev DefId := Nat

def DefId.text (d : DefId) : String := "d" ++ toString d

def Definition.joinText? : Definition DefId → Option String
  | .join name _ lhs rhs => some (name.text ++ " = phi(" ++ lhs.text ++ ", " ++ rhs.text ++ ")")
  | .assign .. => none

end NumLang
