import NumLang.Ordered.Map

/-!
Identities and source locations of the nodes of a tree.
-/

namespace NumLang

/-- The identity of a node. -/
structure NodeId where
  val : Nat
deriving DecidableEq, Repr, Inhabited

namespace NodeId

instance : Ord NodeId := ⟨compareOn NodeId.val⟩
instance : Std.TransOrd NodeId := inferInstanceAs (Std.TransCmp (compareOn NodeId.val))

instance : Std.LawfulEqOrd NodeId where
  eq_of_compare {a b} same := by
    have := Std.LawfulEqOrd.eq_of_compare (α := Nat) same
    cases a
    cases b
    simp_all

def text (id : NodeId) : String := "#" ++ toString id.val

end NodeId

abbrev NodeMap := OrdMap NodeId

/-- A range of a source text. -/
structure Loc where
  source : String
  startLine : Nat
  startCol : Nat
  endLine : Nat
  endCol : Nat
deriving DecidableEq, Repr, Inhabited

def Loc.text (l : Loc) : String := s!"{l.source}:{l.startLine}:{l.startCol}"

/-- What every node of a tree carries. -/
structure Node where
  id : NodeId
  loc : Option Loc := none
deriving DecidableEq, Repr, Inhabited

end NumLang
