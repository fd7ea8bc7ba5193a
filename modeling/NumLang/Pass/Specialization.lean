import NumLang.Pass.Basic
import NumLang.Tree.Rebuild
import NumLang.Typing.Infer

/-!
Specialization: variables in annotations are replaced by types and rounding contexts, which are given by name or found
from the types of the arguments.
-/

namespace NumLang

/-- Values of the variables of annotations. -/
structure AnnSubst where
  types : OrdMap String Ann := ∅
  contexts : OrdMap String Context := ∅
deriving Inhabited

namespace AnnSubst

def bindType (site : NodeId) (v : String) (t : Ann) (s : AnnSubst) : Except Error AnnSubst :=
  match s.types.get? v with
  | some known => if known = t then pure s else throw (.annConflict site known t)
  | none => pure { s with types := s.types.insert v t }

def bindContext (site : NodeId) (v : String) (c : Context) (s : AnnSubst) : Except Error AnnSubst :=
  match s.contexts.get? v with
  | some known => if known = c then pure s else throw (.contextConflict site known c)
  | none => pure { s with contexts := s.contexts.insert v c }

def matchRounding (site : NodeId) : Ann.Rounding → Ann.Rounding → AnnSubst → Except Error AnnSubst
  | .var v, .known c, s => s.bindContext site v c
  | .known a, .known b, s => if a = b then pure s else throw (.contextConflict site a b)
  | _, _, s => pure s

mutual

def matchAnn (site : NodeId) : Ann → Ann → AnnSubst → Except Error AnnSubst
  | .any, _, s => pure s
  | _, .any, s => pure s
  | .var v, t, s => s.bindType site v t
  | .real declared, .real concrete, s => matchRounding site declared concrete s
  | .tuple declared, .tuple concrete, s =>
    if declared.length = concrete.length then matchAnns site declared concrete s
    else throw (.arityMismatch site declared.length concrete.length)
  | .list declared, .list concrete, s => matchAnn site declared concrete s
  | declared, concrete, s => if declared = concrete then pure s else throw (.annConflict site declared concrete)

def matchAnns (site : NodeId) : List Ann → List Ann → AnnSubst → Except Error AnnSubst
  | d :: declared, c :: concrete, s => do matchAnns site declared concrete (← matchAnn site d c s)
  | _, _, s => pure s

end

mutual

def apply (s : AnnSubst) : Ann → Ann
  | .var v => (s.types.get? v).getD (.var v)
  | .real (.var v) =>
    match s.contexts.get? v with
    | some c => .real (.known c)
    | none => .real (.var v)
  | .tuple elts => .tuple (applyAll s elts)
  | .list elt => .list (apply s elt)
  | .any => .any
  | .bool => .bool
  | .real r => .real r
  | .context => .context

def applyAll (s : AnnSubst) : List Ann → List Ann
  | [] => []
  | a :: rest => apply s a :: applyAll s rest

end

end AnnSubst

/-- Types and contexts by name, and the types of the arguments. -/
structure Specialize where
  types : OrdMap String Ann := ∅
  contexts : OrdMap String Context := ∅
  args : Option (List Ann) := none

namespace Specialization

def matchParams : List Param → List Ann → AnnSubst → Except Error AnnSubst
  | p :: params, concrete :: rest, s => do
    match p.ann with
    | some declared => matchParams params rest (← s.matchAnn p.id declared concrete)
    | none => matchParams params rest s
  | _, _, s => pure s

def substFor (spec : Specialize) (f : Func) : Except Error AnnSubst := do
  let given : AnnSubst := ⟨spec.types, spec.contexts⟩
  match spec.args with
  | none => return given
  | some args =>
    if args.length = f.params.length then matchParams f.params args given
    else throw (.arityMismatch f.id f.params.length args.length)

def applyAt (s : AnnSubst) (site : NodeId) (ann : Option Ann) : Edit (Option Ann) := do
  match ann with
  | none => return none
  | some ann =>
    let concrete := s.apply ann
    if concrete ≠ ann then Edit.noteAt .monomorphized site (ann.text ++ " -> " ++ concrete.text)
    return some concrete

def onParams (s : AnnSubst) : List Param → Edit (List Param)
  | [] => return []
  | p :: rest => do
    let ann ← applyAt s p.id p.ann
    return { p with ann := ann } :: (← onParams s rest)

def hooks (s : AnnSubst) : Rebuild Edit where
  stmt _ usual := do
    match ← usual with
    | .assign node target ann value => return [.assign node target (← applyAt s node.id ann) value]
    | s => return [s]

/-- The function with the values in place of the variables. If that changes anything, it must have types. -/
def edit (spec : Specialize) (f : Func) : Edit Func := do
  let s ← substFor spec f
  let params ← onParams s f.params
  let f ← (hooks s).onFunc { f with params := params }
  if !(← get).changes.isEmpty then
    let _ ← Typing.ofFunc f
  return f

end Specialization

def Pass.specialization (spec : Specialize) : Pass :=
  ofEdit "monomorphize" "Replaces type and context variables with concrete annotations"
    (Specialization.edit spec)

end NumLang
