import NumLang.Flow.Contexts
import NumLang.Pass.Basic
import NumLang.Tree.Rebuild

/-!
Rounding contexts that are known beforehand are given names at the top of a function, one for each, and their
constructors become uses of these names.
-/

namespace NumLang

namespace ContextLifting

/-- A context that was given a name, with the assignment to it. -/
structure Lifted where
  value : Context
  name : Name
  stmt : Stmt

abbrev Lifting := StateT (List Lifted) Edit

def nameFor (value : Context) : Lifting Name := do
  match (← get).find? (·.value = value) with
  | some lifted => return lifted.name
  | none =>
    let name ← Edit.freshName "ctx"
    let literal ← Edit.lit (.host (.context value))
    let stmt ← Edit.assign (.name name) literal
    modify (· ++ [⟨value, name, stmt⟩])
    return name

def hooks (contexts : Contexts) : Rebuild Lifting where
  expr e usual :=
    match e, contexts.valueOfExpr? e.id with
    | .context node .., some value => do
      let name ← nameFor value
      Edit.noteAt .contextLifted node.id (value.text ++ " as `" ++ name.text ++ "`")
      return .var node name
    | _, _ => usual

def edit (f : Func) : Edit Func := do
  let contexts ← Contexts.ofFunc f
  let (f, lifted) ← ((hooks contexts).onFunc f).run []
  return { f with body := { f.body with stmts := lifted.map (·.stmt) ++ f.body.stmts } }

end ContextLifting

def Pass.contextLifting : Pass :=
  ofEdit "lift-context" "Hoists statically known context constructors to top-level bindings"
    ContextLifting.edit

end NumLang
