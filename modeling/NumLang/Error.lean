import NumLang.Name
import NumLang.Node
import NumLang.Typing.Ty

/-!
What can be wrong with a program, or with what was asked for.
-/

namespace NumLang

/-- Why a function does not serve as a pattern. -/
inductive PatternFault where
  | wildcardVariable
  | repeatedVariable (name : Name)
  | notOneEffect
  | noBody
  /-- The right side is not of the shape of the left side. -/
  | shapeDiffers (lhs : String)
deriving DecidableEq, Repr, Inhabited

/-- How a program is malformed in itself. -/
inductive Defect where
  | duplicateParam (name : Name) (func : String)
  | emptyBlock (block : NodeId)
  | boundTwice (name : Name) (site : NodeId)
  | unreachedUse (name : Name) (use : NodeId)
  | unseenStmt (stmt : NodeId)
  | unseenLoop (body : NodeId)
  | unboundTarget (name : Name) (comprehension : NodeId)
  | undefinedAt (name : Name) (site : NodeId)
  | unresolvedAt (name : Name) (site : NodeId)
  | unknownDefinition (index : Nat)
  | missingReturn (func : String)
deriving DecidableEq, Repr, Inhabited

inductive Error where
  | undefinedName (name : Name) (site : NodeId)
  | arityMismatch (site : NodeId) (expected actual : Nat)
  | shadowsWildcard (name : Name) (site : NodeId)
  | cyclicContext (name : Name) (site : NodeId)
  | typeConflict (site : NodeId) (expected actual : Ty)
  | annConflict (site : NodeId) (expected actual : Ann)
  | contextConflict (site : NodeId) (first second : Context)
  /-- A rule has not as many matches as were asked for. -/
  | noOccurrence (rule : String) (requested found : Nat)
  | unboundVariable (name : Name)
  | invalidPattern (name : String) (fault : PatternFault)
  | zeroFactor
  | noSuchLoop (func : String) (count index : Nat)
  | malformed (defect : Defect)
  /-- A pass gave a function that is itself in error. -/
  | badResult (pass func : String) (cause : Error)
deriving DecidableEq, Repr, Inhabited

def PatternFault.message : PatternFault → String
  | .wildcardVariable => "pattern variables cannot be `_`"
  | .repeatedVariable name => "pattern variable `" ++ name.text ++ "` is repeated"
  | .notOneEffect => "an expression pattern needs a single effect statement"
  | .noBody => "a statement pattern needs a body"
  | .shapeDiffers lhs => "right-hand side does not have the shape of `" ++ lhs ++ "`"

def Defect.message : Defect → String
  | .duplicateParam name func => "duplicate parameter `" ++ name.text ++ "` in `" ++ func ++ "`"
  | .emptyBlock block => "empty block " ++ block.text
  | .boundTwice name site => "name `" ++ name.text ++ "` bound twice in tuple binding at " ++ site.text
  | .unreachedUse name use => "no definition of `" ++ name.text ++ "` reaches use " ++ use.text
  | .unseenStmt stmt => "statement " ++ stmt.text ++ " was not analyzed"
  | .unseenLoop body => "loop body " ++ body.text ++ " was not analyzed"
  | .unboundTarget name comprehension =>
    "comprehension " ++ comprehension.text ++ " does not define `" ++ name.text ++ "`"
  | .undefinedAt name site => "`" ++ name.text ++ "` is not defined at " ++ site.text
  | .unresolvedAt name site => "`" ++ name.text ++ "` is not resolved at " ++ site.text
  | .unknownDefinition index => s!"definition d{index} out of range"
  | .missingReturn func => "`" ++ func ++ "` does not end in a return"

namespace Error

def message : Error → String
  | .undefinedName name site => "undefined name `" ++ name.text ++ "` at " ++ site.text
  | .arityMismatch site expected actual =>
    s!"arity mismatch at {site.text}: expected {expected}, found {actual}"
  | .shadowsWildcard name site => "binding `" ++ name.text ++ "` at " ++ site.text ++ " shadows the wildcard"
  | .cyclicContext name site => "cyclic context definition for `" ++ name.text ++ "` at " ++ site.text
  | .typeConflict site expected actual =>
    s!"type conflict at {site.text}: expected {expected.text}, found {actual.text}"
  | .annConflict site expected actual =>
    s!"type conflict at {site.text}: expected {expected.text}, found {actual.text}"
  | .contextConflict site first second => s!"context conflict at {site.text}: {first.text} vs {second.text}"
  | .noOccurrence rule requested found =>
    s!"rewrite `{rule}` has no occurrence {requested} ({found} matches)"
  | .unboundVariable name => "pattern variable `" ++ name.text ++ "` is not bound by the match"
  | .invalidPattern name fault => "invalid pattern `" ++ name ++ "`: " ++ fault.message
  | .zeroFactor => "invalid argument: unroll factor must be positive"
  | .noSuchLoop func count index => s!"invalid argument: `{func}` has {count} for loops, no loop {index}"
  | .malformed defect => "Invariant violation: " ++ defect.message
  | .badResult pass func cause =>
    "Invariant violation: " ++ pass ++ " produced malformed `" ++ func ++ "`: " ++ cause.message

def site? : Error → Option NodeId
  | .undefinedName _ site | .arityMismatch site _ _ | .shadowsWildcard _ site | .cyclicContext _ site
  | .typeConflict site _ _ | .annConflict site _ _ | .contextConflict site _ _ => some site
  | _ => none

end Error

end NumLang
