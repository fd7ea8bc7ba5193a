import NumLang.Evaluator
import NumLang.Pass.Basic
import NumLang.Tree.Printer
import NumLang.Tree.Rebuild

/-!
Constant folding: an operator on literals becomes its value in the rounding context in force, and a choice whose test
is a literal becomes the part that is taken.
-/

namespace NumLang

namespace ConstantFolding

abbrev Folding := ReaderT ContextTag Edit

/-- What an expression becomes. -/
inductive Outcome where
  | value (v : HostValue)
  | branch (taken : Bool)

def outcome? (ev : Evaluator) (tag : ContextTag) : Expr → Option Outcome
  | .unary _ op _ arg => do
    return .value (← ev.apply (.unary op) (← [arg].mapM Expr.literalValue?) tag)
  | .binary _ op _ lhs rhs => do
    return .value (← ev.apply (.binary op) (← [lhs, rhs].mapM Expr.literalValue?) tag)
  | .ternary _ op _ first second third => do
    return .value (← ev.apply (.ternary op) (← [first, second, third].mapM Expr.literalValue?) tag)
  | .nary _ op _ args => do
    return .value (← ev.apply (.nary op) (← args.mapM Expr.literalValue?) tag)
  | .compare _ ops args => do
    return .value (.bool (← ev.compare ops (← args.mapM Expr.literalValue?) tag))
  | .cond _ test _ _ => do return .branch (← (← test.literalValue?).asBool?)
  | _ => none

def literal : HostValue → Literal
  | .number r => if r.den = 1 then .integer r.num else .host (.number r)
  | v => .host v

def choose (taken : Bool) : Expr → Expr
  | .cond _ _ ift iff => if taken then ift else iff
  | e => e

def replace (ev : Evaluator) (e : Expr) : Folding Expr := do
  match outcome? ev (← read) e with
  | none => return e
  | some (.value v) =>
    Edit.noteAt .constantFolded e.id (e.text ++ " -> " ++ v.text)
    return .lit (← Edit.node e.loc) (literal v)
  | some (.branch taken) =>
    Edit.noteAt .constantFolded e.id ("condition is always " ++ if taken then "true" else "false")
    return choose taken e

def hooks (ev : Evaluator) (contexts : Contexts) : Rebuild Folding where
  stmt s usual := do
    return [← withReader (fun _ => (contexts.ofStmt? s.id).getD .unknown) usual]
  expr _ usual := do replace ev (← usual)

def edit (ev : Evaluator) (f : Func) : Edit Func := do
  let contexts ← Contexts.ofFunc f
  ((hooks ev contexts).onFunc f).run contexts.root

end ConstantFolding

namespace Pass

def constantFolding (ev : Evaluator := .exact) : Pass :=
  ofEdit "const-fold" "Folds operators on literal operands under the enclosing rounding context"
    (ConstantFolding.edit ev)

end Pass

end NumLang
