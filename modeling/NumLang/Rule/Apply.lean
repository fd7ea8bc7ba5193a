import NumLang.Rule.Match

/-!
Rules: a left side that is looked for and a right side that takes its place.
-/

namespace NumLang

structure Rule where
  name : String
  lhs : Pattern
  rhs : Pattern

namespace Rule

/-- A rule from two patterns, which must be both for expressions or both for statements. -/
def build (name : String) (lhs rhs : Pattern) : Except Error Rule :=
  if lhs.body.isExpr = rhs.body.isExpr then pure ⟨name, lhs, rhs⟩
  else throw (.invalidPattern rhs.name (.shapeDiffers lhs.name))

def ofFuncs (name : String) (lhs rhs : Func) : Except Error Rule := do
  build name (← Pattern.ofFunc lhs) (← Pattern.ofFunc rhs)

def inverse (r : Rule) : Rule := ⟨r.name ++ "_inverse", r.rhs, r.lhs⟩

def occurrences (r : Rule) (f : Func) : List Occurrence := r.lhs.occurrences f

/-- How far the replacement has come. -/
structure Progress where
  /-- The next unused identity. -/
  next : Nat
  names : NameSupply
  /-- How many occurrences were passed over. -/
  passed : Nat := 0
  /-- How many occurrences were replaced. -/
  replaced : Nat := 0

abbrev Replacing := ExceptT Error (StateM Progress)

/-- How many occurrences there were, and how many were replaced. -/
structure Counts where
  found : Nat
  replaced : Nat
deriving DecidableEq, Repr, Inhabited

def isDone (wanted : Option Nat) : Replacing Bool := do
  return wanted.isSome && 0 < (← get).replaced

def isWanted (wanted : Option Nat) : Replacing Bool := do
  match wanted with
  | none => return true
  | some n =>
    if (← get).passed = n then return true
    else
      modify fun s => { s with passed := s.passed + 1 }
      return false

def instantiate (r : Rule) (c : Capture) : Replacing Fragment := do
  let (made, names) := r.rhs.freshInstance c (← get).names
  modify fun s => { s with names := names, replaced := s.replaced + 1 }
  let made ← made
  modifyGet fun s =>
    let (copy, next) := made.refresh.run s.next
    (copy, { s with next := next })

def replaceExpr (r : Rule) (e : Expr) (c : Capture) : Replacing Expr := do
  match ← r.instantiate c with
  | .expr made => return made
  | .stmts _ => return e

def exprHooks (r : Rule) (wanted : Option Nat) : Rebuild Replacing where
  expr e usual := do
    if ← isDone wanted then return e
    if wanted.isSome then
      match r.lhs.match? (.expr e) with
      | some c => if ← isWanted wanted then r.replaceExpr e c else usual
      | none => usual
    else
      let e ← usual
      match r.lhs.match? (.expr e) with
      | some c => r.replaceExpr e c
      | none => return e

def replaceWindow? (r : Rule) (wanted : Option Nat) (stmts : List Stmt) : Replacing (Option (List Stmt)) := do
  if ← isDone wanted then return none
  match r.lhs.match? (.stmts (stmts.take r.lhs.body.window)) with
  | some c =>
    if ← isWanted wanted then
      match ← r.instantiate c with
      | .stmts made => return some made
      | .expr _ => return none
    else return none
  | none => return none

mutual

def inStmt (r : Rule) (wanted : Option Nat) : Stmt → Replacing Stmt
  | .when node test body => do return .when node test (← inBlock r wanted body)
  | .branch node test ift iff => do
    return .branch node test (← inBlock r wanted ift) (← inBlock r wanted iff)
  | .loop node test body => do return .loop node test (← inBlock r wanted body)
  | .each node target iterable body => do return .each node target iterable (← inBlock r wanted body)
  | .scope node name ctx body => do return .scope node name ctx (← inBlock r wanted body)
  | s@(.assign ..) | s@(.store ..) | s@(.assert ..) | s@(.effect ..) | s@(.ret ..) | s@(.skip ..) => return s

def inBlock (r : Rule) (wanted : Option Nat) : Block → Replacing Block
  | ⟨id, stmts⟩ => do return ⟨id, ← inStmts r wanted 0 stmts⟩

def inStmts (r : Rule) (wanted : Option Nat) : (covered : Nat) → List Stmt → Replacing (List Stmt)
  | _, [] => return []
  | covered + 1, _ :: rest => inStmts r wanted covered rest
  | 0, s :: rest => do
    match ← r.replaceWindow? wanted (s :: rest) with
    | some made => return made ++ (← inStmts r wanted (r.lhs.body.window - 1) rest)
    | none =>
      let s ← inStmt r wanted s
      return s :: (← inStmts r wanted 0 rest)

end

def inFunc (r : Rule) (wanted : Option Nat) (f : Func) : Replacing Func :=
  if r.lhs.body.isExpr then (r.exprHooks wanted).onFunc f
  else do return { f with body := ← r.inBlock wanted f.body }

def run (r : Rule) (wanted : Option Nat) (f : Func) : Supply (Except Error (Func × Counts)) := fun next =>
  let (result, s) := (r.inFunc wanted f).run.run { next := next, names := .ofFunc f }
  (result.map fun made => (made, ⟨(r.occurrences f).length, s.replaced⟩), s.next)

/-- Replaces the occurrence with the given number, counted in document order from zero. -/
def apply (r : Rule) (f : Func) (n : Nat) : Supply (Except Error (Func × Counts)) :=
  let found := (r.occurrences f).length
  if n < found then r.run (some n) f else return .error (.noOccurrence r.name n found)

def applyAll (r : Rule) (f : Func) : Supply (Except Error (Func × Counts)) := r.run none f

end Rule

end NumLang
