import NumLang.Pass.BranchMerging
import NumLang.Pass.Bundling
import NumLang.Pass.ConstantFolding
import NumLang.Pass.ContextLifting
import NumLang.Pass.CopyPropagation
import NumLang.Pass.DeadCode
import NumLang.Pass.Inlining
import NumLang.Pass.Specialization
import NumLang.Pass.Unrolling

/-!
Pipelines: lists of passes that are gone through for all functions of a workspace, again and again until nothing
changes any more.
-/

namespace NumLang

/-- The functions of a program by name, with what has been done to them. -/
structure Workspace where
  config : Config := {}
  functions : OrdMap String Func := ∅
  events : EventLog := []
  /-- The functions that were changed. -/
  changed : OrdSet String := ∅
  session : Session := {}
deriving Inhabited

namespace Workspace

def add (f : Func) (w : Workspace) : Workspace := { w with functions := w.functions.insert f.name f }

def markChanged (name : String) (w : Workspace) : Workspace := { w with changed := w.changed.insert name }

def isChanged (name : String) (w : Workspace) : Bool := name ∈ w.changed

def names (w : Workspace) : List String := w.functions.keys.toList

def write (level : LogLevel) (text : String) (w : Workspace) : Workspace :=
  { w with session := w.session.write level text }

def replace (pass name : String) (f : Func) (events : EventLog) (w : Workspace) : Workspace :=
  let w := w.write .trace (pass ++ " changed `" ++ name ++ "`")
  { w with
    functions := w.functions.insert name f
    events := w.events ++ events
    changed := w.changed.insert name }

end Workspace

structure Pipeline where
  passes : List Pass
  /-- How many times the passes are gone through at most. -/
  maxIterations : Nat

abbrev Work := ExceptT Error (StateM Workspace)

namespace Pipeline

def ofConfig (config : Config) : Pipeline where
  passes :=
    (if config.inlining then [Pass.inlining] else [])
      ++ (if config.contextLifting then [Pass.contextLifting] else [])
      ++ (if config.constantFolding then [Pass.constantFolding] else [])
      ++ (if config.simplifyIf then [Pass.branchMerging] else [])
      ++ (if config.copyPropagation then [Pass.copyPropagation] else [])
      ++ (if config.deadCodeElimination then [Pass.deadCode] else [])
  maxIterations := config.maxIterations

def step (pass : Pass) (name : String) : Work Bool := do
  let w ← get
  match w.functions.get? name with
  | none => return false
  | some f =>
    if !pass.applies f then return false
    let (result, session) := (pass.run w.config f).run w.session
    set { w with session := session }
    let (made, events) ← result
    if events.isEmpty then return false
    modify (·.replace pass.name name made events)
    return true

def stepAll (pass : Pass) : List String → Work Bool
  | [] => return false
  | name :: rest => do
    let first ← step pass name
    let others ← stepAll pass rest
    return first || others

def runPasses (names : List String) : List Pass → Work Bool
  | [] => return false
  | pass :: rest => do
    let first ← stepAll pass names
    let others ← runPasses names rest
    return first || others

def runOnce (p : Pipeline) : Work Bool := do runPasses (← get).names p.passes

/-- Goes through the passes, in the rounds from `round` on, until nothing changes. Gives the number of rounds
that changed anything. -/
def rounds (p : Pipeline) (round : Nat) : (fuel : Nat) → Work Nat
  | 0 => return round
  | fuel + 1 => do
    let changed ← p.runOnce
    let shown := if changed then "true" else "false"
    modify (·.write .debug ("pipeline round " ++ toString round ++ ": changed = " ++ shown))
    if changed then rounds p (round + 1) fuel else return round

/-- Goes through the passes until nothing changes or the limit is reached. Gives the number of rounds that
changed anything. -/
def run (p : Pipeline) : Work Nat := do
  let count ← p.rounds 0 p.maxIterations
  if count = p.maxIterations && 0 < count then
    modify (·.write .warn ("pipeline stopped after " ++ toString p.maxIterations
      ++ " rounds without reaching a fixpoint"))
  return count

end Pipeline

end NumLang
