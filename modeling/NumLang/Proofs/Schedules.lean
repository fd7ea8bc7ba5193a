import Mathlib.Logic.Function.Basic
import NumLang.Pipeline
import NumLang.Proofs.Ordered

/-!
Pipelines whose steps are taken in turns.
-/

namespace NumLang

namespace Pipeline

/-- How far the step of a function has come. -/
inductive Progress where
  | waiting
  | holding (f : Func)
  | made (g : Func) (events : EventLog)
  | told (g : Func)
  | stored
  | finished (changed : Bool)
  | failed (e : Error)

def Progress.IsResting : Progress → Prop
  | .waiting | .finished _ | .failed _ => True
  | .holding _ | .made _ _ | .told _ | .stored => False

/-- A workspace while a pass goes over its functions. -/
structure Stage where
  workspace : Workspace
  progress : String → Progress := fun _ => .waiting

namespace Stage

/-- How a pass over the functions of some names has ended: with all steps finished, and whether any replaced its
function, or with the error of a step, when no other is under way. -/
def Ends (s : Stage) (names : List String) : Except Error Bool → Prop
  | .ok changed => (∀ name ∈ names, ∃ c, s.progress name = .finished c) ∧
      (changed = true ↔ ∃ name ∈ names, s.progress name = .finished true)
  | .error e => (∃ name ∈ names, s.progress name = .failed e) ∧ ∀ name ∈ names, (s.progress name).IsResting

def put (name : String) (p : Progress) (s : Stage) : Stage :=
  { s with progress := Function.update s.progress name p }

@[simp] theorem put_workspace (name : String) (p : Progress) (s : Stage) : (s.put name p).workspace = s.workspace := rfl

@[simp] theorem put_progress_self (name : String) (p : Progress) (s : Stage) : (s.put name p).progress name = p :=
  Function.update_self ..

theorem put_progress_of_ne (differ : other ≠ name) (p : Progress) (s : Stage) :
    (s.put name p).progress other = s.progress other :=
  Function.update_of_ne differ ..

def advance (pass : Pass) (s : Stage) (name : String) : Stage :=
  let w := s.workspace
  match s.progress name with
  | .waiting =>
    match w.functions.get? name with
    | none => s.put name (.finished false)
    | some f => s.put name (.holding f)
  | .holding f =>
    if !pass.applies f then s.put name (.finished false)
    else
      let (result, session) := (pass.run w.config f).run w.session
      let s := { s with workspace := { w with session := session } }
      match result with
      | .error e => s.put name (.failed e)
      | .ok (g, events) => s.put name (if events.isEmpty then .finished false else .made g events)
  | .made g events => { s with workspace := { w with events := w.events ++ events } }.put name (.told g)
  | .told g =>
    let w := w.write .trace (pass.name ++ " changed `" ++ name ++ "`")
    { s with workspace := { w with functions := w.functions.insert name g } }.put name .stored
  | .stored => { s with workspace := w.markChanged name }.put name (.finished true)
  | .finished _ | .failed _ => s

end Stage

/-- One pass over the functions of a workspace: whose step is taken further, turn by turn. -/
structure Sweep where
  pass : Pass
  start : Workspace
  turns : List String

namespace Sweep

def after (s : Sweep) (turns : List String) : Stage := turns.foldl (Stage.advance s.pass) { workspace := s.start }

def final (s : Sweep) : Stage := s.after s.turns

def Ends (s : Sweep) (names : List String) (r : Except Error Bool) : Prop :=
  (∀ name ∈ s.turns, name ∈ names) ∧ s.final.Ends names r

end Sweep

/-- Passes in turn over the functions of some names, each in steps taken in turns. -/
inductive Passes (names : List String) : List Pass → Workspace → List Sweep → Except Error Bool → Workspace → Prop
  | nil (w : Workspace) : Passes names [] w [] (.ok false) w
  | fails (rest : List Pass) {s : Sweep} {e : Error} (ends : s.Ends names (.error e)) :
      Passes names (s.pass :: rest) s.start [s] (.error e) s.final.workspace
  | cons {rest : List Pass} {s : Sweep} {changed : Bool} {history : List Sweep} {r : Except Error Bool}
      {w : Workspace} (ends : s.Ends names (.ok changed)) (others : Passes names rest s.final.workspace history r w) :
      Passes names (s.pass :: rest) s.start (s :: history) (r.map (changed || ·)) w

def reported (round : Nat) (changed : Bool) (w : Workspace) : Workspace :=
  w.write .debug ("pipeline round " ++ toString round ++ ": changed = " ++ if changed then "true" else "false")

/-- Rounds of the passes until nothing changes. -/
inductive Rounds (p : Pipeline) : Nat → Nat → Workspace → List Sweep → Except Error Nat → Workspace → Prop
  | limit (round : Nat) (w : Workspace) : Rounds p round 0 w [] (.ok round) w
  | fails {round fuel : Nat} {w w' : Workspace} {history : List Sweep} {e : Error}
      (passes : Passes w.names p.passes w history (.error e) w') : Rounds p round (fuel + 1) w history (.error e) w'
  | stops {round fuel : Nat} {w w' : Workspace} {history : List Sweep}
      (passes : Passes w.names p.passes w history (.ok false) w') :
      Rounds p round (fuel + 1) w history (.ok round) (reported round false w')
  | again {round fuel : Nat} {w w' w'' : Workspace} {history more : List Sweep} {r : Except Error Nat}
      (passes : Passes w.names p.passes w history (.ok true) w')
      (others : Rounds p (round + 1) fuel (reported round true w') more r w'') :
      Rounds p round (fuel + 1) w (history ++ more) r w''

/-- The workspace with a warning if the rounds came to an end only at the limit. -/
def warned (p : Pipeline) (w : Workspace) : Except Error Nat → Workspace
  | .ok count =>
    if count = p.maxIterations && 0 < count then
      w.write .warn ("pipeline stopped after " ++ toString p.maxIterations ++ " rounds without reaching a fixpoint")
    else w
  | .error _ => w

def Runs (p : Pipeline) (w : Workspace) (history : List Sweep) (r : Except Error Nat) (w' : Workspace) : Prop :=
  ∃ ended, Rounds p 0 p.maxIterations w history r ended ∧ w' = p.warned ended r

/-! ### Steps one after the other -/

def Progress.ofResult : Except Error Bool → Progress
  | .ok changed => .finished changed
  | .error e => .failed e

variable {α β : Type} {pass : Pass} {name : String}

theorem run_bind (x : Work α) (k : α → Work β) (w : Workspace) :
    (x >>= k).run.run w = match x.run.run w with
      | (.ok a, t) => (k a).run.run t
      | (.error e, t) => (.error e, t) := by
  have unfolded : (x >>= k).run.run w = (ExceptT.bindCont k (x.run.run w).1).run (x.run.run w).2 := rfl
  rw [unfolded]
  rcases x.run.run w with ⟨_ | _, _⟩ <;> rfl

variable {w w' : Workspace} {r : Except Error Bool}

theorem cases_run_bind {x : Work α} {k : α → Work β} {r : Except Error β}
    (ran : (x >>= k).run.run w = (r, w')) : (∃ e, x.run.run w = (.error e, w') ∧ r = .error e) ∨ ∃ a t,
    x.run.run w = (.ok a, t) ∧ (k a).run.run t = (r, w') := by
  rw [run_bind] at ran
  split at ran
  · rename_i a t first
    exact .inr ⟨a, t, first, ran⟩
  · rename_i e t first
    cases ran
    exact .inl ⟨e, first, rfl⟩

theorem cases_run_or {x : Work Bool} (ran : (do let b ← x; return a || b : Work Bool).run.run w = (r, w')) :
    ∃ q, x.run.run w = (q, w') ∧ r = q.map (a || ·) := by
  rcases cases_run_bind ran with ⟨e, first, rfl⟩ | ⟨b, t, first, last⟩
  · exact ⟨.error e, first, rfl⟩
  · cases last
    exact ⟨.ok b, first, rfl⟩

theorem run_step (pass : Pass) (name : String) (w : Workspace) :
    (step pass name).run.run w = match w.functions.get? name with
      | none => (.ok false, w)
      | some f =>
        if !pass.applies f then (.ok false, w)
        else match (pass.run w.config f).run w.session with
          | (.error e, session) => (.error e, { w with session := session })
          | (.ok (g, events), session) =>
            if events.isEmpty then (.ok false, { w with session := session })
            else (.ok true, { w with session := session }.replace pass.name name g events) := by
  rw [step, run_bind]
  show Id.run (StateT.run (ExceptT.run (match w.functions.get? name with | none => _ | some f => _)) w) = _
  cases w.functions.get? name with
  | none => rfl
  | some f =>
    dsimp only
    cases pass.applies f with
    | false => rfl
    | true =>
      rcases (pass.run w.config f).run w.session with ⟨_ | ⟨g, events⟩, session⟩
      · rfl
      · cases events <;> rfl

variable {s : Stage} {names : List String}

theorem advance_five (waiting : s.progress name = .waiting) (ran : (step pass name).run.run s.workspace = (r, w)) :
    (List.replicate 5 name).foldl (Stage.advance pass) s = Stage.put name (.ofResult r) { s with workspace := w } := by
  rw [run_step] at ran
  simp only [List.replicate, List.foldl]
  cases found : s.workspace.functions.get? name with
  | none =>
    rw [found] at ran
    cases ran
    simp [Stage.advance, waiting, found, Stage.put, Progress.ofResult]
  | some f =>
    rw [found] at ran
    dsimp only at ran
    cases applies : pass.applies f with
    | false =>
      rw [applies] at ran
      cases ran
      simp [Stage.advance, waiting, found, applies, Stage.put, Progress.ofResult]
    | true =>
      rw [applies] at ran
      rcases passed : (pass.run s.workspace.config f).run s.workspace.session with ⟨e | ⟨g, _ | ⟨event, events⟩⟩, session⟩
      all_goals
        rw [passed] at ran
        cases ran
        simp [Stage.advance, waiting, found, applies, passed, Stage.put, Progress.ofResult, Workspace.replace,
          Workspace.write, Workspace.markChanged]

theorem Stage.Ends.cons (first : s.progress name = .finished changed) (rest : s.Ends names r) :
    s.Ends (name :: names) (r.map (changed || ·)) := by
  cases r with
  | error e =>
    obtain ⟨⟨other, mem, failed⟩, resting⟩ := rest
    refine ⟨⟨other, List.mem_cons_of_mem name mem, failed⟩, fun other mem => ?_⟩
    rcases List.mem_cons.mp mem with rfl | mem
    · rw [first]
      trivial
    · exact resting other mem
  | ok more =>
    obtain ⟨finished, any⟩ := rest
    refine ⟨fun other mem => ?_, ?_⟩
    · rcases List.mem_cons.mp mem with rfl | mem
      · exact ⟨changed, first⟩
      · exact finished other mem
    · simp [first, any]

theorem exists_turns_of_stepAll (distinct : names.Nodup) (waiting : ∀ name ∈ names, s.progress name = .waiting)
    (ran : (stepAll pass names).run.run s.workspace = (r, w)) :
    ∃ (turns : List String) (s' : Stage), (∀ name ∈ turns, name ∈ names) ∧ turns.foldl (Stage.advance pass) s = s' ∧
      s'.workspace = w ∧ (∀ name ∉ names, s'.progress name = s.progress name) ∧ s'.Ends names r := by
  induction names generalizing s r with
  | nil =>
    cases ran
    exact ⟨[], s, by simp, rfl, rfl, fun _ _ => rfl, by simp, by simp⟩
  | cons name rest ih =>
    obtain ⟨apart, distinct⟩ := List.nodup_cons.mp distinct
    have still : ∀ p w, ∀ other ∈ rest, (Stage.put name p ⟨w, s.progress⟩).progress other = .waiting := by
      intro p w other mem
      rw [Stage.put_progress_of_ne (ne_of_mem_of_not_mem mem apart)]
      exact waiting other (List.mem_cons_of_mem name mem)
    rcases cases_run_bind ran with ⟨e, first, rfl⟩ | ⟨changed, t, first, others⟩
    · refine ⟨_, _, ?_, advance_five (waiting name List.mem_cons_self) first, rfl, ?_, ⟨name, List.mem_cons_self, ?_⟩, ?_⟩
      · intro other mem
        exact List.mem_cons.mpr (.inl (List.eq_of_mem_replicate mem))
      · intro other outside
        exact Stage.put_progress_of_ne (List.ne_of_not_mem_cons outside) ..
      · exact Stage.put_progress_self ..
      · intro other mem
        rcases List.mem_cons.mp mem with rfl | mem
        · rw [Stage.put_progress_self]
          trivial
        · rw [still _ w other mem]
          trivial
    · obtain ⟨q, second, rfl⟩ := cases_run_or others
      obtain ⟨turns, s', inside, taken, same, outside, ends⟩ := ih distinct (still (.finished changed) t) second
      refine ⟨List.replicate 5 name ++ turns, s', ?_, ?_, same, ?_, ends.cons ?_⟩
      · intro other mem
        rcases List.mem_append.mp mem with mem | mem
        · exact List.mem_cons.mpr (.inl (List.eq_of_mem_replicate mem))
        · exact List.mem_cons_of_mem name (inside other mem)
      · rw [List.foldl_append, advance_five (waiting name List.mem_cons_self) first]
        exact taken
      · intro other out
        rw [outside other (List.not_mem_of_not_mem_cons out), Stage.put_progress_of_ne (List.ne_of_not_mem_cons out)]
      · rw [outside name apart, Stage.put_progress_self]

theorem passes_of_runPasses (distinct : names.Nodup) {passes : List Pass}
    (ran : (runPasses names passes).run.run w = (r, w')) : ∃ history, Passes names passes w history r w' := by
  induction passes generalizing w r with
  | nil =>
    cases ran
    exact ⟨[], .nil _⟩
  | cons pass rest ih =>
    rcases cases_run_bind ran with ⟨e, first, rfl⟩ | ⟨changed, t, first, others⟩
    · obtain ⟨turns, s', inside, taken, rfl, _, ends⟩ :=
        exists_turns_of_stepAll distinct (s := { workspace := w }) (fun _ _ => rfl) first
      subst taken
      exact ⟨_, .fails rest (s := ⟨pass, w, turns⟩) ⟨inside, ends⟩⟩
    · obtain ⟨turns, s', inside, taken, rfl, _, ends⟩ :=
        exists_turns_of_stepAll distinct (s := { workspace := w }) (fun _ _ => rfl) first
      subst taken
      obtain ⟨q, second, rfl⟩ := cases_run_or others
      obtain ⟨history, more⟩ := ih second
      exact ⟨_, .cons (s := ⟨pass, w, turns⟩) ⟨inside, ends⟩ more⟩

theorem rounds_of_rounds (p : Pipeline) {fuel round : Nat} {r : Except Error Nat}
    (ran : (p.rounds round fuel).run.run w = (r, w')) : ∃ history, Rounds p round fuel w history r w' := by
  induction fuel generalizing round w r with
  | zero =>
    cases ran
    exact ⟨[], .limit round _⟩
  | succ fuel ih =>
    have distinct : w.names.Nodup := OrdSet.nodup_toList _
    rcases cases_run_bind ran with ⟨e, first, rfl⟩ | ⟨changed, t, first, others⟩
    · obtain ⟨history, passes⟩ := passes_of_runPasses distinct first
      exact ⟨history, .fails passes⟩
    · obtain ⟨history, passes⟩ := passes_of_runPasses distinct first
      cases changed with
      | false =>
        cases others
        exact ⟨history, .stops passes⟩
      | true =>
        obtain ⟨more, rounds⟩ := ih others
        exact ⟨history ++ more, .again passes rounds⟩

theorem runs_run (p : Pipeline) (w : Workspace) :
    ∃ history, p.Runs w history (p.run.run.run w).1 (p.run.run.run w).2 := by
  rcases ran : p.run.run.run w with ⟨r, w'⟩
  rcases cases_run_bind ran with ⟨e, first, rfl⟩ | ⟨count, t, first, last⟩
  · obtain ⟨history, rounds⟩ := rounds_of_rounds p first
    exact ⟨history, w', rounds, rfl⟩
  · obtain ⟨history, rounds⟩ := rounds_of_rounds p first
    refine ⟨history, t, ?_⟩
    rw [warned.eq_def]
    by_cases limit : count = p.maxIterations && 0 < count
    · rw [if_pos limit] at last
      cases last
      exact ⟨rounds, (if_pos limit).symm⟩
    · rw [if_neg limit] at last
      cases last
      exact ⟨rounds, (if_neg limit).symm⟩

end Pipeline

end NumLang
