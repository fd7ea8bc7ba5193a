import Mathlib.Data.List.Induction
import NumLang.Proofs.BuiltIn
import NumLang.Proofs.Reference
import NumLang.Proofs.Schedules

/-!
What a pipeline leaves behind.
-/

namespace NumLang

namespace Pipeline

/-! ### What a turn does -/

def Progress.IsFruitless : Progress → Prop
  | .waiting | .holding _ | .failed _ => True
  | _ => False

/-- What the turn of a function makes of a stage. -/
inductive Stage.Acts (pass : Pass) (s : Stage) (name : String) : Stage → Prop
  | reads {f : Func} (before : s.progress name = .waiting) (found : s.workspace.functions.get? name = some f) :
      Acts pass s name (s.put name (.holding f))
  | makes {f g : Func} {events : EventLog} {session : Session} (before : s.progress name = .holding f)
      (ran : (pass.run s.workspace.config f).run s.workspace.session = (.ok (g, events), session)) :
      Acts pass s name (Stage.put name (.made g events) { s with workspace := { s.workspace with session := session } })
  | tells {g : Func} {events : EventLog} (before : s.progress name = .made g events) :
      Acts pass s name
        (Stage.put name (.told g) { s with workspace := { s.workspace with events := s.workspace.events ++ events } })
  | stores {g : Func} {session : Session} (before : s.progress name = .told g) :
      Acts pass s name (Stage.put name .stored
        { s with workspace := { s.workspace with functions := s.workspace.functions.insert name g, session := session } })
  | marks (before : s.progress name = .stored) :
      Acts pass s name (Stage.put name (.finished true) { s with workspace := s.workspace.markChanged name })
  | ends {p : Progress} {session : Session} (before : (s.progress name).IsFruitless) (resting : p.IsResting) :
      Acts pass s name (Stage.put name p { s with workspace := { s.workspace with session := session } })
  | rests (before : (s.progress name).IsResting) : Acts pass s name s

variable {r : Except Error Bool} {e : Error} {round fuel : Nat}

theorem Stage.acts_advance (pass : Pass) (s : Stage) (name : String) : s.Acts pass name (s.advance pass name) := by
  unfold advance
  cases before : s.progress name with
  | waiting =>
    dsimp only
    split
    · exact .ends (by rw [before]; trivial) trivial
    · exact .reads before ‹_›
  | holding f =>
    have fruitless : (s.progress name).IsFruitless := by rw [before]; trivial
    dsimp only
    split
    · exact .ends fruitless trivial
    · rcases ran : (pass.run s.workspace.config f).run s.workspace.session with ⟨e | ⟨g, _ | ⟨event, events⟩⟩, session⟩
      · exact .ends fruitless trivial
      · exact .ends fruitless trivial
      · exact .makes before ran
  | made g events => exact .tells before
  | told g => exact .stores before
  | stored => exact .marks before
  | finished changed => exact .rests (by rw [before]; trivial)
  | failed e => exact .rests (by rw [before]; trivial)

namespace Stage

variable {pass : Pass} {s t : Stage} {name other : String} {o : Workspace}

theorem Acts.progress_of_ne (acts : s.Acts pass name t) (differ : other ≠ name) :
    t.progress other = s.progress other := by
  cases acts <;> first | rfl | exact put_progress_of_ne differ ..

def Holds (o : Workspace) (name : String) : Progress → Prop
  | .holding f => f.name = name ∧ o.functions.contains name = true
  | .made g _ | .told g => g.name = name ∧ g.check = .ok () ∧ o.functions.contains name = true
  | _ => True

/-- No function was added or lost, and each has the name under which it is kept and is the one that was there before or
well formed. -/
structure Keeps (o : Workspace) (s : Stage) : Prop where
  names : ∀ name, s.workspace.functions.contains name = o.functions.contains name
  entries : ∀ name f, s.workspace.functions.get? name = some f →
    f.name = name ∧ (o.functions.get? name = some f ∨ f.check = .ok ())
  held : ∀ name, Holds o name (s.progress name)

theorem Keeps.acts (keeps : s.Keeps o) (builtIn : pass.BuiltIn) (acts : s.Acts pass name t) : t.Keeps o := by
  have others : Holds o name (t.progress name) → ∀ other, Holds o other (t.progress other) := by
    intro here other
    by_cases same : other = name
    · exact same ▸ here
    · rw [acts.progress_of_ne same]
      exact keeps.held other
  have here := keeps.held name
  cases acts with
  | reads before found =>
    refine ⟨keeps.names, keeps.entries, others ?_⟩
    rw [put_progress_self]
    exact ⟨(keeps.entries name _ found).1, by rw [← keeps.names, OrdMap.contains, found]; rfl⟩
  | makes before ran =>
    rw [before] at here
    refine ⟨keeps.names, keeps.entries, others ?_⟩
    rw [put_progress_self]
    obtain ⟨same, well⟩ := builtIn.gives ran
    exact ⟨same.trans here.1, well, here.2⟩
  | tells before =>
    rw [before] at here
    refine ⟨keeps.names, keeps.entries, others ?_⟩
    rw [put_progress_self]
    exact here
  | @stores g session before =>
    rw [before] at here
    obtain ⟨same, well, present⟩ := here
    refine ⟨fun other => ?_, fun other f found => ?_, others (by rw [put_progress_self]; trivial)⟩
    · by_cases equal : other = name
      · simp [OrdMap.contains, equal, ← present]
      · simpa [OrdMap.contains, equal] using keeps.names other
    · simp only [put_workspace, OrdMap.get?_insert] at found
      split at found
      · cases found
        exact ‹other = name› ▸ ⟨same, .inr well⟩
      · exact keeps.entries other f found
  | marks before => exact ⟨keeps.names, keeps.entries, others (by rw [put_progress_self]; trivial)⟩
  | @ends p session before resting =>
    refine ⟨keeps.names, keeps.entries, others ?_⟩
    rw [put_progress_self]
    cases p <;> trivial
  | rests before => exact keeps

def Marked (s : Stage) (name : String) : Prop := name ∈ s.workspace.changed ∨ s.progress name = .stored

theorem Acts.marked_iff (acts : s.Acts pass name t) :
    t.Marked other ↔ s.Marked other ∨ other = name ∧ ∃ g, s.progress name = .told g := by
  by_cases same : other = name
  · subst same
    cases acts with
    | ends before resting =>
      have unstored : ∀ p : Progress, p.IsResting → p ≠ .stored := by rintro _ resting rfl; exact resting
      cases now : s.progress other <;> simp_all [Marked, Progress.IsFruitless]
    | rests resting => cases now : s.progress other <;> simp_all [Progress.IsResting]
    | _ => simp_all [Marked, Workspace.markChanged]
  · have unmoved := acts.progress_of_ne same
    cases acts <;> simp_all [Marked, Workspace.markChanged]

theorem Acts.fruitless (acts : s.Acts pass name t) (later : (t.progress other).IsFruitless) :
    (s.progress other).IsFruitless := by
  by_cases same : other = name
  · subst same
    cases acts with
    | reads before => rw [before]; trivial
    | ends before => exact before
    | rests => exact later
    | _ => simp [Progress.IsFruitless] at later
  · rwa [acts.progress_of_ne same] at later

theorem Acts.spares (acts : s.Acts pass name t) (before : (s.progress name).IsFruitless) : t.workspace.functions =
    s.workspace.functions ∧ t.workspace.changed = s.workspace.changed ∧ t.workspace.events = s.workspace.events := by
  cases acts with
  | tells now | stores now | marks now =>
    rw [now] at before
    cases before
  | _ => exact ⟨rfl, rfl, rfl⟩

end Stage

namespace Sweep

variable {s : Sweep} {name : String} {o : Workspace}

theorem after_concat (s : Sweep) (turns : List String) (name : String) :
    s.after (turns ++ [name]) = (s.after turns).advance s.pass name := List.foldl_concat ..

theorem acts_after (s : Sweep) (turns : List String) (name : String) :
    (s.after turns).Acts s.pass name (s.after (turns ++ [name])) := by
  rw [after_concat]
  exact Stage.acts_advance ..

theorem progress_of_notMem (s : Sweep) {turns : List String} (absent : name ∉ turns) :
    (s.after turns).progress name = .waiting := by
  induction turns using List.reverseRecOn with
  | nil => rfl
  | append_singleton turns last ih =>
    obtain ⟨earlier, differ⟩ : name ∉ turns ∧ name ≠ last := by simpa using absent
    exact ((s.acts_after turns last).progress_of_ne differ).trans (ih earlier)

/-- The entry of a function is replaced in one of the turns. -/
def Stores (s : Sweep) (name : String) : Prop :=
  ∃ earlier g, earlier ++ [name] <+: s.turns ∧ (s.after earlier).progress name = .told g

/-- In none of its turns does the step of a function give anything to the workspace. -/
def Spares (s : Sweep) (name : String) : Prop :=
  ∀ earlier, earlier ++ [name] <+: s.turns →
    (s.after (earlier ++ [name])).workspace.functions = (s.after earlier).workspace.functions ∧
    (s.after (earlier ++ [name])).workspace.changed = (s.after earlier).workspace.changed ∧
    (s.after (earlier ++ [name])).workspace.events = (s.after earlier).workspace.events

theorem keeps_after (builtIn : s.pass.BuiltIn) (start : Stage.Keeps o { workspace := s.start }) (turns : List String) :
    (s.after turns).Keeps o := by
  induction turns using List.reverseRecOn with
  | nil => exact start
  | append_singleton turns name ih => exact ih.acts builtIn (s.acts_after turns name)

theorem marked_after (s : Sweep) (name : String) (turns : List String) : (s.after turns).Marked name ↔ name ∈
    s.start.changed ∨ ∃ earlier g, earlier ++ [name] <+: turns ∧ (s.after earlier).progress name = .told g := by
  induction turns using List.reverseRecOn with
  | nil => simp [Stage.Marked, after]
  | append_singleton turns last ih =>
    rw [(s.acts_after turns last).marked_iff, ih, or_assoc]
    refine or_congr_right ⟨?_, ?_⟩
    · rintro (⟨earlier, g, part, told⟩ | ⟨rfl, g, told⟩)
      · exact ⟨earlier, g, part.trans (List.prefix_append ..), told⟩
      · exact ⟨turns, g, List.prefix_rfl, told⟩
    · rintro ⟨earlier, g, part, told⟩
      rcases List.prefix_concat_iff.mp part with same | part
      · obtain ⟨rfl, rfl⟩ : earlier = turns ∧ name = last := by simpa using same
        exact .inr ⟨rfl, g, told⟩
      · exact .inl ⟨earlier, g, part, told⟩

theorem spares_of_failed (failed : s.final.progress name = .failed e) : s.Spares name := by
  have fruitless : ∀ later turns, ((s.after (turns ++ later)).progress name).IsFruitless →
      ((s.after turns).progress name).IsFruitless := by
    intro later turns
    induction later using List.reverseRecOn with
    | nil => simp
    | append_singleton later last ih =>
      rw [← append_assoc]
      exact fun ends => ih ((s.acts_after _ last).fruitless ends)
  rintro earlier ⟨later, turns⟩
  rw [final, ← turns, append_assoc] at failed
  exact (s.acts_after earlier name).spares (fruitless _ earlier (by rw [failed]; trivial))

theorem changed_iff {names : List String} (ends : s.Ends names r) (name : String) :
    name ∈ s.final.workspace.changed ↔ name ∈ s.start.changed ∨ s.Stores name := by
  have resting : s.final.progress name ≠ .stored := by
    intro stored
    by_cases mem : name ∈ names
    · cases r with
      | ok changed =>
        obtain ⟨c, finished⟩ := ends.2.1 name mem
        cases stored.symm.trans finished
      | error e =>
        have resting := ends.2.2 name mem
        rw [stored] at resting
        exact resting
    · have waiting := s.progress_of_notMem (fun turn => mem (ends.1 name turn))
      cases stored.symm.trans waiting
  rw [Stores, ← marked_after, ← final, Stage.Marked, or_iff_left resting]

end Sweep

/-- What work on a workspace leaves behind: functions that may be, and marks at those that were replaced. -/
structure Leaves (o w : Workspace) (history : List Sweep) (w' : Workspace) : Prop where
  kept : Stage.Keeps o { workspace := w } → Stage.Keeps o { workspace := w' }
  changed : ∀ name, name ∈ w'.changed ↔ name ∈ w.changed ∨ ∃ s ∈ history, s.Stores name

variable {w w' w'' o : Workspace} {history more : List Sweep} {names : List String} {passes : List Pass} {p : Pipeline}

theorem Leaves.refl (o w : Workspace) : Leaves o w [] w := ⟨id, by simp⟩

theorem Leaves.trans (first : Leaves o w history w') (second : Leaves o w' more w'') :
    Leaves o w (history ++ more) w'' := by
  refine ⟨second.kept ∘ first.kept, fun name => ?_⟩
  simp only [second.changed, first.changed, or_assoc, mem_append, or_and_right, exists_or]

theorem Leaves.write (leaves : Leaves o w history w') (level : LogLevel) (text : String) :
    Leaves o w history (w'.write level text) :=
  ⟨fun start => ⟨(leaves.kept start).names, (leaves.kept start).entries, fun _ => trivial⟩, leaves.changed⟩

theorem Sweep.leaves {s : Sweep} (builtIn : s.pass.BuiltIn) (ends : s.Ends names r) :
    Leaves o s.start [s] s.final.workspace := by
  refine ⟨fun start => ?_, fun name => by simpa using s.changed_iff ends name⟩
  have keeps := keeps_after builtIn start s.turns
  exact ⟨keeps.names, keeps.entries, fun _ => trivial⟩

theorem Passes.leaves (runs : Passes names passes w history r w') (builtIn : ∀ pass ∈ passes, pass.BuiltIn) :
    Leaves o w history w' := by
  induction runs with
  | nil => exact .refl o _
  | fails rest ends => exact Sweep.leaves (builtIn _ mem_cons_self) ends
  | cons ends others ih =>
    obtain ⟨first, rest⟩ := forall_mem_cons.mp builtIn
    exact (Sweep.leaves first ends).trans (ih rest)

theorem Passes.failed (runs : Passes names passes w history r w') (error : r = .error e) :
    ∃ s name, history.getLast? = some s ∧ s.final.progress name = .failed e := by
  induction runs with
  | nil => cases error
  | fails rest ends =>
    cases error
    obtain ⟨name, _, failed⟩ := ends.2.1
    exact ⟨_, name, rfl, failed⟩
  | @cons rest s changed history r w ends others ih =>
    cases r with
    | ok => cases error
    | error =>
      cases error
      obtain ⟨s, name, last, here⟩ := ih rfl
      exact ⟨s, name, by rw [List.getLast?_cons, last]; rfl, here⟩

theorem Rounds.leaves {r : Except Error Nat} (runs : Rounds p round fuel w history r w')
    (builtIn : ∀ pass ∈ p.passes, pass.BuiltIn) : Leaves o w history w' := by
  induction runs with
  | limit => exact .refl o _
  | fails passes => exact passes.leaves builtIn
  | stops passes => exact (passes.leaves builtIn).write ..
  | again passes others ih => exact ((passes.leaves builtIn).write ..).trans ih

theorem Rounds.failed {r : Except Error Nat} (runs : Rounds p round fuel w history r w') (error : r = .error e) :
    ∃ s name, history.getLast? = some s ∧ s.final.progress name = .failed e := by
  induction runs with
  | limit | stops => cases error
  | fails passes =>
    cases error
    exact passes.failed rfl
  | again passes others ih =>
    obtain ⟨s, name, last, here⟩ := ih error
    exact ⟨s, name, by rw [List.getLast?_append, last]; rfl, here⟩

/-- However the steps of a pipeline take their turns, one after the other as well, and however its run ends: the functions
have the names that they had, each is the one that was there or well formed, those are marked whose entry was replaced,
and a step that fails gives nothing to the workspace. -/
theorem runs_leave_good (p : Pipeline) (builtIn : ∀ pass ∈ p.passes, pass.BuiltIn) (w : Workspace)
    (own : ∀ name f, w.functions.get? name = some f → f.name = name) (unmarked : w.changed = ∅) :
    (∃ history, p.Runs w history (p.run.run.run w).1 (p.run.run.run w).2) ∧
    ∀ history r w', p.Runs w history r w' →
      w'.names = w.names ∧
      (∀ name f, w'.functions.get? name = some f →
        f.name = name ∧ (w.functions.get? name = some f ∨ f.check = .ok ())) ∧
      (∀ name, name ∈ w'.changed ↔ ∃ s ∈ history, s.Stores name) ∧
      (∀ e, r = .error e → ∃ s name, history.getLast? = some s ∧ s.final.progress name = .failed e) ∧
      ∀ s ∈ history, ∀ name e, s.final.progress name = .failed e → s.Spares name := by
  refine ⟨p.runs_run w, fun history r w' ⟨ended, rounds, last⟩ => ?_⟩
  have start : Stage.Keeps w { workspace := w } := ⟨fun _ => rfl, fun name f found => ⟨own name f found, .inl found⟩, fun _ => trivial⟩
  have leaves : Leaves w w history w' := by
    subst last
    unfold warned
    split
    · split
      · exact (rounds.leaves builtIn).write ..
      · exact rounds.leaves builtIn
    · exact rounds.leaves builtIn
  have keeps := leaves.kept start
  refine ⟨?_, keeps.entries, fun name => ?_, fun e error => rounds.failed error, fun s _ name e => Sweep.spares_of_failed⟩
  · refine congrArg OrdSet.toList (OrdSet.ext fun name => ?_)
    rw [OrdMap.mem_keys, OrdMap.mem_keys, keeps.names]
  · rw [leaves.changed, unmarked]
    simp

open Sample in
def halves : Workspace where
  functions := OrdMap.ofList [
    ("f", func ["xs"] [] [
      .each (node 10) (.name (name "x")) (var 11 "xs") ⟨⟨12⟩, [.effect (node 13) (var 14 "x")]⟩,
      .ret (node 15) (int 16 0)]),
    ("g", { func [] [] [.ret (node 17) (int 18 1)] with name := "g" })]
  session := { next := 20 }

def unrollFirst : Pipeline := ⟨[.unrolling ⟨2, .strict, some 0⟩], 3⟩

/-- The first function is unrolled; the second has no loop, which ends the run. -/
theorem runs_leave_good_halves :
    (unrollFirst.run.run.run halves).1 = .error (.noSuchLoop "g" 0 0) ∧
    (unrollFirst.run.run.run halves).2.changed.toList = ["f"] ∧
    ∃ history s, unrollFirst.Runs halves history (.error (.noSuchLoop "g" 0 0)) (unrollFirst.run.run.run halves).2 ∧
      (∃ s ∈ history, s.Stores "f") ∧ history.getLast? = some s ∧ ∃ name, s.Spares name := by
  have failed : (unrollFirst.run.run.run halves).1 = .error (.noSuchLoop "g" 0 0) := by decide +kernel
  have changed : (unrollFirst.run.run.run halves).2.changed.toList = ["f"] := by decide +kernel
  have builtIn : ∀ pass ∈ unrollFirst.passes, pass.BuiltIn := by
    intro pass member
    cases List.mem_singleton.mp member
    exact .unrolling _
  have named : ∀ entry ∈ halves.functions.entries, entry.2.name = entry.1 := by decide +kernel
  have own : ∀ name f, halves.functions.get? name = some f → f.name = name := fun name f found =>
    named _ (OrdMap.get?_eq_some_iff.mp found)
  obtain ⟨⟨history, runs⟩, good⟩ := runs_leave_good unrollFirst builtIn halves own rfl
  obtain ⟨_, _, marked, last, spares⟩ := good history _ _ runs
  obtain ⟨s, name, ended, stuck⟩ := last _ failed
  have listed : "f" ∈ (unrollFirst.run.run.run halves).2.changed := by decide +kernel
  exact ⟨failed, changed, history, s, failed ▸ runs, (marked "f").mp listed, ended, name,
    spares s (List.mem_of_getLast? ended) name _ stuck⟩

end Pipeline

end NumLang
