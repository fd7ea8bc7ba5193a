import NumLang.Pass.Edit

/-!
Passes: changes to one function at a time. The result of a pass is checked, and only then is it said what the
pass has done.
-/

namespace NumLang

/-- What is done to the functions of a program, and how often. -/
structure Config where
  /-- How many times the passes are gone through at most. -/
  maxIterations : Nat := 10
  parallel : Bool := true
  inlining : Bool := true
  /-- How many statements a function may have that is put in place of its calls. -/
  inlineThreshold : Nat := 64
  constantFolding : Bool := true
  copyPropagation : Bool := true
  deadCodeElimination : Bool := true
  simplifyIf : Bool := false
  contextLifting : Bool := false
deriving DecidableEq, Repr, Inhabited

/-- A change to a function. It gives the new function and the events; there are none if nothing changed. -/
structure Pass where
  name : String
  description : String := "No description available"
  /-- Whether there is anything to do. -/
  applies : Func → Bool := fun _ => true
  run : Config → Func → StateM Session (Except Error (Func × EventLog))

def Change.toEvent (pass func : String) (c : Change) : Event where
  kind := c.kind
  function := some func
  node := c.site
  pass := some pass
  message := c.message

namespace Edit

def finish (pass : String) (f : Func) (changes : List Change) (s : Session) :
    Except Error (Func × EventLog) × Session :=
  match f.verify pass with
  | .error e => (.error e, s)
  | .ok () =>
    let events : EventLog := changes.map (·.toEvent pass f.name)
    let s := if events.isEmpty then s
      else s.write .debug (pass ++ " on `" ++ f.name ++ "`: " ++ events.summary)
    (.ok (f, events), s)

def perform (pass : String) (edit : Func → Edit Func) (f : Func) :
    StateM Session (Except Error (Func × EventLog)) := fun session =>
  match (edit f).run.run { session := session, names := .ofFunc f } with
  | (.error e, s) => (.error e, s.session)
  | (.ok made, s) => finish pass made s.changes s.session

end Edit

namespace Pass

def ofEdit (name description : String) (edit : Func → Edit Func) : Pass where
  name := name
  description := description
  run _ := Edit.perform name edit

def noop : Pass where
  name := "noop"
  run _ f := return .ok (f, [])

end Pass

end NumLang
