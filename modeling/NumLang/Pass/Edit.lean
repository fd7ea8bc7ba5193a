import NumLang.NameSupply
import NumLang.Pass.Event
import NumLang.Tree.Identity
import NumLang.WellFormed

/-!
Editing programs. An edit draws new identities and names, notes what it changes, and may fail; what it has
written to the log is kept even then.
-/

namespace NumLang

inductive LogLevel where
  | trace
  | debug
  | warn
deriving DecidableEq, Repr, Inhabited

def LogLevel.text : LogLevel → String
  | .trace => "TRACE"
  | .debug => "DEBUG"
  | .warn => "WARN"

structure LogLine where
  level : LogLevel
  message : String
deriving DecidableEq, Repr, Inhabited

def LogLine.text (l : LogLine) : String := l.level.text ++ " " ++ l.message

/-- What lasts from one edit to the next. -/
structure Session where
  /-- The next unused identity. -/
  next : Nat := 0
  log : List LogLine := []
deriving Inhabited

def Session.write (level : LogLevel) (message : String) (s : Session) : Session :=
  { s with log := s.log ++ [⟨level, message⟩] }

/-- What an edit has done, and at which node. -/
structure Change where
  kind : EventKind
  site : Option NodeId
  message : String
deriving DecidableEq, Repr, Inhabited

namespace Edit

structure State where
  session : Session
  /-- Names that the program does not use. -/
  names : NameSupply
  changes : List Change := []

end Edit

abbrev Edit := ExceptT Error (StateM Edit.State)

namespace Edit

def supplied {α : Type} (make : Supply α) : Edit α :=
  modifyGet fun s =>
    let (a, next) := make.run s.session.next
    (a, { s with session.next := next })

def node (loc : Option Loc := none) : Edit Node := do return ⟨← supplied Supply.fresh, loc⟩

def freshName (base : String) : Edit Name :=
  modifyGet fun s =>
    let (n, names) := s.names.fresh base
    (n, { s with names := names })

def refreshName (n : Name) : Edit Name := freshName n.base

def reserveName (n : Name) : Edit Unit := modify fun s => { s with names := s.names.reserve n }

def note (kind : EventKind) (site : Option NodeId) (message : String) : Edit Unit :=
  modify fun s => { s with changes := s.changes ++ [⟨kind, site, message⟩] }

def noteAt (kind : EventKind) (site : NodeId) (message : String) : Edit Unit := note kind (some site) message

def trace (text : String) : Edit Unit := modify fun s => { s with session := s.session.write .trace text }

/-! ### New parts of programs -/

def var (n : Name) : Edit Expr := do return .var (← node) n
def lit (value : Literal) : Edit Expr := do return .lit (← node) value
def nat (n : Nat) : Edit Expr := lit (.integer n)
def assign (target : Binder) (value : Expr) : Edit Stmt := do return .assign (← node) target none value
def skip : Edit Stmt := do return .skip (← node)

def block (stmts : List Stmt) : Edit Block := do return ⟨← supplied Supply.fresh, stmts⟩

def refreshNames (table : NameMap Name) (names : List Name) : Edit (NameMap Name) :=
  names.foldlM (fun table n => do return table.insert n (← refreshName n)) table

end Edit

end NumLang
