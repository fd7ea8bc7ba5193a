import NumLang.Rounding

/-!
Values that a program takes over from the system it is embedded in.
-/

namespace NumLang

inductive HostValue where
  | bool (b : Bool)
  | number (r : Rat)
  | context (c : Context)
  | mode (rm : RoundingMode)
  | tuple (elts : List HostValue)
  /-- Anything else, known by name only. -/
  | object (name : String)
deriving Repr, Inhabited

namespace HostValue

def int (n : Int) : HostValue := .number n

def asBool? : HostValue → Option Bool
  | .bool b => some b
  | _ => none

def asNumber? : HostValue → Option Rat
  | .number r => some r
  | _ => none

def tupleText (elts : List String) : String :=
  match elts with
  | [single] => "(" ++ single ++ ",)"
  | _ => "(" ++ ", ".intercalate elts ++ ")"

mutual

def text : HostValue → String
  | .bool b => Context.truthText b
  | .number r => Numeral.text r
  | .context c => c.text
  | .mode rm => rm.text
  | .tuple elts => tupleText (texts elts)
  | .object name => "<" ++ name ++ ">"

def texts : List HostValue → List String
  | [] => []
  | v :: rest => v.text :: texts rest

end

mutual

def same : HostValue → HostValue → Bool
  | .bool a, .bool b => a = b
  | .number a, .number b => a = b
  | .context a, .context b => a = b
  | .mode a, .mode b => a = b
  | .tuple as, .tuple bs => sameAll as bs
  | .object a, .object b => a = b
  | _, _ => false

def sameAll : List HostValue → List HostValue → Bool
  | [], [] => true
  | a :: as, b :: bs => a.same b && sameAll as bs
  | _, _ => false

end

mutual

theorem same_iff (a b : HostValue) : a.same b = true ↔ a = b := by
  cases a <;> cases b <;> simp [same, sameAll_iff]

theorem sameAll_iff (as bs : List HostValue) : sameAll as bs = true ↔ as = bs := by
  cases as <;> cases bs <;> simp [sameAll, same_iff, sameAll_iff]

end

instance : DecidableEq HostValue := fun a b => decidable_of_iff _ (same_iff a b)

end HostValue

end NumLang
