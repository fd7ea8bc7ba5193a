import NumLang.Ordered.Map
import NumLang.Numeral

/-!
Plain data, as programs are handed over in: nothing, truth values, numbers, texts, lists and records.
-/

namespace NumLang

inductive Data where
  | null
  | bool (b : Bool)
  /-- The number `mantissa / 10 ^ places`. -/
  | number (mantissa : Int) (places : Nat)
  | text (s : String)
  | list (elts : List Data)
  | record (fields : List (String × Data))
deriving Inhabited

namespace Data

mutual

def depth : Data → Nat
  | .list elts => depths elts + 1
  | .record fields => fieldDepths fields + 1
  | .null | .bool _ | .number _ _ | .text _ => 0

def depths : List Data → Nat
  | [] => 0
  | d :: rest => max d.depth (depths rest)

def fieldDepths : List (String × Data) → Nat
  | [] => 0
  | (_, d) :: rest => max d.depth (fieldDepths rest)

end

def nat (n : Nat) : Data := .number n 0
def int (n : Int) : Data := .number n 0
def texts (l : List String) : Data := .list (l.map .text)
def ofList {α : Type} (write : α → Data) (l : List α) : Data := .list (l.map write)

def ofOption {α : Type} (write : α → Data) : Option α → Data
  | some a => write a
  | none => .null

def isNull : Data → Bool
  | .null => true
  | _ => false

def field (d : Data) (key : String) : Data :=
  match d with
  | .record fields => (fields.lookup key).getD .null
  | _ => .null

def elt (d : Data) (i : Nat) : Data :=
  match d with
  | .list elts => (elts[i]?).getD .null
  | _ => .null

def text? : Data → Option String
  | .text s => some s
  | _ => none

def bool? : Data → Option Bool
  | .bool b => some b
  | _ => none

def list? : Data → Option (List Data)
  | .list elts => some elts
  | _ => none

def isRecord : Data → Bool
  | .record _ => true
  | _ => false

def listOf? {α : Type} (read : Data → Option α) (d : Data) : Option (List α) := do (← d.list?).mapM read

def listOr? {α : Type} (read : Data → Option α) (d : Data) : Option (List α) :=
  if d.isNull then some [] else d.listOf? read

def optional? {α : Type} (read : Data → Option α) (d : Data) : Option (Option α) :=
  if d.isNull then some none else (read d).map some

def intIn? (low high : Int) : Data → Option Int
  | .number n 0 => if low ≤ n ∧ n < high then some n else none
  | _ => none

def size? (d : Data) : Option Nat := (d.intIn? 0 0x10000000000000000).map Int.toNat
def width? (d : Data) : Option Nat := (d.intIn? 0 0x100000000).map Int.toNat
def position? (d : Data) : Option Int := d.intIn? (-0x8000000000000000) 0x8000000000000000

def natOfChars? (cs : List Char) : Option Nat :=
  if cs.isEmpty || !cs.all Numeral.isDigit then none else some (Numeral.ofDigitChars cs)

def intOfChars? : List Char → Option Int
  | '-' :: rest => (natOfChars? rest).map fun n => -(n : Int)
  | cs => (natOfChars? cs).map Int.ofNat

def big? (d : Data) : Option Int := do intOfChars? (← d.text?).toList

def big (n : Int) : Data := .text (toString n)

def rat? (d : Data) : Option Rat := do
  match (← d.text?).splitOn "/" with
  | [p] => return ((← intOfChars? p.toList : Int) : Rat)
  | [p, q] => Numeral.fraction? (← intOfChars? p.toList) (← intOfChars? q.toList)
  | _ => none

def rat (r : Rat) : Data := .text (if r.den = 1 then toString r.num else s!"{r.num}/{r.den}")

def table? {α : Type} (read : Data → Option α) : Data → Option (OrdMap String α)
  | .null => some ∅
  | .record fields => do
    return OrdMap.ofList (← fields.mapM fun (key, d) => do return (key, ← read d))
  | _ => none

def ofTable {α : Type} (write : α → Data) (m : OrdMap String α) : Data :=
  .record (m.entries.map fun (key, a) => (key, write a))

end Data

end NumLang
