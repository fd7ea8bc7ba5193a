/-!
Partitions of a growing set into classes, kept as a forest: each element points to a parent, and the root of its tree
stands for its class.
-/

namespace NumLang

/-- A forest over distinct elements, in the order in which they were added; roots point to themselves. -/
structure Partition (α : Type) where
  elements : List α := []
  parents : List Nat := []
deriving Repr, Inhabited

namespace Partition

variable {α : Type}

def rootFrom (parents : List Nat) : (fuel slot : Nat) → Nat
  | 0, slot => slot
  | fuel + 1, slot =>
    let parent := parents.getD slot slot
    if parent = slot then slot else rootFrom parents fuel parent

def compress (root : Nat) : (fuel slot : Nat) → List Nat → List Nat
  | 0, _, parents => parents
  | fuel + 1, slot, parents =>
    let parent := parents.getD slot root
    if parent = root then parents else compress root fuel parent (parents.set slot root)

def root (slot : Nat) (p : Partition α) : Nat := rootFrom p.parents p.parents.length slot

def locate (slot : Nat) (p : Partition α) : Nat × Partition α :=
  let r := p.root slot
  (r, { p with parents := compress r p.parents.length slot p.parents })

def size (p : Partition α) : Nat := p.elements.length
def isEmpty (p : Partition α) : Bool := p.elements.isEmpty

variable [DecidableEq α]

def slot? (x : α) (p : Partition α) : Option Nat := p.elements.idxOf? x

def insert (x : α) (p : Partition α) : Partition α :=
  if x ∈ p.elements then p
  else { elements := p.elements ++ [x], parents := p.parents ++ [p.elements.length] }

def find? (x : α) (p : Partition α) : Option α × Partition α :=
  match p.slot? x with
  | none => (none, p)
  | some slot =>
    let (r, p) := p.locate slot
    (p.elements[r]?, p)

def add (x : α) (p : Partition α) : Option α × Partition α := (p.insert x).find? x

/-- Merges two classes, whose elements are added where they are missing. The representative of the first
class is the representative of the merged one. -/
def union (a b : α) (p : Partition α) : Option α × Partition α :=
  let (_, p) := p.add a
  let (_, p) := p.add b
  match p.slot? a, p.slot? b with
  | some i, some j =>
    let (r, p) := p.locate i
    let (s, p) := p.locate j
    (p.elements[r]?, if r = s then p else { p with parents := p.parents.set s r })
  | _, _ => (none, p)

def same (a b : α) (p : Partition α) : Bool × Partition α :=
  let (r, p) := p.find? a
  let (s, p) := p.find? b
  (r.isSome && r == s, p)

def locateAll : (count first : Nat) → Partition α → List (Nat × Nat) × Partition α
  | 0, _, p => ([], p)
  | count + 1, first, p =>
    let (r, p) := p.locate first
    let (rest, p) := locateAll count (first + 1) p
    ((first, r) :: rest, p)

def component (x : α) (p : Partition α) : List α × Partition α :=
  match p.slot? x with
  | none => ([], p)
  | some slot =>
    let (r, p) := p.locate slot
    let (located, p) := locateAll p.size 0 p
    ((located.filter (·.2 = r)).filterMap fun entry => p.elements[entry.1]?, p)

def representatives (p : Partition α) : List α × Partition α :=
  let (located, p) := locateAll p.size 0 p
  ((located.filter fun entry => entry.1 = entry.2).filterMap fun entry => p.elements[entry.1]?, p)

end Partition

end NumLang
