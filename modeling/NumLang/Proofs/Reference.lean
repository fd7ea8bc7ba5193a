import NumLang.Proofs.Semantics

/-!
The reference evaluator: exact arithmetic on numbers and truth values.
-/

namespace NumLang

namespace Machine

def reference : Machine Value Unit where
  literal l := l.value?.map Value.ofHost
  apply _ form args := form.operate? id args
  truth := Value.asBool?
  spread target v :=
    match target with
    | .name _ => some [v]
    | _ => none
  elements _ := none
  replace _ _ _ := none
  enter := none

def withLists : Machine Value Unit := { reference with elements := Value.asList? }

end Machine

namespace Reference

def fuel : Nat := 10000

/-- The value that a function returns for the given arguments. Free names hold nothing. -/
def run (f : Func) (args : List Value) : Option Value :=
  Machine.reference.run () fuel f (fun _ => none) args

end Reference

namespace Sample

/-! Parts of small programs, each with its identity. -/

def node (id : Nat) : Node := ⟨⟨id⟩, none⟩

def name (text : String) : Name := ⟨text, none⟩

def var (id : Nat) (text : String) : Expr := .var (node id) (name text)

def int (id : Nat) (n : Int) : Expr := .lit (node id) (.integer n)

def add (id : Nat) (lhs rhs : Expr) : Expr := .binary (node id) .add none lhs rhs

def less (id : Nat) (lhs rhs : Expr) : Expr := .compare (node id) [.lt] [lhs, rhs]

def set (id : Nat) (text : String) (value : Expr) : Stmt := .assign (node id) (.name (name text)) none value

def func (params : List String) (free : List String) (body : List Stmt) : Func where
  id := ⟨0⟩
  name := "f"
  params := params.zipIdx.map fun (text, i) => { id := ⟨i + 1⟩, name := some (name text) }
  body := ⟨⟨9⟩, body⟩
  freeVars := OrdSet.ofList (free.map name)
  ctx := none
  metadata := ∅
  env := ∅
  loc := none

end Sample

end NumLang
