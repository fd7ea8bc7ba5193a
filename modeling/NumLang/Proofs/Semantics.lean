import NumLang.Flow.Definition
import NumLang.Proofs.Children
import NumLang.Proofs.Ordered
import NumLang.Proofs.Value

/-!
Running programs. What a program computes with is a machine: its values, its rounding contexts and what the forms of
expressions do to them.
-/

namespace NumLang

/-- What programs compute with: values in `V` under rounding contexts in `C`. -/
structure Machine (V C : Type) where
  literal : Literal → Option V
  /-- The value of a form of expression from the values of its parts. -/
  apply : C → Form → List V → Option V
  truth : V → Option Bool
  /-- The values that the names of a left side take from one value. -/
  spread : Binder → V → Option (List V)
  /-- The values that a `for` loop goes through. -/
  elements : V → Option (List V)
  /-- A list with one element replaced. -/
  replace : V → List V → V → Option V
  /-- The context that a value stands for; without this, contexts are passed over and cannot be named. -/
  enter : Option (C → V → Option C)

/-- Why a run does not go on. -/
inductive Fault where
  /-- A name is read that holds nothing. -/
  | unbound (n : Name)
  /-- Anything else: no value is defined, an assertion fails or the fuel is used up. -/
  | stuck
deriving DecidableEq, Repr, Inhabited

/-- What a name holds, and the binder that wrote it. -/
structure Cell (V : Type) where
  value : V
  writer : Site
deriving DecidableEq, Repr, Inhabited

abbrev Store (V : Type) := NameMap (Cell V)

/-- Where a run is seen. -/
inductive Point where
  /-- Before a statement. -/
  | stmt (id : NodeId)
  /-- Before the test of a `while` loop with the given body. -/
  | test (loop body : NodeId)
  /-- Before a `for` loop takes its next value. -/
  | draw (loop : NodeId)
deriving DecidableEq, Repr, Inhabited

def Stmt.point : Stmt → Point
  | .loop node _ body => .test node.id body.id
  | s => .stmt s.id

/-- What is seen of a run at a point. -/
structure Moment (V C : Type) where
  point : Point
  context : C
  store : Store V

structure State (V : Type) where
  store : Store V
  fuel : Nat

/-- How a statement ends. -/
inductive Exit (V : Type) where
  | next
  | ret (v : V)
  | fault (f : Fault)
deriving DecidableEq, Repr, Inhabited

/-- An execution: what was seen of it, how it ended and where. -/
structure Outcome (V C : Type) where
  trace : List (Moment V C)
  exit : Exit V
  state : State V

/-- The expressions from whose values the value of an expression is computed. -/
def Expr.operands : Expr → List Expr
  | .unary _ _ _ arg => [arg]
  | .binary _ _ _ lhs rhs => [lhs, rhs]
  | .ternary _ _ _ first second third => [first, second, third]
  | .nary _ _ _ args | .compare _ _ args | .tuple _ args | .list _ args | .context _ _ args [] => args
  | .index _ value position => [value, position]
  | .cond _ test ift iff => [test, ift, iff]
  | _ => []

/-- What an expression applies to the values of its parts, if it needs them all. -/
def Expr.form? : Expr → Option Form
  | .const _ op _ => some (.constant op)
  | .unary _ op _ _ => some (.unary op)
  | .binary _ op _ _ _ => some (.binary op)
  | .ternary _ op _ _ _ _ => some (.ternary op)
  | .nary _ op _ _ => some (.nary op)
  | .compare _ ops _ => some (.compare ops)
  | .tuple .. => some .tuple
  | .list .. => some .list
  | .index .. => some .index
  | .context _ ctor _ [] => some (.context ctor)
  | _ => none

def Expr.isValueless : Expr → Bool
  | .context _ _ _ (_ :: _) | .call .. | .comprehension .. | .slice .. | .update .. => true
  | _ => false

/-- How an expression gets its value. -/
inductive Expr.Valued : Expr → Prop where
  | var {node n} : Valued (.var node n)
  | lit {node value} : Valued (.lit node value)
  | cond {node test ift iff} : Valued (.cond node test ift iff)
  | form {e form} (formed : e.form? = some form) : Valued e
  | none {e} (valueless : e.isValueless = true) : Valued e

theorem Expr.valued (e : Expr) : e.Valued := by
  cases e with
  | var => exact .var
  | lit => exact .lit
  | cond => exact .cond
  | context _ _ _ kwargs =>
    cases kwargs with
    | nil => exact .form rfl
    | cons => exact .none rfl
  | call | comprehension | slice | update => exact .none rfl
  | _ => exact .form rfl

theorem Expr.operands_of_form {e : Expr} (formed : e.form? = some form) : e.operands = e.children := by
  cases e with
  | context _ _ args kwargs =>
    cases kwargs with
    | nil => exact (append_nil args).symm
    | cons => cases formed
  | var | lit | cond | call | comprehension | slice | update => cases formed
  | _ => rfl

theorem Expr.mem_children_of_operands {e part : Expr} (mem : part ∈ e.operands) :
    e.onlyParts = true ∧ part ∈ e.children := by
  cases e with
  | context node ctor args kwargs =>
    cases kwargs with
    | nil => exact ⟨rfl, mem_append_left _ mem⟩
    | cons => cases mem
  | unary | binary | ternary | nary | compare | tuple | list | index | cond => exact ⟨rfl, mem⟩
  | _ => cases mem

theorem toOption_bind {ε α β : Type} (x : Except ε α) (k : α → Except ε β) :
    (x >>= k).toOption = x.toOption.bind fun a => (k a).toOption := by
  cases x <;> rfl

def demand {α : Type} : Option α → Except Fault α
  | some a => .ok a
  | none => .error .stuck

theorem demand_ok : demand x = .ok a ↔ x = some a := by
  cases x <;> simp [demand]

variable {V C : Type}

namespace Store

def writeAll (site : Site) : List (Name × V) → Store V → Store V
  | [], σ => σ
  | (n, v) :: rest, σ => writeAll site rest (σ.insert n ⟨v, site⟩)

def read (σ : Store V) (n : Name) : Except Fault V :=
  match σ.get? n with
  | some cell => .ok cell.value
  | none => .error (.unbound n)

theorem read_eq_ok_iff {σ : Store V} : σ.read n = .ok v ↔ (σ.get? n).map Cell.value = some v := by
  unfold read
  cases σ.get? n with
  | none => simp
  | some cell => simp

def value? (σ : Store V) (n : Name) : Option V := (σ.get? n).map Cell.value

end Store

def State.write (site : Site) (writes : List (Name × V)) (σ : State V) : State V :=
  ⟨σ.store.writeAll site writes, σ.fuel⟩

namespace Outcome

def done (σ : State V) : Outcome V C := ⟨[], .next, σ⟩

def failed (f : Fault) (σ : State V) : Outcome V C := ⟨[], .fault f, σ⟩

def attempt {α : Type} (x : Except Fault α) (σ : State V) (k : α → Outcome V C) : Outcome V C :=
  match x with
  | .ok a => k a
  | .error f => failed f σ

def after (trace : List (Moment V C)) : Outcome V C → Outcome V C
  | ⟨later, exit, σ⟩ => ⟨trace ++ later, exit, σ⟩

def andThen : Outcome V C → (State V → Outcome V C) → Outcome V C
  | ⟨trace, .next, σ⟩, k => after trace (k σ)
  | o, _ => o

def forEach {α : Type} (body : α → State V → Outcome V C) : List α → State V → Outcome V C
  | [], σ => done σ
  | a :: rest, σ => (body a σ).andThen (forEach body rest)

/-- Executes a body as long as a test holds. Each round takes one unit of fuel; as the fuel never grows, the
amount at the start bounds the number of rounds. -/
def repeatWhile (moment : Store V → Moment V C) (test : Store V → Except Fault Bool)
    (body : State V → Outcome V C) : (rounds : Nat) → State V → Outcome V C
  | rounds, σ => after [moment σ.store] <| attempt (test σ.store) σ fun holds =>
    if holds then
      match rounds, σ.fuel with
      | rounds + 1, fuel + 1 => (body ⟨σ.store, fuel⟩).andThen (repeatWhile moment test body rounds)
      | _, _ => failed .stuck σ
    else done σ

end Outcome

namespace Machine

variable (m : Machine V C)

mutual

def eval (c : C) (σ : Store V) : Expr → Except Fault V
  | .var _ name => σ.read name
  | .lit _ value => demand (m.literal value)
  | .const _ op _ => demand (m.apply c (.constant op) [])
  | .unary _ op _ arg => do demand (m.apply c (.unary op) [← eval c σ arg])
  | .binary _ op _ lhs rhs => do
    let lhs ← eval c σ lhs
    let rhs ← eval c σ rhs
    demand (m.apply c (.binary op) [lhs, rhs])
  | .ternary _ op _ first second third => do
    let first ← eval c σ first
    let second ← eval c σ second
    let third ← eval c σ third
    demand (m.apply c (.ternary op) [first, second, third])
  | .nary _ op _ args => do demand (m.apply c (.nary op) (← evalAll c σ args))
  | .compare _ ops args => do demand (m.apply c (.compare ops) (← evalAll c σ args))
  | .tuple _ elts => do demand (m.apply c .tuple (← evalAll c σ elts))
  | .list _ elts => do demand (m.apply c .list (← evalAll c σ elts))
  | .index _ value position => do
    let value ← eval c σ value
    let position ← eval c σ position
    demand (m.apply c .index [value, position])
  | .context _ ctor args [] => do demand (m.apply c (.context ctor) (← evalAll c σ args))
  | .cond _ test ift iff => do
    if ← demand (m.truth (← eval c σ test)) then eval c σ ift else eval c σ iff
  | .context .. | .call .. | .comprehension .. | .slice .. | .update .. => .error .stuck

def evalAll (c : C) (σ : Store V) : List Expr → Except Fault (List V)
  | [] => .ok []
  | e :: rest => do
    let first ← eval c σ e
    let others ← evalAll c σ rest
    return first :: others

end

theorem eval_form {e : Expr} (formed : e.form? = some form) (c : C) (σ : Store V) :
    m.eval c σ e = m.evalAll c σ e.children >>= fun vs => demand (m.apply c form vs) := by
  cases e with
  | context _ _ args kwargs =>
    cases kwargs with
    | nil =>
      cases formed
      rw [Expr.children, map_nil, append_nil]
      rfl
    | cons => cases formed
  | var | lit | cond | call | comprehension | slice | update => cases formed
  | nary | compare | tuple | list =>
    cases formed
    rfl
  | _ =>
    cases formed
    simp only [eval, evalAll, Expr.children, bind_assoc, pure_bind]
    rfl

theorem eval_valueless {e : Expr} (valueless : e.isValueless = true) (c : C) (σ : Store V) :
    m.eval c σ e = .error .stuck := by
  cases e with
  | context _ _ _ kwargs =>
    cases kwargs with
    | nil => cases valueless
    | cons => rfl
  | call | comprehension | slice | update => rfl
  | _ => cases valueless

def test (c : C) (σ : Store V) (e : Expr) : Except Fault Bool := do demand (m.truth (← m.eval c σ e))

def writes (target : Binder) (v : V) : Except Fault (List (Name × V)) := do
  let values ← demand (m.spread target v)
  if values.length = target.names.length then return target.names.zip values else .error .stuck

def assigned (c : C) (σ : Store V) (target : Binder) (value : Expr) : Except Fault (List (Name × V)) := do
  m.writes target (← m.eval c σ value)

/-- The list that a name holds after one of its elements is replaced. -/
def replaced (c : C) (σ : Store V) (name : Name) (path : List Expr) (value : Expr) : Except Fault V := do
  let path ← m.evalAll c σ path
  let value ← m.eval c σ value
  demand (m.replace (← σ.read name) path value)

def drawn (c : C) (σ : Store V) (iterable : Expr) : Except Fault (List V) := do
  demand (m.elements (← m.eval c σ iterable))

/-- The context that a `with` statement enters, and what it writes. -/
def entered (c : C) (σ : Store V) (name : Option Name) (ctx : Expr) :
    Except Fault (C × List (Name × V)) :=
  match m.enter, name with
  | none, none => .ok (c, [])
  | none, some _ => .error .stuck
  | some enter, name => do
    let v ← m.eval c σ ctx
    return (← demand (enter c v), name.toList.map (·, v))

mutual

def exec : Stmt → C → State V → Outcome V C
  | .assign node target _ value, c, σ =>
    .attempt (m.assigned c σ.store target value) σ fun writes => .done (σ.write ⟨.stmt, node.id⟩ writes)
  | .store node name path value, c, σ =>
    .attempt (m.replaced c σ.store name path value) σ fun v => .done (σ.write ⟨.stmt, node.id⟩ [(name, v)])
  | .when _ test body, c, σ =>
    .attempt (m.test c σ.store test) σ fun holds => if holds then execBlock body c σ else .done σ
  | .branch _ test ift iff, c, σ =>
    .attempt (m.test c σ.store test) σ fun holds => if holds then execBlock ift c σ else execBlock iff c σ
  | .loop node test body, c, σ =>
    .repeatWhile (⟨.test node.id body.id, c, ·⟩) (m.test c · test) (fun σ => execBlock body c σ) σ.fuel σ
  | .each node target iterable body, c, σ =>
    .attempt (m.drawn c σ.store iterable) σ fun elements =>
      .forEach (fun v σ => .after [⟨.draw node.id, c, σ.store⟩] <|
        .attempt (m.writes target v) σ fun writes => execBlock body c (σ.write ⟨.stmt, node.id⟩ writes)) elements σ
  | .scope node name ctx body, c, σ =>
    .attempt (m.entered c σ.store name ctx) σ fun (inner, writes) =>
      execBlock body inner (σ.write ⟨.stmt, node.id⟩ writes)
  | .assert _ test _, c, σ =>
    .attempt (m.test c σ.store test) σ fun holds => if holds then .done σ else .failed .stuck σ
  | .effect _ value, c, σ => .attempt (m.eval c σ.store value) σ fun _ => .done σ
  | .ret _ value, c, σ => .attempt (m.eval c σ.store value) σ fun v => ⟨[], .ret v, σ⟩
  | .skip _, _, σ => .done σ

def execBlock : Block → C → State V → Outcome V C
  | ⟨_, stmts⟩, c, σ => execStmts stmts c σ

def execStmts : List Stmt → C → State V → Outcome V C
  | [], _, σ => .done σ
  | s :: rest, c, σ => (Outcome.after [⟨.stmt s.id, c, σ.store⟩] (exec s c σ)).andThen fun σ => execStmts rest c σ

end

/-- Gives the parameters their values, in order; a parameter without a name takes none. -/
def bindArgs : List Param → List V → Store V → Option (Store V)
  | [], [], σ => some σ
  | p :: params, v :: args, σ =>
    match p.name with
    | some n => bindArgs params args (σ.insert n ⟨v, ⟨.param, p.id⟩⟩)
    | none => none
  | _, _, _ => none

def bindFree (site : NodeId) (free : Name → Option V) : List Name → Store V → Store V
  | [], σ => σ
  | n :: rest, σ =>
    match free n with
    | some v => bindFree site free rest (σ.insert n ⟨v, ⟨.free, site⟩⟩)
    | none => bindFree site free rest σ

theorem get?_bindFree (site : NodeId) (free : Name → Option V) (names : List Name) (σ : Store V) (n : Name) :
    (bindFree site free names σ).get? n = if n ∈ names then ((free n).map (⟨·, ⟨.free, site⟩⟩)).or (σ.get? n) else
    σ.get? n := by
  induction names generalizing σ with
  | nil => simp [bindFree]
  | cons first rest ih =>
    unfold bindFree
    by_cases same : n = first
    · subst same
      cases value : free n <;> simp [ih, value]
    · cases value : free first <;> simp [ih, same]

theorem get?_bindArgs {params : List Param} {σ τ : Store V} (bound : bindArgs params args σ = some τ)
    (absent : n ∉ params.filterMap (·.name)) : τ.get? n = σ.get? n := by
  induction params generalizing args σ with
  | nil =>
    cases args with
    | nil =>
      cases bound
      rfl
    | cons v rest => cases bound
  | cons p params ih =>
    cases args with
    | nil => cases bound
    | cons v rest =>
      cases named : p.name with
      | none => simp [bindArgs, named] at bound
      | some name =>
        simp only [bindArgs, named] at bound
        simp only [filterMap_cons, named, mem_cons, not_or] at absent
        rw [ih bound absent.2, OrdMap.get?_insert, if_neg absent.1]

def start (f : Func) (free : Name → Option V) (args : List V) : Option (Store V) :=
  bindArgs f.params args (bindFree f.id free f.freeVars.toList ∅)

def execFunc (c : C) (fuel : Nat) (f : Func) (free : Name → Option V) (args : List V) :
    Option (Outcome V C) :=
  (start f free args).map fun store => m.execBlock f.body c ⟨store, fuel⟩

def run (c : C) (fuel : Nat) (f : Func) (free : Name → Option V) (args : List V) : Option V := do
  match (← m.execFunc c fuel f free args).exit with
  | .ret v => some v
  | _ => none

end Machine

end NumLang
