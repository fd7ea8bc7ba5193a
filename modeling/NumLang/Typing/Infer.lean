import NumLang.Flow.Uses
import NumLang.Typing.Signature

/-!
Type inference. Every definition has a type, and every use has the type of the definition it reads; what meets
in a join has one type.
-/

namespace NumLang

/-- The types of a function, as far as they are determined. -/
structure Typing where
  params : List Ty
  ret : Ty
  defs : List Ty
  exprs : NodeMap Ty

namespace Typing

def signature (t : Typing) : Ty := .function t.params t.ret

def ofDef? (t : Typing) (d : DefId) : Option Ty := t.defs[d]?

def ofExpr? (t : Typing) (expr : NodeId) : Option Ty := t.exprs.get? expr

def isMonomorphic (t : Typing) : Bool := t.signature.isMonomorphic

end Typing

namespace Infer

/-- What has been found so far. -/
structure State where
  /-- The number of variables made. -/
  next : Nat := 0
  solution : Solution := []
  /-- The types that the variables of annotations stand for. -/
  named : List (String × Ty) := []
  exprs : List (NodeId × Ty) := []

end Infer

abbrev Infer := StateT Infer.State (Except Error)

namespace Infer

def fresh : Infer Ty :=
  modifyGet fun s => (.var s.next, { s with next := s.next + 1 })

def freshRange (n : Nat) : Infer Nat :=
  modifyGet fun s => (s.next, { s with next := s.next + n })

def unify (site : NodeId) (expected actual : Ty) : Infer Unit := fun s =>
  match s.solution.unify expected actual with
  | .ok solution => .ok ((), { s with solution := solution })
  | .error (a, b) => .error (.typeConflict site a b)

def resolved (t : Ty) : Infer Ty := do return (← get).solution.resolve t

def expecting (site : NodeId) (expected : Ty) (found : Infer Ty) : Infer Unit := do
  unify site expected (← found)

def noted (node : Node) (found : Infer Ty) : Infer Ty := do
  let t ← found
  modify fun s => { s with exprs := (node.id, t) :: s.exprs }
  return t

mutual

def ofAnn : Ann → Infer Ty
  | .any => fresh
  | .bool => pure .bool
  | .real _ => pure .real
  | .context => pure .context
  | .tuple elts => do return .tuple (← ofAnns elts)
  | .list elt => do return .list (← ofAnn elt)
  | .var v => do
    match (← get).named.lookup v with
    | some t => return t
    | none =>
      let t ← fresh
      modify fun s => { s with named := (v, t) :: s.named }
      return t

def ofAnns : List Ann → Infer (List Ty)
  | [] => pure []
  | a :: rest => do return (← ofAnn a) :: (← ofAnns rest)

end

mutual

def ofHost : HostValue → Infer Ty
  | .bool _ => pure .bool
  | .number _ => pure .real
  | .context _ => pure .context
  | .tuple elts => do return .tuple (← ofHosts elts)
  | .mode _ | .object _ => fresh

def ofHosts : List HostValue → Infer (List Ty)
  | [] => pure []
  | v :: rest => do return (← ofHost v) :: (← ofHosts rest)

end

def ofLiteral : Literal → Infer Ty
  | .bool _ => pure .bool
  | .host v => ofHost v
  | _ => pure .real

def ofDef (u : Uses) (d : DefId) : Infer Ty :=
  if d < u.reach.size then pure (.var (d + 1)) else throw (.malformed (.unknownDefinition d))

def bindName (u : Uses) (site : NodeId) (name : Name) (t : Ty) : Infer Unit := do
  match u.reach.defAt? site name with
  | some d => unify site (← ofDef u d) t
  | none => throw (.malformed (.undefinedAt name site))

def freshList : (n : Nat) → Infer (List Ty)
  | 0 => pure []
  | n + 1 => do return (← fresh) :: (← freshList n)

def tupleParts (site : NodeId) (n : Nat) (t : Ty) : Infer (List Ty) := do
  match ← resolved t with
  | .tuple types => if types.length = n then return types else throw (.arityMismatch site n types.length)
  | other =>
    let types ← freshList n
    unify site (.tuple types) other
    return types

mutual

def bind (u : Uses) (site : NodeId) : Binder → Ty → Infer Unit
  | .wildcard, _ => pure ()
  | .name n, t => bindName u site n t
  | .tuple parts, t => do bindAll u site parts (← tupleParts site parts.length t)

def bindAll (u : Uses) (site : NodeId) : List Binder → List Ty → Infer Unit
  | part :: parts, t :: types => do
    bind u site part t
    bindAll u site parts types
  | _, _ => pure ()

end

def operator (site : NodeId) (op : Operator) (arity : Nat) : Infer Signature := do
  match op.signature? arity with
  | none => throw (.arityMismatch site 1 arity)
  | some signature =>
    let first ← freshRange signature.vars
    if signature.params.length = arity then return signature.subst fun v => .var (first + v)
    else throw (.arityMismatch site signature.params.length arity)

def copied (t : Ty) : Infer Ty := do
  let vars := t.varList.eraseDups
  let first ← freshRange vars.length
  return t.subst fun v => .var (first + vars.idxOf v)

/-- The declared type of an external function; its annotations have variables of their own. -/
def ofExternal (params : List Ann) (ret : Ann) : Infer Ty := do
  let named := (← get).named
  modify fun s => { s with named := [] }
  let params ← ofAnns params
  let ret ← ofAnn ret
  modify fun s => { s with named := named }
  return .function params ret

def applied (site : NodeId) (callee : Option Ty) (args : List Ty) : Infer Ty := do
  let ret ← fresh
  match callee with
  | none => return ret
  | some t =>
    match ← resolved t with
    | .function params _ =>
      if params.length ≠ args.length then throw (.arityMismatch site params.length args.length)
    | _ => pure ()
    unify site t (.function args ret)
    return ret

/-- The operands of each relation have one type, and that is a number unless only sameness is asked for.
Too few operands are the fault `tooFew`. -/
def comparison (site : NodeId) (tooFew : Error) : List Relation → List Ty → Infer Unit
  | [], _ => pure ()
  | r :: rest, a :: b :: types => do
    if !r.isEquality then unify site .real a
    unify site a b
    comparison site tooFew rest (b :: types)
  | _, _ => throw tooFew

def lastPosition : Nat := 0xffffffffffffffff

/-- The type of an element: a part of a tuple, if the position is written down, or else of a list. -/
def element (site : NodeId) (value : Ty) (position : Expr) : Infer Ty := do
  match ← resolved value, position with
  | .tuple types, .lit _ (.integer i) =>
    match if 0 ≤ i then types[i.toNat]? else none with
    | some t => return t
    | none =>
      let shown := if 0 ≤ i then min i.toNat lastPosition else lastPosition
      throw (.arityMismatch site types.length shown)
  | _, _ =>
    let elt ← fresh
    unify site (.list elt) value
    return elt

def params (u : Uses) : List Param → Infer (List Ty)
  | [] => pure []
  | p :: rest => do
    let t ← match p.ann with
      | some ann => ofAnn ann
      | none => fresh
    match p.name.bind (u.reach.defAt? p.id) with
    | some d => unify p.id t (← ofDef u d)
    | none => pure ()
    return t :: (← params u rest)

def captured (u : Uses) (site : NodeId) (env : OrdMap String HostValue) :
    List (DefId × Definition DefId) → Infer Unit
  | [] => pure ()
  | (d, .assign name ⟨.free, _⟩ _) :: rest => do
    match env.get? name.base with
    | some v =>
      let t ← ofHost v
      unify site t (← ofDef u d)
    | none => pure ()
    captured u site env rest
  | _ :: rest => captured u site env rest

def joins (u : Uses) : List (DefId × Definition DefId) → Infer Unit
  | [] => pure ()
  | (d, .join _ site lhs rhs) :: rest => do
    let t ← ofDef u d
    let a ← ofDef u lhs
    let b ← ofDef u rhs
    unify site t a
    unify site t b
    joins u rest
  | _ :: rest => joins u rest

def finish (size : Nat) (params : List Ty) (s : State) : Typing where
  params := params.map s.solution.resolve
  ret := s.solution.resolve (.var 0)
  defs := (List.range size).map fun d => s.solution.resolve (.var (d + 1))
  exprs := (OrdMap.ofList s.exprs.reverse).mapValues fun _ t => s.solution.resolve t

mutual

def ofExpr (u : Uses) : Expr → Infer Ty
  | .var node name => noted node do
    match u.defOfUse? node.id with
    | some d => ofDef u d
    | none => throw (.undefinedName name node.id)
  | .lit node value => noted node (ofLiteral value)
  | .const node _ _ => noted node do return (← operator node.id .constant 0).ret
  | .unary node op _ arg => noted node do
    let signature ← operator node.id (.unary op) 1
    expecting arg.id (signature.param 0) (ofExpr u arg)
    return signature.ret
  | .binary node op _ lhs rhs => noted node do
    let signature ← operator node.id (.binary op) 2
    expecting lhs.id (signature.param 0) (ofExpr u lhs)
    expecting rhs.id (signature.param 1) (ofExpr u rhs)
    return signature.ret
  | .ternary node op _ first second third => noted node do
    let signature ← operator node.id (.ternary op) 3
    expecting first.id (signature.param 0) (ofExpr u first)
    expecting second.id (signature.param 1) (ofExpr u second)
    expecting third.id (signature.param 2) (ofExpr u third)
    return signature.ret
  | .nary node op _ args => noted node do
    let signature ← operator node.id (.nary op) args.length
    expectAll u signature.params args
    return signature.ret
  | .compare node ops args => noted node do
    let types ← ofExprs u args
    comparison node.id (.arityMismatch node.id (ops.length + 1) args.length) ops types
    return .bool
  | .call node _ (some (.function f)) args kwargs => noted node do
    let types ← ofExprs u args
    let _ ← ofKeyed u kwargs
    let callee ← copied (← ofFunc f).signature
    applied node.id (some callee) types
  | .call node _ (some (.external f)) args kwargs => noted node do
    let types ← ofExprs u args
    let _ ← ofKeyed u kwargs
    match f.signature with
    | some (params, ret) =>
      let callee ← ofExternal params ret
      applied node.id (some callee) types
    | none => applied node.id none types
  | .call node _ none args kwargs => noted node do
    let types ← ofExprs u args
    let _ ← ofKeyed u kwargs
    match u.defOfUse? node.id with
    | some d =>
      let callee ← ofDef u d
      applied node.id (some callee) types
    | none => applied node.id none types
  | .tuple node elts => noted node do return .tuple (← ofExprs u elts)
  | .list node elts => noted node do
    let elt ← fresh
    expectEach u elt elts
    return .list elt
  | .comprehension node targets iterables elt => noted node do
    ofIterables u node.id targets iterables
    return .list (← ofExpr u elt)
  | .index node value position => noted node do
    let value ← ofExpr u value
    expecting position.id .real (ofExpr u position)
    element node.id value position
  | .slice node value start stop => noted node do
    let t := Ty.list (← fresh)
    expecting value.id t (ofExpr u value)
    ofBound u start
    ofBound u stop
    return t
  | .update node value path elt => noted node do
    let value ← ofExpr u value
    expectEach u .real path
    let elt ← ofExpr u elt
    unify node.id (elt.nested path.length) value
    return value
  | .cond node test ift iff => noted node do
    expecting test.id .bool (ofExpr u test)
    let t ← ofExpr u ift
    expecting iff.id t (ofExpr u iff)
    return t
  | .context node _ args kwargs => noted node do
    let _ ← ofExprs u args
    let _ ← ofKeyed u kwargs
    return .context

def ofExprs (u : Uses) : List Expr → Infer (List Ty)
  | [] => pure []
  | e :: rest => do return (← ofExpr u e) :: (← ofExprs u rest)

def ofKeyed (u : Uses) : List (String × Expr) → Infer (List Ty)
  | [] => pure []
  | (_, e) :: rest => do return (← ofExpr u e) :: (← ofKeyed u rest)

def ofBound (u : Uses) : Option Expr → Infer Unit
  | none => pure ()
  | some e => expecting e.id .real (ofExpr u e)

def expectAll (u : Uses) : List Ty → List Expr → Infer Unit
  | t :: types, e :: rest => do
    expecting e.id t (ofExpr u e)
    expectAll u types rest
  | _, _ => pure ()

def expectEach (u : Uses) (t : Ty) : List Expr → Infer Unit
  | [] => pure ()
  | e :: rest => do
    expecting e.id t (ofExpr u e)
    expectEach u t rest

def ofIterables (u : Uses) (site : NodeId) : List Binder → List Expr → Infer Unit
  | target :: targets, e :: rest => do
    let elt ← fresh
    expecting e.id (.list elt) (ofExpr u e)
    bind u site target elt
    ofIterables u site targets rest
  | _, _ => pure ()

def ofStmt (u : Uses) : Stmt → Infer Unit
  | .assign node target ann value => do
    let t ← ofExpr u value
    match ann with
    | some ann => unify node.id (← ofAnn ann) t
    | none => pure ()
    bind u node.id target t
  | .store node name path value => do
    expectEach u .real path
    let elt ← ofExpr u value
    match u.defOfUse? node.id with
    | none => throw (.malformed (.unresolvedAt name node.id))
    | some d =>
      let before ← ofDef u d
      unify node.id before (elt.nested path.length)
      match u.reach.defAt? node.id name with
      | some d => unify node.id (← ofDef u d) before
      | none => pure ()
  | .when _ test body | .loop _ test body => do
    expecting test.id .bool (ofExpr u test)
    ofBlock u body
  | .branch _ test ift iff => do
    expecting test.id .bool (ofExpr u test)
    ofBlock u ift
    ofBlock u iff
  | .each node target iterable body => do
    let elt ← fresh
    expecting iterable.id (.list elt) (ofExpr u iterable)
    bind u node.id target elt
    ofBlock u body
  | .scope node name ctx body => do
    expecting ctx.id .context (ofExpr u ctx)
    match name with
    | some name => bindName u node.id name .context
    | none => pure ()
    ofBlock u body
  | .assert _ test message => do
    expecting test.id .bool (ofExpr u test)
    match message with
    | some message => let _ ← ofExpr u message
    | none => pure ()
  | .effect _ value => do let _ ← ofExpr u value
  | .ret _ value => expecting value.id (.var 0) (ofExpr u value)
  | .skip _ => pure ()

def ofBlock (u : Uses) : Block → Infer Unit
  | ⟨_, stmts⟩ => ofStmts u stmts

def ofStmts (u : Uses) : List Stmt → Infer Unit
  | [] => pure ()
  | s :: rest => do
    ofStmt u s
    ofStmts u rest

def ofFunc : Func → Except Error Typing
  | f@⟨id, _, args, body, _, _, _, env, _⟩ => do
    let u ← Uses.ofFunc f
    let defs := (List.range u.reach.size).zip u.reach.defs
    let check : Infer (List Ty) := do
      let types ← params u args
      captured u id env defs
      ofBlock u body
      joins u defs
      return types
    let (types, s) ← check.run { next := u.reach.size + 1 }
    return finish u.reach.size types s

end

end Infer

def Typing.ofFunc (f : Func) : Except Error Typing := Infer.ofFunc f

end NumLang
