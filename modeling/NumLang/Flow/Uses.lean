import NumLang.Flow.Reaching

/-!
Uses of definitions: every place where a name is read, with the definition that it reads.
-/

namespace NumLang

/-- How a definition is used. -/
inductive UseKind where
  | var
  /-- The list in an assignment to one of its elements. -/
  | stored
  /-- The name of a call. -/
  | call
deriving DecidableEq, Repr, Inhabited, Ord

/-- A place where a definition is used: the node that reads it and the statement around that. -/
structure UseSite where
  node : NodeId
  stmt : NodeId
  kind : UseKind
deriving DecidableEq, Repr, Inhabited

namespace UseSite

instance : Ord UseSite :=
  ⟨compareLex (compareOn UseSite.node)
    (compareLex (compareOn UseSite.stmt) (compareOn fun site => site.kind.ctorIdx))⟩

instance : Std.TransOrd UseSite :=
  inferInstanceAs (Std.TransCmp (compareLex (compareOn UseSite.node)
    (compareLex (compareOn UseSite.stmt) (compareOn fun site => site.kind.ctorIdx))))

end UseSite

/-- A use: its place, the definition it reads and the environment it was resolved in. -/
structure Use where
  site : UseSite
  definition : DefId
  env : NameMap DefId

namespace Uses

def resolve (env : NameMap DefId) (name : Name) (site : UseSite) : Except Error (List Use) :=
  match env.get? name with
  | some d => pure [⟨site, d, env⟩]
  | none => throw (.malformed (.unreachedUse name site.node))

def bindTargets (reach : Reaching) (site : NodeId) : List Name → NameMap DefId → Except Error (NameMap DefId)
  | [], env => pure env
  | n :: rest, env =>
    match reach.defAt? site n with
    | some d => bindTargets reach site rest (env.insert n d)
    | none => throw (.malformed (.unboundTarget n site))

mutual

def ofExpr (reach : Reaching) (stmt : NodeId) (env : NameMap DefId) : Expr → Except Error (List Use)
  | .var node name => resolve env name ⟨node.id, stmt, .var⟩
  | .lit .. | .const .. => pure []
  | .unary _ _ _ arg => ofExpr reach stmt env arg
  | .binary _ _ _ lhs rhs => do return (← ofExpr reach stmt env lhs) ++ (← ofExpr reach stmt env rhs)
  | .ternary _ _ _ first second third => do
    return (← ofExpr reach stmt env first) ++ (← ofExpr reach stmt env second)
      ++ (← ofExpr reach stmt env third)
  | .nary _ _ _ args | .compare _ _ args | .tuple _ args | .list _ args => ofExprs reach stmt env args
  | .call node func _ args kwargs => do
    let inner := (← ofExprs reach stmt env args) ++ (← ofKeyed reach stmt env kwargs)
    if env.contains func then return inner ++ (← resolve env func ⟨node.id, stmt, .call⟩)
    else return inner
  | .comprehension node targets iterables elt => do
    let outer ← ofExprs reach stmt env iterables
    let inside ← bindTargets reach node.id (Binder.namesAll targets) env
    return outer ++ (← ofExpr reach stmt inside elt)
  | .index _ value position => do
    return (← ofExpr reach stmt env value) ++ (← ofExpr reach stmt env position)
  | .slice _ value start stop => do
    return (← ofExpr reach stmt env value) ++ (← ofOption reach stmt env start)
      ++ (← ofOption reach stmt env stop)
  | .update _ value path elt => do
    return (← ofExpr reach stmt env value) ++ (← ofExprs reach stmt env path)
      ++ (← ofExpr reach stmt env elt)
  | .cond _ test ift iff => do
    return (← ofExpr reach stmt env test) ++ (← ofExpr reach stmt env ift) ++ (← ofExpr reach stmt env iff)
  | .context _ _ args kwargs => do
    return (← ofExprs reach stmt env args) ++ (← ofKeyed reach stmt env kwargs)

def ofExprs (reach : Reaching) (stmt : NodeId) (env : NameMap DefId) :
    List Expr → Except Error (List Use)
  | [] => pure []
  | e :: rest => do return (← ofExpr reach stmt env e) ++ (← ofExprs reach stmt env rest)

def ofKeyed (reach : Reaching) (stmt : NodeId) (env : NameMap DefId) :
    List (String × Expr) → Except Error (List Use)
  | [] => pure []
  | (_, e) :: rest => do return (← ofExpr reach stmt env e) ++ (← ofKeyed reach stmt env rest)

def ofOption (reach : Reaching) (stmt : NodeId) (env : NameMap DefId) :
    Option Expr → Except Error (List Use)
  | none => pure []
  | some e => ofExpr reach stmt env e

end

def envOf (reach : Reaching) (stmt : NodeId) : Except Error (NameMap DefId) :=
  match reach.before? stmt with
  | some env => pure env
  | none => throw (.malformed (.unseenStmt stmt))

def headOf (reach : Reaching) (body : NodeId) : Except Error (NameMap DefId) :=
  match reach.blockStart? body with
  | some env => pure env
  | none => throw (.malformed (.unseenLoop body))

mutual

def ofStmt (reach : Reaching) : Stmt → Except Error (List Use)
  | .assign node _ _ value | .effect node value | .ret node value => do
    ofExpr reach node.id (← envOf reach node.id) value
  | .store node name path value => do
    let env ← envOf reach node.id
    return (← ofExprs reach node.id env path) ++ (← ofExpr reach node.id env value)
      ++ (← resolve env name ⟨node.id, node.id, .stored⟩)
  | .when node test body => do
    let env ← envOf reach node.id
    return (← ofExpr reach node.id env test) ++ (← ofBlock reach body)
  | .branch node test ift iff => do
    let env ← envOf reach node.id
    return (← ofExpr reach node.id env test) ++ (← ofBlock reach ift) ++ (← ofBlock reach iff)
  | .loop node test body => do
    let _ ← envOf reach node.id
    let head ← headOf reach body.id
    return (← ofExpr reach node.id head test) ++ (← ofBlock reach body)
  | .each node _ iterable body => do
    let env ← envOf reach node.id
    return (← ofExpr reach node.id env iterable) ++ (← ofBlock reach body)
  | .scope node _ ctx body => do
    let env ← envOf reach node.id
    return (← ofExpr reach node.id env ctx) ++ (← ofBlock reach body)
  | .assert node test msg => do
    let env ← envOf reach node.id
    return (← ofExpr reach node.id env test) ++ (← ofOption reach node.id env msg)
  | .skip node => do
    let _ ← envOf reach node.id
    return []

def ofBlock (reach : Reaching) : Block → Except Error (List Use)
  | ⟨_, stmts⟩ => ofStmts reach stmts

def ofStmts (reach : Reaching) : List Stmt → Except Error (List Use)
  | [] => pure []
  | s :: rest => do return (← ofStmt reach s) ++ (← ofStmts reach rest)

end

end Uses

/-- Reaching definitions together with all uses, in the order in which they are come by. -/
structure Uses where
  reach : Reaching
  uses : List Use

namespace Uses

def ofReaching (body : Block) (reach : Reaching) : Except Error Uses := do
  return ⟨reach, ← ofBlock reach body⟩

def ofFunc (f : Func) : Except Error Uses := do ofReaching f.body (← Reaching.ofFunc f)

def ofInputs (b : Block) (inputs : List Name) : Except Error Uses := do
  ofReaching b (← Reaching.ofBlock b inputs)

variable (u : Uses)

def usesOf (d : DefId) : OrdSet UseSite :=
  OrdSet.ofList ((u.uses.filter (·.definition = d)).map (·.site))

def isUnused (d : DefId) : Bool := u.uses.all (·.definition ≠ d)

def at? (node : NodeId) : Option Use := u.uses.findRev? (·.site.node = node)

def defOfUse? (node : NodeId) : Option DefId := (u.at? node).map (·.definition)

def envAtUse? (node : NodeId) : Option (NameMap DefId) := (u.at? node).map (·.env)

def count : Nat := (OrdSet.ofList (u.uses.map (·.site.node))).size

end Uses

end NumLang
