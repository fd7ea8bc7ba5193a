import NumLang.Flow.Closure
import NumLang.Flow.Uses

/-!
Rounding contexts that are known before a program runs: under which context each statement is executed and each
definition is made, and which context a definition or an expression has as its value.
-/

namespace NumLang

/-- The rounding context in force at a point. -/
inductive ContextTag where
  /-- The context of the caller. -/
  | default
  | known (c : Context)
  | unknown
deriving DecidableEq, Repr, Inhabited

namespace ContextTag

def join (a b : ContextTag) : ContextTag := if a = b then a else .unknown

def join? : Option ContextTag → Option ContextTag → Option ContextTag
  | some a, some b => some (a.join b)
  | some a, none | none, some a => some a
  | none, none => none

def known? : ContextTag → Option Context
  | .known c => some c
  | _ => none

def ofValue : Option Context → ContextTag
  | some c => .known c
  | none => .unknown

def text : ContextTag → String
  | .default => "default"
  | .known c => c.text
  | .unknown => "unknown"

def ofFunc (f : Func) : ContextTag :=
  match f.ctx with
  | some c => .known c
  | none => .default

end ContextTag

def HostValue.asArg? : HostValue → Option Context.Arg
  | .bool b => some (.bool b)
  | .mode rm => some (.mode rm)
  | .number r => if r.den = 1 then some (.int r.num) else none
  | _ => none

def HostValue.asContext? : HostValue → Option Context
  | .context c => some c
  | _ => none

/-- What values are found by: the captured values, the uses and the statements of a function. -/
structure StaticView where
  env : OrdMap String HostValue
  uses : Uses
  stmts : List Stmt

namespace StaticView

variable (view : StaticView)

def def? (d : DefId) : Option (Definition DefId) := view.uses.reach.def? d

def sourceAt? (site : NodeId) : Option Expr :=
  match view.stmts.find? (·.id = site) with
  | some (.assign _ (.name _) _ value) => some value
  | some (.scope _ (some _) ctx _) => some ctx
  | _ => none

def captured? (name : Name) : Option HostValue := view.env.get? name.base

/-- How many copies and joins are followed to find an argument of a context constructor. -/
def argLinks : Nat := 65

mutual

def exprArg? : (fuel : Nat) → Expr → Option Context.Arg
  | 0, _ => none
  | fuel + 1, e =>
    match e with
    | .lit _ (.integer n) => some (.int n)
    | .lit _ (.bool b) => some (.bool b)
    | .lit _ (.host v) => v.asArg?
    | .unary _ .neg _ arg =>
      match exprArg? fuel arg with
      | some (.int n) => some (.int (-n))
      | _ => none
    | .var node _ => do defArg? fuel (← view.uses.defOfUse? node.id)
    | _ => none

def defArg? : (fuel : Nat) → DefId → Option Context.Arg
  | 0, _ => none
  | fuel + 1, d =>
    match view.def? d with
    | some (.assign name ⟨.free, _⟩ _) => do (← view.captured? name).asArg?
    | some (.assign _ ⟨.stmt, site⟩ _) =>
      match view.stmts.find? (·.id = site) with
      | some (.assign _ (.name _) _ value) => exprArg? fuel value
      | _ => none
    | some (.join _ _ lhs rhs) => do
      let a ← defArg? fuel lhs
      let b ← defArg? fuel rhs
      if a = b then some a else none
    | _ => none

end

def built? (ctor : String) (args : List Expr) (kwargs : List (String × Expr)) : Option Context :=
  if kwargs.isEmpty then do Context.build? ctor (← args.mapM (view.exprArg? argLinks)) else none

/-- The definitions whose value a definition takes over: both sides of a join, or the variable copied. -/
def links (d : DefId) : List DefId :=
  match view.def? d with
  | some (.join _ _ lhs rhs) => [lhs, rhs]
  | some (.assign _ ⟨.stmt, site⟩ _) =>
    match view.sourceAt? site with
    | some (.var node _) => (view.uses.defOfUse? node.id).toList
    | _ => []
  | _ => []

def leafValue? (d : DefId) : Option Context :=
  match view.def? d with
  | some (.assign name ⟨.free, _⟩ _) => do (← view.captured? name).asContext?
  | some (.assign _ ⟨.stmt, site⟩ _) =>
    match view.sourceAt? site with
    | some (.lit _ (.host v)) => v.asContext?
    | some (.context _ ctor args kwargs) => view.built? ctor args kwargs
    | _ => none
  | _ => none

def leaves (d : DefId) : List DefId :=
  (view.uses.reach.closure view.links [d]).toList.filter fun leaf => (view.links leaf).isEmpty

/-- The context that a definition has as its value. One that takes over only itself is an error. -/
def valueOfDef (d : DefId) : Except Error (Option Context) :=
  match view.leaves d with
  | [] =>
    match view.def? d with
    | some definition => throw (.cyclicContext definition.name definition.site)
    | none => throw (.malformed (.unknownDefinition d))
  | leaf :: rest =>
    match view.leafValue? leaf with
    | none => pure none
    | some c => pure (if rest.all (view.leafValue? · = some c) then some c else none)

def valueOfExpr : Expr → Except Error (Option Context)
  | .lit _ (.host v) => pure v.asContext?
  | .context _ ctor args kwargs => pure (view.built? ctor args kwargs)
  | .var node _ =>
    match view.uses.defOfUse? node.id with
    | some d => view.valueOfDef d
    | none => pure none
  | _ => pure none

/-- What the walk over a part of a function has found: the tags of statements and comprehensions, and the
contexts that variables and constructors have as their values. -/
structure Notes where
  tags : List (NodeId × ContextTag) := []
  values : List (NodeId × Context) := []

instance : Append Notes where
  append a b := ⟨a.tags ++ b.tags, a.values ++ b.values⟩

def noteExpr (tag : ContextTag) (e : Expr) : Except Error Notes :=
  match e with
  | .comprehension node .. => pure { tags := [(node.id, tag)] }
  | .context node .. | .var node _ => do
    match ← view.valueOfExpr e with
    | some c => return { values := [(node.id, c)] }
    | none => return {}
  | _ => pure {}

def noteExprs (tag : ContextTag) : List Expr → Except Error Notes
  | [] => pure {}
  | e :: rest => do return (← noteExpr view tag e) ++ (← noteExprs tag rest)

def noteOwn (tag : ContextTag) (s : Stmt) : Except Error Notes := do
  return { tags := [(s.id, tag)] } ++ (← view.noteExprs tag (Expr.allOf s.exprs))

mutual

def noteStmt (tag : ContextTag) : Stmt → Except Error Notes
  | s@(.when _ _ body) | s@(.loop _ _ body) | s@(.each _ _ _ body) => do
    return (← view.noteOwn tag s) ++ (← noteBlock tag body)
  | s@(.branch _ _ ift iff) => do
    return (← view.noteOwn tag s) ++ (← noteBlock tag ift) ++ (← noteBlock tag iff)
  | s@(.scope _ _ ctx body) => do
    let own ← view.noteOwn tag s
    return own ++ (← noteBlock (.ofValue (← view.valueOfExpr ctx)) body)
  | s@(.assign ..) | s@(.store ..) | s@(.assert ..) | s@(.effect ..) | s@(.ret ..) | s@(.skip ..) =>
    view.noteOwn tag s

def noteBlock (tag : ContextTag) : Block → Except Error Notes
  | ⟨_, stmts⟩ => noteStmts tag stmts

def noteStmts (tag : ContextTag) : List Stmt → Except Error Notes
  | [] => pure {}
  | s :: rest => do return (← noteStmt tag s) ++ (← noteStmts tag rest)

end

def binderTag? (root : ContextTag) (tags : NodeMap ContextTag) : Definition DefId → Option ContextTag
  | .assign _ ⟨.param, _⟩ _ | .assign _ ⟨.free, _⟩ _ => some root
  | .assign _ ⟨_, site⟩ _ => some ((tags.get? site).getD .unknown)
  | .join .. => none

def tagOf? (tags : List (Option ContextTag)) (d : DefId) : Option ContextTag := tags[d]?.join

def retag (tags : List (Option ContextTag)) (d : DefId) : List (Option ContextTag) :=
  match view.def? d with
  | some (.join _ _ lhs rhs) =>
    let joined := ContextTag.join? (tagOf? tags lhs) (tagOf? tags rhs)
    if joined.isSome then tags.set d joined else tags
  | _ => tags

/-- Tags all joins, one after the other, until no tag changes. Joins in loops read tags that are given later. -/
def retagAll : (rounds : Nat) → List (Option ContextTag) → List (Option ContextTag)
  | 0, tags => tags
  | rounds + 1, tags =>
    let next := (List.range tags.length).foldl view.retag tags
    if next = tags then tags else retagAll rounds next

def defTags (root : ContextTag) (tags : NodeMap ContextTag) : List (Option ContextTag) :=
  view.retagAll (2 * view.uses.reach.size) (view.uses.reach.defs.map (binderTag? root tags))

end StaticView

/-- The rounding contexts of a function. -/
structure Contexts where
  uses : Uses
  root : ContextTag
  /-- The tags of statements and comprehensions. -/
  tags : NodeMap ContextTag
  defTags : List ContextTag
  defValues : List (Option Context)
  /-- The values of variables and constructors that have a known one. -/
  exprValues : NodeMap Context

namespace Contexts

def ofUses (f : Func) (u : Uses) : Except Error Contexts := do
  let view : StaticView := ⟨f.env, u, f.body.all⟩
  let root := ContextTag.ofFunc f
  let notes ← view.noteBlock root f.body
  let tags : NodeMap ContextTag := OrdMap.ofList notes.tags
  let defs := List.range u.reach.size
  return {
    uses := u
    root := root
    tags := tags
    defTags := (view.defTags root tags).map (·.getD .unknown)
    defValues := ← defs.mapM view.valueOfDef
    exprValues := OrdMap.ofList notes.values
  }

def ofFunc (f : Func) : Except Error Contexts := do ofUses f (← Uses.ofFunc f)

variable (c : Contexts)

def ofStmt? (stmt : NodeId) : Option ContextTag := c.tags.get? stmt

def ofDef? (d : DefId) : Option ContextTag := c.defTags[d]?

def valueOfDef? (d : DefId) : Option Context := (c.defValues[d]?).join

def valueOfExpr? (expr : NodeId) : Option Context := c.exprValues.get? expr

end Contexts

end NumLang
