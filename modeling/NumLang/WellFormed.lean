import NumLang.Flow.Reaching

/-!
Well-formedness of a function: parameters are distinct, no name is spelled like the wildcard, blocks are not empty,
comparisons and comprehensions have as many parts as they need, and every name that is read is defined.
-/

namespace NumLang

namespace WellFormed

def checkName (site : NodeId) (n : Name) : Except Error Unit :=
  if n.base = "_" then throw (.shadowsWildcard n site) else pure ()

def checkNames (site : NodeId) : List Name → Except Error Unit
  | [] => pure ()
  | n :: rest => do
    checkName site n
    checkNames site rest

def checkParams (func : String) : (seen : List Name) → List Param → Except Error Unit
  | _, [] => pure ()
  | seen, p :: rest =>
    match p.name with
    | none => checkParams func seen rest
    | some n => do
      checkName p.id n
      if n ∈ seen then throw (.malformed (.duplicateParam n func))
      checkParams func (n :: seen) rest

def checkNode : Expr → Except Error Unit
  | .compare node ops args =>
    if ops.length + 1 ≠ args.length then throw (.arityMismatch node.id (ops.length + 1) args.length)
    else pure ()
  | .comprehension node targets iterables _ =>
    if targets.length ≠ iterables.length then
      throw (.arityMismatch node.id targets.length iterables.length)
    else checkNames node.id (Binder.namesAll targets)
  | _ => pure ()

def checkNodes : List Expr → Except Error Unit
  | [] => pure ()
  | e :: rest => do
    checkNode e
    checkNodes rest

def checkExprs (s : Stmt) : Except Error Unit := checkNodes (Expr.allOf s.exprs)

mutual

def checkStmt : Stmt → Except Error Unit
  | s@(.when _ _ body) | s@(.loop _ _ body) | s@(.each _ _ _ body) | s@(.scope _ _ _ body) => do
    checkNames s.id s.binds
    checkExprs s
    checkBlock body
  | s@(.branch _ _ ift iff) => do
    checkExprs s
    checkBlock ift
    checkBlock iff
  | s@(.assign ..) | s@(.store ..) | s@(.assert ..) | s@(.effect ..) | s@(.ret ..) | s@(.skip ..) => do
    checkNames s.id s.binds
    checkExprs s

def checkBlock : Block → Except Error Unit
  | ⟨id, []⟩ => throw (.malformed (.emptyBlock id))
  | ⟨_, s :: rest⟩ => checkStmts (s :: rest)

def checkStmts : List Stmt → Except Error Unit
  | [] => pure ()
  | s :: rest => do
    checkStmt s
    checkStmts rest

end

end WellFormed

def Func.check (f : Func) : Except Error Unit := do
  WellFormed.checkParams f.name [] f.params
  WellFormed.checkBlock f.body
  let _ ← Reaching.ofFunc f

def Block.check (b : Block) (inputs : List Name) : Except Error Unit := do
  WellFormed.checkBlock b
  let _ ← Reaching.ofBlock b inputs

def Func.verify (pass : String) (f : Func) : Except Error Unit :=
  match f.check with
  | .ok () => .ok ()
  | .error cause => .error (.badResult pass f.name cause)

end NumLang
