import NumLang.Rule.Instance

/-!
Matching of patterns. Pattern and program are walked side by side.
-/

namespace NumLang

def Expr.ofName (n : Name) : Expr := .var ⟨⟨0⟩, none⟩ n

namespace Capture

def meet (v : Name) (e : Expr) (c : Capture) : Option Capture :=
  match c.exprs.get? v with
  | some bound => if bound.equiv e then some c else none
  | none => some { c with exprs := c.exprs.insert v e }

def meetName (n target : Name) (c : Capture) : Option Capture :=
  match c.names.get? n with
  | some known => if known = target then some c else none
  | none => if target ∈ c.names.values then none else some { c with names := c.names.insert n target }

end Capture

namespace Pattern

variable (p : Pattern)

def onName (n target : Name) (c : Capture) : Option Capture :=
  if p.isVar n then c.meet n (.ofName target)
  else if p.isFree n then c.meetName n target
  else if n = target then some c
  else none

def onName? : Option Name → Option Name → Capture → Option Capture
  | none, none, c => some c
  | some n, some target, c => p.onName n target c
  | _, _, _ => none

mutual

def onBinder : Binder → Binder → Capture → Option Capture
  | .wildcard, .wildcard, c => some c
  | .name n, .name target, c => p.onName n target c
  | .tuple parts, .tuple targets, c => onBinders parts targets c
  | _, _, _ => none
termination_by structural b => b

def onBinders : List Binder → List Binder → Capture → Option Capture
  | [], [], c => some c
  | b :: rest, t :: targets, c => do onBinders rest targets (← onBinder b t c)
  | _, _, _ => none

end

mutual

def onExpr : Expr → Expr → Capture → Option Capture
  | .var _ n, t, c =>
    if p.isVar n then c.meet n t
    else match t with
      | .var _ target => p.onName n target c
      | _ => none
  | .lit _ v, .lit _ w, c => if v = w then some c else none
  | .const _ o _, .const _ o' _, c => if o = o' then some c else none
  | .unary _ o _ a, .unary _ o' _ a', c => if o = o' then onExpr a a' c else none
  | .binary _ o _ a b, .binary _ o' _ a' b', c => do
    if o = o' then onExpr b b' (← onExpr a a' c) else none
  | .ternary _ o _ a b d, .ternary _ o' _ a' b' d', c => do
    if o = o' then onExpr d d' (← onExpr b b' (← onExpr a a' c)) else none
  | .nary _ o _ as, .nary _ o' _ as', c => if o = o' then onExprs as as' c else none
  | .compare _ o as, .compare _ o' as', c => if o = o' then onExprs as as' c else none
  | .call _ f _ as ks, .call _ f' _ as' ks', c => do
    if f = f' then onKeyed ks ks' (← onExprs as as' c) else none
  | .tuple _ as, .tuple _ as', c => onExprs as as' c
  | .list _ as, .list _ as', c => onExprs as as' c
  | .comprehension _ ts is e, .comprehension _ ts' is' e', c => do
    onExpr e e' (← p.onBinders ts ts' (← onExprs is is' c))
  | .index _ a i, .index _ a' i', c => do onExpr i i' (← onExpr a a' c)
  | .slice _ a s t, .slice _ a' s' t', c => do
    onOption t t' (← onOption s s' (← onExpr a a' c))
  | .update _ a is e, .update _ a' is' e', c => do
    onExpr e e' (← onExprs is is' (← onExpr a a' c))
  | .cond _ a t e, .cond _ a' t' e', c => do onExpr e e' (← onExpr t t' (← onExpr a a' c))
  | .context _ f as ks, .context _ f' as' ks', c => do
    if f = f' then onKeyed ks ks' (← onExprs as as' c) else none
  | _, _, _ => none
termination_by structural e => e

def onExprs : List Expr → List Expr → Capture → Option Capture
  | [], [], c => some c
  | e :: rest, t :: targets, c => do onExprs rest targets (← onExpr e t c)
  | _, _, _ => none

def onKeyed : List (String × Expr) → List (String × Expr) → Capture → Option Capture
  | [], [], c => some c
  | (k, e) :: rest, (k', t) :: targets, c => do
    if k = k' then onKeyed rest targets (← onExpr e t c) else none
  | _, _, _ => none

def onOption : Option Expr → Option Expr → Capture → Option Capture
  | none, none, c => some c
  | some e, some t, c => onExpr e t c
  | _, _, _ => none

end

mutual

def onStmt : Stmt → Stmt → Capture → Option Capture
  | .assign _ b ann e, .assign _ b' ann' e', c => do
    if ann = ann' then p.onBinder b b' (← p.onExpr e e' c) else none
  | .store _ n is e, .store _ n' is' e', c => do
    p.onName n n' (← p.onExpr e e' (← p.onExprs is is' c))
  | .when _ e b, .when _ e' b', c => do onBlock b b' (← p.onExpr e e' c)
  | .branch _ e b d, .branch _ e' b' d', c => do onBlock d d' (← onBlock b b' (← p.onExpr e e' c))
  | .loop _ e b, .loop _ e' b', c => do onBlock b b' (← p.onExpr e e' c)
  | .each _ t e b, .each _ t' e' b', c => do onBlock b b' (← p.onBinder t t' (← p.onExpr e e' c))
  | .scope _ n e b, .scope _ n' e' b', c => do onBlock b b' (← p.onName? n n' (← p.onExpr e e' c))
  | .assert _ e m, .assert _ e' m', c => do p.onOption m m' (← p.onExpr e e' c)
  | .effect _ e, .effect _ e', c => p.onExpr e e' c
  | .ret _ e, .ret _ e', c => p.onExpr e e' c
  | .skip _, .skip _, c => some c
  | _, _, _ => none
termination_by structural s => s

def onBlock : Block → Block → Capture → Option Capture
  | ⟨_, ss⟩, ⟨_, ts⟩, c => onStmts ss ts c

def onStmts : List Stmt → List Stmt → Capture → Option Capture
  | [], [], c => some c
  | s :: rest, t :: targets, c => do onStmts rest targets (← onStmt s t c)
  | _, _, _ => none

end

def walk : Fragment → Option Capture
  | .expr t =>
    match p.body with
    | .expr e => p.onExpr e t {}
    | .stmts _ => none
  | .stmts ts =>
    match p.body with
    | .expr _ => none
    | .stmts ss => p.onStmts ss ts {}

/-- Matches a fragment of a program: the walk succeeds, and the instance is what was matched. -/
def match? (t : Fragment) : Option Capture := do
  let c ← p.walk t
  match (p.freshInstance c {}).1 with
  | .ok made => if made.equiv t then some c else none
  | .error _ => none

end Pattern

/-- Where a pattern occurs. -/
inductive Region where
  | expr (id : NodeId)
  /-- Statements in a row in a block. -/
  | window (block : NodeId) (start size : Nat)
deriving DecidableEq, Repr, Inhabited

/-- A place where a pattern occurs and what it captures there. -/
structure Occurrence where
  region : Region
  capture : Capture

namespace Pattern

variable (p : Pattern)

def inExprs (exprs : List Expr) : List Occurrence :=
  (Expr.allOf exprs).filterMap fun e => (p.match? (.expr e)).map fun c => ⟨.expr e.id, c⟩

/-- The occurrence that starts with the first of some statements of a block, `start` statements in. -/
def atStart (block : NodeId) (start : Nat) (stmts : List Stmt) : List Occurrence :=
  let size := p.body.window
  if 0 < size && size ≤ stmts.length then
    ((p.match? (.stmts (stmts.take size))).map fun c => ⟨.window block start size, c⟩).toList
  else []

mutual

def inStmt : Stmt → List Occurrence
  | s@(.when _ _ body) | s@(.loop _ _ body) | s@(.each _ _ _ body) | s@(.scope _ _ _ body) =>
    p.inExprs s.exprs ++ inBlock body
  | s@(.branch _ _ ift iff) => p.inExprs s.exprs ++ inBlock ift ++ inBlock iff
  | s@(.assign ..) | s@(.store ..) | s@(.assert ..) | s@(.effect ..) | s@(.ret ..) | s@(.skip ..) =>
    p.inExprs s.exprs

/-- The occurrences in a block, in document order: one that starts with a statement comes before those
inside that statement. -/
def inBlock : Block → List Occurrence
  | ⟨id, stmts⟩ => inStmts id 0 stmts

def inStmts (block : NodeId) (start : Nat) : List Stmt → List Occurrence
  | [] => []
  | s :: rest => p.atStart block start (s :: rest) ++ inStmt s ++ inStmts block (start + 1) rest

end

def occurrences (f : Func) : List Occurrence := p.inBlock f.body

end Pattern

end NumLang
