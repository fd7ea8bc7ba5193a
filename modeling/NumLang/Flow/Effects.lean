import NumLang.Flow.Closure

/-!
Effects of a function: what a caller could notice besides the result.
-/

namespace NumLang

inductive Effect where
  /-- Writes into a list that may belong to the caller. -/
  | mutatesInput
  /-- Calls something impure. -/
  | impureCall
  /-- Calls something of which nothing is known. -/
  | unknownCall
  /-- May stop with a failed assertion. -/
  | assertion
  /-- Writes into a list of its own. -/
  | localMutation
deriving DecidableEq, Repr, Inhabited

namespace Effect

def all : List Effect := [.mutatesInput, .impureCall, .unknownCall, .assertion, .localMutation]

def isImpure : Effect → Bool
  | .mutatesInput | .impureCall | .unknownCall => true
  | .assertion | .localMutation => false

end Effect

/-- An effect and the statement or call that has it. -/
structure Finding where
  site : NodeId
  effect : Effect
  detail : String
deriving DecidableEq, Repr, Inhabited

/-- The definitions whose list a definition may share: both sides of a join, the variable that is copied, the
list before one of its elements was replaced. -/
def Reaching.aliases (r : Reaching) (stmts : List Stmt) (d : DefId) : List DefId :=
  match r.def? d with
  | some (.join _ _ lhs rhs) => [lhs, rhs]
  | some (.assign _ ⟨.stmt, site⟩ prev) =>
    match stmts.find? (·.id = site) with
    | some (.store ..) => prev.toList
    | some (.assign _ _ _ (.var _ source)) => (r.reaching? site source).toList
    | _ => []
  | _ => []

def Definition.isInput {κ : Type} : Definition κ → Bool
  | .assign _ ⟨.param, _⟩ _ | .assign _ ⟨.free, _⟩ _ => true
  | _ => false

/-- Whether the list that a name holds before a statement may be one of the caller. Where the definitions of
the function are not known, it may. -/
def mayAliasInput (reach : Option Reaching) (stmts : List Stmt) (stmt : NodeId) (name : Name) : Bool :=
  match reach with
  | none => true
  | some r =>
    match r.reaching? stmt name with
    | none => true
    | some start => (r.closure (r.aliases stmts) [start]).toList.any fun d =>
      match r.def? d with
      | some definition => definition.isInput
      | none => true

def Finding.allPure (findings : List Finding) : Bool := findings.all fun f => !f.effect.isImpure

mutual

def Expr.callFindings : Expr → List Finding
  | .var .. | .lit .. | .const .. => []
  | .unary _ _ _ arg => arg.callFindings
  | .binary _ _ _ lhs rhs => lhs.callFindings ++ rhs.callFindings
  | .ternary _ _ _ first second third =>
    first.callFindings ++ second.callFindings ++ third.callFindings
  | .nary _ _ _ args | .compare _ _ args | .tuple _ args | .list _ args => Expr.callFindingsAll args
  | .call node func none args kwargs =>
    ⟨node.id, .unknownCall, "call to unresolved `" ++ func.text ++ "`"⟩ ::
      (Expr.callFindingsAll args ++ Expr.callFindingsKeyed kwargs)
  | .call node _ (some callee) args kwargs =>
    (if callee.isPure then []
      else [⟨node.id, .impureCall, "call to impure `" ++ callee.name ++ "`"⟩])
      ++ (Expr.callFindingsAll args ++ Expr.callFindingsKeyed kwargs)
  | .comprehension _ _ iterables elt => Expr.callFindingsAll iterables ++ elt.callFindings
  | .index _ value position => value.callFindings ++ position.callFindings
  | .slice _ value start stop =>
    value.callFindings ++ Expr.callFindingsOption start ++ Expr.callFindingsOption stop
  | .update _ value path elt => value.callFindings ++ Expr.callFindingsAll path ++ elt.callFindings
  | .cond _ test ift iff => test.callFindings ++ ift.callFindings ++ iff.callFindings
  | .context _ _ args kwargs => Expr.callFindingsAll args ++ Expr.callFindingsKeyed kwargs

def Expr.callFindingsAll : List Expr → List Finding
  | [] => []
  | e :: rest => e.callFindings ++ Expr.callFindingsAll rest

def Expr.callFindingsKeyed : List (String × Expr) → List Finding
  | [] => []
  | (_, e) :: rest => e.callFindings ++ Expr.callFindingsKeyed rest

def Expr.callFindingsOption : Option Expr → List Finding
  | none => []
  | some e => e.callFindings

def Callee.isPure : Callee → Bool
  | .function f => Finding.allPure f.findings
  | .external f => f.pure

def Func.findings : Func → List Finding
  | f@⟨_, _, _, body, _, _, _, _, _⟩ =>
    let reach := (Reaching.ofFunc f).toOption
    let stmts := body.all
    body.findings (mayAliasInput reach stmts)

def Block.findings (aliased : NodeId → Name → Bool) : Block → List Finding
  | ⟨_, stmts⟩ => Stmt.findingsAll aliased stmts

def Stmt.findings (aliased : NodeId → Name → Bool) : Stmt → List Finding
  | .assign _ _ _ value | .effect _ value | .ret _ value => value.callFindings
  | .store node name path value =>
    Expr.callFindingsAll path ++ value.callFindings
      ++ [⟨node.id, if aliased node.id name then .mutatesInput else .localMutation,
          "indexed assignment to `" ++ name.text ++ "`"⟩]
  | .when _ test body | .loop _ test body => test.callFindings ++ body.findings aliased
  | .branch _ test ift iff => test.callFindings ++ ift.findings aliased ++ iff.findings aliased
  | .each _ _ iterable body => iterable.callFindings ++ body.findings aliased
  | .scope _ _ ctx body => ctx.callFindings ++ body.findings aliased
  | .assert node test msg =>
    test.callFindings ++ Expr.callFindingsOption msg ++ [⟨node.id, .assertion, "assertion"⟩]
  | .skip _ => []

def Stmt.findingsAll (aliased : NodeId → Name → Bool) : List Stmt → List Finding
  | [] => []
  | s :: rest => s.findings aliased ++ Stmt.findingsAll aliased rest

end

def Func.isPure (f : Func) : Bool := Finding.allPure f.findings

def Expr.isPure (e : Expr) : Bool := e.callFindings.isEmpty

def Finding.effects (findings : List Finding) : List Effect :=
  Effect.all.filter fun effect => findings.any (·.effect = effect)

end NumLang
