import NumLang.Proofs.Reference

/-!
The reference evaluator with the reasons for which it gives up.
-/

namespace NumLang

open Machine (reference bindArgs)

namespace Reference

/-- Why the reference evaluator gives up. -/
inductive Stop where
  /-- There are more or fewer arguments than parameters. -/
  | wrongArity
  /-- A number is demanded from something else, or a truth value is. -/
  | wrongKind
  /-- A name is read that holds nothing. -/
  | unbound (n : Name)
  | unsupported
  | unparsable
  | divisionByZero
  | failedAssertion
  | outOfFuel
  /-- The end of the body is reached without a value. -/
  | fellOff
deriving DecidableEq, Repr, Inhabited

/-- Whether the program has gone wrong: what it does makes no sense, whatever the evaluator can do. -/
def Stop.isWrong : Stop → Bool
  | .wrongArity | .wrongKind | .unbound _ => true
  | _ => false

def number : Value → Except Stop Rat
  | .number r => .ok r
  | _ => .error .wrongKind

def truth : Value → Except Stop Bool
  | .bool b => .ok b
  | _ => .error .wrongKind

def literal (l : Literal) : Except Stop Value :=
  match l.value? with
  | some v => .ok (.ofHost v)
  | none =>
    match l with
    | .host _ => .error .unsupported
    | _ => .error .unparsable

def arithmetic (form : Form) (args : List Rat) : Except Stop Value :=
  match form.arithmetic? args with
  | some r => .ok (.number r)
  | none => .error (if form = .binary .div then .divisionByZero else .unsupported)

def unary (op : UnaryOp) (arg : Value) : Except Stop Value :=
  match op with
  | .not => do return .bool !(← truth arg)
  | .neg => do arithmetic (.unary .neg) [← number arg]
  | .fabs => do arithmetic (.unary .fabs) [← number arg]
  | _ => .error .unsupported

def nary (op : NaryOp) (args : List Value) : Except Stop Value :=
  match op with
  | .and => do return .bool ((← args.mapM truth).all id)
  | .or => do return .bool ((← args.mapM truth).any id)
  | .min => do arithmetic (.nary .min) (← args.mapM number)
  | .max => do arithmetic (.nary .max) (← args.mapM number)
  | .zip | .empty => .error .unsupported

def related (r : Relation) (a b : Value) : Except Stop Bool :=
  match Form.related? r a b with
  | some holds => .ok holds
  | none => .error .wrongKind

def compared : List Relation → List Value → Except Stop Bool
  | r :: ops, a :: b :: rest => do
    let first ← related r a b
    let others ← compared ops (b :: rest)
    return first && others
  | _, _ => .ok true

mutual

def eval (σ : Store Value) : Expr → Except Stop Value
  | .var _ name =>
    match σ.value? name with
    | some v => .ok v
    | none => .error (.unbound name)
  | .lit _ value => literal value
  | .unary _ op _ arg => do unary op (← eval σ arg)
  | .binary _ op _ lhs rhs => do
    let a ← number (← eval σ lhs)
    let b ← number (← eval σ rhs)
    arithmetic (.binary op) [a, b]
  | .ternary _ .fma _ first second third => do
    let a ← number (← eval σ first)
    let b ← number (← eval σ second)
    let c ← number (← eval σ third)
    arithmetic (.ternary .fma) [a, b, c]
  | .nary _ op _ args => do nary op (← evalAll σ args)
  | .compare _ ops args => do return .bool (← compared ops (← evalAll σ args))
  | .cond _ test ift iff => do if ← truth (← eval σ test) then eval σ ift else eval σ iff
  | .const .. | .ternary _ .range _ _ _ _ | .call .. | .tuple .. | .list .. | .comprehension .. | .index ..
  | .slice .. | .update .. | .context .. => .error .unsupported

def evalAll (σ : Store Value) : List Expr → Except Stop (List Value)
  | [] => .ok []
  | e :: rest => do
    let first ← eval σ e
    let others ← evalAll σ rest
    return first :: others

end

def test (σ : Store Value) (e : Expr) : Except Stop Bool := do truth (← eval σ e)

/-- What a statement comes to: the value that it returns, if it does, and the state after it. -/
abbrev Result := Except Stop (Option Value × State Value)

def Result.follow (x : Result) (k : State Value → Result) : Result := do
  match ← x with
  | (none, σ) => k σ
  | (some v, σ) => .ok (some v, σ)

/-- Executes a body as long as a test holds; each round takes one unit of fuel. -/
def repeatWhile (test : Store Value → Except Stop Bool) (body : State Value → Result) :
    (rounds : Nat) → State Value → Result
  | rounds, σ => do
    if ← test σ.store then
      match rounds, σ.fuel with
      | rounds + 1, fuel + 1 => (body ⟨σ.store, fuel⟩).follow (repeatWhile test body rounds)
      | _, _ => .error .outOfFuel
    else .ok (none, σ)

def assigned (σ : Store Value) (target : Binder) (value : Expr) : Except Stop (List (Name × Value)) := do
  let v ← eval σ value
  match target with
  | .name n => .ok [(n, v)]
  | _ => .error .unsupported

mutual

def exec : Stmt → State Value → Result
  | .assign node target _ value, σ => do
    return (none, σ.write ⟨.stmt, node.id⟩ (← assigned σ.store target value))
  | .when _ e body, σ => do if ← test σ.store e then execBlock body σ else .ok (none, σ)
  | .branch _ e ift iff, σ => do if ← test σ.store e then execBlock ift σ else execBlock iff σ
  | .loop _ e body, σ => repeatWhile (test · e) (fun σ => execBlock body σ) σ.fuel σ
  | .scope _ none _ body, σ => execBlock body σ
  | .assert _ e _, σ => do if ← test σ.store e then .ok (none, σ) else .error .failedAssertion
  | .effect _ value, σ => do
    let _ ← eval σ.store value
    return (none, σ)
  | .ret _ value, σ => do return (some (← eval σ.store value), σ)
  | .skip _, σ => .ok (none, σ)
  | .scope _ (some _) _ _, _ | .store .., _ | .each .., _ => .error .unsupported

def execBlock : Block → State Value → Result
  | ⟨_, stmts⟩, σ => execStmts stmts σ

def execStmts : List Stmt → State Value → Result
  | [], σ => .ok (none, σ)
  | s :: rest, σ => (exec s σ).follow fun σ => execStmts rest σ

end

/-- The value that a function returns for the given arguments, or why there is none. -/
def explain (f : Func) (args : List Value) : Except Stop Value :=
  if args.length = f.params.length then
    match bindArgs f.params args ∅ with
    | some store => do
      match ← execBlock f.body ⟨store, fuel⟩ with
      | (some v, _) => .ok v
      | (none, _) => .error .fellOff
    | none => .error .unsupported
  else .error .wrongArity

end Reference

/-! Without its reasons -/

variable {α : Type}

theorem toOption_pure (a : α) : (pure a : Except ε α).toOption = some a := rfl

theorem toOption_demand (x : Option α) : (demand x).toOption = x := by
  cases x <;> rfl

def Outcome.result {V C : Type} (o : Outcome V C) : Option (Option V × State V) :=
  match o.exit with
  | .next => some (none, o.state)
  | .ret v => some (some v, o.state)
  | .fault _ => none

namespace Reference

variable {form : Form} {args : List Value}

theorem toOption_number (v : Value) : (number v).toOption = v.asNumber? := by
  cases v <;> rfl

theorem toOption_truth (v : Value) : (truth v).toOption = v.asBool? := by
  cases v <;> rfl

theorem toOption_literal (l : Literal) : (literal l).toOption = reference.literal l := by
  unfold literal
  cases value : l.value? with
  | some v => simp [reference, value, Except.toOption]
  | none => cases l <;> simp [reference, value, Except.toOption]

theorem toOption_arithmetic (form : Form) (args : List Rat) :
    (arithmetic form args).toOption = (form.arithmetic? args).map .number := by
  unfold arithmetic
  cases form.arithmetic? args <;> rfl

theorem toOption_mapM {β ε : Type} {f : α → Except ε β} {g : α → Option β} (same : ∀ a, (f a).toOption = g a)
    (as : List α) : (as.mapM f).toOption = as.mapM g := by
  induction as with
  | nil => rfl
  | cons a rest ih =>
    simp only [mapM_cons, toOption_bind, toOption_pure, same, ih]
    rfl

theorem toOption_unary (op : UnaryOp) (arg : Value) :
    (unary op arg).toOption = reference.apply () (.unary op) [arg] := by
  cases op <;> cases arg <;> rfl

theorem apply_eq_arithmetic (plain : form.operate? id args = do
      return .number (id (← form.arithmetic? (← args.mapM Value.asNumber?)))) :
    reference.apply () form args =
      (args.mapM Value.asNumber?).bind fun numbers => (form.arithmetic? numbers).map .number := by
  change form.operate? id args = _
  simp only [plain, Option.map_eq_bind]
  rfl

theorem apply_eq_none (plain : form.operate? id args = do
      return .number (id (← form.arithmetic? (← args.mapM Value.asNumber?))))
    (unknown : ∀ numbers, form.arithmetic? numbers = none) : reference.apply () form args = none := by
  rw [apply_eq_arithmetic plain]
  cases args.mapM Value.asNumber? with
  | none => rfl
  | some numbers => simp only [bind_some, unknown, Option.map_none]

theorem eval_of_unknown {e : Expr} (formed : e.form? = some form) (σ : Store Value)
    (plain : ∀ args, form.operate? id args = do return .number (id (← form.arithmetic? (← args.mapM Value.asNumber?))))
    (unknown : ∀ numbers, form.arithmetic? numbers = none) : (reference.eval () σ e).toOption = none := by
  simp only [Machine.eval_form _ formed, toOption_bind, toOption_demand, apply_eq_none (plain _) unknown,
    Option.bind_fun_none]

theorem toOption_nary (op : NaryOp) (args : List Value) :
    (nary op args).toOption = reference.apply () (.nary op) args := by
  have truths := toOption_mapM toOption_truth args
  have numbers := toOption_mapM toOption_number args
  cases op with
  | and | or =>
    simp only [nary, toOption_bind, truths, toOption_pure]
    rfl
  | min | max =>
    rw [apply_eq_arithmetic rfl]
    simp only [nary, toOption_bind, numbers, toOption_arithmetic]
  | zip | empty => exact (apply_eq_none rfl fun _ => rfl).symm

theorem toOption_related (r : Relation) (a b : Value) : (related r a b).toOption = Form.related? r a b := by
  unfold related
  cases Form.related? r a b <;> rfl

theorem toOption_compared : (ops : List Relation) → (args : List Value) →
    (compared ops args).toOption = Form.compared? ops args
  | r :: ops, a :: b :: rest => by
    simp only [compared, toOption_bind, toOption_related, toOption_compared ops (b :: rest), toOption_pure]
    rfl
  | [], _ | _ :: _, [] | _ :: _, [_] => rfl

mutual

theorem toOption_eval (σ : Store Value) : (e : Expr) →
    (eval σ e).toOption = (reference.eval () σ e).toOption
  | .var _ name => by
    simp only [eval, Machine.eval, Store.read, Store.value?]
    cases σ.get? name <;> rfl
  | .lit _ value => by rw [eval, toOption_literal, Machine.eval, toOption_demand]
  | .unary _ op _ arg => by
    simp only [eval, Machine.eval, toOption_bind, toOption_demand, toOption_eval σ arg, toOption_unary]
  | .binary _ op _ lhs rhs => by
    simp only [eval, Machine.eval, toOption_bind, toOption_demand, toOption_number, toOption_arithmetic,
      toOption_eval σ lhs, toOption_eval σ rhs]
    cases (reference.eval () σ lhs).toOption with
    | none => rfl
    | some a =>
      cases (reference.eval () σ rhs).toOption with
      | none => cases a <;> rfl
      | some b =>
        simp only [bind_some, apply_eq_arithmetic (rfl : Form.operate? id (.binary op) _ = _)]
        cases a <;> cases b <;> rfl
  | .ternary _ .fma _ first second third => by
    simp only [eval, Machine.eval, toOption_bind, toOption_demand, toOption_number, toOption_arithmetic,
      toOption_eval σ first, toOption_eval σ second, toOption_eval σ third]
    cases (reference.eval () σ first).toOption with
    | none => rfl
    | some a =>
      cases (reference.eval () σ second).toOption with
      | none => cases a <;> rfl
      | some b =>
        cases (reference.eval () σ third).toOption with
        | none => cases a <;> cases b <;> rfl
        | some c => cases a <;> cases b <;> cases c <;> rfl
  | .nary _ op _ args => by
    simp only [eval, Machine.eval, toOption_bind, toOption_demand, toOption_evalAll σ args, toOption_nary]
  | .compare _ ops args => by
    simp only [eval, Machine.eval, toOption_bind, toOption_demand, toOption_evalAll σ args, toOption_compared,
      toOption_pure]
    rfl
  | .cond _ test ift iff => by
    simp only [eval, Machine.eval, toOption_bind, toOption_demand, toOption_eval σ test, toOption_truth]
    have branches (b : Bool) : (if b then eval σ ift else eval σ iff).toOption =
        (if b then reference.eval () σ ift else reference.eval () σ iff).toOption := by
      cases b with
      | true => exact toOption_eval σ ift
      | false => exact toOption_eval σ iff
    simp only [branches]
    rfl
  | .const .. => rfl
  | .ternary _ .range _ _ _ _ | .tuple _ _ | .list _ _ | .index _ _ _ | .context _ _ _ [] =>
    (eval_of_unknown rfl σ (fun _ => rfl) fun _ => rfl).symm
  | .call .. | .context _ _ _ (_ :: _) | .comprehension .. | .slice .. | .update .. => rfl

theorem toOption_evalAll (σ : Store Value) : (es : List Expr) →
    (evalAll σ es).toOption = (reference.evalAll () σ es).toOption
  | [] => rfl
  | e :: rest => by
    simp only [evalAll, Machine.evalAll, toOption_bind, toOption_pure, toOption_eval σ e, toOption_evalAll σ rest]

end

theorem toOption_test (σ : Store Value) (e : Expr) : (test σ e).toOption = (reference.test () σ e).toOption := by
  simp only [test, Machine.test, toOption_bind, toOption_truth, toOption_demand, toOption_eval]
  rfl

theorem toOption_assigned (σ : Store Value) (target : Binder) (value : Expr) :
    (assigned σ target value).toOption = (reference.assigned () σ target value).toOption := by
  simp only [assigned, Machine.assigned, toOption_bind, toOption_eval]
  congr 1
  funext v
  cases target <;> rfl

theorem result_attempt {x : Except Fault α} :
    (Outcome.attempt x σ k).result = x.toOption.bind fun a => (k a).result := by
  cases x <;> rfl

theorem result_after (trace : List (Moment Value Unit)) (o : Outcome Value Unit) : (o.after trace).result = o.result :=
  rfl

theorem result_andThen (o : Outcome Value Unit) (k : State Value → Outcome Value Unit) :
    (o.andThen k).result = o.result.bind fun
      | (none, σ) => (k σ).result
      | (some v, σ) => some (some v, σ) := by
  obtain ⟨trace, exit, σ⟩ := o
  cases exit <;> rfl

theorem toOption_follow {x : Result} {o : Outcome Value Unit} (first : x.toOption = o.result)
    (rest : ∀ σ, (k σ).toOption = (l σ).result) : (x.follow k).toOption = (o.andThen l).result := by
  rw [Result.follow, toOption_bind, result_andThen, first]
  congr 1
  funext ⟨returned, σ⟩
  cases returned with
  | none => exact rest σ
  | some v => rfl

theorem toOption_repeatWhile {test : Store Value → Except Stop Bool} (moment : Store Value → Moment Value Unit)
    (tests : ∀ σ, (test σ).toOption = (test' σ).toOption) (bodies : ∀ σ, (body σ).toOption = (body' σ).result)
    (rounds : Nat) (σ : State Value) :
    (repeatWhile test body rounds σ).toOption = (Outcome.repeatWhile moment test' body' rounds σ).result := by
  obtain ⟨store, fuel⟩ := σ
  induction rounds generalizing store fuel with
  | zero =>
    unfold repeatWhile Outcome.repeatWhile
    rw [result_after, result_attempt, toOption_bind, tests]
    congr 1
    funext holds
    cases holds <;> rfl
  | succ rounds ih =>
    unfold repeatWhile Outcome.repeatWhile
    rw [result_after, result_attempt, toOption_bind, tests]
    congr 1
    funext holds
    cases holds with
    | false => rfl
    | true =>
      cases fuel with
      | zero => rfl
      | succ fuel => exact toOption_follow (bodies ⟨store, fuel⟩) fun σ => ih σ.store σ.fuel

mutual

theorem toOption_exec : (s : Stmt) → (σ : State Value) →
    (exec s σ).toOption = (reference.exec s () σ).result
  | .assign node target _ value, σ => by
    simp only [exec, Machine.exec, toOption_bind, toOption_pure, toOption_assigned, result_attempt]
    rfl
  | .store node name path value, σ => by
    have refused (l : Value) (p : List Value) (v : Value) : reference.replace l p v = none := rfl
    simp only [Machine.exec, Machine.replaced, result_attempt, toOption_bind, toOption_demand, refused,
      Option.bind_fun_none, Option.bind_none]
    rfl
  | .when _ e body, σ => by
    simp only [exec, Machine.exec, toOption_bind, toOption_test, result_attempt]
    congr 1
    funext holds
    cases holds with
    | true => exact toOption_execBlock body σ
    | false => rfl
  | .branch _ e ift iff, σ => by
    simp only [exec, Machine.exec, toOption_bind, toOption_test, result_attempt]
    congr 1
    funext holds
    cases holds with
    | true => exact toOption_execBlock ift σ
    | false => exact toOption_execBlock iff σ
  | .loop node e body, σ => toOption_repeatWhile _ (toOption_test · e) (toOption_execBlock body) σ.fuel σ
  | .each node target iterable body, σ => by
    have refused (v : Value) : reference.elements v = none := rfl
    simp only [Machine.exec, Machine.drawn, result_attempt, toOption_bind, toOption_demand, refused,
      Option.bind_fun_none, Option.bind_none]
    rfl
  | .scope _ none _ body, σ => toOption_execBlock body σ
  | .scope _ (some _) _ _, σ => rfl
  | .assert _ e _, σ => by
    simp only [exec, Machine.exec, toOption_bind, toOption_test, result_attempt]
    congr 1
    funext holds
    cases holds <;> rfl
  | .effect _ value, σ | .ret _ value, σ => by
    simp only [exec, Machine.exec, toOption_bind, toOption_pure, toOption_eval, result_attempt]
    rfl
  | .skip _, σ => rfl

theorem toOption_execBlock : (b : Block) → (σ : State Value) →
    (execBlock b σ).toOption = (reference.execBlock b () σ).result
  | ⟨_, stmts⟩, σ => toOption_execStmts stmts σ

theorem toOption_execStmts : (stmts : List Stmt) → (σ : State Value) →
    (execStmts stmts σ).toOption = (reference.execStmts stmts () σ).result
  | [], _ => rfl
  | s :: rest, σ => toOption_follow (toOption_exec s σ) (toOption_execStmts rest)

end

theorem bindFree_none (site : NodeId) (names : List Name) (σ : Store Value) :
    Machine.bindFree site (fun _ => none) names σ = σ := by
  induction names with
  | nil => rfl
  | cons n rest ih => exact ih

theorem length_of_bindArgs : {params : List Param} → {args : List Value} → {σ τ : Store Value} →
    bindArgs params args σ = some τ → args.length = params.length
  | [], [], _, _, _ => rfl
  | p :: params, v :: args, σ, τ, bound => by
    unfold bindArgs at bound
    split at bound
    · exact congrArg Nat.succ (length_of_bindArgs bound)
    · cases bound
  | [], _ :: _, _, _, bound | _ :: _, [], _, _, bound => nomatch bound

theorem toOption_explain (f : Func) (args : List Value) : (explain f args).toOption = run f args := by
  have start : Machine.start f (fun _ => none) args = bindArgs f.params args ∅ := by
    rw [Machine.start, bindFree_none]
  unfold explain run Machine.run Machine.execFunc
  rw [start]
  cases bound : bindArgs f.params args ∅ with
  | none => split <;> rfl
  | some store =>
    rw [if_pos (length_of_bindArgs bound)]
    simp only [toOption_bind, toOption_execBlock, Outcome.result, map_some, Option.bind_eq_bind,
      bind_some]
    cases (reference.execBlock f.body () ⟨store, fuel⟩).exit <;> rfl

end Reference

end NumLang
