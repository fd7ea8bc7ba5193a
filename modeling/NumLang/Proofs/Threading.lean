import NumLang.Flow.Effects
import NumLang.Proofs.Semantics
import NumLang.Tree.Rebuild

/-!
Rebuilding in the order of evaluation.
-/

namespace NumLang

variable {α β : Type} {s s' : Stmt}

theorem forall₂_split {first others : List α} {first' others' : List β} (same : first.length = first'.length)
    (related : Forall₂ R (first ++ others) (first' ++ others')) :
    Forall₂ R first first' ∧ Forall₂ R others others' := by
  have left := List.forall₂_take first.length related
  have right := List.forall₂_drop first.length related
  rw [List.take_left, same, List.take_left] at left
  rw [List.drop_left, same, List.drop_left] at right
  exact ⟨left, right⟩

namespace Expr

/-- The function that an expression calls with arguments by position only, and how many they are. -/
def callee? : Expr → Option (Func × Nat)
  | .call _ _ (some (.function f)) args [] => some (f, args.length)
  | _ => none

theorem callee?_eq_some {e : Expr} {f : Func} {count : Nat} (called : e.callee? = some (f, count)) :
    ∃ node func args, e = .call node func (some (.function f)) args [] ∧ count = args.length := by
  unfold callee? at called
  split at called
  · cases called
    exact ⟨_, _, _, rfl, rfl⟩
  · cases called

def isEffect : Expr → Bool
  | .call _ _ callee _ _ => !callee.any Callee.isPure
  | _ => false

/-- An expression with the given parts in the places of its own, which are as many. -/
def fill : Expr → List Expr → Expr
  | .unary node op spelling _, [x] => .unary node op spelling x
  | .binary node op spelling _ _, [x, y] => .binary node op spelling x y
  | .ternary node op spelling _ _ _, [x, y, z] => .ternary node op spelling x y z
  | .nary node op spelling _, es => .nary node op spelling es
  | .compare node ops _, es => .compare node ops es
  | .call node func callee args kwargs, es =>
    .call node func callee (es.take args.length) ((kwargs.map Prod.fst).zip (es.drop args.length))
  | .tuple node _, es => .tuple node es
  | .list node _, es => .list node es
  | .comprehension node targets _ elt, es => .comprehension node targets es.dropLast (es.getLast?.getD elt)
  | .index node _ _, [x, y] => .index node x y
  | .slice node _ start stop, x :: es => .slice node x (start.bind fun _ => es.head?) (stop.bind fun _ => es.getLast?)
  | .update node _ _ elt, x :: es => .update node x es.dropLast (es.getLast?.getD elt)
  | .cond node _ _ _, [x, y, z] => .cond node x y z
  | .context node ctor args kwargs, es =>
    .context node ctor (es.take args.length) ((kwargs.map Prod.fst).zip (es.drop args.length))
  | e, _ => e

theorem children_fill : (e : Expr) → (es : List Expr) → es.length = e.children.length → (e.fill es).children = es
  | .var .., [], _ | .lit .., [], _ | .const .., [], _ | .unary .., [_], _ | .binary .., [_, _], _
  | .index .., [_, _], _ | .ternary .., [_, _, _], _ | .cond .., [_, _, _], _ | .nary .., _, _ | .compare .., _, _
  | .tuple .., _, _ | .list .., _, _ | .slice _ _ none none, [_], _ | .slice _ _ (some _) none, [_, _], _
  | .slice _ _ none (some _), [_, _], _ | .slice _ _ (some _) (some _), [_, _, _], _ => rfl
  | .call _ _ _ args kwargs, es, same | .context _ _ args kwargs, es, same => by
    rw [children, length_append, length_map] at same
    simp [fill, children, List.map_snd_zip, same]
  | .comprehension _ _ rows elt, es, same | .update _ _ rows elt, _ :: es, same => by
    have nonempty : es ≠ [] := by
      rintro rfl
      simp [children] at same
    simp [fill, children, List.getLast?_eq_some_getLast nonempty, List.dropLast_concat_getLast nonempty]

theorem fill_children (e : Expr) : e.fill e.children = e := by
  cases e with
  | slice _ _ start stop => cases start <;> cases stop <;> rfl
  | call _ _ _ _ kwargs | context _ _ _ kwargs => simpa [fill, children] using List.zip_unzip kwargs
  | _ => simp [fill, children]

/-- An expression with other parts in the places of its own. -/
structure Rebuilt (e e' : Expr) : Prop where
  count : e'.children.length = e.children.length
  filled : e.fill e'.children = e'

theorem rebuilt_fill {e : Expr} {es : List Expr} (count : es.length = e.children.length) : e.Rebuilt (e.fill es) := by
  have same := children_fill e es count
  exact ⟨same.symm ▸ count, by rw [same]⟩

namespace Rebuilt

variable {e e' : Expr} (rebuilt : e.Rebuilt e')

include rebuilt

theorem eq (same : e'.children = e.children) : e' = e := by
  rw [← rebuilt.filled, same, fill_children]

theorem of_fill {f : Expr → α} (same : ∀ es, f (e.fill es) = f e) : f e' = f e :=
  rebuilt.filled ▸ same e'.children

theorem node : e'.node = e.node := rebuilt.of_fill fun _ => by unfold fill; split <;> rfl

theorem id : e'.id = e.id := congrArg Node.id rebuilt.node

theorem reads : e'.reads = e.reads := rebuilt.of_fill fun _ => by unfold fill; split <;> rfl

theorem calls : e'.calls = e.calls := rebuilt.of_fill fun _ => by unfold fill; split <;> rfl

theorem binds : e'.binds = e.binds := rebuilt.of_fill fun _ => by unfold fill; split <;> rfl

theorem isEffect : e'.isEffect = e.isEffect := rebuilt.of_fill fun _ => by unfold fill; split <;> rfl

theorem onlyParts : e'.onlyParts = e.onlyParts := rebuilt.of_fill fun _ => by unfold fill; split <;> rfl

theorem callee : e'.callee? = e.callee? := by
  cases e with
  | call node func callee args kwargs =>
    obtain ⟨count, filled⟩ := rebuilt
    rw [children, length_append, length_map] at count
    rw [← filled]
    match callee, kwargs with
    | some (.function f), [] => simp [fill, callee?, count]
    | some (.function f), _ :: _ =>
      obtain ⟨x, xs, later⟩ := List.exists_cons_of_ne_nil (l := e'.children.drop args.length) (by simp [count])
      simp [fill, later, callee?]
    | none, _ | some (.external _), _ => rfl
  | _ => exact rebuilt.of_fill fun es => by rcases es with _ | ⟨_, _ | ⟨_, _ | ⟨_, _ | _⟩⟩⟩ <;> rfl

theorem valued : e'.form? = e.form? ∧ e'.isValueless = e.isValueless := by
  have count := rebuilt.count
  rw [← rebuilt.filled]
  unfold fill
  split <;> try exact ⟨rfl, rfl⟩
  rename_i args kwargs
  rw [children, length_append, length_map] at count
  cases kwargs with
  | nil => exact ⟨rfl, rfl⟩
  | cons =>
    obtain ⟨x, xs, later⟩ := List.exists_cons_of_ne_nil (l := e'.children.drop args.length) (by simp [count])
    simp [later, form?, isValueless]

end Rebuilt

end Expr

/-- A statement with other expressions and blocks in the places of its own. -/
inductive Stmt.Rebuilt : Stmt → Stmt → Prop where
  | assign {node target ann value value'} : Rebuilt (.assign node target ann value) (.assign node target ann value')
  | store {node name path path' value value'} (same : path.length = path'.length) :
    Rebuilt (.store node name path value) (.store node name path' value')
  | when {node test test' body body'} : Rebuilt (.when node test body) (.when node test' body')
  | branch {node test test' ift ift' iff iff'} : Rebuilt (.branch node test ift iff) (.branch node test' ift' iff')
  | loop {node test test' body body'} : Rebuilt (.loop node test body) (.loop node test' body')
  | each {node target iterable iterable' body body'} :
    Rebuilt (.each node target iterable body) (.each node target iterable' body')
  | scope {node name ctx ctx' body body'} : Rebuilt (.scope node name ctx body) (.scope node name ctx' body')
  | assert {node test test' message message'} (same : message.isSome = message'.isSome) :
    Rebuilt (.assert node test message) (.assert node test' message')
  | effect {node value value'} : Rebuilt (.effect node value) (.effect node value')
  | ret {node value value'} : Rebuilt (.ret node value) (.ret node value')
  | skip {node} : Rebuilt (.skip node) (.skip node)

/-- A statement with the given expressions and blocks in the places of its own, which are as many. -/
def Stmt.fill : Stmt → List Expr → List Block → Stmt
  | .assign node target ann _, [value], _ => .assign node target ann value
  | .store node name _ value, es, _ => .store node name es.dropLast (es.getLast?.getD value)
  | .when node _ _, [test], [body] => .when node test body
  | .branch node _ _ _, [test], [ift, iff] => .branch node test ift iff
  | .loop node _ _, [test], [body] => .loop node test body
  | .each node target _ _, [iterable], [body] => .each node target iterable body
  | .scope node name _ _, [ctx], [body] => .scope node name ctx body
  | .assert node _ message, test :: es, _ => .assert node test (message.bind fun _ => es.head?)
  | .effect node _, [value], _ => .effect node value
  | .ret node _, [value], _ => .ret node value
  | s, _, _ => s

theorem Stmt.fill_self (s : Stmt) : s.fill s.exprs s.blocks = s := by
  cases s with
  | assert _ _ message => cases message <;> rfl
  | _ => simp [fill, exprs, blocks]

theorem Stmt.rebuilt_fill : (s : Stmt) → (es : List Expr) → (bs : List Block) → es.length = s.exprs.length →
    bs.length = s.blocks.length → s.Rebuilt (s.fill es bs) ∧ (s.fill es bs).exprs = es ∧ (s.fill es bs).blocks = bs
  | .assign .., [_], [], _, _ => ⟨.assign, rfl, rfl⟩
  | .store _ _ path value, es, [], same, _ => by
    have nonempty : es ≠ [] := by
      rintro rfl
      simp [exprs] at same
    refine ⟨.store (by simp_all [exprs]), ?_, rfl⟩
    simp [fill, exprs, List.getLast?_eq_some_getLast nonempty, List.dropLast_concat_getLast nonempty]
  | .when .., [_], [_], _, _ => ⟨.when, rfl, rfl⟩
  | .branch .., [_], [_, _], _, _ => ⟨.branch, rfl, rfl⟩
  | .loop .., [_], [_], _, _ => ⟨.loop, rfl, rfl⟩
  | .each .., [_], [_], _, _ => ⟨.each, rfl, rfl⟩
  | .scope .., [_], [_], _, _ => ⟨.scope, rfl, rfl⟩
  | .assert _ _ none, [_], [], _, _ | .assert _ _ (some _), [_, _], [], _, _ => ⟨.assert rfl, rfl, rfl⟩
  | .effect .., [_], [], _, _ => ⟨.effect, rfl, rfl⟩
  | .ret .., [_], [], _, _ => ⟨.ret, rfl, rfl⟩
  | .skip .., [], [], _, _ => ⟨.skip, rfl, rfl⟩

theorem Stmt.Rebuilt.node (rebuilt : s.Rebuilt s') : s'.node = s.node := by cases rebuilt <;> rfl

theorem Stmt.Rebuilt.binds (rebuilt : s.Rebuilt s') : s'.binds = s.binds := by cases rebuilt <;> rfl

theorem Stmt.Rebuilt.id (rebuilt : s.Rebuilt s') : s'.id = s.id := congrArg Node.id rebuilt.node

/-- What computations lead to from a state. -/
structure Logic (m : Type → Type) [Monad m] (S : Type) where
  leads : {α : Type} → S → m α → (α → S → Prop) → Prop
  pure : ∀ {α : Type} {s : S} {a : α} {post : α → S → Prop}, post a s → leads s (pure a) post
  bind : ∀ {α β : Type} {s : S} {x : m α} {k : α → m β} {post : β → S → Prop},
    leads s x (fun a t => leads t (k a) post) → leads s (x >>= k) post
  imp : ∀ {α : Type} {s : S} {x : m α} {post better : α → S → Prop}, leads s x post →
    (∀ a t, post a t → better a t) → leads s x better

theorem Logic.andThen [Monad m] {logic : Logic m S} {s : S} (first : logic.leads s x middle)
    (rest : ∀ a t, middle a t → logic.leads t (k a) post) : logic.leads s (x >>= k) post :=
  logic.bind (logic.imp first rest)

def Logic.giving (m : Type → Type) [Monad m] [LawfulMonad m] : Logic m Unit where
  leads _ x post := ∃ a, x = Pure.pure a ∧ post a ()
  pure here := ⟨_, rfl, here⟩
  bind := by
    rintro α β ⟨⟩ x k post ⟨a, rfl, b, rest, here⟩
    exact ⟨b, by rw [pure_bind, rest], here⟩
  imp := by
    rintro α ⟨⟩ x post better ⟨a, rfl, here⟩ stronger
    exact ⟨a, rfl, stronger a () here⟩

namespace Rebuild

variable {m : Type → Type} [Monad m] {S : Type} {logic : Logic m S} {hooks : Rebuild m} {P : Expr → Prop}
  {W : S → S → List Expr → List Expr → Prop} {V : S → S → List Block → List Block → Prop}
  {R : S → S → List Stmt → List Stmt → Prop}

section Names

variable [LawfulMonad m]

mutual

theorem onBinder_eq_pure (plain : ∀ n, hooks.name n = pure n) : (target : Binder) → hooks.onBinder target = pure target
  | .wildcard => rfl
  | .name n => by simp [onBinder, plain]
  | .tuple parts => by simp [onBinder, onBinders_eq_pure plain parts]

theorem onBinders_eq_pure (plain : ∀ n, hooks.name n = pure n) :
    (targets : List Binder) → hooks.onBinders targets = pure targets
  | [] => rfl
  | b :: rest => by simp [onBinders, onBinder_eq_pure plain b, onBinders_eq_pure plain rest]

end

theorem onName?_eq_pure (plain : ∀ n, hooks.name n = pure n) (n : Option Name) : hooks.onName? n = pure n := by
  cases n <;> simp [onName?, plain]

theorem bind_onExprs (es : List Expr) (same : ∀ es', es'.length = es.length → k es' = k' es') :
    hooks.onExprs es >>= k = hooks.onExprs es >>= k' := by
  induction es generalizing k k' with
  | nil => simpa [onExprs] using same [] rfl
  | cons e rest ih =>
    simp only [onExprs, bind_assoc, pure_bind]
    exact bind_congr fun e' => ih fun es' count => same (e' :: es') (by simp [count])

theorem bind_onKeyed (es : List (String × Expr)) :
    hooks.onKeyed es >>= k = hooks.onExprs (es.map Prod.snd) >>= fun es' => k ((es.map Prod.fst).zip es') := by
  induction es generalizing k with
  | nil => simp [onKeyed, onExprs]
  | cons entry rest ih => simp only [onKeyed, map_cons, onExprs, bind_assoc, pure_bind, ih, List.zip_cons_cons]

theorem onExprs_append (first others : List Expr) : hooks.onExprs (first ++ others) = do
    return (← hooks.onExprs first) ++ (← hooks.onExprs others) := by
  induction first with
  | nil => simp [onExprs]
  | cons e rest ih => simp [onExprs, ih]

/-- An expression is rebuilt from its parts, which are rebuilt one after the other. -/
theorem onExpr_eq (plain : ∀ n, hooks.name n = pure n) (e : Expr) :
    hooks.onExpr e = hooks.expr e (hooks.onExprs e.children >>= fun es => pure (e.fill es)) := by
  cases e with
  | call | context =>
    simp only [onExpr, Expr.children, bind_onKeyed, onExprs_append, bind_assoc, plain, pure_bind]
    congr 1
    refine bind_onExprs _ fun es count => bind_congr fun es' => ?_
    simp [Expr.fill, ← count]
  | slice node value start stop =>
    cases start <;> cases stop
    all_goals
      simp only [onExpr, Expr.children, Option.toList, onExprs_append, onExprs, onOption, bind_assoc, pure_bind]
      rfl
  | comprehension | update =>
    simp only [onExpr, Expr.children, onExprs, onExprs_append, plain, onBinders_eq_pure plain, bind_assoc, pure_bind]
    simp [Expr.fill]
  | _ =>
    simp only [onExpr, Expr.children, onExprs, plain, bind_assoc, pure_bind]
    rfl

/-- A statement is rebuilt from its expressions and then its blocks. -/
theorem onStmt_eq (plain : ∀ n, hooks.name n = pure n) (s : Stmt) : hooks.onStmt s = hooks.stmt s do
    let es ← hooks.onExprs s.exprs
    let bs ← s.blocks.mapM hooks.onBlock
    return s.fill es bs := by
  cases s with
  | assert _ _ message =>
    cases message
    all_goals
      simp only [onStmt, Stmt.exprs, Option.toList, Stmt.blocks, List.mapM_nil, onExprs, onOption, bind_assoc, pure_bind]
      rfl
  | store => simp [onStmt, Stmt.exprs, Stmt.blocks, onExprs, onExprs_append, Stmt.fill, plain]
  | _ =>
    simp only [onStmt, Stmt.exprs, Stmt.blocks, onExprs, mapM_cons, List.mapM_nil, onBinder_eq_pure plain,
      onName?_eq_pure plain, bind_assoc, pure_bind]
    rfl

end Names

/-- Names stay, and what is known of lists of expressions and what they become between two states is known of longer
lists. -/
structure Chains (hooks : Rebuild m) (W : S → S → List Expr → List Expr → Prop) : Prop where
  name : ∀ n, hooks.name n = pure n
  nil : ∀ s, W s s [] []
  append : ∀ {s t u es es' fs fs'}, W s t es es' → W t u fs fs' → W s u (es ++ fs) (es' ++ fs')
  length : ∀ {s t es es'}, W s t es es' → es.length = es'.length

/-- It is known of expressions if it is known of the parts of each. -/
structure Threads (logic : Logic m S) (hooks : Rebuild m) (P : Expr → Prop)
    (W : S → S → List Expr → List Expr → Prop) : Prop extends Chains hooks W where
  expr : ∀ {e usual}, P e → ((∀ part ∈ e.children, P part) →
      ∀ s, logic.leads s usual fun e' t => e.Rebuilt e' ∧ W s t e.children e'.children) →
    ∀ s, logic.leads s (hooks.expr e usual) fun e' t => W s t [e] [e']

theorem Chains.isSome (chains : Chains hooks W) {s t : S} {e e' : Option Expr} (made : W s t e.toList e'.toList) :
    e.isSome = e'.isSome := by
  have same := chains.length made
  cases e <;> cases e' <;> first | rfl | nomatch same

section Layer

/-- What is known of an expression and what it becomes, from whatever state it is treated. -/
def Treated (logic : Logic m S) (hooks : Rebuild m) (W : S → S → List Expr → List Expr → Prop) (e : Expr) : Prop :=
  ∀ s, logic.leads s (hooks.onExpr e) fun e' t => W s t [e] [e']

theorem Chains.onExprs (chains : Chains hooks W) (each : ∀ e ∈ es, Treated logic hooks W e) (s : S) :
    logic.leads s (hooks.onExprs es) fun es' t => W s t es es' := by
  induction es generalizing s with
  | nil => exact logic.pure (chains.nil s)
  | cons e rest ih =>
    obtain ⟨here, later⟩ := forall_mem_cons.mp each
    refine logic.andThen (here s) fun e' t first => ?_
    exact logic.andThen (ih later t) fun others u second => logic.pure (chains.append first second)

theorem Chains.onOption (chains : Chains hooks W) {e : Option Expr} (each : ∀ part ∈ e.toList, Treated logic hooks W part)
    (s : S) : logic.leads s (hooks.onOption e) fun e' t => W s t e.toList e'.toList := by
  cases e with
  | none => exact logic.pure (chains.nil s)
  | some e => exact logic.andThen (each e mem_cons_self s) fun e' t made => logic.pure made

variable [LawfulMonad m]

/-- An expression is treated with its parts put together again, which are treated one after the other. -/
theorem Chains.layer (logic : Logic m S) (chains : Chains hooks W) (e : Expr) : ∃ usual, hooks.onExpr e = hooks.expr e usual ∧
    ((∀ part ∈ e.children, Treated logic hooks W part) →
      ∀ s, logic.leads s usual fun e' t => e.Rebuilt e' ∧ W s t e.children e'.children) := by
  refine ⟨_, onExpr_eq chains.name e, fun below s => ?_⟩
  refine logic.andThen (chains.onExprs below s) fun es t made => logic.pure ?_
  have count := (chains.length made).symm
  exact ⟨Expr.rebuilt_fill count, (Expr.children_fill e es count).symm ▸ made⟩

/-- What is known of the parts of an expression as they are treated one after the other is known of it. -/
theorem threads_onExpr (threads : Threads logic hooks P W) (e : Expr) (here : P e) : Treated logic hooks W e := by
  induction e using Expr.byChildren with
  | step e ih =>
    obtain ⟨usual, whole, layer⟩ := threads.layer logic e
    intro s
    rw [whole]
    exact threads.expr here (fun parts => layer fun part mem => ih part mem (parts part mem)) s

theorem threads_onExprs (threads : Threads logic hooks P W) (es : List Expr) (each : ∀ e ∈ es, P e) (s : S) :
    logic.leads s (hooks.onExprs es) fun es' t => W s t es es' :=
  threads.onExprs (fun e mem => threads_onExpr threads e (each e mem)) s

theorem threads_onOption (threads : Threads logic hooks P W) (e : Option Expr) (each : ∀ part ∈ e.toList, P part)
    (s : S) : logic.leads s (hooks.onOption e) fun e' t => W s t e.toList e'.toList :=
  threads.onOption (fun e mem => threads_onExpr threads e (each e mem)) s

end Layer

/-- Something is known of expressions, blocks and statements and what they become between two states, if it is known
of what is in each. -/
structure Weaves (logic : Logic m S) (hooks : Rebuild m) (W : S → S → List Expr → List Expr → Prop)
    (V : S → S → List Block → List Block → Prop) (R : S → S → List Stmt → List Stmt → Prop) : Prop
    extends Chains hooks W where
  onExpr : ∀ e s, logic.leads s (hooks.onExpr e) fun e' t => W s t [e] [e']
  noBlocks : ∀ s, V s s [] []
  blocks : ∀ {s t u bs bs' cs cs'}, V s t bs bs' → V t u cs cs' → V s u (bs ++ cs) (bs' ++ cs')
  noStmts : ∀ s, R s s [] []
  stmts : ∀ {s t u st rest out others}, R s t [st] out → R t u rest others → R s u (st :: rest) (out ++ others)
  stmt : ∀ {st usual}, (∀ s, logic.leads s usual fun st' u => st.Rebuilt st' ∧
      ∃ t, W s t st.exprs st'.exprs ∧ V t u st.blocks st'.blocks) →
    ∀ s, logic.leads s (hooks.stmt st usual) fun out t => R s t [st] out
  block : ∀ {b usual}, (∀ s, logic.leads s usual fun b' t => b'.id = b.id ∧ R s t b.stmts b'.stmts) →
    ∀ s, logic.leads s (hooks.block b usual) fun b' t => V s t [b] [b']

theorem Weaves.onExprs (weaves : Weaves logic hooks W V R) (es : List Expr) (s : S) :
    logic.leads s (hooks.onExprs es) fun es' t => W s t es es' :=
  weaves.toChains.onExprs (fun e _ => weaves.onExpr e) s

theorem Weaves.onStmts (weaves : Weaves logic hooks W V R) {stmts : List Stmt}
    (each : ∀ st ∈ stmts, ∀ s, logic.leads s (hooks.onStmt st) fun out t => R s t [st] out) (s : S) :
    logic.leads s (hooks.onStmts stmts) fun out t => R s t stmts out := by
  induction stmts generalizing s with
  | nil => exact logic.pure (weaves.noStmts s)
  | cons st rest ih =>
    obtain ⟨here, later⟩ := forall_mem_cons.mp each
    refine logic.andThen (here s) fun out t first => ?_
    exact logic.andThen (ih later t) fun others u second => logic.pure (weaves.stmts first second)

theorem Weaves.onBlock (weaves : Weaves logic hooks W V R) {b : Block}
    (each : ∀ st ∈ b.stmts, ∀ s, logic.leads s (hooks.onStmt st) fun out t => R s t [st] out) (s : S) :
    logic.leads s (hooks.onBlock b) fun b' t => V s t [b] [b'] := by
  obtain ⟨id, stmts⟩ := b
  refine weaves.block (fun s => ?_) s
  exact logic.andThen (weaves.onStmts each s) fun out t made => logic.pure ⟨rfl, made⟩

theorem Weaves.onBlocks [LawfulMonad m] (weaves : Weaves logic hooks W V R) {bs : List Block}
    (each : ∀ b ∈ bs, ∀ st ∈ b.stmts, ∀ s, logic.leads s (hooks.onStmt st) fun out t => R s t [st] out) (s : S) :
    logic.leads s (bs.mapM hooks.onBlock) fun bs' t => bs'.length = bs.length ∧ V s t bs bs' := by
  induction bs generalizing s with
  | nil =>
    rw [List.mapM_nil]
    exact logic.pure ⟨rfl, weaves.noBlocks s⟩
  | cons b rest ih =>
    obtain ⟨here, later⟩ := forall_mem_cons.mp each
    rw [mapM_cons]
    refine logic.andThen (weaves.onBlock here s) fun b' t first => ?_
    refine logic.andThen (ih later t) fun bs' u ⟨count, second⟩ => logic.pure ?_
    exact ⟨congrArg (· + 1) count, weaves.blocks first second⟩

/-- What is known of the parts of a statement as they are treated one after the other is known of it. -/
theorem weaves_onStmt [LawfulMonad m] (weaves : Weaves logic hooks W V R) (st : Stmt) :
    ∀ s, logic.leads s (hooks.onStmt st) fun out t => R s t [st] out := by
  induction st using Stmt.byParts with
  | step st ih =>
    rw [onStmt_eq weaves.name]
    refine weaves.stmt fun s => ?_
    refine logic.andThen (weaves.onExprs st.exprs s) fun es t own => ?_
    refine logic.andThen (weaves.onBlocks ih t) fun bs u ⟨count, inner⟩ => logic.pure ?_
    obtain ⟨rebuilt, exprs, blocks⟩ := st.rebuilt_fill es bs (weaves.length own).symm count
    exact ⟨rebuilt, t, exprs.symm ▸ own, blocks.symm ▸ inner⟩

theorem weaves_onBlock [LawfulMonad m] (weaves : Weaves logic hooks W V R) (b : Block) (s : S) :
    logic.leads s (hooks.onBlock b) fun b' t => V s t [b] [b'] :=
  weaves.onBlock (fun st _ => weaves_onStmt weaves st) s

end Rebuild

end NumLang
