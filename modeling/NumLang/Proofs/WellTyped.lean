import NumLang.Proofs.Inference
import NumLang.Proofs.Resolution
import NumLang.Proofs.Stops

/-!
Well-typed expressions do not go wrong.
-/

namespace NumLang

variable {e : Expr}

/-- The type of a value. The reference evaluator computes with numbers and truth values only. -/
inductive Value.HasTy : Value → Ty → Prop where
  | number (r : Rat) : HasTy (.number r) .real
  | bool (b : Bool) : HasTy (.bool b) .bool

namespace Reference

variable {α β : Type}

def Safe (x : Except Stop α) (good : α → Prop) : Prop :=
  match x with
  | .ok a => good a
  | .error stop => stop.isWrong = false

variable {x : Except Stop α} {good : α → Prop} {v : Value} {t : Ty} {u : Uses} {φ : Nat → Ty}

theorem Safe.bind (first : Safe x good) (rest : ∀ a, good a → Safe (k a) better) : Safe (x >>= k) better := by
  cases x with
  | ok a => exact rest a first
  | error stop => exact first

theorem Safe.imp (safe : Safe x good) (stronger : ∀ a, good a → better a) : Safe x better := by
  cases x with
  | ok a => exact stronger a safe
  | error stop => exact safe

theorem safe_number (typed : v.HasTy .real) : Safe (number v) fun _ => True := by
  cases typed
  trivial

theorem safe_truth (typed : v.HasTy .bool) : Safe (truth v) fun _ => True := by
  cases typed
  trivial

theorem safe_mapM : (as : List α) → (∀ a ∈ as, Safe (f a) fun _ => True) → Safe (as.mapM f) fun _ => True
  | [], _ => trivial
  | a :: rest, safe => by
    rw [mapM_cons]
    refine (safe a mem_cons_self).bind fun _ _ => ?_
    refine (safe_mapM rest fun b mem => safe b (mem_cons_of_mem _ mem)).bind fun _ _ => ?_
    exact trivial

theorem safe_arithmetic {form : Form} (fits : t = .real ∨ form.arithmetic? args = none) :
    Safe (arithmetic form args) (·.HasTy t) := by
  unfold arithmetic
  split
  · rename_i r given
    rcases fits with rfl | absent
    · exact .number r
    · nomatch absent.symm.trans given
  · show Stop.isWrong (if _ then _ else _) = false
    split <;> rfl

section Operators

variable {f : Nat → Ty} {op : BinaryOp} {vs : List Value}

theorem safe_unary {op : UnaryOp} (typed : v.HasTy (((op.signature.subst f).param 0).subst φ)) :
    Safe (unary op v) (·.HasTy ((op.signature.subst f).ret.subst φ)) := by
  cases op with
  | not =>
    refine (safe_truth typed).bind fun b _ => ?_
    exact .bool !b
  | neg | fabs => exact (safe_number typed).bind fun _ _ => safe_arithmetic (.inl rfl)
  | _ => rfl

theorem safe_left (typed : v.HasTy (((op.signature.subst f).param 0).subst φ)) :
    Safe (number v) fun _ => True := by
  cases op with
  | size => nomatch (typed : v.HasTy (.list _))
  | _ => exact safe_number typed

theorem safe_right (typed : v.HasTy (((op.signature.subst f).param 1).subst φ)) :
    Safe (number v) fun _ => True := by
  cases op with
  | _ => exact safe_number typed

theorem safe_binary (op : BinaryOp) (a b : Rat) :
    Safe (arithmetic (.binary op) [a, b]) (·.HasTy ((op.signature.subst f).ret.subst φ)) := by
  cases op with
  | range => exact safe_arithmetic (.inr rfl)
  | _ => exact safe_arithmetic (.inl rfl)

theorem all_of_forall₂ (paired : Forall₂ R as bs) (each : ∀ a, ∀ b ∈ bs, R a b → good a) : ∀ a ∈ as, good a := by
  induction paired with
  | nil => nofun
  | cons first _ ih =>
    refine forall_mem_cons.mpr ⟨each _ _ mem_cons_self first, ih fun a b mem => ?_⟩
    exact each a b (mem_cons_of_mem _ mem)

theorem hasTy_of_replicate (closed : ∀ g, t.subst g = t)
    (typed : Forall₂ (fun v t => v.HasTy (t.subst φ)) vs (Ty.substAll f (List.replicate n t))) :
    ∀ v ∈ vs, v.HasTy t := by
  refine all_of_forall₂ typed fun v copy mem has => ?_
  rw [Ty.substAll_eq_map, List.map_replicate] at mem
  rwa [List.eq_of_mem_replicate mem, closed, closed] at has

theorem safe_nary {op : NaryOp} {raw : Signature} (known : op.signature? arity = some raw)
    (typed : Forall₂ (fun v t => v.HasTy (t.subst φ)) vs (raw.subst f).params) :
    Safe (nary op vs) (·.HasTy ((raw.subst f).ret.subst φ)) := by
  cases op with
  | and | or =>
    cases known
    have bools := hasTy_of_replicate (fun _ => rfl) typed
    refine (safe_mapM vs fun v mem => safe_truth (bools v mem)).bind fun _ _ => ?_
    exact .bool _
  | min | max =>
    simp only [NaryOp.signature?] at known
    split at known
    · cases known
      have numbers := hasTy_of_replicate (fun _ => rfl) typed
      exact (safe_mapM vs fun v mem => safe_number (numbers v mem)).bind fun _ _ => safe_arithmetic (.inl rfl)
    · cases known
  | zip | empty => rfl

theorem safe_related {r : Relation} {a b : Value} (first : a.HasTy t) (second : b.HasTy t)
    (ordered : r.isEquality = false → t = .real) : Safe (related r a b) fun _ => True := by
  cases r with
  | eq | ne => trivial
  | lt | le | gt | ge =>
    cases ordered rfl
    cases first
    cases second
    trivial

theorem safe_compared : {ops : List Relation} → {types : List Ty} → {vs : List Value} → Infer.Comparable φ ops types →
    Forall₂ (fun v t => v.HasTy (t.subst φ)) vs types → Safe (compared ops vs) fun _ => True
  | r :: ops, _, _, comparable, .cons first (.cons second others) => by
    obtain ⟨ordered, same, comparable⟩ := comparable
    refine (safe_related (same ▸ first) second fun ordering => same ▸ ordered ordering).bind fun _ _ => ?_
    exact (safe_compared comparable (.cons second others)).bind fun _ _ => trivial
  | [], _, _, _, _ | _ :: _, _, _, _, .nil | _ :: _, _, _, _, .cons _ .nil => trivial

end Operators

def Stored (φ : Nat → Ty) (env : NameMap DefId) (σ : Store Value) : Prop :=
  ∀ n d, env.get? n = some d → ∃ v, σ.value? n = some v ∧ v.HasTy (φ (d + 1))

def Means (u : Uses) (φ : Nat → Ty) (e : Expr) (t : Ty) : Prop :=
  ∀ stmt env σ, Uses.Lists u.reach stmt env u.uses e → Stored φ env σ → Safe (eval σ e) (·.HasTy t)

theorem safe_evalAll (stored : Stored φ env σ) {types : List Ty}
    (typed : Forall₂ (fun e t => Means u φ e (t.subst φ)) es types)
    (listed : ∀ e ∈ es, Uses.Lists u.reach stmt env u.uses e) :
    Safe (evalAll σ es) fun vs => Forall₂ (fun v t => v.HasTy (t.subst φ)) vs types := by
  induction typed with
  | nil => exact .nil
  | cons first _ ih =>
    obtain ⟨own, others⟩ := forall_mem_cons.mp listed
    refine (first stmt env σ own stored).bind fun v typed => ?_
    exact (ih others).bind fun vs rest => List.Forall₂.cons typed rest

end Reference

/-- What a statement evaluates by itself has the type that is asked for, and the name that it binds has this type. -/
def Reference.Checked (u : Uses) (φ : Nat → Ty) : Stmt → Prop
  | .assign node target _ value => ∃ t, Means u φ value t ∧
    ∀ n, target = .name n → ∃ d, u.reach.defAt? node.id n = some d ∧ φ (d + 1) = t
  | .when _ test _ | .branch _ test _ _ | .loop _ test _ | .assert _ test _ => Means u φ test .bool
  | .effect _ value => ∃ t, Means u φ value t
  | .ret _ value => Means u φ value (φ 0)
  | .store .. | .each .. | .scope .. | .skip .. => True

def Uses.Single (u : Uses) : Prop := ∀ use ∈ u.uses, u.at? use.site.node = some use

namespace Infer

open Reference

theorem ensures_ofLiteral (l : Literal) : Ensures (ofLiteral l) fun φ t => Safe (literal l) (·.HasTy (t.subst φ)) := by
  cases l with
  | bool b => exact ensures_pure fun _ => .bool b
  | host v =>
    cases v with
    | bool b => exact ensures_pure fun _ => .bool b
    | number r => exact ensures_pure fun _ => .number r
    | _ => exact (proceeds_ofHost _).imp fun _ _ _ => rfl
  | integer n => exact ensures_pure fun _ => .number n
  | decimal | hexadecimal | fraction | digits =>
    refine ensures_pure fun φ => ?_
    simp only [literal, Literal.value?]
    split
    · rename_i v parsed
      obtain ⟨r, _, rfl⟩ := map_eq_some_iff.mp parsed
      exact .number r
    · rfl

section Expressions

variable {u : Uses}

theorem ensures_expecting (typed : Ensures (ofExpr u e) fun φ t => Means u φ e (t.subst φ)) {expected : Ty} :
    Ensures (expecting site expected (ofExpr u e)) fun φ _ => Means u φ e (expected.subst φ) :=
  (typed.expecting site expected).imp fun _ _ ⟨_, same, means⟩ => same ▸ means

theorem ensures_var (single : u.Single) (node : Node) (name : Name) :
    Ensures (ofExpr u (.var node name)) fun φ t => Means u φ (.var node name) (t.subst φ) := by
  refine Ensures.noted node ?_
  split
  · rename_i d found
    refine (ensures_ofDef u d).imp fun φ t given stmt env σ listed stored => ?_
    obtain ⟨e, held, used⟩ := listed.var
    have read : u.defOfUse? node.id = some e := by rw [Uses.defOfUse?, single _ used]; rfl
    cases found.symm.trans read
    obtain ⟨v, value, typed⟩ := stored name d held
    rw [eval, value, given]
    exact typed
  · exact ensures_throw

/-- The type of what the evaluator does not compute does not matter. -/
theorem ensures_unsupported (proceeds : Proceeds found) (refused : ∀ σ, eval σ e = .error .unsupported) :
    Ensures (noted node found) fun φ t => Means u φ e (t.subst φ) := by
  refine Ensures.noted node (proceeds.imp fun _ _ _ stmt env σ _ _ => ?_)
  rw [refused]
  rfl

mutual

/-- The type that inference finds for an expression is the type of the values that the expression gives. -/
theorem ensures_ofExpr (single : u.Single) : (e : Expr) → Ensures (ofExpr u e) fun φ t => Means u φ e (t.subst φ)
  | .var node name => ensures_var single node name
  | .lit node value => (ensures_ofLiteral value).noted node |>.imp fun _ _ safe _ _ _ _ _ => safe
  | .const node op spelling => by
    refine ensures_unsupported ((ensures_operator node.id .constant 0).proceeds.bind fun _ => ?_) fun _ => rfl
    exact proceeds_pure _
  | .unary node op spelling arg => by
    refine Ensures.noted node ((ensures_operator node.id (.unary op) 1).bind fun sig => ?_)
    refine (ensures_expecting (ensures_ofExpr single arg)).bind fun _ => ensures_pure ?_
    rintro φ operand ⟨raw, f, known, _, rfl⟩ stmt env σ listed stored
    cases known
    refine (operand stmt env σ (listed.operand mem_cons_self) stored).bind fun v typed => ?_
    exact safe_unary typed
  | .binary node op spelling lhs rhs => by
    refine Ensures.noted node ((ensures_operator node.id (.binary op) 2).bind fun sig => ?_)
    refine (ensures_expecting (ensures_ofExpr single lhs)).bind fun _ => ?_
    refine (ensures_expecting (ensures_ofExpr single rhs)).bind fun _ => ensures_pure ?_
    rintro φ right left ⟨raw, f, known, _, rfl⟩ stmt env σ listed stored
    cases known
    refine (left stmt env σ (listed.operand mem_cons_self) stored).bind fun v typed => ?_
    refine (safe_left typed).bind fun a _ => ?_
    refine (right stmt env σ (listed.operand (by simp [Expr.operands])) stored).bind fun w typed => ?_
    exact (safe_right typed).bind fun b _ => safe_binary op a b
  | .ternary node op spelling first second third => by
    refine Ensures.noted node ((ensures_operator node.id (.ternary op) 3).bind fun sig => ?_)
    refine (ensures_expecting (ensures_ofExpr single first)).bind fun _ => ?_
    refine (ensures_expecting (ensures_ofExpr single second)).bind fun _ => ?_
    refine (ensures_expecting (ensures_ofExpr single third)).bind fun _ => ensures_pure ?_
    cases op with
    | range => exact fun _ _ _ _ _ _ _ _ _ _ => rfl
    | fma =>
      rintro φ right middle left ⟨raw, f, known, _, rfl⟩ stmt env σ listed stored
      cases known
      refine (left stmt env σ (listed.operand mem_cons_self) stored).bind fun _ typed => ?_
      refine (safe_number typed).bind fun _ _ => ?_
      refine (middle stmt env σ (listed.operand (by simp [Expr.operands])) stored).bind fun _ typed => ?_
      refine (safe_number typed).bind fun _ _ => ?_
      refine (right stmt env σ (listed.operand (by simp [Expr.operands])) stored).bind fun _ typed => ?_
      exact (safe_number typed).bind fun _ _ => safe_arithmetic (.inl rfl)
  | .nary node op spelling args => by
    refine Ensures.noted node ((ensures_operator node.id (.nary op) args.length).bind fun sig => ?_)
    refine (ensures_expectAll single sig.params args).bind fun _ => ensures_pure ?_
    rintro φ operands ⟨raw, f, known, count, rfl⟩ stmt env σ listed stored
    have fits : args.length = (raw.subst f).params.length := by
      rw [Signature.subst, Ty.substAll_eq_map, length_map, count]
    refine (safe_evalAll stored (operands fits) fun e => listed.operand).bind fun vs typed => ?_
    exact safe_nary known typed
  | .compare node ops args => by
    refine Ensures.noted node ((ensures_ofExprs single args).bind fun types => ?_)
    refine (ensures_comparison node.id _ ops types).bind fun _ => ensures_pure ?_
    intro φ comparable operands stmt env σ listed stored
    refine (safe_evalAll stored operands fun e => listed.operand).bind fun vs typed => ?_
    exact (safe_compared comparable typed).bind fun holds _ => .bool holds
  | .call node name (some (.function f)) args kwargs => by
    refine ensures_unsupported ((ensures_ofExprs single args).proceeds.bind fun types => ?_) fun _ => rfl
    refine (proceeds_ofKeyed single kwargs).bind fun _ => (proceeds_lift _).bind fun typing => ?_
    exact (proceeds_copied _).bind fun callee => proceeds_applied node.id _ types
  | .call node name (some (.external f)) args kwargs => by
    refine ensures_unsupported ((ensures_ofExprs single args).proceeds.bind fun types => ?_) fun _ => rfl
    refine (proceeds_ofKeyed single kwargs).bind fun _ => ?_
    split
    · exact (proceeds_ofExternal _ _).bind fun callee => proceeds_applied node.id _ types
    · exact proceeds_applied node.id _ types
  | .call node name none args kwargs => by
    refine ensures_unsupported ((ensures_ofExprs single args).proceeds.bind fun types => ?_) fun _ => rfl
    refine (proceeds_ofKeyed single kwargs).bind fun _ => ?_
    split
    · exact (ensures_ofDef u _).proceeds.bind fun callee => proceeds_applied node.id _ types
    · exact proceeds_applied node.id _ types
  | .tuple node elts =>
    ensures_unsupported ((ensures_ofExprs single elts).proceeds.bind fun _ => proceeds_pure _) fun _ => rfl
  | .list node elts => by
    refine ensures_unsupported (proceeds_fresh.bind fun elt => ?_) fun _ => rfl
    exact (proceeds_expectEach single elt elts).bind fun _ => proceeds_pure _
  | .comprehension node targets iterables elt => by
    refine ensures_unsupported ((proceeds_ofIterables single node.id targets iterables).bind fun _ => ?_) fun _ => rfl
    exact (ensures_ofExpr single elt).proceeds.bind fun _ => proceeds_pure _
  | .index node value position => by
    refine ensures_unsupported ((ensures_ofExpr single value).proceeds.bind fun t => ?_) fun _ => rfl
    refine (ensures_expecting (ensures_ofExpr single position)).proceeds.bind fun _ => ?_
    exact proceeds_element node.id t position
  | .slice node value start stop => by
    refine ensures_unsupported (proceeds_fresh.bind fun elt => ?_) fun _ => rfl
    refine (ensures_expecting (ensures_ofExpr single value)).proceeds.bind fun _ => ?_
    exact (proceeds_ofBound single start).bind fun _ => (proceeds_ofBound single stop).bind fun _ => proceeds_pure _
  | .update node value path elt => by
    refine ensures_unsupported ((ensures_ofExpr single value).proceeds.bind fun t => ?_) fun _ => rfl
    refine (proceeds_expectEach single .real path).bind fun _ => (ensures_ofExpr single elt).proceeds.bind fun _ => ?_
    exact (ensures_unify node.id _ t).proceeds.bind fun _ => proceeds_pure _
  | .cond node test ift iff => by
    refine Ensures.noted node ((ensures_expecting (ensures_ofExpr single test)).bind fun _ => ?_)
    refine (ensures_ofExpr single ift).bind fun t => ?_
    refine (ensures_expecting (ensures_ofExpr single iff)).bind fun _ => ensures_pure ?_
    intro φ right left tested stmt env σ listed stored
    refine (tested stmt env σ (listed.operand mem_cons_self) stored).bind fun v typed => ?_
    refine (safe_truth typed).bind fun holds _ => ?_
    cases holds with
    | true => exact left stmt env σ (listed.operand (by simp [Expr.operands])) stored
    | false => exact right stmt env σ (listed.operand (by simp [Expr.operands])) stored
  | .context node ctor args kwargs => by
    refine ensures_unsupported ((ensures_ofExprs single args).proceeds.bind fun _ => ?_) fun _ => rfl
    exact (proceeds_ofKeyed single kwargs).bind fun _ => proceeds_pure _

theorem ensures_ofExprs (single : u.Single) : (es : List Expr) → Ensures (ofExprs u es) fun φ types =>
    Forall₂ (fun e t => Means u φ e (t.subst φ)) es types
  | [] => ensures_pure fun _ => .nil
  | e :: rest => (ensures_ofExpr single e).bind fun _ => (ensures_ofExprs single rest).bind fun _ =>
    ensures_pure fun _ others first => .cons first others

theorem proceeds_ofKeyed (single : u.Single) : (es : List (String × Expr)) → Proceeds (ofKeyed u es)
  | [] => proceeds_pure _
  | (_, e) :: rest => (ensures_ofExpr single e).proceeds.bind fun _ =>
    (proceeds_ofKeyed single rest).bind fun _ => proceeds_pure _

theorem proceeds_ofBound (single : u.Single) : (e : Option Expr) → Proceeds (ofBound u e)
  | none => proceeds_pure _
  | some e => (ensures_expecting (ensures_ofExpr single e)).proceeds

theorem ensures_expectAll (single : u.Single) : (types : List Ty) → (es : List Expr) →
    Ensures (expectAll u types es) fun φ _ => es.length = types.length →
      Forall₂ (fun e t => Means u φ e (t.subst φ)) es types
  | _ :: types, e :: rest => (ensures_expecting (ensures_ofExpr single e)).bind fun _ =>
    (ensures_expectAll single types rest).imp fun _ _ others first fits => .cons first (others (Nat.succ.inj fits))
  | [], [] => ensures_pure fun _ _ => .nil
  | [], _ :: _ | _ :: _, [] => ensures_pure nofun

theorem proceeds_expectEach (single : u.Single) (t : Ty) : (es : List Expr) → Proceeds (expectEach u t es)
  | [] => proceeds_pure _
  | e :: rest => (ensures_expecting (ensures_ofExpr single e)).proceeds.bind fun _ =>
    proceeds_expectEach single t rest

theorem proceeds_ofIterables (single : u.Single) (site : NodeId) : (targets : List Binder) → (es : List Expr) →
    Proceeds (ofIterables u site targets es)
  | target :: targets, e :: rest => proceeds_fresh.bind fun elt =>
    (ensures_expecting (ensures_ofExpr single e)).proceeds.bind fun _ =>
      (ensures_bind u site target elt).proceeds.bind fun _ => proceeds_ofIterables single site targets rest
  | [], [] | [], _ :: _ | _ :: _, [] => proceeds_pure _

end

end Expressions

section Statements

variable {u : Uses}

mutual

theorem ensures_ofStmt (single : u.Single) : (s : Stmt) → Ensures (ofStmt u s) fun φ _ =>
    ∀ part ∈ s.all, Checked u φ part
  | .assign node target ann value => by
    have bound (t : Ty) : Ensures (Infer.bind u node.id target t) fun φ _ => Means u φ value (t.subst φ) →
        ∀ part ∈ (Stmt.assign node target ann value).all, Checked u φ part :=
      (ensures_bind u node.id target t).imp fun φ _ given means => forall_mem_singleton.mpr ⟨t.subst φ, means, given⟩
    refine (ensures_ofExpr single value).bind fun t => ?_
    split
    · exact (proceeds_ofAnn _).bind fun asked => (ensures_unify node.id asked t).proceeds.bind fun _ => bound t
    · exact bound t
  | .store node name path value => by
    refine (proceeds_expectEach single .real path).bind fun _ => ?_
    refine (ensures_ofExpr single value).proceeds.bind fun elt => ?_
    split
    · exact ensures_throw
    · refine (ensures_ofDef u _).proceeds.bind fun before => ?_
      refine (ensures_unify node.id before _).proceeds.bind fun _ => ?_
      split
      · refine (ensures_ofDef u _).proceeds.bind fun after => (ensures_unify node.id after before).imp ?_
        exact fun _ _ _ => forall_mem_singleton.mpr trivial
      · exact ensures_pure fun _ => forall_mem_singleton.mpr trivial
  | .when _ test body | .loop _ test body => (ensures_expecting (ensures_ofExpr single test)).bind fun _ =>
    (ensures_ofBlock single body).imp fun _ _ inside tested => forall_mem_cons.mpr ⟨tested, inside⟩
  | .branch node test ift iff => (ensures_expecting (ensures_ofExpr single test)).bind fun _ =>
    (ensures_ofBlock single ift).bind fun _ => (ensures_ofBlock single iff).imp fun _ _ right left tested =>
      forall_mem_cons.mpr ⟨tested, forall_mem_append.mpr ⟨left, right⟩⟩
  | .each node target iterable body => by
    refine proceeds_fresh.bind fun elt => ?_
    refine (ensures_expecting (ensures_ofExpr single iterable)).proceeds.bind fun _ => ?_
    refine (ensures_bind u node.id target elt).proceeds.bind fun _ => ?_
    exact (ensures_ofBlock single body).imp fun _ _ inside => forall_mem_cons.mpr ⟨trivial, inside⟩
  | .scope node name ctx body => by
    have inner : Ensures (ofBlock u body) fun φ _ => ∀ part ∈ (Stmt.scope node name ctx body).all, Checked u φ part :=
      (ensures_ofBlock single body).imp fun _ _ inside => forall_mem_cons.mpr ⟨trivial, inside⟩
    refine (ensures_expecting (ensures_ofExpr single ctx)).proceeds.bind fun _ => ?_
    split
    · exact (ensures_bindName u node.id _ .context).proceeds.bind fun _ => inner
    · exact inner
  | .assert node test none => (ensures_expecting (ensures_ofExpr single test)).bind fun _ =>
    ensures_pure fun _ tested => forall_mem_singleton.mpr tested
  | .assert node test (some message) => (ensures_expecting (ensures_ofExpr single test)).bind fun _ =>
    (ensures_ofExpr single message).proceeds.bind fun _ => ensures_pure fun _ tested => forall_mem_singleton.mpr tested
  | .effect node value => (ensures_ofExpr single value).bind fun t =>
    ensures_pure fun φ means => forall_mem_singleton.mpr ⟨t.subst φ, means⟩
  | .ret node value => (ensures_expecting (ensures_ofExpr single value)).imp fun _ _ means =>
    forall_mem_singleton.mpr means
  | .skip node => ensures_pure fun _ => forall_mem_singleton.mpr trivial

theorem ensures_ofBlock (single : u.Single) : (b : Block) → Ensures (ofBlock u b) fun φ _ =>
    ∀ part ∈ b.all, Checked u φ part
  | ⟨_, stmts⟩ => ensures_ofStmts single stmts

theorem ensures_ofStmts (single : u.Single) : (stmts : List Stmt) → Ensures (ofStmts u stmts) fun φ _ =>
    ∀ part ∈ Stmt.allOf stmts, Checked u φ part
  | [] => ensures_pure nofun
  | s :: rest => (ensures_ofStmt single s).bind fun _ => (ensures_ofStmts single rest).imp fun _ _ others first =>
    forall_mem_append.mpr ⟨first, others⟩

end

theorem ensures_check (single : u.Single) (id : NodeId) (ps : List Param) (env : OrdMap String HostValue) (body : Block)
    (defs : List (DefId × Definition DefId)) :
    Ensures (do
      let types ← params u ps
      captured u id env defs
      ofBlock u body
      joins u defs
      return types) fun φ types =>
        Forall₂ (ParamTyped u φ) ps types ∧ (∀ s ∈ body.all, Checked u φ s) ∧ JoinsTyped φ defs := by
  refine (ensures_params u ps).bind fun types => (proceeds_captured u id env defs).bind fun _ => ?_
  refine (ensures_ofBlock single body).bind fun _ => (ensures_joins u defs).bind fun _ => ensures_pure ?_
  exact fun φ joined checked params => ⟨params, checked, joined⟩

end Statements

end Infer

end NumLang
