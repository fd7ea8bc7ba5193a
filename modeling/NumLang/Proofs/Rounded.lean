import NumLang.Evaluator
import NumLang.Proofs.Reference
import NumLang.Proofs.Walk

/-!
Running under rounding contexts.
-/

namespace NumLang

namespace Machine

def rounded (round : Context → Rat → Rat) : Machine Value Context where
  literal
    | .host v => some (.ofHost v)
    | l => l.value?.map .ofHost
  apply c form args :=
    match form with
    | .context ctor => do return .context (← Context.build? ctor (← args.mapM Value.asArg?))
    | form => form.operate? (round c) args
  truth := Value.asBool?
  spread := reference.spread
  elements _ := none
  replace _ _ _ := none
  enter := some fun _ v => v.asContext?

end Machine

namespace Rounded

/-- The value that a function returns if arithmetic is rounded in the given way. It is entered under its own
context, or without one under that of its caller. -/
def run (round : Context → Rat → Rat) (caller : Context) (free : Name → Option Value) (f : Func)
    (args : List Value) : Option Value :=
  (Machine.rounded round).run (f.ctx.getD caller) Reference.fuel f free args

/-- Free names hold what was captured for them, where they hold anything. -/
def Captured (f : Func) (free : Name → Option Value) : Prop :=
  ∀ n v h, free n = some v → f.env.get? n.base = some h → v = .ofHost h

def captures (f : Func) (n : Name) : Option Value := (f.env.get? n.base).map .ofHost

theorem captured_captures (f : Func) : Captured f (captures f) := by
  intro n v h held found
  rw [captures, found] at held
  cases held
  rfl

end Rounded

theorem Value.asNumber?_ofHost (h : HostValue) : (ofHost h).asNumber? = h.asNumber? := by
  cases h <;> rfl

theorem Value.asBool?_ofHost (h : HostValue) : (ofHost h).asBool? = h.asBool? := by
  cases h <;> rfl

section Literals

variable {round : Context → Rat → Rat} {c : Context} {σ : Store Value} {h : HostValue}

theorem Machine.literal_of_value {l : Literal} (valued : l.value? = some h) :
    (rounded round).literal l = some (.ofHost h) := by
  cases l with
  | host v => cases v <;> cases valued <;> rfl
  | _ => simp only [rounded, valued, map_some]

theorem Machine.eval_of_literal {e : Expr} (valued : e.literalValue? = some h) :
    (rounded round).eval c σ e = .ok (.ofHost h) := by
  cases e with
  | lit node l =>
    rw [eval, literal_of_value valued]
    rfl
  | _ => cases valued

theorem Machine.evalAll_of_literals {es : List Expr} {hs : List HostValue}
    (valued : es.mapM Expr.literalValue? = some hs) : (rounded round).evalAll c σ es = .ok (hs.map Value.ofHost) := by
  induction es generalizing hs with
  | nil =>
    cases valued
    rfl
  | cons e rest ih =>
    rw [mapM_cons] at valued
    obtain ⟨h, first, valued⟩ := bind_eq_some_iff.mp valued
    obtain ⟨others, tail, result⟩ := bind_eq_some_iff.mp valued
    cases result
    rw [evalAll, eval_of_literal first, ih tail]
    rfl

end Literals

def Form.operator? : Form → Option Operator
  | .unary op => some (.unary op)
  | .binary op => some (.binary op)
  | .ternary op => some (.ternary op)
  | .nary op => some (.nary op)
  | _ => none

namespace Exact

variable {form : Form} {op : Operator} {tag : ContextTag} {hs : List HostValue} {s t : Bool}

theorem arithmetic?_eq (same : form.operator? = some op) (computed : form.arithmetic? nums = some q)
    (known : arithmetic? op nums = some r) : r = q := by
  unfold Form.arithmetic? at computed
  split at computed
  case h_12 => cases computed
  all_goals
    cases same
    simp_all [arithmetic?, unary?, binary?]

theorem value?_of_arithmetic (arithmetic : op ∉ [.unary .not, .nary .and, .nary .or]) (hs : List HostValue) :
    value? op hs tag =
      if isExact tag then do return .number (← arithmetic? op (← hs.mapM HostValue.asNumber?)) else none := by
  unfold value?
  split <;> simp_all

/-- What is known of an operator is what it computes, if nothing is rounded where arithmetic is known. -/
theorem value?_eq {round : Rat → Rat} (exact : isExact tag = true → ∀ q, round q = q) (same : form.operator? = some op)
    {v : Value} (computed : form.operate? round (hs.map Value.ofHost) = some v) {h : HostValue}
    (known : value? op hs tag = some h) : v = .ofHost h := by
  unfold Form.operate? at computed
  split at computed
  case h_1 =>
    cases same
    simp only [value?] at known
    split at known
    · cases known
      cases computed
      rfl
    · cases known
  case h_2 | h_3 =>
    cases same
    simp only [List.mapM_map, Function.comp_def, Value.asBool?_ofHost] at computed
    obtain ⟨bs, all, result⟩ := bind_eq_some_iff.mp computed
    simp only [value?, all] at known
    cases known
    cases result
    rfl
  case h_4 => cases same
  case h_5 negation conjunction disjunction _ =>
    have arithmetic : op ∉ [.unary .not, .nary .and, .nary .or] := by cases form <;> cases same <;> simp_all
    rw [value?_of_arithmetic arithmetic] at known
    split at known
    · rename_i isExact
      simp only [List.mapM_map, Function.comp_def, Value.asNumber?_ofHost] at computed
      obtain ⟨nums, all, computed⟩ := bind_eq_some_iff.mp computed
      obtain ⟨q, rational, result⟩ := bind_eq_some_iff.mp computed
      obtain ⟨others, again, known⟩ := bind_eq_some_iff.mp known
      obtain ⟨r, found, answer⟩ := bind_eq_some_iff.mp known
      cases all.symm.trans again
      cases arithmetic?_eq same rational found
      cases answer
      cases result
      rw [exact isExact]
      rfl
    · cases known

theorem related?_eq (computed : Form.related? r (.ofHost a) (.ofHost b) = some s) (known : related? tag r a b = some t)
    : t = s := by
  unfold related? at known
  split at known
  · cases r <;> simp_all [Form.related?, Value.ofHost]
  · split at known
    · cases r <;> simp_all [Form.related?, Value.ofHost, holds]
    · cases known
  · cases known

theorem compare?_eq (computed : Form.compared? ops (hs.map Value.ofHost) = some s)
    (known : compare? ops hs tag = some t) : t = s := by
  fun_induction compare? ops hs tag generalizing s t with
  | case1 =>
    cases known
    cases computed
    rfl
  | case2 r ops a b rest tag ih =>
    simp only [map_cons, Form.compared?] at computed
    obtain ⟨first, left, computed⟩ := bind_eq_some_iff.mp computed
    obtain ⟨others, right, result⟩ := bind_eq_some_iff.mp computed
    obtain ⟨first', left', known⟩ := bind_eq_some_iff.mp known
    obtain ⟨others', right', answer⟩ := bind_eq_some_iff.mp known
    cases related?_eq left left'
    cases ih right right'
    cases result
    cases answer
    rfl
  | case3 => cases known

end Exact

end NumLang
