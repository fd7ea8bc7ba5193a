import NumLang.Proofs.Reference
import NumLang.Proofs.Scoping
import NumLang.Proofs.Threading

/-!
Copies of expressions under new names.
-/

namespace NumLang

variable {n : Name} {e : Expr} {V C : Type} {α : Type}

theorem toOption_eq_some {x : Except ε α} : x.toOption = some a ↔ x = .ok a := by
  cases x <;> simp [Except.toOption]

namespace Store

variable {site : Site} {writes : List (Name × V)}

theorem toOption_read (σ : Store V) (n : Name) : (σ.read n).toOption = σ.value? n := by
  unfold Store.read Store.value?
  cases σ.get? n <;> rfl

variable {σ : Store V}

theorem read_of_none (missing : σ.value? n = none) : σ.read n = .error (.unbound n) := by
  unfold Store.read
  rw [Option.map_eq_none_iff.mp missing]

@[simp] theorem value?_insert (σ : Store V) (n x : Name) (cell : Cell V) :
    Store.value? (σ.insert n cell) x = if x = n then some cell.value else σ.value? x := by
  unfold Store.value?
  rw [OrdMap.get?_insert]
  split <;> rfl

theorem value?_writeAll_of_notMem (absent : n ∉ writes.map Prod.fst) :
    (σ.writeAll site writes).value? n = σ.value? n := by
  rw [Store.value?, Flow.get?_writeAll_of_notMem absent, Store.value?]

theorem isSome_value?_writeAll (held : n ∈ writes.map Prod.fst ∨ (σ.value? n).isSome = true) :
    ((σ.writeAll site writes).value? n).isSome = true :=
    by
  induction writes generalizing σ with
  | nil => simpa [Store.writeAll] using held
  | cons entry rest ih =>
    apply ih
    by_cases here : n = entry.1
    · simp [here]
    · simpa [here] using held

end Store

def Carries (old : Name → Prop) (ρ : Name → Name) (a b : Store V) : Prop :=
  ∀ n, old n → b.value? (ρ n) = a.value? n

def Apart (old : Name → Prop) (ρ : Name → Name) : Prop := ∀ m n, old m → old n → ρ m = ρ n → m = n

theorem carries_writeAll (apart : Apart old ρ) {names : List Name} {values : List V}
    (fits : values.length = names.length) (inside : ∀ n ∈ names, old n) {a b : Store V}
    (same : ∀ n, old n → n ∉ names → b.value? (ρ n) = a.value? n) :
    Carries old ρ (a.writeAll site (names.zip values)) (b.writeAll site' ((names.map ρ).zip values)) := by
  induction names generalizing values a b with
  | nil => exact fun n here => same n here (by simp)
  | cons first rest ih =>
    cases values with
    | nil => simp at fits
    | cons v values =>
      refine ih (by simpa using fits) (fun n later => inside n (mem_cons_of_mem _ later)) ?_
      intro n here absent
      by_cases again : n = first
      · simp [again]
      · have differ : ρ n ≠ ρ first := fun equal => again (apart n first here (inside _ mem_cons_self) equal)
        simpa [again, differ] using same n here (by simp [again, absent])

namespace NameMap

variable {table : NameMap Name} {old : Name → Prop} {s : Edit.State}

theorem Fresh.apart (fresh : table.Fresh old s) : Apart old table.toRenaming :=
  fun _ _ here there same => fresh.injective here there same

theorem Fresh.toRenaming_mem (fresh : table.Fresh old s) (used : ∀ n, old n → n ∈ s.names.used) (here : old n) :
    table.toRenaming n ∈ s.names.used := by
  unfold NameMap.toRenaming
  cases found : table.get? n with
  | none => exact used n here
  | some x => exact (fresh.drawn n x found).2

theorem Fresh.toRenaming_new (fresh : table.Fresh old s) (n : Name) :
    table.toRenaming n = n ∨ ¬ old (table.toRenaming n) := by
  unfold NameMap.toRenaming
  cases found : table.get? n with
  | none => exact .inl rfl
  | some x => exact .inr (fresh.drawn n x found).1

end NameMap

theorem flatMap_of_forall₂ {β γ : Type} {R : α → β → Prop} {xs : List α} {ys : List β} {f : α → List γ} {g : β → List γ}
    (related : Forall₂ R xs ys) (same : ∀ x ∈ xs, ∀ y, R x y → g y = f x) : ys.flatMap g = xs.flatMap f := by
  induction related with
  | nil => rfl
  | cons first _ ih =>
    obtain ⟨here, later⟩ := forall_mem_cons.mp same
    rw [flatMap_cons, flatMap_cons, here _ first, ih later]

namespace Binder

mutual

theorem names_rename (ρ : Name → Name) : (target : Binder) → (target.rename ρ).names = target.names.map ρ
  | .wildcard | .name _ => rfl
  | .tuple parts => namesAll_rename ρ parts

theorem namesAll_rename (ρ : Name → Name) :
    (targets : List Binder) → namesAll (renameAll ρ targets) = (namesAll targets).map ρ
  | [] => rfl
  | b :: rest => by simp [renameAll, namesAll, names_rename ρ b, namesAll_rename ρ rest]

end

mutual

@[simp] theorem rename_self : (target : Binder) → target.rename (fun n => n) = target
  | .wildcard | .name _ => rfl
  | .tuple parts => by rw [rename, renameAll_self parts]

@[simp] theorem renameAll_self : (targets : List Binder) → renameAll (fun n => n) targets = targets
  | [] => rfl
  | b :: rest => by rw [renameAll, rename_self b, renameAll_self rest]

end

end Binder

namespace Expr

/-- An expression under new names, with its parts as they are. -/
def under (ρ : Name → Name) : Expr → Expr
  | .var node n => .var node (ρ n)
  | .call node func callee args kwargs => .call node (ρ func) callee args kwargs
  | .comprehension node targets rows elt => .comprehension node (Binder.renameAll ρ targets) rows elt
  | e => e

/-- One expression is another under new names. Identities and locations may differ. -/
inductive Copy (ρ : Name → Name) : Expr → Expr → Prop where
  | layer {e : Expr} {es : List Expr} (node : Node) (parts : Forall₂ (Copy ρ) e.children es) :
    Copy ρ e (((e.withNode node).under ρ).fill es)

theorem renameAll_eq (ρ : Name → Name) (es : List Expr) : renameAll ρ es = es.map (rename ρ) := by
  induction es with
  | nil => rfl
  | cons e rest ih => rw [renameAll, ih, map_cons]

theorem renameKeyed_eq (ρ : Name → Name) (es : List (String × Expr)) :
    renameKeyed ρ es = (es.map Prod.fst).zip ((es.map Prod.snd).map (rename ρ)) := by
  induction es with
  | nil => rfl
  | cons entry rest ih => rw [renameKeyed, ih, map_cons, map_cons, map_cons, List.zip_cons_cons]

theorem renameOption_eq (ρ : Name → Name) (e : Option Expr) : renameOption ρ e = e.map (rename ρ) := by
  cases e <;> rfl

theorem rename_eq (ρ : Name → Name) (e : Expr) : e.rename ρ = (e.under ρ).fill (e.children.map (rename ρ)) := by
  cases e with
  | slice _ _ start stop => cases start <;> cases stop <;> rfl
  | call | context =>
    simp only [under, fill, children, map_append, List.take_left' (List.length_map _), List.drop_left' (List.length_map _)]
    rw [← renameAll_eq, ← renameKeyed_eq]
    rfl
  | _ => simp [under, fill, children, ← renameAll_eq] <;> rfl

theorem children_under (ρ : Name → Name) (e : Expr) : (e.under ρ).children = e.children := by
  cases e <;> rfl

theorem children_withNode (node : Node) (e : Expr) : (e.withNode node).children = e.children := by
  cases e <;> rfl

theorem node_withNode (node : Node) (e : Expr) : (e.withNode node).node = node := by
  cases e <;> rfl

theorem withNode_self (e : Expr) : e.withNode e.node = e := by
  cases e <;> rfl

theorem copy_rename (ρ : Name → Name) (e : Expr) : e.Copy ρ (e.rename ρ) := by
  induction e using byChildren with
  | step e ih =>
    have whole := Copy.layer e.node (List.forall₂_map_right_iff.mpr (List.forall₂_same.mpr ih))
    rwa [withNode_self, ← rename_eq] at whole

theorem copyAll_rename (ρ : Name → Name) (es : List Expr) : Forall₂ (Copy ρ) es (renameAll ρ es) :=
  renameAll_eq ρ es ▸ List.forall₂_map_right_iff.mpr (List.forall₂_same.mpr fun e _ => e.copy_rename ρ)

theorem copyOption_rename (ρ : Name → Name) (e : Option Expr) : Forall₂ (Copy ρ) e.toList (renameOption ρ e).toList := by
  cases e with
  | none => exact .nil
  | some e => exact .cons (e.copy_rename ρ) .nil

theorem rename_self (e : Expr) : e.rename (fun n => n) = e := by
  have own : ∀ e : Expr, e.under (fun n => n) = e := fun e => by cases e <;> simp [under]
  induction e using byChildren with
  | step e ih => rw [rename_eq, own, List.map_congr_left ih, List.map_id', fill_children]

theorem copy_self (e : Expr) : e.Copy (fun n => n) e := by
  simpa only [rename_self] using e.copy_rename fun n => n

theorem under_fill (ρ : Name → Name) (node : Node) : (e : Expr) → (es fs : List Expr) → es.length = e.children.length →
    fs.length = e.children.length → (((e.fill es).withNode node).under ρ).fill fs = ((e.withNode node).under ρ).fill fs
  | .var .., _, _, _, _ | .lit .., _, _, _, _ | .const .., _, _, _, _ | .unary .., [_], [_], _, _
  | .binary .., [_, _], [_, _], _, _ | .index .., [_, _], [_, _], _, _ | .ternary .., [_, _, _], [_, _, _], _, _
  | .cond .., [_, _, _], [_, _, _], _, _ | .nary .., _, _, _, _ | .compare .., _, _, _, _ | .tuple .., _, _, _, _
  | .list .., _, _, _, _ | .slice _ _ none none, [_], [_], _, _ | .slice _ _ (some _) none, [_, _], [_, _], _, _
  | .slice _ _ none (some _), [_, _], [_, _], _, _ | .slice _ _ (some _) (some _), [_, _, _], [_, _, _], _, _ => rfl
  | .call _ _ _ args kwargs, es, fs, count, _ | .context _ _ args kwargs, es, fs, count, _ => by
    rw [children, length_append, length_map] at count
    simp [fill, under, withNode, List.map_fst_zip, count]
  | .comprehension .., _, fs, _, count | .update .., _ :: _, _ :: fs, _, count => by
    have nonempty : fs ≠ [] := by
      rintro rfl
      simp [children] at count
    simp [fill, under, withNode, List.getLast?_eq_some_getLast nonempty]

/-- Gives every node a new identity. -/
def renewing : Rebuild Supply where
  expr e usual := do
    let node ← Supply.renew e.node
    return (← usual).withNode node

theorem renewing_expr (e : Expr) (usual : Supply Expr) : renewing.expr e usual = do
    let node ← Supply.renew e.node
    return (← usual).withNode node := rfl

theorem renewing_name (n : Name) : renewing.name n = pure n := rfl

mutual

theorem onExpr_renewing (e : Expr) : renewing.onExpr e = e.refresh := by
  cases e <;> simp only [Rebuild.onExpr, renewing_expr, renewing_name, Rebuild.onBinders_eq_pure renewing_name, onExpr_renewing,
    onExprs_renewing, onKeyed_renewing, onOption_renewing, pure_bind]
  all_goals rfl

theorem onExprs_renewing (es : List Expr) : renewing.onExprs es = refreshAll es := by
  cases es <;> simp only [Rebuild.onExprs, refreshAll, onExpr_renewing, onExprs_renewing]

theorem onKeyed_renewing : (es : List (String × Expr)) → renewing.onKeyed es = refreshKeyed es
  | [] => rfl
  | (_, e) :: rest => by simp only [Rebuild.onKeyed, refreshKeyed, onExpr_renewing e, onKeyed_renewing rest]

theorem onOption_renewing (e : Option Expr) : renewing.onOption e = refreshOption e := by
  cases e <;> simp only [Rebuild.onOption, refreshOption, onExpr_renewing]

end

theorem refresh_eq (e : Expr) (next : Nat) : e.refresh next =
    ((e.fill (refreshAll e.children (next + 1)).1).withNode ⟨⟨next⟩, e.loc⟩, (refreshAll e.children (next + 1)).2) := by
  rw [← onExpr_renewing, Rebuild.onExpr_eq renewing_name, onExprs_renewing]
  rfl

theorem forall₂_refresh (each : ∀ e ∈ es, ∀ next, e.Copy ρ ((e.refresh next).1.rename ρ)) (next : Nat) :
    Forall₂ (Copy ρ) es ((refreshAll es next).1.map (rename ρ)) := by
  induction es generalizing next with
  | nil => exact .nil
  | cons e rest ih =>
    obtain ⟨here, later⟩ := forall_mem_cons.mp each
    exact .cons (here next) (ih later _)

theorem copy_refresh (ρ : Name → Name) (e : Expr) (next : Nat) : e.Copy ρ ((e.refresh next).1.rename ρ) := by
  induction e using byChildren generalizing next with
  | step e ih =>
    have parts := forall₂_refresh ih (next + 1)
    have same := parts.length_eq.symm
    have count := (length_map (rename ρ)).symm.trans same
    have whole := Copy.layer ⟨⟨next⟩, e.loc⟩ parts
    rw [← under_fill ρ _ e _ _ count same] at whole
    rwa [refresh_eq, rename_eq, children_withNode, children_fill _ _ count]

theorem copyAll_refresh (ρ : Name → Name) (es : List Expr) (next : Nat) :
    Forall₂ (Copy ρ) es (renameAll ρ (refreshAll es next).1) :=
  renameAll_eq ρ _ ▸ forall₂_refresh (fun e _ => e.copy_refresh ρ) next

theorem copyOption_refresh (ρ : Name → Name) (next : Nat) (e : Option Expr) :
    Forall₂ (Copy ρ) e.toList (renameOption ρ (refreshOption e next).1).toList := by
  cases e with
  | none => exact .nil
  | some e => exact .cons (e.copy_refresh ρ next) .nil

variable {ρ : Name → Name}

/-- What a copy has in common with the expression. -/
structure Alike (ρ : Name → Name) (e e' : Expr) : Prop where
  reads : e'.reads = e.reads.map ρ
  binds : e'.binds = e.binds.map ρ
  onlyParts : e'.onlyParts = e.onlyParts
  form : e'.form? = e.form?
  valueless : e'.isValueless = e.isValueless
  callee : e'.callee? = e.callee?
  children : Forall₂ (Copy ρ) e.children e'.children

theorem Copy.alike (copy : e.Copy ρ e') : Alike ρ e e' := by
  obtain ⟨node, parts⟩ := copy
  have own : ((e.withNode node).under ρ).children = e.children := by rw [children_under, children_withNode]
  have count := parts.length_eq.symm.trans (congrArg List.length own.symm)
  have rebuilt := rebuilt_fill count
  have binds : ((e.withNode node).under ρ).binds = e.binds.map ρ := by
    cases e <;> first | rfl | exact Binder.namesAll_rename ρ _
  have valued : ((e.withNode node).under ρ).form? = e.form? ∧ ((e.withNode node).under ρ).isValueless = e.isValueless := by
    cases e with
    | context _ _ _ kwargs => cases kwargs <;> exact ⟨rfl, rfl⟩
    | _ => exact ⟨rfl, rfl⟩
  have callee : ((e.withNode node).under ρ).callee? = e.callee? := by
    cases e with
    | call _ _ callee _ kwargs => rcases callee with _ | ⟨_ | _⟩ <;> cases kwargs <;> rfl
    | _ => rfl
  exact {
    reads := rebuilt.reads.trans (by cases e <;> rfl)
    binds := rebuilt.binds.trans binds
    onlyParts := rebuilt.onlyParts.trans (by cases e <;> rfl)
    form := rebuilt.valued.1.trans valued.1
    valueless := rebuilt.valued.2.trans valued.2
    callee := rebuilt.callee.trans callee
    children := by rwa [children_fill _ _ count] }

theorem vars_eq (e : Expr) : e.vars = e.reads ++ e.children.flatMap vars := by
  have row : ∀ es : List Expr, es.flatMap vars = (allOf es).flatMap reads := by
    intro es
    induction es with
    | nil => rfl
    | cons e rest ih => simp [allOf, vars, ih]
  rw [vars, all_eq, flatMap_cons, row]

theorem vars_copy (e : Expr) {e' : Expr} (copy : e.Copy ρ e') : e'.vars = e.vars.map ρ := by
  induction e using byChildren generalizing e' with
  | step e ih =>
    rw [vars_eq, vars_eq e, map_append, map_flatMap, copy.alike.reads]
    exact congrArg _ (flatMap_of_forall₂ copy.alike.children fun part mem _ copied => ih part mem copied)

end Expr

/-- Values are spread over a left side by its shape alone, and a single name takes the whole value. -/
structure Machine.Shaped (m : Machine V C) : Prop where
  name : ∀ n v, m.spread (.name n) v = some [v]
  rename : ∀ target ρ v, m.spread (target.rename ρ) v = m.spread target v

theorem Machine.shaped_reference : Machine.reference.Shaped where
  name _ _ := rfl
  rename target ρ v := by cases target <;> rfl

namespace Machine

variable {m : Machine V C} {c : C} {σ τ : Store V} {ρ : Name → Name} {e' : Expr}

theorem evalAll_of_forall₂ (related : Forall₂ R es es')
    (same : ∀ e ∈ es, ∀ e', R e e' → (m.eval c τ e').toOption = (m.eval c σ e).toOption) :
    (m.evalAll c τ es').toOption = (m.evalAll c σ es).toOption := by
  induction related with
  | nil => rfl
  | cons first _ ih =>
    obtain ⟨here, later⟩ := forall_mem_cons.mp same
    simp only [evalAll, toOption_bind, here _ first, ih later]

/-- A copy has the value of the expression, if the new names hold what the old ones hold. -/
theorem eval_copy (e : Expr) (copy : e.Copy ρ e') (same : ∀ n ∈ e.uses, τ.value? (ρ n) = σ.value? n) :
    (m.eval c τ e').toOption = (m.eval c σ e).toOption := by
  induction e using Expr.byChildren generalizing e' with
  | step e ih =>
    have below : e.onlyParts = true → ∀ part ∈ e.children, ∀ part', part.Copy ρ part' →
        (m.eval c τ part').toOption = (m.eval c σ part).toOption := fun parts part mem part' copied =>
      ih part mem copied fun n used => same n ((Expr.mem_uses_of_onlyParts parts).mpr ⟨part, mem, used⟩)
    cases e.valued with
    | @var node n =>
      obtain ⟨_, _ | _⟩ := copy
      change (τ.read (ρ n)).toOption = (σ.read n).toOption
      rw [Store.toOption_read, Store.toOption_read]
      exact same n (OrdSet.mem_singleton.mpr rfl)
    | lit =>
      obtain ⟨_, _ | _⟩ := copy
      rfl
    | cond =>
      obtain ⟨_, _ | ⟨decides, _ | ⟨left, _ | ⟨right, _ | _⟩⟩⟩⟩ := copy
      have below := below rfl
      simp only [Expr.children, forall_mem_cons] at below
      simp only [Expr.under, Expr.withNode, Expr.fill, eval, toOption_bind, below.1 _ decides]
      congr
      funext v
      congr
      funext holds
      cases holds with
      | true => exact below.2.1 _ left
      | false => exact below.2.2.1 _ right
    | form formed =>
      rw [m.eval_form formed, m.eval_form (copy.alike.form.trans formed), toOption_bind, toOption_bind,
        evalAll_of_forall₂ copy.alike.children fun part mem => below ?_ part mem]
      exact (Expr.mem_children_of_operands (Expr.operands_of_form formed ▸ mem)).1
    | none valueless => rw [m.eval_valueless valueless, m.eval_valueless (copy.alike.valueless.trans valueless)]

variable {v : V} {target : Binder} {writes : List (Name × V)} {value : Expr}

theorem eval_copy_iff (copy : e.Copy ρ e') (same : ∀ n ∈ e.uses, τ.value? (ρ n) = σ.value? n) :
    m.eval c τ e' = .ok v ↔ m.eval c σ e = .ok v := by
  rw [← toOption_eq_some, eval_copy e copy same, toOption_eq_some]

theorem writes_eq_ok_iff : m.writes target v = .ok writes ↔ ∃ values, m.spread target v = some values ∧ values.length =
    target.names.length ∧ writes = target.names.zip values := by
  unfold Machine.writes
  rw [bind_ok]
  constructor
  · rintro ⟨values, spread, rest⟩
    split at rest
    · cases rest
      exact ⟨values, demand_ok.mp spread, ‹_›, rfl⟩
    · cases rest
  · rintro ⟨values, spread, fits, rfl⟩
    exact ⟨values, demand_ok.mpr spread, by rw [if_pos fits]; rfl⟩

theorem writes_name (shaped : m.Shaped) (n : Name) (v : V) : m.writes (.name n) v = .ok [(n, v)] :=
  writes_eq_ok_iff.mpr ⟨[v], shaped.name n v, rfl, rfl⟩

theorem assigned_eq_ok_iff : m.assigned c σ target value = .ok writes ↔ ∃ v values, m.eval c σ value = .ok v ∧ m.spread
    target v = some values ∧ values.length = target.names.length ∧ writes = target.names.zip values := by
  rw [Machine.assigned, bind_ok]
  simp only [writes_eq_ok_iff]
  exact ⟨fun ⟨v, computed, values, rest⟩ => ⟨v, values, computed, rest⟩,
    fun ⟨v, values, computed, rest⟩ => ⟨v, computed, values, rest⟩⟩

theorem assigned_copy (shaped : m.Shaped) (copy : value.Copy ρ value')
    (same : ∀ n ∈ value.uses, τ.value? (ρ n) = σ.value? n) :
    m.assigned c τ (target.rename ρ') value' = .ok writes ↔ ∃ values : List V, values.length = target.names.length ∧
    writes = (target.names.map ρ').zip values ∧ m.assigned c σ target value = .ok (target.names.zip values) := by
  simp only [assigned_eq_ok_iff, eval_copy_iff copy same, shaped.rename, Binder.names_rename, length_map]
  constructor
  · rintro ⟨v, values, evaluated, spread, fits, rfl⟩
    exact ⟨values, fits, rfl, v, values, evaluated, spread, fits, rfl⟩
  · rintro ⟨values, fits, rfl, v, others, evaluated, spread, fits', same⟩
    have equal := congrArg (List.map Prod.snd) same
    rw [List.map_snd_zip (Nat.le_of_eq fits), List.map_snd_zip (Nat.le_of_eq fits')] at equal
    exact ⟨v, others, evaluated, spread, fits', by rw [equal]⟩

theorem eval_var (held : σ.value? n = some v) : m.eval c σ (.var node n) = .ok v :=
  Store.read_eq_ok_iff.mpr held

theorem goes_set (shaped : m.Shaped) {σ : State V} (node : Node) (n : Name)
    (computed : m.eval c σ.store value = .ok v) : ∃ τ :
    State V, (m.execStmts [.assign node (.name n) none value] c σ).Goes τ ∧ τ.fuel = σ.fuel ∧
    τ.store.value? n = some v ∧ ∀ x ≠ n, τ.store.value? x = σ.store.value? x := by
  refine ⟨_, goes_assign (bind_ok.mpr ⟨v, computed, writes_name shaped n v⟩), rfl, ?_, fun x other => ?_⟩
  · simp [Store.writeAll]
  · simp [Store.writeAll, other]

end Machine

end NumLang
