import NumLang.Proofs.DeadCodeTotal

/-!
Uses follow the walk.
-/

namespace NumLang

theorem OrdMap.mapValues_insert {κ α β : Type} [Ord κ] [Std.TransOrd κ] (f : κ → α → β) (m : OrdMap κ α) (key : κ)
    (value : α) : (m.insert key value).mapValues f = (m.mapValues f).insert key (f key value) := by
  have entries : ∀ l : List (κ × α), (insertEntry key value l).map (fun entry => (entry.1, f entry.1 entry.2)) =
      insertEntry key (f key value) (l.map fun entry => (entry.1, f entry.1 entry.2)) := by
    intro l
    induction l with
    | nil => rfl
    | cons first rest ih =>
      simp only [insertEntry, map_cons]
      split <;> simp [ih]
  simp only [insert, mapValues, OrdMap.mk.injEq]
  exact entries m.entries

/-- The walk of an expression in an environment enters a part of it in another: the element of a comprehension is walked
with the targets bound. -/
inductive Flow.Enters : Env → Expr → Env → Expr → Prop where
  | here {env : Env} {e} : Enters env e env e
  | child {env inner : Env} {e child part} (parts : e.onlyParts = true) (mem : child ∈ e.children)
    (below : Enters env child inner part) : Enters env e inner part
  | iterable {env inner : Env} {node targets iterables elt child part} (mem : child ∈ iterables)
    (below : Enters env child inner part) : Enters env (.comprehension node targets iterables elt) inner part
  | element {env inner : Env} {node targets iterables elt part}
    (below : Enters (bound ⟨.comprehension, node.id⟩ (Binder.namesAll targets) env) elt inner part) :
    Enters env (.comprehension node targets iterables elt) inner part

namespace Uses

open Flow Reaching

variable {f : Func} {u : Uses} {notes : Notes} {e : Expr} {n : Name} {d : DefId} {reach : Reaching} {stmt : NodeId}
  {us : List Use} {records : List Record}

theorem Lists.call {env : NameMap DefId} (listed : Lists reach stmt env us e) (called : n ∈ e.calls)
    (held : env.get? n = some d) : ⟨⟨e.id, stmt, .call⟩, d, env⟩ ∈ us := by
  cases e with
  | call node func callee args kwargs =>
    cases mem_singleton.mp called
    obtain ⟨own, resolved, inside⟩ := listed
    rw [ofExpr_eq_ofExprs reach stmt env rfl] at resolved
    obtain ⟨inner, _, result⟩ := bind_ok.mp resolved
    cases result
    exact inside _ (mem_append_right _ (by simp [ofCalls, Expr.calls, held]))
  | _ => cases called

theorem bindTargets_numberEnv {site : Site} {slot : Nat} {names : List Name} {env : Env}
    (defined : ∀ i n, names[i]? = some n → reach.defAt? site.node n = some (number records (.binder site.node (slot + i)))) :
    bindTargets reach site.node names (numberEnv records env) =
      .ok (numberEnv records (bindNames site slot names env).1) := by
  induction names generalizing slot env with
  | nil => rfl
  | cons n rest ih =>
    have later := @ih (slot + 1) (env.insert n (.binder site.node slot)) fun i m named => by
      rw [defined (i + 1) m named, Nat.add_right_comm, Nat.add_assoc]
    rw [bindTargets, defined 0 n rfl]
    rwa [numberEnv, OrdMap.mapValues_insert] at later

def namesAt (u : Uses) (node : NodeId) : List (Option Name) :=
  (u.reach.defsAt node).map fun d => (u.reach.def? d).map Definition.name

theorem Resolved.defAt?_eq (resolved : Resolved f u notes) (once : (u.namesAt node).Nodup)
    (recorded : ⟨.binder node i, .assign n ⟨kind, node⟩ prev⟩ ∈ notes.records) :
    u.reach.defAt? node n = some (number notes.records (.binder node i)) := by
  obtain ⟨exit, reach⟩ := resolved.reach
  have known := resolved.def? recorded
  have listed : number notes.records (.binder node i) ∈ u.reach.defsAt node :=
    mem_select_iff.mpr ⟨_, known, by simp [Definition.map, Definition.isJoin, Definition.site]⟩
  have present := resolved.survey.isSome_defAt? (entryOf f) exit recorded
  rw [← reach] at present
  obtain ⟨d, found⟩ := isSome_iff_exists.mp present
  have other := mem_of_find?_eq_some found
  obtain ⟨definition, defined, _⟩ := mem_select_iff.mp other
  have named : definition.name = n := by simpa [defined] using find?_some found
  rw [found, List.inj_on_of_nodup_map once other listed ?_]
  rw [defined, known, map_some, named]
  rfl

/-- Every part of an expression is resolved in the environment in which the walk enters it. -/
theorem Lists.enters {env : Env} (defined : ∀ part ∈ e.all, ∀ i n, part.binds[i]? = some n →
      reach.defAt? part.id n = some (number records (.binder part.id i)))
    (listed : Lists reach stmt (numberEnv records env) us e) : ∀ part ∈ e.all, ∃ inner,
      Enters env e inner part ∧ Lists reach stmt (numberEnv records inner) us part := by
  induction e using Expr.byChildren generalizing env with
  | step e ih =>
    rw [Expr.all_eq, forall_mem_cons] at defined ⊢
    refine ⟨⟨env, .here, listed⟩, fun part mem => ?_⟩
    obtain ⟨child, mem, inside⟩ := Expr.mem_allOf_iff.mp mem
    have below := fun part inside => defined.2 part (Expr.mem_allOf mem inside)
    cases e with
    | comprehension node targets iterables elt =>
      obtain ⟨outer, within, bound, inner⟩ := listed.comprehension
      rcases mem_append.mp mem with mem | mem
      · obtain ⟨last, enters, listed⟩ := ih child (mem_append_left _ mem) below (outer child mem) part inside
        exact ⟨last, .iterable mem enters, listed⟩
      · cases mem_singleton.mp mem
        have same := @bindTargets_numberEnv reach records ⟨.comprehension, node.id⟩ 0 (Binder.namesAll targets) env
          fun i n named => by rw [Nat.zero_add]; exact defined.1 i n named
        cases bound.symm.trans same
        obtain ⟨last, enters, listed⟩ := ih child (mem_append_right _ mem_cons_self) below inner part inside
        exact ⟨last, .element enters, listed⟩
    | var => cases mem
    | _ =>
      obtain ⟨last, enters, listed⟩ := ih child mem below (listed.child rfl mem) part inside
      exact ⟨last, .child rfl mem enters, listed⟩

def ReadsAt (u : Uses) (node : NodeId) (n : Name) (env : NameMap DefId) : Prop :=
  ∃ d, env.get? n = some d ∧ u.envAtUse? node = some env ∧ u.defOfUse? node = some d

theorem Resolved.readsAt (resolved : Resolved f u notes) {use : Use} (used : use ∈ u.uses)
    (held : use.env.get? n = some use.definition) : u.ReadsAt use.site.node n use.env := by
  have found := resolved.at?_eq used
  exact ⟨_, held, by rw [envAtUse?, found]; rfl, by rw [defOfUse?, found]; rfl⟩

/-- Whatever a function reads or calls is resolved in the environment in which the walk of it comes by the node; a call is
a use of its name where the name is in force. -/
def FollowsWalk (u : Uses) (f : Func) : Prop :=
  ∃ exit inner, Flow.ofBlock (entryOf f) f.body = .ok (exit, inner) ∧
    ∀ s ∈ f.body.all, ∃ span, (s.id, span) ∈ inner.stmts ∧
      (∀ n ∈ s.reads, u.ReadsAt s.id n (numberEnv (inputsOf f ++ inner.records) span.before)) ∧
      ∀ e ∈ s.exprs, ∀ part ∈ e.all, ∃ env, Enters (evalEnv span.before s) e env part ∧
        ∀ n, n ∈ part.reads ∨ n ∈ part.calls ∧ env.contains n = true →
          u.ReadsAt part.id n (numberEnv (inputsOf f ++ inner.records) env)

theorem followsWalk_of_once {f : Func} {u : Uses} (distinct : f.ids.Nodup) (found : Uses.ofFunc f = .ok u)
    (once : ∀ s ∈ f.body.all, ∀ part ∈ Expr.allOf s.exprs, (u.namesAt part.id).Nodup) : u.FollowsWalk f := by
  obtain ⟨reach, analysed, _⟩ := bind_ok.mp found
  obtain ⟨exit, inner, walked, _⟩ := walk_of_func analysed
  have resolved := resolved_of_walk distinct found walked
  refine ⟨exit, inner, walked, fun s mem => ?_⟩
  obtain ⟨⟨before, after⟩, sub, noted, walk, part⟩ := resolved.survey.spans.visits s mem
  have reads := DeadCode.reads_of_walk resolved mem walk part.within
  obtain ⟨_, _, evaluated, _⟩ := resolved.survey.evaluates (entryOf f) exit mem
  refine ⟨_, noted, fun n read => ?_, fun e listed part inside => ?_⟩
  · cases s with
    | store node name path value =>
      cases mem_singleton.mp read
      obtain ⟨d, held, used⟩ := reads.held node n path value rfl
      exact resolved.readsAt used held
    | _ => cases read
  · obtain ⟨records, walked, within⟩ := evaluated e listed
    have defined : ∀ part ∈ e.all, ∀ i n, part.binds[i]? = some n → u.reach.defAt? part.id n =
        some (number (inputsOf f ++ inner.records) (.binder part.id i)) := by
      intro part inside i n named
      obtain ⟨prev, recorded⟩ := (walk_of_expr e walked).recorded part (by simpa [Expr.allOf] using inside) i n named
      exact resolved.defAt?_eq (once s mem part (Expr.mem_allOf listed inside)) (within _ recorded)
    obtain ⟨env, enters, listed⟩ := (reads.exprs e listed).enters defined part inside
    refine ⟨env, enters, ?_⟩
    rintro n (read | ⟨called, held⟩)
    · cases part with
      | var node name =>
        cases mem_singleton.mp read
        obtain ⟨d, held, used⟩ := listed.var
        exact resolved.readsAt used held
      | _ => cases read
    · rw [← OrdMap.contains_mapValues] at held
      obtain ⟨d, held⟩ := isSome_iff_exists.mp held
      exact resolved.readsAt (listed.call called held) held

open Sample in
/-- Adds one to every element of a list that has been changed. -/
def raising : Func :=
  func ["xs"] [] [
    .store (node 10) (name "xs") [int 11 0] (int 12 1),
    .ret (node 13) (.comprehension (node 14) [.name (name "x")] [var 15 "xs"] (add 16 (var 17 "x") (int 18 1)))]

theorem followsWalk_of_once_raising : raising.ids.Nodup ∧ ∃ u, Uses.ofFunc raising = .ok u ∧
    (∀ s ∈ raising.body.all, ∀ part ∈ Expr.allOf s.exprs, (u.namesAt part.id).Nodup) ∧ u.FollowsWalk raising := by
  have distinct : raising.ids.Nodup := by decide
  have once : ∀ s ∈ raising.body.all, ∀ part ∈ Expr.allOf s.exprs, ∀ u ∈ (Uses.ofFunc raising).toOption,
      (u.namesAt part.id).Nodup := by decide
  obtain ⟨u, found⟩ : ∃ u, Uses.ofFunc raising = .ok u := ⟨_, rfl⟩
  rw [found] at once
  have once := fun s mem part inside => once s mem part inside u rfl
  exact ⟨distinct, u, found, once, followsWalk_of_once distinct found once⟩

end Uses

end NumLang
