import NumLang.Proofs.Scoping
import NumLang.Proofs.WellTyped

/-!
Well-typed functions do not go wrong.
-/

namespace NumLang

namespace Reaching

open Flow

theorem mem_bindParams_cases (mem : record ∈ (bindParams params env).2) :
    ∃ p ∈ params, ∃ n prev, record = ⟨.binder p.id 0, .assign n ⟨.param, p.id⟩ prev⟩ := by
  induction params generalizing env with
  | nil => cases mem
  | cons p rest ih =>
    rcases mem_append.mp mem with own | other
    · obtain ⟨i, n, prev, named, rfl⟩ := mem_bindNames own
      refine ⟨p, mem_cons_self, n, prev, ?_⟩
      cases name : p.name with
      | none => simp [name] at named
      | some m =>
        cases i with
        | zero => rfl
        | succ i => simp [name] at named
    · obtain ⟨q, listed, n, prev, rfl⟩ := ih other
      exact ⟨q, mem_cons_of_mem _ listed, n, prev, rfl⟩

theorem Survey.place_param (survey : Survey f notes) (mem : p ∈ f.params) (recorded : record ∈ notes.records)
    (own : record.place.site = p.id) : record.place = .binder p.id 0 := by
  obtain ⟨exit, inner, walk, rfl⟩ := survey.walk
  have distinct := survey.distinct
  rw [Func.ids, nodup_cons, nodup_append] at distinct
  obtain ⟨fresh, _, _, apart⟩ := distinct
  have listed : p.id ∈ f.params.map (·.id) := mem_map.mpr ⟨p, mem, rfl⟩
  rcases mem_append.mp recorded with input | inside
  · rcases mem_append.mp input with param | free
    · obtain ⟨q, _, n, prev, rfl⟩ := mem_bindParams_cases param
      rw [show q.id = p.id from own]
    · obtain ⟨i, n, prev, _, rfl⟩ := mem_bindNames free
      have same : f.id = p.id := own
      exact absurd (mem_append_left _ (same ▸ listed)) fresh
  · have within := site_mem_of_times (walk.counted).times inside
    exact absurd own.symm (apart p.id listed _ within)

theorem Survey.defAt?_param (survey : Survey f notes) (entry exit : Env) (mem : p ∈ f.params) (named : p.name = some n)
    : (ofNotes entry exit notes).defAt? p.id n = some (number notes.records (.binder p.id 0)) := by
  obtain ⟨prev, recorded⟩ : ∃ prev, ⟨.binder p.id 0, .assign n ⟨.param, p.id⟩ prev⟩ ∈ notes.records := by
    obtain ⟨_, _, _, rfl⟩ := survey.walk
    obtain ⟨prev, recorded⟩ : ∃ prev, ⟨.binder p.id 0, .assign n ⟨.param, p.id⟩ prev⟩ ∈ (bindParams f.params ∅).2 :=
      mem_bindParams mem named
    exact ⟨prev, mem_append_left _ (mem_append_left _ recorded)⟩
  obtain ⟨d, found⟩ := isSome_iff_exists.mp (survey.isSome_defAt? entry exit recorded)
  obtain ⟨definition, defined, selected⟩ := mem_select_iff.mp (mem_of_find?_eq_some found)
  obtain ⟨record, recorded, rfl, rfl⟩ := survey.def?_cases defined
  have own : record.place.site = p.id := by
    have proper := survey.proper record recorded
    obtain ⟨place, definition⟩ := record
    cases definition with
    | join => simp [Definition.map, Definition.isJoin] at selected
    | assign name site prev =>
      obtain ⟨slot, rfl⟩ : ∃ slot, place = .binder site.node slot := proper
      exact of_decide_eq_true selected
  rw [found, survey.place_param mem recorded own]

theorem Survey.eq_of_mem_defsAt (survey : Survey f notes) {entry exit : Env} {s : Stmt} (mem : s ∈ f.body.all)
    (only : s.binds = [n]) (listed : d ∈ (ofNotes entry exit notes).defsAt s.id) :
    d = number notes.records (.binder s.id 0) := by
  obtain ⟨slot, m, prev, named, _, rfl⟩ := survey.mem_defsAt mem listed
  rw [only] at named
  cases slot with
  | zero => rfl
  | succ slot => cases named

theorem mem_zip_of_def? {r : Reaching} (found : r.def? d = some definition) :
    (d, definition) ∈ (List.range r.size).zip r.defs := by
  have below := (List.getElem?_eq_some_iff.mp found).1
  have numbered : (List.range r.size)[d]? = some d := List.getElem?_range below
  exact mem_of_getElem? (List.getElem?_zip_eq_some.mpr ⟨numbered, found⟩)

end Reaching

namespace Reference

open Flow Reaching

/-- What inference has found of a function, read in a model of it. -/
structure Accepted (f : Func) (u : Uses) (notes : Notes) (φ : Nat → Ty) : Prop where
  resolved : Uses.Resolved f u notes
  checked : ∀ s ∈ f.body.all, Checked u φ s
  joins : Infer.JoinsTyped φ ((List.range u.reach.size).zip u.reach.defs)

def Holds (φ : Nat → Ty) (records : List Record) (_ : Name) (p : Place) (held : Option (Cell Value)) : Prop :=
  ∃ cell, held = some cell ∧ cell.value.HasTy (φ (Reaching.number records p + 1))

def Typed (φ : Nat → Ty) (records : List Record) (env : Env) (σ : Store Value) : Prop :=
  Satisfies (Holds φ records) env (World.single.look σ)

section Runs

variable {notes : Notes} {φ : Nat → Ty} {σ : Store Value} {after : Env} {args : List Value}

theorem Typed.stored (typed : Typed φ notes.records env σ) : Stored φ (numberEnv notes.records env) σ := by
  intro n d found
  obtain ⟨p, inForce, rfl⟩ := get?_numberEnv.mp found
  obtain ⟨cell, held, has⟩ := typed n p inForce
  exact ⟨cell.value, map_eq_some_iff.mpr ⟨cell, held, rfl⟩, has⟩

theorem Accepted.meets (accepted : Accepted f u notes φ)
    (recorded : ⟨.join site n, .join n site lhs rhs⟩ ∈ notes.records) :
    φ (Reaching.number notes.records lhs + 1) = φ (Reaching.number notes.records (.join site n) + 1) ∧ φ
    (Reaching.number notes.records rhs + 1) = φ (Reaching.number notes.records (.join site n) + 1) := by
  exact accepted.joins _ n site _ _ (mem_zip_of_def? (accepted.resolved.def? recorded))

theorem Accepted.into (accepted : Accepted f u notes φ) (flows : Into notes.records site before env next)
    (typed : Typed φ notes.records env σ) : Typed φ notes.records next σ := by
  refine typed.into flows fun n lhs rhs held recorded entering => ?_
  obtain ⟨left, right⟩ := accepted.meets recorded
  rcases entering with ⟨cell, rfl, has⟩ | ⟨cell, rfl, has⟩
  · exact ⟨cell, rfl, left ▸ has⟩
  · exact ⟨cell, rfl, right ▸ has⟩

theorem Accepted.safe_eval (accepted : Accepted f u notes φ) (mem : s ∈ f.body.all)
    (seen : (notes.outline (Typed φ notes.records) fun _ => True).seen s.point () σ)
    (evaluated : e ∈ s.exprs) (means : Means u φ e t) : Safe (eval σ e) (·.HasTy t) := by
  obtain ⟨env, typed, reads⟩ := accepted.resolved.reads_of_seen mem seen
  exact means s.id _ σ (reads.exprs e evaluated) typed.stored

def Ends (φ : Nat → Ty) (records : List Record) (after : Env) : Option Value × State Value → Prop
  | (none, σ) => Typed φ records after σ.store
  | (some v, _) => v.HasTy (φ 0)

theorem Accepted.ends_into (accepted : Accepted f u notes φ) (flows : Into notes.records site before middle after)
    (ends : Ends φ notes.records middle ending) : Ends φ notes.records after ending := by
  obtain ⟨_ | v, σ⟩ := ending
  · exact accepted.into flows ends
  · exact ends

theorem safe_follow {x : Result} (first : Safe x (Ends φ notes.records middle))
    (rest : ∀ σ : State Value, Typed φ notes.records middle σ.store → Safe (k σ) (Ends φ notes.records after)) :
    Safe (x.follow k) (Ends φ notes.records after) := by
  refine first.bind fun ending ends => ?_
  obtain ⟨_ | v, σ⟩ := ending
  · exact rest σ ends
  · exact ends

theorem safe_repeatWhile {test : Store Value → Except Stop Bool} {body : State Value → Result} {head : Env}
    (tests : ∀ σ, Typed φ notes.records head σ → Safe (test σ) fun _ => True)
    (bodies : ∀ σ : State Value, Typed φ notes.records head σ.store → Safe (body σ) (Ends φ notes.records head))
    (rounds : Nat) (σ : State Value) (typed : Typed φ notes.records head σ.store) :
    Safe (repeatWhile test body rounds σ) (Ends φ notes.records head) := by
  induction rounds generalizing σ with
  | zero =>
    unfold repeatWhile
    refine (tests σ.store typed).bind fun holds _ => ?_
    cases holds with
    | true => rfl
    | false => exact typed
  | succ rounds ih =>
    obtain ⟨store, fuel⟩ := σ
    unfold repeatWhile
    refine (tests store typed).bind fun holds _ => ?_
    cases holds with
    | false => exact typed
    | true =>
      cases fuel with
      | zero => rfl
      | succ fuel => exact safe_follow (bodies ⟨store, fuel⟩ typed) ih

theorem Accepted.safe_test (accepted : Accepted f u notes φ) (mem : s ∈ f.body.all)
    (seen : (notes.outline (Typed φ notes.records) fun _ => True).seen s.point () σ)
    (evaluated : e ∈ s.exprs) (means : Means u φ e .bool) : Safe (test σ e) fun _ => True :=
  (accepted.safe_eval mem seen evaluated means).bind fun _ has => safe_truth has

theorem safe_assigned (computed : Safe (eval σ value) (·.HasTy t)) :
    Safe (assigned σ target value) fun writes => ∃ n v, target = .name n ∧ writes = [(n, v)] ∧ v.HasTy t := by
  refine computed.bind fun v has => ?_
  cases target with
  | name n => exact ⟨n, v, rfl, rfl, has⟩
  | wildcard | tuple => rfl

theorem Accepted.safe_assign (accepted : Accepted f u notes φ) (mem : .assign node target ann value ∈ f.body.all)
    {sub : Notes} (walk : StmtWalk env (.assign node target ann value) after sub) (within : sub.Within notes)
    (σ : State Value) (typed : Typed φ notes.records env σ.store) :
    Safe (exec (.assign node target ann value) σ) (Ends φ notes.records after) := by
  obtain ⟨t, means, given⟩ := accepted.checked _ mem
  have computed := accepted.safe_eval mem ⟨_, within.stmts _ walk.noted, typed⟩ mem_cons_self means
  refine (safe_assigned computed).bind ?_
  rintro _ ⟨n, v, rfl, rfl, has⟩
  obtain ⟨d, found, rfl⟩ := given n rfl
  obtain ⟨exit, reach⟩ := accepted.resolved.reach
  rw [reach] at found
  have slot := accepted.resolved.survey.eq_of_mem_defsAt mem rfl (mem_of_find?_eq_some found)
  obtain ⟨_, _, _, rfl, _⟩ := walk
  exact typed.insert ⟨⟨v, ⟨.stmt, node.id⟩⟩, rfl, slot ▸ has⟩

mutual

/-- A statement that inference accepts is safe, and after it the names in force have their types. -/
theorem Accepted.safe_exec (accepted : Accepted f u notes φ) : (s : Stmt) → s ∈ f.body.all → {env after : Env} →
    {sub : Notes} → StmtWalk env s after sub → sub.Within notes → (σ : State Value) →
    Typed φ notes.records env σ.store → Safe (exec s σ) (Ends φ notes.records after)
  | .assign node target ann value, mem, _, _, _, walk, within, σ, typed =>
    accepted.safe_assign mem walk within σ typed
  | .when node e body, mem, env, after, sub, walk, within, σ, typed => by
    have noted := within.stmts _ walk.noted
    obtain ⟨_, _, _ | ⟨inner, _ | _⟩, rfl, rfl⟩ := walk
    obtain ⟨skip, through⟩ := into_guarded within.joins inner.keeps
    refine (accepted.safe_test mem ⟨_, noted, typed⟩ mem_cons_self (accepted.checked _ mem)).bind ?_
    rintro (_ | _) _
    · exact accepted.into skip typed
    · have listed := f.body.closed.inner _ mem body mem_cons_self
      refine (accepted.safe_execBlock body listed inner ((Notes.Within.first ..).trans within) σ typed).imp ?_
      exact fun _ => accepted.ends_into through
  | .branch node e ift iff, mem, env, after, sub, walk, within, σ, typed => by
    have noted := within.stmts _ walk.noted
    have distinct := accepted.resolved.survey.nodup_ids mem
    obtain ⟨_, _, _ | ⟨left, _ | ⟨right, _ | _⟩⟩, rfl, rfl⟩ := walk
    have apart := (nodup_append.mp (nodup_cons.mp distinct).2).2.1
    obtain ⟨leftInto, rightInto⟩ := into_branch within.joins (left.common right apart)
    refine (accepted.safe_test mem ⟨_, noted, typed⟩ mem_cons_self (accepted.checked _ mem)).bind ?_
    rintro (_ | _) _
    · have listed := f.body.closed.inner _ mem iff (mem_cons_of_mem _ mem_cons_self)
      have part := ((Notes.Within.left _ _).trans (.right _ _)).trans ((Notes.Within.middle ..).trans within)
      refine (accepted.safe_execBlock iff listed right part σ typed).imp ?_
      exact fun _ => accepted.ends_into rightInto
    · have listed := f.body.closed.inner _ mem ift mem_cons_self
      refine (accepted.safe_execBlock ift listed left ((Notes.Within.first ..).trans within) σ typed).imp ?_
      exact fun _ => accepted.ends_into leftInto
  | .loop node e body, mem, env, after, sub, walk, within, σ, typed => by
    have noted := within.stmts _ walk.noted
    obtain ⟨_, _, _ | ⟨inner, _ | _⟩, rfl, rfl⟩ := walk
    have part := (Notes.Within.first ..).trans within
    obtain ⟨enter, back⟩ := into_loop within.joins inner.keeps fun n => mem_assigned.mpr
    refine safe_repeatWhile (fun σ typed => ?_) (fun σ typed => ?_) σ.fuel σ (accepted.into enter typed)
    · have opened := part.blocks _ inner.noted
      exact accepted.safe_test mem ⟨_, _, noted, opened, rfl, typed⟩ mem_cons_self (accepted.checked _ mem)
    · have listed := f.body.closed.inner _ mem body mem_cons_self
      exact (accepted.safe_execBlock body listed inner part σ typed).imp fun _ => accepted.ends_into back
  | .scope node none ctx body, mem, env, after, sub, walk, within, σ, typed => by
    obtain ⟨_, _, _ | ⟨inner, _ | _⟩, rfl, rfl⟩ := walk
    have listed := f.body.closed.inner _ mem body mem_cons_self
    exact accepted.safe_execBlock body listed inner ((Notes.Within.first ..).trans within) σ typed
  | .assert node e message, mem, env, after, sub, walk, within, σ, typed => by
    have noted := within.stmts _ walk.noted
    obtain ⟨_, _, _, rfl, _⟩ := walk
    refine (accepted.safe_test mem ⟨_, noted, typed⟩ mem_cons_self (accepted.checked _ mem)).bind ?_
    rintro (_ | _) _
    · rfl
    · exact typed
  | .effect node value, mem, env, after, sub, walk, within, σ, typed => by
    have noted := within.stmts _ walk.noted
    obtain ⟨t, means⟩ := accepted.checked _ mem
    obtain ⟨_, _, _, rfl, _⟩ := walk
    exact (accepted.safe_eval mem ⟨_, noted, typed⟩ mem_cons_self means).bind fun _ _ => typed
  | .ret node value, mem, env, after, sub, walk, within, σ, typed => by
    have noted := within.stmts _ walk.noted
    refine (accepted.safe_eval mem ⟨_, noted, typed⟩ mem_cons_self (accepted.checked _ mem)).bind ?_
    exact fun _ has => has
  | .skip node, _, env, after, sub, walk, _, σ, typed => by
    obtain ⟨_, _, _, rfl, _⟩ := walk
    exact typed
  | .scope _ (some _) _ _, _, _, _, _, _, _, _, _ | .store .., _, _, _, _, _, _, _, _
  | .each .., _, _, _, _, _, _, _, _ => rfl

theorem Accepted.safe_execBlock (accepted : Accepted f u notes φ) : (b : Block) → b ∈ f.body.allBlocks →
    {env after : Env} → {sub : Notes} → BlockWalk env b after sub → sub.Within notes → (σ : State Value) →
    Typed φ notes.records env σ.store → Safe (execBlock b σ) (Ends φ notes.records after)
  | ⟨_, stmts⟩, mem, _, _, _, .block inner, within, σ, typed =>
    accepted.safe_execStmts stmts (f.body.closed.rows _ mem) inner ((Notes.Within.left _ _).trans within) σ typed

theorem Accepted.safe_execStmts (accepted : Accepted f u notes φ) : (stmts : List Stmt) →
    (∀ s ∈ stmts, s ∈ f.body.all) → {env after : Env} → {sub : Notes} → StmtsWalk env stmts after sub →
    sub.Within notes → (σ : State Value) → Typed φ notes.records env σ.store →
    Safe (execStmts stmts σ) (Ends φ notes.records after)
  | [], _, _, _, _, .nil, _, _, typed => typed
  | s :: rest, members, _, _, _, .cons head tail, within, σ, typed => by
    obtain ⟨mem, others⟩ := forall_mem_cons.mp members
    refine safe_follow (accepted.safe_exec s mem head ((Notes.Within.left _ _).trans within) σ typed) ?_
    exact accepted.safe_execStmts rest others tail ((Notes.Within.right _ _).trans within)

end

theorem Typed.bindArgs (typed : Typed φ notes.records env σ) (started : Machine.bindArgs params args σ = some τ)
    (given : Forall₂ (fun p v => ∀ n, p.name = some n → v.HasTy (φ (Reaching.number notes.records (.binder p.id 0) +
    1))) params args) : Typed φ notes.records (bindParams params env).1 τ := by
  induction given generalizing env σ with
  | nil =>
    cases started
    exact typed
  | @cons p v params args own _ ih =>
    cases named : p.name with
    | none => simp [Machine.bindArgs, named] at started
    | some n =>
      simp only [Machine.bindArgs, named] at started
      simp only [bindParams, named, Option.toList_some]
      exact ih (typed.insert ⟨_, rfl, own n named⟩) started

theorem hasTy_of_params {slot : Param → DefId} (params : Forall₂ (Infer.ParamTyped u φ) ps types)
    (fits : Forall₂ (fun v t => v.HasTy (t.subst φ)) args types)
    (defined : ∀ p ∈ ps, ∀ n, p.name = some n → u.reach.defAt? p.id n = some (slot p)) :
    Forall₂ (fun p v => ∀ n, p.name = some n → v.HasTy (φ (slot p + 1))) ps args := by
  induction params generalizing args with
  | nil =>
    cases fits
    exact .nil
  | @cons p t _ _ own _ ih =>
    cases fits with
    | cons has rest =>
      refine .cons (fun n named => ?_) (ih rest fun q mem => defined q (mem_cons_of_mem _ mem))
      have same : t.subst φ = φ (slot p + 1) := own _ (by rw [named]; exact defined p mem_cons_self n named)
      exact same ▸ has

theorem Accepted.safe_run (accepted : Accepted f u notes φ) (closed : f.freeVars = ∅) (params : Forall₂ (Infer.ParamTyped u φ) f.params types)
    (fits : Forall₂ (fun v t => v.HasTy (t.subst φ)) args types) : Safe (explain f args) (·.HasTy (φ 0)) := by
  obtain ⟨exit, reach⟩ := accepted.resolved.reach
  have given := hasTy_of_params params fits fun p mem n named => by
    rw [reach]
    exact accepted.resolved.survey.defAt?_param (entryOf f) exit mem named
  unfold explain
  rw [if_pos given.length_eq.symm]
  split
  · rename_i store started
    have entry : entryOf f = (bindParams f.params ∅).1 := by rw [entryOf, closed]; rfl
    have typed : Typed φ notes.records (entryOf f) store := by
      rw [entry]
      exact Typed.bindArgs nofun started given
    obtain ⟨after, inner, walk, rfl⟩ := accepted.resolved.survey.walk
    refine (accepted.safe_execBlock f.body f.body.mem_allBlocks walk (Notes.Within.right _ _) ⟨store, fuel⟩ typed).bind ?_
    rintro ⟨_ | v, σ⟩ ends
    · rfl
    · exact ends
  · rfl

end Runs

theorem accepted_of_typing {f : Func} {t : Typing} (distinct : f.ids.Nodup) (found : Typing.ofFunc f = .ok t)
    (θ : Nat → Ty) : ∃ u notes types φ, Accepted f u notes φ ∧ Forall₂ (Infer.ParamTyped u φ) f.params types ∧
    t.params.map (·.subst θ) = types.map (·.subst φ) ∧ t.ret.subst θ = φ 0 := by
  obtain ⟨id, name, params, body, free, ctx, metadata, env, loc⟩ := f
  obtain ⟨u, used, found⟩ := bind_ok.mp found
  obtain ⟨⟨types, s⟩, ran, result⟩ := bind_ok.mp found
  cases result
  obtain ⟨notes, resolved⟩ := Uses.resolved_of_func distinct used
  have single : u.Single := fun use listed => resolved.at?_eq listed
  obtain ⟨grows, holds⟩ := Infer.ensures_check single id params env body _ _ types s ran
  have models := (grows.triangular trivial).models_model θ
  obtain ⟨typed, checked, joined⟩ := holds _ models
  refine ⟨u, notes, types, _, ⟨resolved, checked, joined⟩, typed, ?_, (s.solution.subst_model θ (.var 0)).symm⟩
  rw [Infer.finish, List.map_map]
  exact List.map_congr_left fun t _ => (s.solution.subst_model θ t).symm

/-- Well-typed functions do not go wrong: on arguments whose types are those of the parameters under a substitution,
the reference evaluator demands no number from a truth value, no truth value from a number and no value from a name
that holds none, and what it returns has the type of the result under this substitution. -/
theorem well_typed_never_wrong (f : Func) (t : Typing) (distinct : f.ids.Nodup) (closed : f.freeVars = ∅)
    (found : Typing.ofFunc f = .ok t) (θ : Nat → Ty) (args : List Value)
    (fits : List.Forall₂ (fun v p => v.HasTy (p.subst θ)) args t.params) :
    (explain f args).toOption = run f args ∧ (∀ stop, explain f args = .error stop → stop.isWrong = false) ∧
      ∀ v, run f args = some v → v.HasTy (t.ret.subst θ) := by
  obtain ⟨u, notes, types, φ, accepted, params, same, result⟩ := accepted_of_typing distinct found θ
  have given : List.Forall₂ (fun v t => v.HasTy (t.subst φ)) args types := by
    have mapped : List.Forall₂ Value.HasTy args (types.map (·.subst φ)) :=
      same ▸ List.forall₂_map_right_iff.mpr fits
    exact List.forall₂_map_right_iff.mp mapped
  have safe := accepted.safe_run closed params given
  have erased := toOption_explain f args
  refine ⟨erased, fun stop stopped => ?_, fun v returned => ?_⟩
  · rw [stopped] at safe
    exact safe
  · rw [← erased] at returned
    cases explained : explain f args with
    | error stop =>
      rw [explained] at returned
      nomatch returned
    | ok w =>
      rw [explained] at returned safe
      cases returned
      exact result ▸ safe

open Sample in
/-- Counts from `x` up to `y` and divides by `x` if `p` and `q` are the same, whatever they are. -/
def dividing : Func :=
  func ["x", "y", "p", "q"] [] [
    set 10 "s" (var 11 "x"),
    .loop (node 12) (less 13 (var 14 "s") (var 15 "y")) ⟨⟨16⟩, [set 17 "s" (add 18 (var 19 "s") (int 20 1))]⟩,
    set 21 "y" (.compare (node 22) [.eq] [var 23 "p", var 24 "q"]),
    .branch (node 25) (var 26 "y")
      ⟨⟨27⟩, [set 28 "r" (.binary (node 29) .div none (var 30 "s") (var 31 "x"))]⟩
      ⟨⟨32⟩, [set 33 "r" (var 34 "s")]⟩,
    .ret (node 35) (var 36 "r")]

theorem well_typed_never_wrong_dividing :
    dividing.ids.Nodup ∧ dividing.freeVars = ∅ ∧ ∃ t, Typing.ofFunc dividing = .ok t ∧
      t.params = [.real, .real, .var 4, .var 4] ∧
      run dividing [.number 0, .number 4, .bool true, .bool false] = some (.number 4) ∧
      (Value.number 4).HasTy (t.ret.subst fun _ => .bool) ∧
      explain dividing [.number 0, .number 4, .bool true, .bool true] = .error .divisionByZero ∧
      ∀ stop, explain dividing [.number 0, .number 4, .bool true, .bool true] = .error stop → stop.isWrong = false := by
  have distinct : dividing.ids.Nodup := by decide
  have inferred : (Typing.ofFunc dividing).toOption.map (·.params) = some [.real, .real, .var 4, .var 4] := by
    decide +kernel
  have returns : run dividing [.number 0, .number 4, .bool true, .bool false] = some (.number 4) := by decide +kernel
  have stops : explain dividing [.number 0, .number 4, .bool true, .bool true] = .error .divisionByZero := by
    decide +kernel
  cases found : Typing.ofFunc dividing with
  | error e =>
    rw [found] at inferred
    nomatch inferred
  | ok t =>
    rw [found] at inferred
    have params : t.params = [.real, .real, .var 4, .var 4] := Option.some.inj inferred
    have fits (p q : Bool) : List.Forall₂ (fun v t => Value.HasTy v (t.subst fun _ => .bool))
        [.number 0, .number 4, .bool p, .bool q] t.params := by
      rw [params]
      exact .cons (.number 0) (.cons (.number 4) (.cons (.bool p) (.cons (.bool q) .nil)))
    have sound (p q : Bool) := well_typed_never_wrong dividing t distinct rfl found _ _ (fits p q)
    exact ⟨distinct, rfl, t, rfl, params, returns, (sound true false).2.2 _ returns, stops, (sound true true).2.1⟩

end Reference

end NumLang
