import NumLang.Flow.Liveness
import NumLang.Proofs.Resolution
import NumLang.Proofs.Rewriting

/-!
Scoping. An expression is in scope where the names that it reads from outside have definitions, so it stays in scope in
any environment that has them.
-/

namespace NumLang

variable {iterables es : List Expr} {elt : Expr} {n : Name}

namespace Expr

theorem mem_usesAll : n ∈ usesAll es ↔ ∃ e ∈ es, n ∈ e.uses := by
  induction es with
  | nil => simp [usesAll]
  | cons e rest ih => simp [usesAll, ih]

theorem mem_usesKeyed {es : List (String × Expr)} : n ∈ usesKeyed es ↔ ∃ e ∈ es.map Prod.snd, n ∈ e.uses := by
  induction es with
  | nil => simp [usesKeyed]
  | cons entry rest ih => simp [usesKeyed, ih]

theorem mem_usesOption {e : Option Expr} : n ∈ usesOption e ↔ ∃ part ∈ e.toList, n ∈ part.uses := by
  cases e <;> simp [usesOption]

theorem mem_uses_of_onlyParts {e : Expr} (parts : e.onlyParts = true) :
    n ∈ e.uses ↔ ∃ part ∈ e.children, n ∈ part.uses := by
  cases e with
  | var | comprehension => cases parts
  | lit | const => exact iff_of_false (OrdSet.not_mem_empty n) (by simp [children])
  | unary =>
    simp only [children, mem_singleton, exists_eq_left]
    rfl
  | call | context =>
    refine (mem_union.trans (or_congr mem_usesAll mem_usesKeyed)).trans ?_
    simp only [children, mem_append, or_and_right, exists_or]
  | _ =>
    simp only [children, mem_cons, mem_append, exists_eq_left, not_mem_nil, or_false, or_and_right, exists_or,
      ← mem_usesOption, ← or_assoc]
    simp only [← mem_usesAll, ← mem_union]
    rfl

theorem mem_uses_comprehension {node : Node} : n ∈ (comprehension node targets iterables elt).uses ↔
    (∃ e ∈ iterables, n ∈ e.uses) ∨ n ∈ elt.uses ∧ n ∉ Binder.nameSet targets :=
  mem_union.trans (or_congr mem_usesAll mem_diff)

theorem mem_vars_of_uses (e : Expr) : n ∈ e.uses → n ∈ e.vars := by
  induction e using byChildren with
  | step e ih =>
    have below : (∃ part ∈ e.children, n ∈ part.uses) → n ∈ e.vars := by
      rintro ⟨part, mem, used⟩
      obtain ⟨reader, inside, reads⟩ := mem_flatMap.mp (ih part mem used)
      refine mem_flatMap.mpr ⟨reader, ?_, reads⟩
      rw [all_eq]
      exact mem_cons_of_mem _ (mem_allOf mem inside)
    cases e with
    | var node name =>
      intro used
      cases OrdSet.mem_singleton.mp used
      exact mem_cons_self
    | comprehension node targets iterables elt =>
      intro used
      refine below ?_
      rcases mem_uses_comprehension.mp used with ⟨part, mem, used⟩ | ⟨used, _⟩
      · exact ⟨part, mem_append_left _ mem, used⟩
      · exact ⟨elt, mem_append_right _ mem_cons_self, used⟩
    | _ => exact fun used => below ((mem_uses_of_onlyParts rfl).mp used)

end Expr

theorem Block.liveIn_eq (b : Block) (out : NameSet) : b.liveIn out = Stmt.liveInAll b.stmts out := by
  cases b
  rfl

namespace Stmt

/-- A statement passes on no names that are not live after it. -/
theorem mem_liveInAll_of {P : Name → Prop} (stmts : List Stmt) : ∀ {a b : NameSet}, (∀ n ∈ b, n ∈ a ∨ P n) →
    ∀ n ∈ liveInAll stmts b, n ∈ liveInAll stmts a ∨ P n := by
  induction stmts using byBlocks with
  | nil => exact fun within => within
  | cons s rest head tail => exact fun within => head (tail within)
  | step s inner =>
    intro a b within n live
    have here := within n
    cases s with
    | branch _ test ift iff =>
      have first := inner ift mem_cons_self within n
      have second := inner iff (mem_cons_of_mem _ mem_cons_self) within n
      simp only [liveInAll, liveIn, Block.liveIn_eq, mem_union] at live ⊢
      grind
    | loop _ test body =>
      have tested : ∀ n ∈ b ∪ test.uses, n ∈ a ∪ test.uses ∨ P n := fun n => by
        have := within n
        simp only [mem_union]
        grind
      have deeper := inner body mem_cons_self tested n
      simp only [liveInAll, liveIn, Block.liveIn_eq, mem_union] at live deeper ⊢
      grind
    | when _ _ body | each _ _ _ body | scope _ _ _ body =>
      have deeper := inner body mem_cons_self within n
      simp only [liveInAll, liveIn, Block.liveIn_eq, mem_union, mem_diff] at live ⊢
      grind
    | _ =>
      simp only [liveInAll, liveIn, mem_union, mem_diff, OrdSet.mem_insert] at live ⊢
      grind

theorem mem_liveIn_of_uses {s : Stmt} {e : Expr} (mem : e ∈ s.exprs) (used : n ∈ e.uses) : n ∈ s.liveIn out := by
  cases s with
  | assert | store =>
    simp only [exprs, mem_append, mem_cons, Option.mem_toList] at mem
    simp only [liveIn, mem_union, Expr.mem_usesOption, Expr.mem_usesAll]
    grind
  | skip => cases mem
  | _ =>
    cases mem_singleton.mp mem
    simp [liveIn, used]

/-- What is live before a loop is live at the end of its body, and contains what the body needs then. -/
theorem liveIn_loop (node : Node) (test : Expr) (body : Block) (out : NameSet) :
    ∀ n ∈ body.liveIn ((loop node test body).liveIn out), n ∈ (loop node test body).liveIn out := by
  intro n live
  rw [body.liveIn_eq] at live
  have := mem_liveInAll_of (P := (· ∈ body.liveIn (out ∪ test.uses))) body.stmts (a := out ∪ test.uses)
    (fun n => mem_union.mp) n live
  simp only [liveIn, Block.liveIn_eq, mem_union] at this ⊢
  grind

theorem liveIn_each (node : Node) (target : Binder) (iterable : Expr) (body : Block) (out : NameSet) :
    ∀ n ∈ body.liveIn ((each node target iterable body).liveBodyOut out),
      n ∈ (each node target iterable body).liveBodyOut out ∨ n ∈ target.names := by
  intro n live
  rw [body.liveIn_eq] at live
  have := mem_liveInAll_of (P := (· ∈ body.liveIn out \ OrdSet.ofList target.names)) body.stmts (a := out)
    (fun n => mem_union.mp) n live
  simp only [liveBodyOut, Block.liveIn_eq, mem_union, mem_diff, mem_ofList] at this ⊢
  grind

end Stmt

namespace Flow

variable {env : Env} {e : Expr} {node : Node} {site : Site} {names : List Name} {records : List Record}

theorem exists_ofExprs : (∃ records, ofExprs env es = .ok records) ↔ ∀ e ∈ es, Scoped env e := by
  constructor
  · rintro ⟨records, walked⟩
    exact scoped_of_exprs walked
  · intro each
    induction es with
    | nil => exact ⟨[], rfl⟩
    | cons e rest ih =>
      obtain ⟨first, head⟩ := each e mem_cons_self
      obtain ⟨others, tail⟩ := ih fun part mem => each part (mem_cons_of_mem _ mem)
      exact ⟨first ++ others, by simp only [ofExprs, head, tail]; rfl⟩

theorem scoped_iff_children (parts : e.onlyParts = true) : Scoped env e ↔ ∀ part ∈ e.children, Scoped env part := by
  rw [← exists_ofExprs, Scoped, ofExpr_eq_ofExprs parts]

theorem scoped_var : Scoped env (.var node n) ↔ env.contains n = true := by
  by_cases held : env.contains n = true
  · exact ⟨fun _ => held, fun _ => ⟨[], if_pos held⟩⟩
  · refine ⟨?_, fun present => absurd present held⟩
    rintro ⟨_, walked⟩
    cases (if_neg held).symm.trans walked

theorem scoped_comprehension :
    Scoped env (.comprehension node targets iterables elt) ↔ (∀ e ∈ iterables, Scoped env e) ∧ checkAllDistinct node.id
    targets = .ok () ∧ Scoped (bound ⟨.comprehension, node.id⟩ (Binder.namesAll targets) env) elt := by
  rw [← exists_ofExprs]
  constructor
  · rintro ⟨records, walked⟩
    obtain ⟨outer, first, walked⟩ := bind_ok.mp walked
    obtain ⟨⟨⟩, distinct, walked⟩ := bind_ok.mp walked
    obtain ⟨inner, last, _⟩ := bind_ok.mp walked
    exact ⟨⟨outer, first⟩, distinct, inner, last⟩
  · rintro ⟨⟨outer, first⟩, distinct, inner, last⟩
    refine ⟨outer ++ made ⟨.comprehension, node.id⟩ (Binder.namesAll targets) env ++ inner, ?_⟩
    exact bind_ok.mpr ⟨outer, first, bind_ok.mpr ⟨(), distinct, bind_ok.mpr ⟨inner, last, rfl⟩⟩⟩

theorem isSome_get?_bindNames_of_mem (mem : n ∈ names) : ((bindNames site slot names env).1.get? n).isSome = true := by
  induction names generalizing slot env with
  | nil => cases mem
  | cons first rest ih =>
    by_cases later : n ∈ rest
    · exact ih later
    · cases (mem_cons.mp mem).resolve_right later
      have held : ((env.insert n (.binder site.node slot)).get? n).isSome = true := by simp
      exact (isSome_get?_bindNames held : ((bindNames site (slot + 1) rest _).1.get? n).isSome = true)

theorem contains_bound : (bound site names env).contains n = true ↔ n ∈ names ∨ env.contains n = true := by
  unfold bound OrdMap.contains
  constructor
  · intro present
    obtain ⟨p, found⟩ := isSome_iff_exists.mp present
    rcases bindNames_cases found with ⟨_, earlier⟩ | ⟨i, named, _⟩
    · exact .inr (by rw [earlier]; rfl)
    · exact .inl (mem_of_getElem? named)
  · rintro (mem | held)
    · exact isSome_get?_bindNames_of_mem mem
    · exact isSome_get?_bindNames held

theorem Scoped.contains (inScope : Scoped env e) : ∀ n ∈ e.uses, env.contains n = true := by
  induction e using Expr.byChildren generalizing env with
  | step e ih =>
    intro n used
    cases e with
    | var node name =>
      cases OrdSet.mem_singleton.mp used
      exact scoped_var.mp inScope
    | comprehension node targets iterables elt =>
      obtain ⟨outer, _, inner⟩ := scoped_comprehension.mp inScope
      rcases Expr.mem_uses_comprehension.mp used with ⟨part, mem, used⟩ | ⟨used, outside⟩
      · exact ih part (mem_append_left _ mem) (outer part mem) n used
      · have held := ih elt (mem_append_right _ mem_cons_self) inner n used
        exact (contains_bound.mp held).resolve_left fun mem => outside (mem_ofList.mpr mem)
    | _ =>
      obtain ⟨part, mem, used⟩ := (Expr.mem_uses_of_onlyParts rfl).mp used
      exact ih part mem ((scoped_iff_children rfl).mp inScope part mem) n used

theorem within_of_exprs (walked : ofExprs env es = .ok records) :
    ∀ e ∈ es, ∃ own, ofExpr env e = .ok own ∧ ∀ record ∈ own, record ∈ records := by
  induction es generalizing records with
  | nil => simp
  | cons first rest ih =>
    simp only [ofExprs, bind_ok] at walked
    obtain ⟨own, head, others, tail, result⟩ := walked
    cases result
    intro e mem
    rcases mem_cons.mp mem with rfl | later
    · exact ⟨own, head, fun _ => mem_append_left _⟩
    · obtain ⟨inner, walked, inside⟩ := ih tail e later
      exact ⟨inner, walked, fun record listed => mem_append_right _ (inside record listed)⟩

theorem ExprsWalk.recorded (walk : ExprsWalk env es records) :
    ∀ part ∈ Expr.allOf es, ∀ i n, part.binds[i]? = some n → ∃ prev,
      ⟨.binder part.id i, .assign n ⟨.comprehension, part.id⟩ prev⟩ ∈ records := by
  have single : ∀ {e part : Expr}, part ∈ Expr.allOf [e] → part = e ∨ part ∈ Expr.allOf e.children := by
    intro e part mem
    rwa [Expr.allOf, Expr.allOf, append_nil, Expr.all_eq, mem_cons] at mem
  induction walk with
  | nil => exact forall_mem_nil _
  | append _ _ early late =>
    intro part mem i n named
    rw [Expr.allOf_append] at mem
    rcases mem_append.mp mem with here | there
    · obtain ⟨prev, found⟩ := early part here i n named
      exact ⟨prev, mem_append_left _ found⟩
    · obtain ⟨prev, found⟩ := late part there i n named
      exact ⟨prev, mem_append_right _ found⟩
  | var =>
    intro part mem i n named
    cases mem_singleton.mp mem
    cases named
  | @parts _ e _ only _ ih =>
    intro part mem i n named
    rcases single mem with rfl | below
    · cases part with
      | comprehension => cases only
      | _ => cases named
    · exact ih part below i n named
  | comprehension _ _ rows inner =>
    intro part mem i n named
    rcases single mem with rfl | below
    · obtain ⟨prev, fresh⟩ := mem_made named
      rw [Nat.zero_add] at fresh
      exact ⟨prev, mem_append_left _ (mem_append_right _ fresh)⟩
    · rw [Expr.children, Expr.allOf_append] at below
      rcases mem_append.mp below with below | below
      · obtain ⟨prev, found⟩ := rows part below i n named
        exact ⟨prev, mem_append_left _ (mem_append_left _ found)⟩
      · obtain ⟨prev, found⟩ := inner part below i n named
        exact ⟨prev, mem_append_right _ found⟩

end Flow

namespace Uses

variable {reach : Reaching} {stmt : NodeId} {env : NameMap DefId} {us : List Use} {site : NodeId} {names : List Name}

theorem bindTargets_get? {inside : NameMap DefId} (bound : bindTargets reach site names env = .ok inside)
    (outside : n ∉ names) : inside.get? n = env.get? n := by
  induction names generalizing env with
  | nil =>
    cases bound
    rfl
  | cons first rest ih =>
    obtain ⟨differ, later⟩ := not_or.mp (mt mem_cons.mpr outside)
    unfold bindTargets at bound
    split at bound
    · rw [ih bound later, OrdMap.get?_insert, if_neg differ]
    · cases bound

theorem Lists.comprehension {node : Node} (listed : Lists reach stmt env us (.comprehension node targets iterables elt))
    : (∀ e ∈ iterables, Lists reach stmt env us e) ∧ ∃ inside, bindTargets reach node.id (Binder.namesAll targets) env =
    .ok inside ∧ Lists reach stmt inside us elt := by
  obtain ⟨own, resolved, inside⟩ := listed
  obtain ⟨outer, first, resolved⟩ := bind_ok.mp resolved
  obtain ⟨within, bound, resolved⟩ := bind_ok.mp resolved
  obtain ⟨inner, last, ⟨⟩⟩ := bind_ok.mp resolved
  exact ⟨lists_of_exprs first fun use found => inside use (mem_append_left _ found), within, bound, inner, last,
    fun use found => inside use (mem_append_right _ found)⟩

variable {e : Expr}

theorem Lists.use_of_mem (listed : Lists reach stmt env us e) : ∀ n ∈ e.uses, ∃ use ∈ us, use.site.stmt = stmt ∧
    env.get? n = some use.definition := by
  induction e using Expr.byChildren generalizing env with
  | step e ih =>
    intro n used
    cases e with
    | var node name =>
      cases OrdSet.mem_singleton.mp used
      obtain ⟨d, found, used⟩ := listed.var
      exact ⟨_, used, rfl, found⟩
    | comprehension node targets iterables elt =>
      obtain ⟨outer, within, bound, inner⟩ := listed.comprehension
      rcases Expr.mem_uses_comprehension.mp used with ⟨part, mem, used⟩ | ⟨used, outside⟩
      · exact ih part (mem_append_left _ mem) (outer part mem) n used
      · obtain ⟨use, found, own, same⟩ := ih elt (mem_append_right _ mem_cons_self) inner n used
        refine ⟨use, found, own, ?_⟩
        rwa [bindTargets_get? bound fun mem => outside (mem_ofList.mpr mem)] at same
    | _ =>
      obtain ⟨part, mem, used⟩ := (Expr.mem_uses_of_onlyParts rfl).mp used
      exact ih part mem (listed.child rfl mem) n used

theorem exists_ofExprs (each : ∀ e ∈ es, ∃ own, ofExpr reach stmt env e = .ok own) :
    ∃ own, ofExprs reach stmt env es = .ok own := by
  induction es with
  | nil => exact ⟨[], rfl⟩
  | cons e rest ih =>
    obtain ⟨first, head⟩ := each e mem_cons_self
    obtain ⟨others, tail⟩ := ih fun part mem => each part (mem_cons_of_mem _ mem)
    exact ⟨first ++ others, by simp only [ofExprs, head, tail]; rfl⟩

theorem exists_of_children (parts : e.onlyParts = true)
    (each : ∀ part ∈ e.children, ∃ own, ofExpr reach stmt env part = .ok own) :
    ∃ own, ofExpr reach stmt env e = .ok own := by
  obtain ⟨inner, row⟩ := exists_ofExprs each
  exact ⟨inner ++ ofCalls stmt env e, (ofExpr_eq_ofExprs reach stmt env parts).trans (bind_ok.mpr ⟨inner, row, rfl⟩)⟩

theorem exists_bindTargets (env : NameMap DefId) (defined : ∀ n ∈ names, (reach.defAt? site n).isSome = true) :
    ∃ inside, bindTargets reach site names env = .ok inside ∧ ∀ n, n ∈ names ∨ env.contains n = true → inside.contains n
      = true := by
  induction names generalizing env with
  | nil => exact ⟨env, rfl, fun n held => held.resolve_left nofun⟩
  | cons first rest ih =>
    obtain ⟨d, found⟩ := isSome_iff_exists.mp (defined first mem_cons_self)
    obtain ⟨inside, bound, held⟩ := ih (env.insert first d) fun n mem => defined n (mem_cons_of_mem _ mem)
    refine ⟨inside, by rw [bindTargets, found]; exact bound, fun n named => held n ?_⟩
    rw [OrdMap.contains, OrdMap.get?_insert]
    by_cases same : n = first
    · simp [same]
    · rw [if_neg same]
      exact named.imp_left fun mem => (mem_cons.mp mem).resolve_left same

/-- An expression is resolved where the names that it reads from outside have definitions, if those that it binds
have definitions, too. -/
theorem exists_ofExpr (held : ∀ n ∈ e.uses, env.contains n = true)
    (defined : ∀ part ∈ e.all, ∀ n ∈ part.binds, (reach.defAt? part.id n).isSome = true) :
    ∃ own, ofExpr reach stmt env e = .ok own := by
  induction e using Expr.byChildren generalizing env with
  | step e ih =>
    have below : ∀ child ∈ e.children, ∀ part ∈ child.all, ∀ n ∈ part.binds,
        (reach.defAt? part.id n).isSome = true := by
      intro child mem part inside
      refine defined part ?_
      rw [Expr.all_eq]
      exact mem_cons_of_mem _ (Expr.mem_allOf mem inside)
    cases e with
    | var node name =>
      obtain ⟨d, found⟩ := isSome_iff_exists.mp (held name (OrdSet.mem_singleton.mpr rfl))
      exact ⟨_, (by rw [resolve, found]; rfl : resolve env name ⟨node.id, stmt, .var⟩ = _)⟩
    | comprehension node targets iterables elt =>
      simp only [Expr.mem_uses_comprehension] at held
      obtain ⟨outer, first⟩ : ∃ own, ofExprs reach stmt env iterables = .ok own :=
        exists_ofExprs fun part mem => ih part (mem_append_left _ mem)
          (fun n used => held n (.inl ⟨part, mem, used⟩)) (below part (mem_append_left _ mem))
      obtain ⟨inside, bound, kept⟩ := exists_bindTargets env
        (defined (.comprehension node targets iterables elt) mem_cons_self)
      have covered : ∀ n ∈ elt.uses, inside.contains n = true := by
        refine fun n used => kept n ?_
        by_cases named : n ∈ Binder.namesAll targets
        · exact .inl named
        · exact .inr (held n (.inr ⟨used, fun listed => named (mem_ofList.mp listed)⟩))
      have mem : elt ∈ (Expr.comprehension node targets iterables elt).children := mem_append_right _ mem_cons_self
      obtain ⟨inner, last⟩ := ih elt mem covered (below elt mem)
      exact ⟨outer ++ inner, bind_ok.mpr ⟨outer, first, bind_ok.mpr ⟨inside, bound, bind_ok.mpr ⟨inner, last, rfl⟩⟩⟩⟩
    | _ =>
      refine exists_of_children rfl fun part mem => ih part mem (fun n used => ?_) (below part mem)
      exact held n ((Expr.mem_uses_of_onlyParts rfl).mpr ⟨part, mem, used⟩)

end Uses

namespace Reaching

open Flow

variable {f : Func} {notes : Notes} (survey : Survey f notes) (entry exit : Env)

include survey

theorem Survey.isSome_defAt? (recorded : ⟨.binder site i, .assign n ⟨kind, site⟩ prev⟩ ∈ notes.records) :
    ((ofNotes entry exit notes).defAt? site n).isSome = true := by
  have found := survey.def? entry exit recorded
  refine List.find?_isSome.mpr ⟨_, mem_select_iff.mpr ⟨_, found, ?_⟩, ?_⟩
  · simp [Definition.map, Definition.isJoin, Definition.site]
  · rw [found]
    simp [Definition.map, Definition.name]

theorem Survey.envAt?_point {s : Stmt} {before after : Env} {sub : Notes} (walk : StmtWalk before s after sub)
    (within : sub.Within notes) :
    (ofNotes entry exit notes).envAt? s.point = some (numberEnv notes.records (evalEnv before s)) := by
  have here : (ofNotes entry exit notes).envAt? (.stmt s.id) = some (numberEnv notes.records before) := by
    rw [envAt?, before?, survey.stmts? entry exit (within.stmts _ walk.noted)]
    rfl
  obtain ⟨_, _, arms, _, rfl⟩ := walk
  cases s with
  | loop =>
    obtain _ | ⟨inside, _⟩ := arms
    have opened := within.blocks _ ((Notes.Within.middle ..).blocks _ (mem_append_left _ inside.noted))
    rw [Stmt.point, envAt?, blockStart?, survey.blocks? entry exit opened]
    rfl
  | _ => exact here

/-- What a statement evaluates by itself is in scope in the environment at its point. -/
theorem Survey.evaluates {s : Stmt} (mem : s ∈ f.body.all) : ∃ env, (ofNotes entry exit notes).envAt? s.point = some
    (numberEnv notes.records env) ∧
    (∀ e ∈ s.exprs, ∃ records, ofExpr env e = .ok records ∧ ∀ record ∈ records, record ∈ notes.records) ∧ ∀ node name
    path value, s = .store node name path value → env.contains name = true := by
  obtain ⟨⟨before, after⟩, sub, _, (walk : StmtWalk before s after sub), part⟩ := survey.spans.visits s mem
  have here := survey.envAt?_point entry exit walk part.within
  obtain ⟨held, reads, _, rfl, rfl⟩ := walk
  refine ⟨evalEnv before s, here, fun e listed => ?_, ?_⟩
  · obtain ⟨own, walked, inside⟩ := within_of_exprs reads e listed
    exact ⟨own, walked, fun record mem => part.within.records record (by simp [inside record mem])⟩
  · rintro node name path value rfl
    exact held name mem_cons_self

end Reaching

namespace Uses

open Flow Reaching

variable {f : Func} {notes : Notes} {s : Stmt}

theorem envFor_of_located (survey : Survey f notes) (entry exit : Env) (mem : s ∈ f.body.all)
    (located : (ofNotes entry exit notes).envAt? s.point = some env) :
    envFor (ofNotes entry exit notes) s = .ok env := by
  obtain ⟨span, _, noted, _, _⟩ := survey.spans.visits s mem
  have seen : (ofNotes entry exit notes).before? s.id = some (numberEnv notes.records span.before) := by
    rw [before?, survey.stmts? entry exit noted]
    rfl
  cases s with
  | loop node test body =>
    have head : (ofNotes entry exit notes).blockStart? body.id = some env := located
    refine bind_ok.mpr ⟨_, by rw [envOf, show before? _ node.id = _ from seen]; rfl, ?_⟩
    rw [headOf, head]
    rfl
  | _ =>
    cases seen.symm.trans located
    rw [envFor, envOf, seen]
    · rfl
    · rintro _ _ _ ⟨⟩

/-- What a statement uses by itself is resolved in the environment at its point. -/
theorem exists_own (survey : Survey f notes) (entry exit : Env) (mem : s ∈ f.body.all) :
    ∃ env us stored, envFor (ofNotes entry exit notes) s = .ok env ∧ ofExprs (ofNotes entry exit notes) s.id env s.exprs
      = .ok us ∧ ofStored env s = .ok stored := by
  obtain ⟨env, located, evaluated, held⟩ := survey.evaluates entry exit mem
  have each : ∀ e ∈ s.exprs, ∃ own,
      ofExpr (ofNotes entry exit notes) s.id (numberEnv notes.records env) e = .ok own := by
    intro e listed
    obtain ⟨records, walked, within⟩ := evaluated e listed
    refine exists_ofExpr (fun n used => ?_) fun part inside n named => ?_
    · rw [numberEnv, OrdMap.contains_mapValues]
      exact Scoped.contains ⟨records, walked⟩ n used
    · obtain ⟨i, named⟩ := List.mem_iff_getElem?.mp named
      obtain ⟨prev, recorded⟩ := (walk_of_expr e walked).recorded part (by simpa [Expr.allOf] using inside) i n named
      exact survey.isSome_defAt? entry exit (within _ recorded)
  obtain ⟨us, resolved⟩ := exists_ofExprs each
  have stored : ∃ stored, ofStored (numberEnv notes.records env) s = .ok stored := by
    cases s with
    | store node name path value =>
      have present := held node name path value rfl
      rw [← OrdMap.contains_mapValues] at present
      obtain ⟨d, found⟩ := isSome_iff_exists.mp present
      exact ⟨_, by rw [ofStored, resolve, show OrdMap.get? (numberEnv _ env) name = _ from found]; rfl⟩
    | _ => exact ⟨[], rfl⟩
  obtain ⟨stored, written⟩ := stored
  exact ⟨_, us, stored, envFor_of_located survey entry exit mem located, resolved, written⟩

theorem exists_blocks {reach : Reaching} {blocks : List Block}
    (each : ∀ b ∈ blocks, ∃ us, ofStmts reach b.stmts = .ok us) :
    ∃ us, ofStmts reach (blocks.flatMap Block.stmts) = .ok us := by
  induction blocks with
  | nil => exact ⟨[], rfl⟩
  | cons b rest ih =>
    obtain ⟨first, head⟩ := each b mem_cons_self
    obtain ⟨others, tail⟩ := ih fun b later => each b (mem_cons_of_mem _ later)
    rw [flatMap_cons, ofStmts_append]
    exact ⟨first ++ others, bind_ok.mpr ⟨first, head, bind_ok.mpr ⟨others, tail, rfl⟩⟩⟩

theorem exists_ofStmts (survey : Survey f notes) (entry exit : Env) (stmts : List Stmt) :
    (∀ part ∈ Stmt.allOf stmts, part ∈ f.body.all) → ∃ us, ofStmts (ofNotes entry exit notes) stmts = .ok us := by
  induction stmts using Stmt.byBlocks with
  | nil => exact fun _ => ⟨[], rfl⟩
  | cons s rest first later =>
    intro within
    obtain ⟨own, head⟩ := first fun part mem => within part (by simp_all [Stmt.allOf])
    obtain ⟨others, tail⟩ := later fun part mem => within part (mem_append_right _ mem)
    rw [← singleton_append, ofStmts_append]
    exact ⟨own ++ others, bind_ok.mpr ⟨own, head, bind_ok.mpr ⟨others, tail, rfl⟩⟩⟩
  | step s inner =>
    intro within
    rw [Stmt.allOf, Stmt.allOf, append_nil, s.all_eq, forall_mem_cons] at within
    obtain ⟨env, us, stored, found, evaluated, written⟩ := exists_own survey entry exit within.1
    obtain ⟨below, inside⟩ := exists_blocks fun b mem => inner b mem fun part here =>
      within.2 part (mem_flatMap.mpr ⟨b, mem, b.all_eq ▸ here⟩)
    have whole : ofStmt (ofNotes entry exit notes) s = .ok (us ++ stored ++ below) := by
      rw [ofStmt_eq]
      exact bind_ok.mpr ⟨env, found, bind_ok.mpr ⟨us, evaluated, bind_ok.mpr ⟨stored, written,
        bind_ok.mpr ⟨below, inside, rfl⟩⟩⟩⟩
    exact ⟨_, bind_ok.mpr ⟨_, whole, bind_ok.mpr ⟨[], rfl, rfl⟩⟩⟩

theorem exists_of_reaching (distinct : f.ids.Nodup) (analysed : Reaching.ofFunc f = .ok r) :
    ∃ u, Uses.ofFunc f = .ok u := by
  obtain ⟨exit, notes, survey, rfl⟩ := survey_of_func distinct analysed
  obtain ⟨us, resolved⟩ := exists_ofStmts survey (entryOf f) exit f.body.stmts fun part mem => f.body.all_eq ▸ mem
  exact ⟨⟨_, us⟩, bind_ok.mpr ⟨_, analysed, bind_ok.mpr ⟨us, ofBlock_eq f.body ▸ resolved, rfl⟩⟩⟩

end Uses

end NumLang
