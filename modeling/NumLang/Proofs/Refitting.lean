import NumLang.Proofs.Upkeep

/-!
Rebuilding that treats expressions.
-/

namespace NumLang

/-! ### What is put together again -/

/-- An expression that has others, related to its own, in the places of its parts. -/
structure Expr.Refit (Q : Expr → Expr → Prop) (e e' : Expr) : Prop where
  parts : Forall₂ Q e.children e'.children
  onlyParts : e'.onlyParts = e.onlyParts
  formed : e.Formed → e'.Formed
  callee : e'.callee? = e.callee?
  layout : (∀ part part', Q part part' → part'.layout = part.layout) → e'.layout = e.layout
  var : ∀ node n, e = .var node n → e' = e
  comprehension : ∀ node targets iterables elt, e = .comprehension node targets iterables elt →
    ∃ iterables' elt', e' = .comprehension node targets iterables' elt' ∧ Forall₂ Q iterables iterables' ∧ Q elt elt'

namespace Expr

variable {e : Expr} {more : Name → Prop}

theorem Refit.imp (refit : e.Refit Q e') (weaker : ∀ part part', Q part part' → Q' part part') : e.Refit Q' e' := by
  refine ⟨refit.parts.imp weaker, refit.onlyParts, refit.formed, refit.callee, fun each => ?_, refit.var, ?_⟩
  · exact refit.layout fun part part' here => each part part' (weaker part part' here)
  · intro node targets iterables elt same
    obtain ⟨iterables', elt', built, rows, element⟩ := refit.comprehension node targets iterables elt same
    exact ⟨iterables', elt', built, rows.imp weaker, weaker elt elt' element⟩

theorem layouts_eq (each : Forall₂ (fun e e' => e'.layout = e.layout) es es') :
    layouts es' = layouts es := by
  induction each with
  | nil => rfl
  | cons first _ ih => rw [layouts, layouts, first, ih]

theorem Rebuilt.comprehension {node : Node} {rows : List Expr}
    (rebuilt : (Expr.comprehension node targets rows elt).Rebuilt e') :
    ∃ rows' elt', rows.length = rows'.length ∧ e' = .comprehension node targets rows' elt' :=
  ⟨_, _, by rw [List.length_dropLast, rebuilt.count]; simp [children], rebuilt.filled.symm⟩

theorem Rebuilt.formed (rebuilt : e.Rebuilt e') (formed : e.Formed) : e'.Formed := by
  cases e with
  | compare => exact rebuilt.filled ▸ formed.trans rebuilt.count.symm
  | comprehension =>
    obtain ⟨_, _, same, rfl⟩ := rebuilt.comprehension
    exact ⟨formed.1.trans same, formed.2⟩
  | _ =>
    rw [← rebuilt.filled]
    rcases e'.children with _ | ⟨_, _ | ⟨_, _ | ⟨_, _ | _⟩⟩⟩ <;> trivial

theorem Rebuilt.refit (rebuilt : e.Rebuilt e') (parts : Forall₂ Q e.children e'.children) : e.Refit Q e' := by
  refine ⟨parts, rebuilt.onlyParts, rebuilt.formed, rebuilt.callee, fun each => ?_, ?_, ?_⟩
  · cases e with
    | tuple => exact rebuilt.filled ▸ congrArg Binder.tuple (layouts_eq (parts.imp each))
    | _ => exact rebuilt.of_fill fun es => by rcases es with _ | ⟨_, _ | ⟨_, _ | ⟨_, _ | _⟩⟩⟩ <;> rfl
  · rintro node n rfl
    exact rebuilt.filled.symm
  · rintro node targets iterables elt rfl
    obtain ⟨_, _, same, rfl⟩ := rebuilt.comprehension
    obtain ⟨rows, element⟩ := forall₂_split same parts
    exact ⟨_, _, rfl, rows, (forall₂_cons.mp element).1⟩

theorem exists_of_related {here : Expr → Prop} {more : Prop} (related : Forall₂ Q es es')
    (each : ∀ part part', Q part part' → here part' → here part ∨ more) (found : ∃ part' ∈ es', here part') :
    (∃ part ∈ es, here part) ∨ more := by
  obtain ⟨part', listed, inside⟩ := found
  obtain ⟨part, mem, relates⟩ := exists_of_forall₂ related part' listed
  exact (each part part' relates inside).imp_left fun inside => ⟨part, mem, inside⟩

theorem Refit.uses (refit : e.Refit Q e') (each : ∀ part part', Q part part' → ∀ n ∈ part'.uses, n ∈ part.uses ∨ more n)
    : ∀ n ∈ e'.uses, n ∈ e.uses ∨ more n := by
  intro n used
  have among : ∀ part part', Q part part' → n ∈ part'.uses → n ∈ part.uses ∨ more n :=
    fun part part' related => each part part' related n
  cases parts : e.onlyParts with
  | true =>
    rw [mem_uses_of_onlyParts (refit.onlyParts.trans parts)] at used
    rw [mem_uses_of_onlyParts parts]
    exact exists_of_related refit.parts among used
  | false =>
    cases e with
    | var node name =>
      rw [refit.var node name rfl] at used
      exact .inl used
    | comprehension node targets iterables elt =>
      obtain ⟨iterables', elt', rfl, rows, element⟩ := refit.comprehension node targets iterables elt rfl
      rw [mem_uses_comprehension] at used ⊢
      rcases used with outer | ⟨inner, outside⟩
      · exact (exists_of_related rows among outer).imp_left .inl
      · exact (each elt elt' element n inner).imp_left fun inside => .inr ⟨inside, outside⟩
    | _ => cases parts

theorem Refit.own (refit : e.Refit Q e') : e'.reads = e.reads ∧ e'.binds = e.binds := by
  have none : ∀ {e : Expr}, e.onlyParts = true → e.reads = [] ∧ e.binds = [] := fun {e} parts => by
    cases e with
    | var | comprehension => cases parts
    | _ => exact ⟨rfl, rfl⟩
  cases e with
  | var node name => rw [refit.var node name rfl]; exact ⟨rfl, rfl⟩
  | comprehension node targets iterables elt =>
    obtain ⟨_, _, rfl, _⟩ := refit.comprehension node targets iterables elt rfl
    exact ⟨rfl, rfl⟩
  | _ => exact none refit.onlyParts

theorem Refit.mentions (refit : e.Refit Q e')
    (each : ∀ part part', Q part part' → ∀ n ∈ part'.mentions, n ∈ part.mentions ∨ more n) :
    ∀ n ∈ e'.mentions, n ∈ e.mentions ∨ more n := by
  intro n used
  rw [mem_mentions, refit.own.1, refit.own.2] at used
  rw [mem_mentions]
  rcases used with read | bound | below
  · exact .inl (.inl read)
  · exact .inl (.inr (.inl bound))
  · have kept := exists_of_related refit.parts (fun part part' related => each part part' related n) below
    exact kept.imp_left fun here => .inr (.inr here)

theorem mem_vars : n ∈ e.vars ↔ n ∈ e.reads ∨ ∃ part ∈ e.children, n ∈ part.vars := by
  simp only [vars, mem_flatMap]
  rw [all_eq]
  simp only [mem_cons, mem_allOf_iff, or_and_right, exists_or, exists_eq_left]
  refine or_congr Iff.rfl ⟨?_, ?_⟩
  · rintro ⟨inner, ⟨part, listed, inside⟩, read⟩
    exact ⟨part, listed, inner, inside, read⟩
  · rintro ⟨part, listed, inner, inside, read⟩
    exact ⟨inner, ⟨part, listed, inside⟩, read⟩

theorem Refit.vars (refit : e.Refit Q e') (each : ∀ part part', Q part part' → ∀ n ∈ part'.vars, n ∈ part.vars ∨ more n)
    : ∀ n ∈ e'.vars, n ∈ e.vars ∨ more n := by
  intro n read
  rw [mem_vars, refit.own.1] at read
  rw [mem_vars]
  rcases read with own | below
  · exact .inl (.inl own)
  · exact (exists_of_related refit.parts (fun part part' related => each part part' related n) below).imp_left .inr

theorem Refit.wellMade (refit : e.Refit Q e') (each : ∀ part part', Q part part' → part.WellMade → part'.WellMade)
    (made : e.WellMade) : e'.WellMade := by
  obtain ⟨formed, inner⟩ := wellMade_iff.mp made
  refine wellMade_iff.mpr ⟨refit.formed formed, fun part' listed => ?_⟩
  obtain ⟨part, mem, here⟩ := exists_of_forall₂ refit.parts part' listed
  exact each part part' here (inner part mem)

end Expr

/-- A statement with other expressions and blocks in the places of its own. -/
inductive Stmt.Refit (Q : Expr → Expr → Prop) (B : Block → Block → Prop) : Stmt → Stmt → Prop where
  | assign {node target ann value value'} (own : Q value value') :
    Refit Q B (.assign node target ann value) (.assign node target ann value')
  | store {node name path path' value value'} (places : Forall₂ Q path path') (own : Q value value') :
    Refit Q B (.store node name path value) (.store node name path' value')
  | when {node test test' body body'} (own : Q test test') (inner : B body body') :
    Refit Q B (.when node test body) (.when node test' body')
  | branch {node test test' ift ift' iff iff'} (own : Q test test') (left : B ift ift') (right : B iff iff') :
    Refit Q B (.branch node test ift iff) (.branch node test' ift' iff')
  | loop {node test test' body body'} (own : Q test test') (inner : B body body') :
    Refit Q B (.loop node test body) (.loop node test' body')
  | each {node target iterable iterable' body body'} (own : Q iterable iterable') (inner : B body body') :
    Refit Q B (.each node target iterable body) (.each node target iterable' body')
  | scope {node name ctx ctx' body body'} (own : Q ctx ctx') (inner : B body body') :
    Refit Q B (.scope node name ctx body) (.scope node name ctx' body')
  | assert {node test test' message message'} (own : Q test test')
    (told : Forall₂ Q message.toList message'.toList) :
    Refit Q B (.assert node test message) (.assert node test' message')
  | effect {node value value'} (own : Q value value') : Refit Q B (.effect node value) (.effect node value')
  | ret {node value value'} (own : Q value value') : Refit Q B (.ret node value) (.ret node value')
  | skip {node} : Refit Q B (.skip node) (.skip node)

theorem Stmt.Rebuilt.refit {s s' : Stmt} (rebuilt : s.Rebuilt s') (own : Forall₂ Q s.exprs s'.exprs)
    (inner : Forall₂ B s.blocks s'.blocks) : s.Refit Q B s' := by
  cases rebuilt with
  | skip => exact .skip
  | store same =>
    obtain ⟨places, last⟩ := forall₂_split same own
    exact .store places (forall₂_cons.mp last).1
  | assert => exact .assert (forall₂_cons.mp own).1 (forall₂_cons.mp own).2
  | branch =>
    obtain ⟨left, rest⟩ := forall₂_cons.mp inner
    exact .branch (forall₂_cons.mp own).1 left (forall₂_cons.mp rest).1
  | assign | effect | ret =>
    obtain ⟨own, _⟩ := forall₂_cons.mp own
    constructor
    exact own
  | when | loop | each | scope =>
    obtain ⟨own, _⟩ := forall₂_cons.mp own
    obtain ⟨inner, _⟩ := forall₂_cons.mp inner
    constructor
    · exact own
    · exact inner

namespace Stmt.Refit

variable {s s' : Stmt}

variable (refit : s.Refit Q B s')

include refit

theorem same : s'.id = s.id ∧ s'.binds = s.binds ∧ s'.reads = s.reads ∧ s'.inside = s.inside := by
  cases refit <;> exact ⟨rfl, rfl, rfl, rfl⟩

theorem imp (weaker : ∀ b b', B b b' → B' b b') : s.Refit Q B' s' := by
  cases refit <;> constructor <;> first | assumption | exact weaker _ _ ‹_›

theorem exprs : Forall₂ Q s.exprs s'.exprs := by
  cases refit with
  | store places own => exact rel_append places (.cons own .nil)
  | assert own told => exact .cons own told
  | skip => exact .nil
  | _ =>
    rename_i own
    exact .cons (by assumption) .nil

theorem blocks : Forall₂ B s.blocks s'.blocks := by
  cases refit with
  | branch _ left right => exact .cons left (.cons right .nil)
  | when _ inner | loop _ inner | each _ inner | scope _ inner => exact .cons inner .nil
  | _ => exact .nil

theorem bound (layout : ∀ e e', Q e e' → e'.layout = e.layout) (bound : s.Bound) : s'.Bound := by
  cases refit with
  | assign own => exact ⟨bound.1, layout _ _ own ▸ bound.2⟩
  | each => exact bound
  | _ => trivial

theorem defines (each : ∀ b b', B b b' → ∀ n ∈ definesAll b.stmts, n ∈ definesAll b'.stmts) : ∀ n ∈ s.defines, n ∈ s'.defines := by
  intro n here
  cases refit with
  | branch _ left right =>
    rw [Stmt.defines, mem_inter, Block.defines_eq, Block.defines_eq] at here ⊢
    exact ⟨each _ _ left n here.1, each _ _ right n here.2⟩
  | scope _ inner =>
    rw [Stmt.defines, mem_union, Block.defines_eq] at here ⊢
    exact here.imp_right (each _ _ inner n)
  | _ => exact here

end Stmt.Refit

/-! ### Reading more names -/

/-- An expression that is as well made as another and reads no names from outside but what the other reads, and some
more. -/
structure Expr.Extends (more : Name → Prop) (e e' : Expr) : Prop where
  made : e.WellMade → e'.WellMade
  uses : ∀ n ∈ e'.uses, n ∈ e.uses ∨ more n
  layout : e'.layout = e.layout

/-- An expression that extends another and mentions no names but what the other mentions, and known ones. -/
structure Expr.Draws (more known : Name → Prop) (e e' : Expr) : Prop extends e.Extends more e' where
  mentions : ∀ n ∈ e'.mentions, n ∈ e.mentions ∨ known n

/-- Statements that are as well made as others, define what they define and need no names but what the others need, and
some more. -/
structure Stmt.Extends (more : Name → Prop) (stmts out : List Stmt) : Prop where
  made : WellMade stmts → WellMade out
  needs : ∀ n ∈ needsAll out, n ∈ needsAll stmts ∨ more n
  defines : ∀ n ∈ definesAll stmts, n ∈ definesAll out
  filled : stmts ≠ [] → out ≠ []

section Extends

variable {e : Expr}

theorem Expr.Extends.mono (extends_ : e.Extends more e') (wider : ∀ n, more n → most n) : e.Extends most e' :=
  ⟨extends_.made, fun n used => (extends_.uses n used).imp_right (wider n), extends_.layout⟩

theorem Expr.Refit.extends (refit : e.Refit (Expr.Extends more) e') : e.Extends more e' :=
  ⟨refit.wellMade fun _ _ part => part.made, refit.uses fun _ _ part => part.uses, refit.layout fun _ _ part => part.layout⟩

namespace Expr

theorem Draws.mono (draws : e.Draws more known e') (wider : ∀ n, more n → most n) (also : ∀ n, known n → others n) :
    e.Draws most others e' :=
  ⟨draws.toExtends.mono wider, fun n here => (draws.mentions n here).imp_right (also n)⟩

theorem Draws.refl (e : Expr) : e.Draws more known e :=
  ⟨⟨fun made => made, fun _ => .inl, rfl⟩, fun _ => .inl⟩

theorem Refit.draws (refit : e.Refit (Expr.Draws more known) e') : e.Draws more known e' :=
  ⟨(refit.imp fun _ _ part => part.toExtends).extends, refit.mentions fun _ _ part => part.mentions⟩

theorem Draws.stands (draws : e.Draws more known e') (stands : e.Stands used defined) (grows : ∀ n ∈ used, n ∈ taken)
    (also : ∀ n, known n → n ∈ taken) : e'.Stands taken fun n => defined n ∨ more n :=
  ⟨draws.made stands.made, fun n here => (draws.uses n here).imp_left (stands.uses n),
    fun n here => (draws.mentions n here).elim (fun same => grows n (stands.known n same)) (also n)⟩

end Expr

namespace Stmt

variable {s : Stmt}

theorem Extends.mono (extends_ : Extends more stmts out) (wider : ∀ n, more n → most n) : Extends most stmts out :=
  ⟨extends_.made, fun n need => (extends_.needs n need).imp_right (wider n), extends_.defines, extends_.filled⟩

theorem Extends.nil : Extends more [] [] := ⟨fun made => made, fun _ need => .inl need, fun _ here => here, fun some => some⟩

theorem Extends.cons (first : Extends more [s] out) (later : Extends more rest others) :
    Extends more (s :: rest) (out ++ others) := by
  refine ⟨fun made => ?_, fun n need => ?_, fun n here => ?_, fun _ empty => ?_⟩
  · obtain ⟨own, inner⟩ := wellMade_cons.mp made
    exact wellMade_append.mpr ⟨first.made own, later.made inner⟩
  · rw [← singleton_append, mem_needsAll_append]
    rcases mem_needsAll_append.mp need with need | ⟨need, late⟩
    · exact (first.needs n need).imp_left .inl
    · exact (later.needs n need).imp_left fun need => .inr ⟨need, fun early => late (first.defines n early)⟩
  · rw [← singleton_append, mem_definesAll_append] at here
    exact mem_definesAll_append.mpr (here.imp (first.defines n) (later.defines n))
  · exact first.filled (cons_ne_nil _ _) (List.append_eq_nil_iff.mp empty).1

theorem inside_of (s : Stmt) (here : defined n) : s.inside defined n := by
  cases s with
  | each | scope => exact .inr here
  | _ => exact here

theorem inside_mono (s : Stmt) (more : ∀ n, defined n → wider n) (here : s.inside defined n) : s.inside wider n := by
  cases s with
  | each | scope => exact here.imp_right (more n)
  | _ => exact more n here

/-- A statement with other expressions and blocks extends the one that it comes from if they do. -/
theorem Refit.extends (refit : s.Refit (Expr.Extends more) (fun b b' => Extends more b.stmts b'.stmts) s') :
    Extends more [s] [s'] := by
  obtain ⟨_, binds, reads, start⟩ := refit.same
  refine ⟨fun made => ?_, fun n need => ?_, fun n here => ?_, fun _ => cons_ne_nil _ _⟩
  · obtain ⟨formed, inner⟩ := wellMade_single.mp made
    refine wellMade_single.mpr ⟨⟨binds ▸ formed.names, fun e' listed => ?_,
      refit.bound (fun _ _ part => part.layout) formed.bound, fun b' listed => ?_⟩, fun b' listed => ?_⟩
    · obtain ⟨e, mem, extended⟩ := exists_of_forall₂ refit.exprs e' listed
      exact extended.made (formed.exprs e mem)
    · obtain ⟨b, mem, extended⟩ := exists_of_forall₂ refit.blocks b' listed
      exact extended.filled (formed.blocks b mem)
    · obtain ⟨b, mem, extended⟩ := exists_of_forall₂ refit.blocks b' listed
      exact extended.made (inner b mem)
  · obtain ⟨held, own, deeper⟩ := (@needs_iff (fun n => n ∈ s.needs ∨ more n) s).mp fun n need => .inl need
    have needed := (@needs_iff (fun n => n ∈ s.needs ∨ more n) s').mpr ⟨reads ▸ held, fun e' listed n used => ?_,
      fun b' listed n need => ?_⟩
    · rw [mem_needsAll_single]
      exact needed n (mem_needsAll_single.mp need)
    · obtain ⟨e, mem, extended⟩ := exists_of_forall₂ refit.exprs e' listed
      exact (extended.uses n used).elim (own e mem n) .inr
    · obtain ⟨b, mem, extended⟩ := exists_of_forall₂ refit.blocks b' listed
      rw [start]
      rcases extended.needs n need with need | extra
      · exact deeper b mem n need
      · exact inside_of s (.inr extra)
  · rw [mem_definesAll_single] at here ⊢
    exact refit.defines (fun _ _ part => part.defines) n here

end Stmt

end Extends

/-! ### How it is put together -/

namespace Rebuild

variable {m : Type → Type} [Monad m] {S : Type} {logic : Logic m S} {hooks : Rebuild m} {further : S → S → Prop}
  {P : Expr → Prop} {Q : S → Expr → Expr → Prop}

/-- Names stay as they are, and expressions become what is known of them if their parts do. -/
structure Refits (logic : Logic m S) (hooks : Rebuild m) (further : S → S → Prop) (P : Expr → Prop)
    (Q : S → Expr → Expr → Prop) : Prop where
  refl : ∀ s, further s s
  trans : ∀ {s t u}, further s t → further t u → further s u
  mono : ∀ {s t e e'}, further s t → Q s e e' → Q t e e'
  name : ∀ n, hooks.name n = pure n
  expr : ∀ {s e usual}, P e → ((∀ part ∈ e.children, P part) →
      logic.leads s usual fun e' t => further s t ∧ e.Refit (Q t) e') →
    logic.leads s (hooks.expr e usual) fun e' t => further s t ∧ Q t e e'

variable {s : S}

theorem Refits.monoAll (refits : Refits logic hooks further P Q) (went : further s t) (each : Forall₂ (Q s) es es') :
    Forall₂ (Q t) es es' :=
  each.imp fun _ _ => refits.mono went

theorem Refits.threads (refits : Refits logic hooks further P Q) :
    Threads logic hooks P fun s t es es' => further s t ∧ Forall₂ (Q t) es es' where
  name := refits.name
  nil s := ⟨refits.refl s, .nil⟩
  append first second := ⟨refits.trans first.1 second.1, rel_append (refits.monoAll second.1 first.2) second.2⟩
  length made := made.2.length_eq
  expr here inside s := by
    refine logic.imp (refits.expr here fun below => logic.imp (inside below s) ?_) ?_
    · exact fun e' t ⟨rebuilt, went, parts⟩ => ⟨went, rebuilt.refit parts⟩
    · exact fun e' t ⟨went, made⟩ => ⟨went, .cons made .nil⟩

theorem leads_onExpr [LawfulMonad m] (refits : Refits logic hooks further P Q) (e : Expr) (here : P e) :
    logic.leads s (hooks.onExpr e) fun e' t => further s t ∧ Q t e e' :=
  logic.imp (threads_onExpr refits.threads e here s) fun _ _ ⟨went, made⟩ => ⟨went, (forall₂_cons.mp made).1⟩

/-- Statements and blocks become what is known of them if the expressions and statements in them do. -/
structure Reworks (logic : Logic m S) (hooks : Rebuild m) (further : S → S → Prop) (Q : S → Expr → Expr → Prop)
    (B : S → Block → Block → Prop) (R : S → List Stmt → List Stmt → Prop) : Prop
    extends Refits logic hooks further (fun _ => True) Q where
  monoBlock : ∀ {s t b b'}, further s t → B s b b' → B t b b'
  monoRow : ∀ {s t stmts out}, further s t → R s stmts out → R t stmts out
  nil : ∀ s, R s [] []
  cons : ∀ {s st rest out others}, R s [st] out → R s rest others → R s (st :: rest) (out ++ others)
  stmt : ∀ {s st usual}, (logic.leads s usual fun st' t => further s t ∧ st.Refit (Q t) (B t) st') →
    logic.leads s (hooks.stmt st usual) fun out t => further s t ∧ R t [st] out
  block : ∀ {s b usual}, (logic.leads s usual fun b' t => further s t ∧ R t b.stmts b'.stmts) →
    logic.leads s (hooks.block b usual) fun b' t => further s t ∧ B t b b'

theorem Reworks.weaves [LawfulMonad m] (reworks : Reworks logic hooks further Q B R) : Weaves logic hooks
    (fun s t es es' => further s t ∧ Forall₂ (Q t) es es')
    (fun s t bs bs' => further s t ∧ Forall₂ (B t) bs bs') (fun s t stmts out => further s t ∧ R t stmts out) where
  toChains := reworks.threads.toChains
  onExpr e := threads_onExpr reworks.threads e trivial
  noBlocks s := ⟨reworks.refl s, .nil⟩
  blocks first second :=
    ⟨reworks.trans first.1 second.1, rel_append (first.2.imp fun _ _ => reworks.monoBlock second.1) second.2⟩
  noStmts s := ⟨reworks.refl s, reworks.nil s⟩
  stmts first second := ⟨reworks.trans first.1 second.1, reworks.cons (reworks.monoRow second.1 first.2) second.2⟩
  stmt inside s := by
    refine reworks.stmt (logic.imp (inside s) ?_)
    exact fun st' u ⟨rebuilt, t, ⟨went, own⟩, later, inner⟩ =>
      ⟨reworks.trans went later, rebuilt.refit (reworks.monoAll later own) inner⟩
  block inside s := by
    refine logic.imp (reworks.block (logic.imp (inside s) fun b' t facts => facts.2)) ?_
    exact fun b' t ⟨went, made⟩ => ⟨went, .cons made .nil⟩

theorem leads_onBlock [LawfulMonad m] (reworks : Reworks logic hooks further Q B R) (b : Block) :
    logic.leads s (hooks.onBlock b) fun b' t => further s t ∧ B t b b' :=
  logic.imp (weaves_onBlock reworks.weaves b s) fun _ _ ⟨went, made⟩ => ⟨went, (forall₂_cons.mp made).1⟩

end Rebuild

/-! ### Edits -/

namespace Edit

def logic : Logic Edit NameSupply where
  leads := Leads
  pure := leads_pure
  bind := leads_bind
  imp leads stronger := leads.imp stronger

theorem leads_logic :
    logic.leads names x post ↔ Leads names x post := Iff.rfl

/-- What edits lead to that keep something else in addition. -/
def logicWith (σ : Type) : Logic (StateT σ Edit) (NameSupply × σ) where
  leads s x post := Leads s.1 (x.run s.2) fun made more => post made.1 (more, made.2)
  pure here := leads_pure here
  bind first := leads_bind first
  imp leads stronger := leads.imp fun _ _ => stronger _ _

section With

variable {σ α : Type}

theorem leads_run {x : StateT σ Edit α} (here : (logicWith σ).leads s x post) :
    Leads s.1 (x.run s.2) fun made more => post made.1 (more, made.2) :=
  here

theorem leadsWith_get {post : σ → NameSupply × σ → Prop} (here : post s.2 s) : (logicWith σ).leads s get post := by
  change Leads s.1 (pure (s.2, s.2)) fun made more => post made.1 (more, made.2)
  exact leads_pure here

theorem leadsWith_modify {post : Unit → NameSupply × σ → Prop} (here : post () (s.1, f s.2)) :
    (logicWith σ).leads s (modify f) post := by
  change Leads s.1 (pure ((), f s.2)) fun made more => post made.1 (more, made.2)
  exact leads_pure here

theorem leadsWith_lift (first : Leads s.1 x fun a more => post a (more, s.2)) :
    (logicWith σ).leads s (liftM x) post := by
  change Leads s.1 (x >>= fun a => pure (a, s.2)) fun made more => post made.1 (more, made.2)
  exact leads_bind (first.imp fun _ _ here => leads_pure here)

end With

end Edit

end NumLang
