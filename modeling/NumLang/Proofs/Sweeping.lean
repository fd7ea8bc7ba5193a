import NumLang.Proofs.DeadCodeSound
import NumLang.Proofs.Refitting

/-!
Sweeping out dead code keeps what is left in scope.
-/

namespace NumLang

variable {after env : Flow.Env} {sub : Flow.Notes}

namespace Flow

open Reaching Stmt

theorem Notes.Within.single {a b : Notes} (within : a.Within b) : (a ++ {}).Within b :=
  ⟨forall_mem_append.mpr ⟨within.records, forall_mem_nil _⟩, forall_mem_append.mpr ⟨within.stmts, forall_mem_nil _⟩,
    forall_mem_append.mpr ⟨within.blocks, forall_mem_nil _⟩⟩

/-! ### Names that stay -/

def Stays (K : Name → Place → Prop) (env : Env) (n : Name) : Prop := ∃ p, env.get? n = some p ∧ K n p

def Traces (K : Name → Place → Prop) (after env : Env) : Prop :=
  ∀ n p, after.get? n = some p → K n p → ∃ q, env.get? n = some q ∧ K n q

section Stays

variable {after : Env} {names : List Name}

theorem Stays.of_traces (traces : Traces K after env) (stays : Stays K after n) : Stays K env n := by
  obtain ⟨p, found, kept⟩ := stays
  exact traces n p found kept

theorem Stays.of_bound (stays : Stays K (bound site names env) n) : n ∈ names ∨ Stays K env n := by
  obtain ⟨p, found, kept⟩ := stays
  rcases bindNames_cases found with ⟨_, earlier⟩ | ⟨i, named, _⟩
  · exact .inr ⟨p, earlier, kept⟩
  · exact .inl (mem_of_getElem? named)

theorem Stays.of_unbound (stays : Stays K (bound site names env) n)
    (dead : ∀ i n, names[i]? = some n → ¬ K n (.binder site.node i)) : Stays K env n := by
  obtain ⟨p, found, kept⟩ := stays
  rcases bindNames_cases found with ⟨_, earlier⟩ | ⟨i, named, rfl⟩
  · exact ⟨p, earlier, kept⟩
  · rw [Nat.zero_add] at kept
    exact absurd kept (dead i n named)

end Stays

section Joins

variable {K : Name → Place → Prop} {site : NodeId} {records : List Record}

def KeepsJoins (K : Name → Place → Prop) (records : List Record) : Prop :=
  ∀ n site lhs rhs, ⟨.join site n, .join n site lhs rhs⟩ ∈ records → K n (.join site n) → K n lhs ∧ K n rhs

variable (joins : KeepsJoins K records)

include joins

theorem traces_from (origin : From site own [env] after) (recorded : ∀ r ∈ own, r ∈ records) : Traces K after env := by
  intro n p found needed
  obtain ⟨source, listed, q, held, rfl | ⟨rfl, rhs, mem⟩⟩ := origin n p found
  · exact ⟨p, mem_singleton.mp listed ▸ held, needed⟩
  · exact ⟨q, mem_singleton.mp listed ▸ held, (joins n site q rhs (recorded _ mem) needed).1⟩

theorem traces_branch (recorded : ∀ r ∈ branchJoins site iftOut iffOut, r ∈ records) :
    Traces K (branchEnv site iftOut iffOut) iftOut ∧ Traces K (branchEnv site iftOut iffOut) iffOut := by
  have merge := Merge.branch site iftOut iffOut
  refine ⟨traces_from joins (merge.from_left mem_cons_self) recorded, fun n p found needed => ?_⟩
  obtain ⟨lhs, rhs, left, right, ⟨differ, rfl⟩ | ⟨same, rfl⟩⟩ := (merge.out n p).mp found
  · have mem := (merge.joined _).mpr ⟨n, lhs, rhs, left, right, differ, rfl⟩
    exact ⟨rhs, right, (joins n site lhs rhs (recorded _ mem) needed).2⟩
  · exact ⟨rhs, right, not_not.mp same ▸ needed⟩

end Joins

/-! ### Statements that need names that stay -/

/-- Statements need names that stay. After them, if nothing was cut off, nothing stays but what did before or is defined
by them. -/
structure Passes (K : Name → Place → Prop) (whole : Bool) (env after : Env) (out : List Stmt) : Prop where
  needs : ∀ n ∈ needsAll out, Stays K env n
  defines : whole = true → ∀ n, Stays K after n → Stays K env n ∨ n ∈ definesAll out

/-- Some of the given statements have become others that are well made, and that pass wherever they are walked. -/
structure Reduced (K : Name → Place → Prop) (notes : Notes) (given : List Stmt) (whole : Bool) (stmts out : List Stmt) :
    Prop where
  made : WellMade stmts → WellMade out
  passes : ∀ {env after sub}, StmtsWalk env stmts after sub → sub.Within notes →
    (∀ part ∈ allOf stmts, part ∈ given) → Passes K whole env after out

/-- What is defined in the blocks of a statement may be defined behind it. -/
def hands : Stmt → Bool
  | .branch .. | .scope .. => true
  | _ => false

/-- A block in a statement has become another. What is cut off in it is missing behind the statement only if that hands
on what its blocks define. -/
structure ReducedIn (K : Name → Place → Prop) (notes : Notes) (given : List Stmt) (whole : Bool) (s : Stmt)
    (b b' : Block) : Prop where
  reduced : Reduced K notes given false b.stmts b'.stmts
  handed : hands s = true → whole = true → Reduced K notes given true b.stmts b'.stmts
  filled : b'.stmts ≠ []

section Reduced

variable {notes : Notes} {stmts : List Stmt} {s : Stmt} {after : Env} {b : Block}

theorem Reduced.nil : Reduced K notes given whole [] [] := by
  refine ⟨id, fun walks _ _ => ?_⟩
  cases walks
  exact ⟨by rintro _ ⟨⟩, fun _ _ => .inl⟩

theorem Reduced.cut (reduced : Reduced K notes given whole stmts out) : Reduced K notes given false stmts out :=
  ⟨reduced.made, fun walks within among => ⟨(reduced.passes walks within among).needs, nofun⟩⟩

theorem Reduced.before (reduced : Reduced K notes given whole [s] out) : Reduced K notes given false (s :: rest) out := by
  refine ⟨fun made => reduced.made (wellMade_cons.mp made).1, fun walks within among => ⟨?_, nofun⟩⟩
  cases walks with
  | cons head tail =>
    refine (reduced.passes (.cons head .nil) ((Notes.Within.left _ _).trans within).single fun part mem => ?_).needs
    exact among part (allOf_append [s] rest ▸ mem_append_left _ mem)

theorem Reduced.cons (first : Reduced K notes given true [s] out) (later : Reduced K notes given whole rest others) :
    Reduced K notes given whole (s :: rest) (out ++ others) := by
  refine ⟨fun made => ?_, fun walks within among => ?_⟩
  · obtain ⟨own, inner⟩ := wellMade_cons.mp made
    exact wellMade_append.mpr ⟨first.made own, later.made inner⟩
  · cases walks with
    | cons head tail =>
      obtain ⟨here, there⟩ := forall_mem_append.mp (allOf_append [s] rest ▸ among)
      have early := first.passes (.cons head .nil) ((Notes.Within.left _ _).trans within).single here
      have late := later.passes tail ((Notes.Within.right _ _).trans within) there
      refine ⟨fun n need => ?_, fun full n stays => ?_⟩
      · rcases mem_needsAll_append.mp need with need | ⟨need, missing⟩
        · exact early.needs n need
        · exact (early.defines rfl n (late.needs n need)).resolve_right missing
      · rw [mem_definesAll_append]
        rcases late.defines full n stays with middle | defined
        · exact (early.defines rfl n middle).imp_right .inl
        · exact .inr (.inr defined)

theorem Reduced.block {b' : Block} (reduced : Reduced K notes given whole b.stmts b'.stmts)
    (walk : BlockWalk env b after sub) (within : sub.Within notes) (among : ∀ part ∈ allOf b.stmts, part ∈ given) :
    Passes K whole env after b'.stmts := by
  obtain ⟨inside⟩ := walk
  exact reduced.passes inside ((Notes.Within.left _ _).trans within) among

theorem Stays.of_head (joins : KeepsJoins K notes.records) (arms : ArmsWalk (startEnv env s) s.blocks outs sub)
    (recorded : ∀ r ∈ joinsOf env s outs, r ∈ notes.records) (stays : Stays K (headEnv env s) n) : Stays K env n :=
  stays.of_traces (traces_from joins arms.meets.enters recorded)

theorem Stays.early (joins : KeepsJoins K notes.records) (walk : StmtWalk env s after sub) (within : sub.Within notes)
    (stays : Stays K (evalEnv env s) n) : Stays K env n := by
  obtain ⟨_, _, arms, _, rfl⟩ := walk
  cases s with
  | loop => exact stays.of_head joins arms within.joins
  | _ => exact stays

/-- The blocks in a statement need names that stay at their start, and after the statement no others stay than did
before, are defined by it or are read by it. -/
theorem passes_inside (joins : KeepsJoins K notes.records) (refit : s.Refit Q (ReducedIn K notes given whole s) s')
    (walk : StmtWalk env s after sub) (within : sub.Within notes) (among : ∀ part ∈ allOf [s], part ∈ given) :
    (∀ b' ∈ s'.blocks, ∀ n ∈ needsAll b'.stmts, s'.inside (Stays K env) n) ∧
    (whole = true → ∀ n, Stays K after n → Stays K env n ∨ n ∈ s'.defines ∨ n ∈ s'.reads) := by
  have deeper := (forall_allOf_single.mp among).2
  obtain ⟨_, _, arms, rfl, rfl⟩ := walk
  cases refit with
  | assign => exact ⟨nofun, fun _ n stays => stays.of_bound.symm.imp_right fun named => .inl (mem_ofList.mpr named)⟩
  | store => exact ⟨nofun, fun _ n stays => stays.of_bound.symm.imp_right .inr⟩
  | when own inner =>
    obtain _ | ⟨inside, _ | _⟩ := arms
    have passes := inner.reduced.block inside ((Notes.Within.first ..).trans within) (deeper _ mem_cons_self)
    refine ⟨forall_mem_singleton.mpr passes.needs, fun _ n stays => .inl (stays.of_traces ?_)⟩
    exact traces_from joins ((Merge.guarded _ inside.keeps).from_left mem_cons_self) within.joins
  | branch own left right =>
    obtain _ | ⟨inLeft, _ | ⟨inRight, _ | _⟩⟩ := arms
    have inFirst := (Notes.Within.first ..).trans within
    have inSecond := ((Notes.Within.left _ _).trans (.right _ _)).trans ((Notes.Within.middle ..).trans within)
    obtain ⟨toLeft, toRight⟩ := traces_branch joins within.joins
    refine ⟨forall_mem_cons.mpr ⟨(left.reduced.block inLeft inFirst (deeper _ mem_cons_self)).needs,
      forall_mem_singleton.mpr (right.reduced.block inRight inSecond
        (deeper _ (mem_cons_of_mem _ mem_cons_self))).needs⟩, fun full n stays => ?_⟩
    have first := (left.handed rfl full).block inLeft inFirst (deeper _ mem_cons_self)
    have second := (right.handed rfl full).block inRight inSecond (deeper _ (mem_cons_of_mem _ mem_cons_self))
    rcases first.defines rfl n (stays.of_traces toLeft) with early | inIft
    · exact .inl early
    rcases second.defines rfl n (stays.of_traces toRight) with early | inIff
    · exact .inl early
    · rw [Stmt.defines, mem_inter, Block.defines_eq, Block.defines_eq]
      exact .inr (.inl ⟨inIft, inIff⟩)
  | loop own inner | each own inner =>
    have early : ∀ n, Stays K (headEnv env _) n → Stays K env n := fun n => Stays.of_head joins arms within.joins
    obtain _ | ⟨inside, _ | _⟩ := arms
    have passes := inner.reduced.block inside ((Notes.Within.first ..).trans within) (deeper _ mem_cons_self)
    refine ⟨forall_mem_singleton.mpr fun n need => ?_, fun _ n stays => .inl (early n stays)⟩
    first
      | exact early n (passes.needs n need)
      | exact (passes.needs n need).of_bound.imp_right (early n)
  | scope own inner =>
    obtain _ | ⟨inside, _ | _⟩ := arms
    have inBody := (Notes.Within.first ..).trans within
    have needs := (inner.reduced.block inside inBody (deeper _ mem_cons_self)).needs
    refine ⟨forall_mem_singleton.mpr fun n need => (needs n need).of_bound, fun full n stays => ?_⟩
    rw [Stmt.defines, mem_union, mem_ofList, Block.defines_eq]
    rcases ((inner.handed rfl full).block inside inBody (deeper _ mem_cons_self)).defines rfl n stays with
      start | inner
    · exact start.of_bound.symm.imp_right fun named => .inl (.inl named)
    · exact .inr (.inl (.inr inner))
  | assert | effect | ret | skip => exact ⟨nofun, fun _ n stays => .inl stays⟩

/-- A statement is reduced to the one that it becomes if what that evaluates stays. -/
theorem reduced_of_refit (joins : KeepsJoins K notes.records) (refit : s.Refit Q (ReducedIn K notes given whole s) s')
    (parts : ∀ e e', Q e e' → (e.WellMade → e'.WellMade) ∧ e'.layout = e.layout)
    (stays : s ∈ given → ∀ {env after sub}, StmtWalk env s after sub → sub.Within notes →
      (∀ n ∈ s'.reads, Stays K env n) ∧ ∀ e' ∈ s'.exprs, ∀ n ∈ e'.uses, Stays K env n) :
    Reduced K notes given whole [s] [s'] := by
  obtain ⟨_, binds, _, _⟩ := refit.same
  refine ⟨fun made => ?_, fun walks within among => ?_⟩
  · obtain ⟨formed, inner⟩ := wellMade_single.mp made
    refine wellMade_single.mpr ⟨⟨binds ▸ formed.names, fun e' listed => ?_,
      refit.bound (fun e e' part => (parts e e' part).2) formed.bound, fun b' listed => ?_⟩, fun b' listed => ?_⟩
    · obtain ⟨e, mem, part⟩ := exists_of_forall₂ refit.exprs e' listed
      exact (parts e e' part).1 (formed.exprs e mem)
    · obtain ⟨b, mem, reduced⟩ := exists_of_forall₂ refit.blocks b' listed
      exact reduced.filled
    · obtain ⟨b, mem, reduced⟩ := exists_of_forall₂ refit.blocks b' listed
      exact reduced.reduced.made (inner b mem)
  · cases walks with
    | cons walk rest =>
      cases rest
      have narrow := (Notes.Within.left _ _).trans within
      obtain ⟨held, own⟩ := stays (among s (mem_allOf mem_cons_self)) walk narrow
      obtain ⟨deeper, later⟩ := passes_inside joins refit walk narrow among
      refine ⟨fun n need => needs_iff.mpr ⟨held, own, deeper⟩ n (mem_needsAll_single.mp need), fun full n stays => ?_⟩
      rcases later full n stays with early | defined | read
      · exact .inl early
      · exact .inr (mem_definesAll_single.mpr defined)
      · exact .inl (held n read)

theorem check_of_reduced {f : Func} (checked : f.check = .ok ()) {exit : Env} {inner : Notes}
    (walked : ofBlock (entryOf f) f.body = .ok (exit, inner)) (within : inner.Within notes)
    (reduced : Reduced K notes f.body.all whole f.body.stmts b.stmts) (filled : b.stmts ≠ []) :
    Func.check { f with body := b } = .ok () := by
  obtain ⟨params, _, made, _⟩ := WellFormed.check_iff.mp checked
  have passes := reduced.block (walk_of_block f.body walked) within fun _ mem => Block.all_eq f.body ▸ mem
  refine WellFormed.check_iff.mpr ⟨params, filled, reduced.made made, fun n need => ?_⟩
  obtain ⟨p, found, _⟩ := passes.needs n (Block.needs_eq b ▸ need)
  have held : (entryOf f).contains n = true := by
    rw [OrdMap.contains, found]
    rfl
  exact WellFormed.contains_entryOf.mp held

theorem mem_active :
    (n ∈ needsAll (active stmts) ↔ n ∈ needsAll stmts) ∧ (n ∈ definesAll (active stmts) ↔ n ∈ definesAll stmts) := by
  induction stmts with
  | nil => exact ⟨Iff.rfl, Iff.rfl⟩
  | cons s rest ih =>
    rw [active, List.filter_cons, ← active]
    cases idle : DeadCode.isSkip s with
    | true =>
      cases s with
      | skip => simpa [needsAll, definesAll, Stmt.needs, Stmt.defines] using ih
      | _ => cases idle
    | false => simp [needsAll, definesAll, ih.1, ih.2]

theorem Reduced.active (reduced : Reduced K notes given whole stmts out) (same : active filled = active out)
    (among : ∀ s ∈ filled, s ∈ out ∨ DeadCode.isSkip s = true) : Reduced K notes given whole stmts filled := by
  refine ⟨fun made part inside => ?_, fun walks within listed => ?_⟩
  · obtain ⟨s, mem, inside⟩ := mem_allOf_iff.mp inside
    rcases among s mem with kept | idle
    · exact reduced.made made part (mem_allOf_iff.mpr ⟨s, kept, inside⟩)
    · cases s with
      | skip node =>
        cases mem_singleton.mp inside
        exact ⟨nofun, nofun, trivial, nofun⟩
      | _ => cases idle
  · obtain ⟨needs, defines⟩ := reduced.passes walks within listed
    refine ⟨fun n need => needs n ?_, fun full n stays => (defines full n stays).imp_right fun here => ?_⟩
    · rwa [← mem_active.1, ← same, mem_active.1]
    · rwa [← mem_active.2, same, mem_active.2]

end Reduced

/-! ### Sweeping -/

/-- What is needed of the names and definitions that are kept while the dead statements among the given ones are
swept out: joins keep them, statements that stay read kept names only, and dead statements make no kept ones. -/
structure Sparing (K : Name → Place → Prop) (dead : NodeId → Prop) (notes : Notes) (stmts : List Stmt) : Prop where
  joins : KeepsJoins K notes.records
  reads : ∀ s ∈ stmts, ¬ dead s.id → ∀ before after sub, StmtWalk before s after sub → sub.Within notes →
    ∀ n p, (∃ e ∈ s.exprs, n ∈ e.uses) ∨ n ∈ s.reads → (evalEnv before s).get? n = some p → K n p
  makes : ∀ s ∈ stmts, dead s.id → ∃ node target ann value, s = .assign node target ann value ∧
    ∀ i n, target.names[i]? = some n → ¬ K n (.binder node.id i)

theorem StmtWalk.scoped {s : Stmt} (walk : StmtWalk env s after sub) :
    (∀ n ∈ s.reads, (evalEnv env s).contains n = true) ∧ ∀ e ∈ s.exprs, Scoped (evalEnv env s) e := by
  obtain ⟨held, reads, _⟩ := walk
  exact ⟨held, scoped_of_exprs reads⟩

section Sweep

variable {s : Stmt}

theorem Sparing.stays (sparing : Sparing K dead notes given) (alive : ¬ dead s.id) (mem : s ∈ given)
    (walk : StmtWalk env s after sub) (within : sub.Within notes) :
    (∀ n ∈ s.reads, Stays K env n) ∧ ∀ e ∈ s.exprs, ∀ n ∈ e.uses, Stays K env n := by
  have known : ∀ n, (∃ e ∈ s.exprs, n ∈ e.uses) ∨ n ∈ s.reads → (evalEnv env s).contains n = true →
      Stays K env n := by
    intro n used held
    obtain ⟨p, found⟩ := isSome_iff_exists.mp held
    have kept := sparing.reads s mem alive env after sub walk within n p used found
    exact Stays.early sparing.joins walk within ⟨p, found, kept⟩
  obtain ⟨reads, exprs⟩ := walk.scoped
  exact ⟨fun n read => known n (.inr read) (reads n read),
    fun e part n used => known n (.inl ⟨e, part, used⟩) ((exprs e part).contains n used)⟩

theorem refit_leaf (leaf : s.blocks = []) : s.Refit (fun e e' => e' = e) B s := by
  have same : ∀ es : List Expr, Forall₂ (fun e e' => e' = e) es es := fun _ => List.forall₂_same.mpr fun _ _ => rfl
  cases s with
  | when | branch | loop | each | scope => cases leaf
  | assign => exact .assign rfl
  | store => exact .store (same _) rfl
  | assert => exact .assert rfl (same _)
  | effect => exact .effect rfl
  | ret => exact .ret rfl
  | skip => exact .skip

theorem not_mem_defines_of_isEmptyBranch (empty : DeadCode.isEmptyBranch s = true) : n ∉ definesAll [s] := by
  rw [mem_definesAll_single]
  cases s with
  | when => simp [Stmt.defines]
  | branch node test ift iff =>
    simp only [DeadCode.isEmptyBranch, Bool.and_eq_true] at empty
    have none : active ift.stmts = [] :=
      List.filter_eq_nil_iff.mpr fun s mem => by simpa using all_eq_true.mp empty.1.1 s mem
    intro here
    rw [Stmt.defines, mem_inter, Block.defines_eq, ← mem_active.2, none] at here
    cases here.1
  | _ => cases empty

theorem Sparing.keep (sparing : Sparing K dead notes given) (alive : ¬ dead s.id)
    (refit : s.Refit (fun e e' => e' = e) (ReducedIn K notes given whole s) s') : Reduced K notes given whole [s] [s'] := by
  refine reduced_of_refit sparing.joins refit (fun e e' same => same ▸ ⟨id, rfl⟩) fun mem _ _ _ walk within => ?_
  obtain ⟨reads, exprs⟩ := sparing.stays alive mem walk within
  refine ⟨refit.same.2.2.1 ▸ reads, fun e' listed => ?_⟩
  obtain ⟨e, part, rfl⟩ := exists_of_forall₂ refit.exprs e' listed
  exact exprs e' part

theorem Sparing.drop (sparing : Sparing K dead notes given) (listed : dead s.id) : Reduced K notes given true [s] [] := by
  refine ⟨fun _ => wellMade_nil, fun walks _ among => ⟨by rintro _ ⟨⟩, fun _ n stays => .inl ?_⟩⟩
  obtain ⟨node, target, ann, value, rfl, unmade⟩ := sparing.makes s (among s (mem_allOf mem_cons_self)) listed
  cases walks with
  | cons walk rest =>
    cases rest
    obtain ⟨_, _, _, rfl, _⟩ := walk
    exact stays.of_unbound unmade

theorem Reduced.empty (reduced : Reduced K notes given whole [s] [s']) (empty : DeadCode.isEmptyBranch s' = true) :
    Reduced K notes given whole [s] [] := by
  refine ⟨fun _ => wellMade_nil, fun walks within among => ⟨by rintro _ ⟨⟩, fun full n stays => .inl ?_⟩⟩
  have either := (reduced.passes walks within among).defines full n stays
  exact either.resolve_right (not_mem_defines_of_isEmptyBranch empty)

end Sweep

end Flow

end NumLang
