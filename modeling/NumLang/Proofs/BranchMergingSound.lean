import NumLang.Proofs.Definedness
import NumLang.Proofs.Speculation

/-!
Merging branches never changes a result.
-/

namespace NumLang

variable {V C : Type}

namespace BranchMerging

open Flow Edit Rebuild
open Stmt (active allOf names_single ownNames)

/-! ### Names that are new after a statement -/

def Brings (n : Name) : Stmt → Prop
  | .branch _ _ ift iff => n ∈ ift.assigned ∧ n ∈ iff.assigned
  | .when .. | .loop .. | .each .. => False
  | s => n ∈ s.all.flatMap Stmt.binds

/-- A revision keeps what is bound. -/
structure Keeping (R : Revision) (n : Name) : Prop where
  drops : ∀ s, ¬ R.drops s
  idle : ∀ s, ¬ R.idle s
  rewrites : ∀ s s' out, R.rewrites s s' out → Brings n s' → n ∈ (allOf out).flatMap Stmt.binds

variable {n : Name} {s : Stmt} {r : Reaching} {m : Machine V C} {t u : Edit.State} {out : List Stmt}

theorem binds_active (stmts : List Stmt) : n ∈ (allOf (active stmts)).flatMap Stmt.binds ↔
    n ∈ (allOf stmts).flatMap Stmt.binds := by
  induction stmts with
  | nil => rfl
  | cons s rest ih =>
    cases filler : DeadCode.isSkip s with
    | true =>
      cases s with
      | skip => exact ih
      | _ => cases filler
    | false =>
      have same : active (s :: rest) = s :: active rest := by simp [active, filler]
      simp only [same, allOf, flatMap_append, mem_append, ih]

theorem brings_binds (brings : Brings n s) : n ∈ s.all.flatMap Stmt.binds := by
  cases s with
  | branch node test ift iff =>
    rw [Stmt.all, flatMap_cons, flatMap_append]
    exact mem_append_right _ (mem_append_left _ (mem_assigned.mp brings.1))
  | when | loop | each => exact brings.elim
  | _ => exact brings

section New

variable {R : Revision}

mutual

/-- A name that a statement defines is bound in what the statement becomes. -/
theorem new_shape (keeping : Keeping R n) (s : Stmt) (shape : R.Shape s s') (here : n ∈ s.defines) : Brings n s' := by
  cases s with
  | branch node test ift iff =>
    cases shape with
    | branch _ first second =>
      obtain ⟨left, right⟩ := mem_inter.mp here
      exact ⟨new_block keeping ift first left, new_block keeping iff second right⟩
  | scope node name ctx body =>
    cases shape with
    | @scope _ _ _ _ _ body' _ inside =>
      change n ∈ name.toList ++ body'.all.flatMap Stmt.binds
      refine mem_append.mpr ((mem_union.mp here).imp mem_ofList.mp fun inner => ?_)
      exact mem_assigned.mp (new_block keeping body inside inner)
  | assign =>
    cases shape
    simpa [Brings, Stmt.all, Stmt.binds, Stmt.defines] using here
  | _ => simp [Stmt.defines] at here

theorem new_block (keeping : Keeping R n) (b : Block) {b' : Block} (revised : R.OnBlock b b') (here : n ∈ b.defines) :
    n ∈ b'.assigned := by
  obtain ⟨id, stmts⟩ := b
  cases revised with
  | block inside same =>
    rw [mem_assigned, Block.all, ← binds_active, same, binds_active]
    exact new_stmts keeping stmts inside here

theorem new_stmts (keeping : Keeping R n) (stmts : List Stmt) {out : List Stmt} (revised : R.OnStmts stmts out)
    (here : n ∈ Stmt.definesAll stmts) : n ∈ (allOf out).flatMap Stmt.binds := by
  cases stmts with
  | nil => simp [Stmt.definesAll] at here
  | cons s rest =>
    cases revised with
    | cons first others =>
      rw [Stmt.allOf_append, flatMap_append, mem_append]
      refine (mem_union.mp here).imp (fun own => ?_) (new_stmts keeping rest others)
      cases first with
      | drop drops => exact absurd drops (keeping.drops s)
      | idle _ idle => exact absurd idle (keeping.idle _)
      | keep shape => simpa [allOf] using brings_binds (new_shape keeping s shape own)
      | rewrite shape rewrites => exact keeping.rewrites _ _ _ rewrites (new_shape keeping s shape own)

end

end New

/-! ### What is merged -/

/-- The parts of a branch that is merged. -/
structure Arms where
  node : Node
  test : Expr
  ift : Block
  iff : Block

def arms? : Stmt → Option Arms
  | .when node test body => if isStraight body then some ⟨node, test, body, ⟨body.id, []⟩⟩ else none
  | .branch node test ift iff => if isStraight ift && isStraight iff then some ⟨node, test, ift, iff⟩ else none
  | _ => none

def rewrite (r : Reaching) (s : Stmt) : Edit (List Stmt) := (hooks r).stmt s (pure s)

theorem rewrites_hooks (r : Reaching) : (hooks r).Rewrites (rewrite r) where
  name _ := rfl
  expr _ _ := rfl
  block _ _ := rfl
  stmt s usual := by
    refine congrArg (usual >>= ·) (funext fun s' => ?_)
    simp only [rewrite, hooks, pure_bind]

variable {arms : Arms}

theorem rewrite_of_arms (found : arms? s = some arms) : rewrite r s = merge r arms.node arms.test arms.ift arms.iff :=
    by
  cases s with
  | when | branch =>
    simp only [arms?] at found
    split at found
    · rename_i straight
      cases found
      exact if_pos straight
    · cases found
  | _ => cases found

theorem rewrite_of_none (found : arms? s = none) : rewrite r s = pure [s] := by
  cases s with
  | when | branch =>
    simp only [arms?] at found
    split at found
    · cases found
    · rename_i crooked
      exact if_neg crooked
  | _ => rfl

/-- What the parts of a merged statement are to it. -/
structure Arms.Of (arms : Arms) (s : Stmt) : Prop where
  id : arms.node.id = s.id
  straight : Straight arms.ift.stmts
  straight' : Straight arms.iff.stmts
  names : Stmt.names [s] = arms.test.vars ++ (Stmt.names arms.ift.stmts ++ Stmt.names arms.iff.stmts)
  exec : ∀ {V C : Type} (m : Machine V C) (c : C) (σ : State V), m.exec s c σ =
    .attempt (m.test c σ.store arms.test) σ fun holds => m.execStmts (if holds then arms.ift else arms.iff).stmts c σ
  stmts : arms.ift.stmts ++ arms.iff.stmts = s.blocks.flatMap Block.stmts
  brings : ∀ n, Brings n s → n ∈ binds arms.ift ∧ n ∈ binds arms.iff

theorem arms_of (found : arms? s = some arms) : arms.Of s := by
  cases s with
  | when node test body =>
    simp only [arms?] at found
    split at found
    · rename_i straight
      cases found
      refine ⟨rfl, straight_of_isStraight straight, nofun, ?_, ?_, ?_, ?_⟩
      · simp [names_single, ownNames, Stmt.binds, Stmt.exprs, Stmt.blocks]
      · intro V C m c σ
        rw [Machine.exec]
        congr
        funext holds
        cases holds with
        | true => exact m.execBlock_eq body c σ
        | false => rfl
      · simp [Stmt.blocks]
      · exact fun n brings => brings.elim
    · cases found
  | branch node test ift iff =>
    simp only [arms?] at found
    split at found
    · rename_i straight
      cases found
      rw [Bool.and_eq_true] at straight
      have first := straight_of_isStraight straight.1
      have second := straight_of_isStraight straight.2
      refine ⟨rfl, first, second, ?_, ?_, ?_, ?_⟩
      · simp [names_single, ownNames, Stmt.binds, Stmt.exprs, Stmt.blocks]
      · intro V C m c σ
        rw [Machine.exec]
        congr
        funext holds
        cases holds with
        | true => exact m.execBlock_eq ift c σ
        | false => exact m.execBlock_eq iff c σ
      · simp [Stmt.blocks]
      · intro n brings
        exact ⟨(mem_assigned_of_straight first).mp brings.1, (mem_assigned_of_straight second).mp brings.2⟩
    · cases found
  | _ => cases found

theorem merged_of_rewrite (shaped : m.Shaped) (found : arms? s = some arms)
    (within : Within t.names.used (Stmt.names [s])) (made : Makes (rewrite r s) t out u) :
    Merged m (namesBefore r s.id) arms.test arms.ift arms.iff t out u := by
  have of := arms_of found
  rw [rewrite_of_arms found] at made
  rw [of.names, within_append, within_append] at within
  rw [← of.id]
  exact merged_of_merge shaped of.straight of.straight' within.2.1 within.2.2 within.1 made

/-! ### A record of what is merged -/

/-- The branches that were merged, each with what came of it. -/
abbrev Log := List (Stmt × List Stmt)

def logged (r : Reaching) (s : Stmt) : StateT Log Edit (List Stmt) := do
  let out ← rewrite r s
  if (arms? s).isSome then modify (· ++ [(s, out)])
  return out

def logging (r : Reaching) : Rebuild (StateT Log Edit) where
  stmt _ usual := do logged r (← usual)

/-- The branches of a function that are merged in a session, each with what comes of it. -/
def merged (f : Func) (session : Session) : Log :=
  match Reaching.ofFunc f with
  | .error _ => []
  | .ok r =>
    match (((logging r).onBlock f.body).run []).run.run { session := session, names := .ofFunc f } with
    | (.ok (_, log), _) => log
    | _ => []

/-- The statements that the merged function takes over from arms. -/
def taken (f : Func) (session : Session) : List NodeId :=
  (merged f session).flatMap fun (s, _) => (s.blocks.flatMap Block.stmts).map Stmt.id

def choosing (f : Func) (session : Session) : List NodeId :=
  (merged f session).flatMap fun (_, out) => (out.filter fun s => s.binds.any (· ∈ f.freeVars)).map Stmt.id

theorem rewrites_logging (r : Reaching) : (logging r).Rewrites (logged r) where
  name _ := rfl
  expr _ _ := rfl
  block _ _ := rfl
  stmt _ _ := rfl

def transitions : Transitions (StateT Log Edit) (Edit.State × Log) where
  makes x s a s' := Makes (x.run s.2) s.1 (a, s'.2) s'.1
  of_pure made := by
    obtain ⟨same, rest⟩ := makes_pure.mp made
    exact ⟨congrArg Prod.fst same, Prod.ext rest (Prod.mk.inj same).2⟩
  of_bind made := by
    rw [StateT.run_bind] at made
    obtain ⟨⟨a, log⟩, t, first, rest⟩ := makes_bind.mp made
    exact ⟨a, (t, log), first, rest⟩

def Keeps (α : Type) (x : Edit α) (y : StateT Log Edit α) : Prop :=
  ∀ log s a s', Makes x s a s' → ∃ log', Makes (y.run log) s (a, log') s'

theorem relates_keeps : Relates Keeps where
  pure a log s b s' made := by
    obtain ⟨rfl, rfl⟩ := makes_pure.mp made
    exact ⟨log, rfl⟩
  bind first rest log s b s' made := by
    obtain ⟨a, t, head, tail⟩ := makes_bind.mp made
    obtain ⟨log', head⟩ := first log s a t head
    obtain ⟨log'', tail⟩ := rest a log' t b s' tail
    refine ⟨log'', ?_⟩
    rw [StateT.run_bind]
    exact makes_bind.mpr ⟨(a, log'), t, head, tail⟩

theorem run_logged (r : Reaching) (s : Stmt) (log : Log) : (logged r s).run log = do
    let out ← rewrite r s
    return (out, if (arms? s).isSome then log ++ [(s, out)] else log) := by
  unfold logged
  cases (arms? s).isSome <;> simp

theorem makes_logged :
    Makes ((logged r s).run log) t (out, log') u ↔ Makes (rewrite r s) t out u ∧ log' = if (arms? s).isSome then log ++
    [(s, out)] else log := by
  rw [run_logged]
  constructor
  · intro made
    obtain ⟨out', rewritten, same⟩ := makes_bind_pure made
    cases same
    exact ⟨rewritten, rfl⟩
  · rintro ⟨rewritten, rfl⟩
    exact makes_bind.mpr ⟨out, u, rewritten, makes_pure.mpr ⟨rfl, rfl⟩⟩

def Further (s s' : Edit.State × Log) : Prop := Grows s.1 s'.1 ∧ ∀ entry ∈ s.2, entry ∈ s'.2

theorem Further.refl (s : Edit.State × Log) : Further s s := ⟨.refl s.1, fun _ => id⟩

theorem careful (r : Reaching) : Careful transitions (·.1.names.used) Further (logged r) where
  refl := .refl
  trans first second := ⟨first.1.trans second.1, fun entry listed => second.2 entry (first.2 entry listed)⟩
  grows more := more.1
  rewrite := by
    rintro s ⟨t, log⟩ out ⟨u, log'⟩ within made
    obtain ⟨rewritten, rfl⟩ := makes_logged.mp made
    dsimp only at rewritten within ⊢
    cases found : arms? s with
    | none =>
      rw [rewrite_of_none found] at rewritten
      obtain ⟨rfl, rfl⟩ := makes_pure.mp rewritten
      exact ⟨⟨.refl _, fun _ => id⟩, within⟩
    | some arms =>
      have done := merged_of_rewrite Machine.shaped_reference found within rewritten
      exact ⟨⟨done.grows, fun entry listed => by simp [listed]⟩, done.within⟩

/-! ### The revision -/

/-- Merging as a revision: a branch whose parts have been treated is merged, and that is in the log. -/
def revision (f : Func) (r : Reaching) (log : Log) (excused : NodeId → Prop) : Revision where
  drops _ := False
  idle _ := False
  agrees p e e' := e' = e ∧ f.ReadsAt p e
  rewrites s s' out := s ∈ f.body.all ∧ ((arms? s').isSome = true → (s', out) ∈ log) ∧
    ∃ t u, (∀ n ∈ f.allNames, n ∈ t.names.used) ∧ Within t.names.used (Stmt.names [s']) ∧ Makes (rewrite r s') t out u
  excused := excused

/-- What has to be excused: failing at statements from arms and where a free name is chosen. -/
structure Excuses (f : Func) (log : Log) (excused : NodeId → Prop) : Prop where
  taken : ∀ s out, (s, out) ∈ log → ∀ id ∈ (s.blocks.flatMap Block.stmts).map Stmt.id, excused id
  choosing : ∀ s out, (s, out) ∈ log → ∀ st ∈ out, ∀ n ∈ st.binds, n ∈ f.freeVars → excused st.id

section Sound

variable {f : Func} {notes : Notes} {exit : Env} {log : Log} {excused : NodeId → Prop} {span : Span Place} {s' : Stmt}

theorem keeping (f : Func) (r : Reaching) (log : Log) (excused : NodeId → Prop) (n : Name) :
    Keeping (revision f r log excused) n where
  drops _ := id
  idle _ := id
  rewrites := by
    rintro s s' out ⟨_, _, t, u, _, within, made⟩ brings
    cases found : arms? s' with
    | none =>
      rw [rewrite_of_none found] at made
      obtain ⟨rfl, _⟩ := makes_pure.mp made
      simpa [allOf] using brings_binds brings
    | some arms =>
      have done := merged_of_rewrite Machine.shaped_reference found within made
      obtain ⟨left, right⟩ := (arms_of found).brings n brings
      obtain ⟨st, listed, bound⟩ := done.covers n left right
      exact mem_flatMap.mpr ⟨st, Stmt.mem_allOf listed, bound⟩

theorem mem_namesBefore (survey : Reaching.Survey f notes) {id : NodeId} (noted : (id, span) ∈ notes.stmts) :
    n ∈ namesBefore (.ofNotes (Reaching.entryOf f) exit notes) id ↔ span.before.contains n = true := by
  rw [namesBefore, Reaching.before?, survey.stmts? _ _ noted, map_some, map_some, getD_some,
    OrdMap.mem_keys, OrdMap.contains, OrdMap.contains, Reaching.numberEnv, OrdMap.get?_mapValues, Option.isSome_map]

theorem excused_of_site (survey : Reaching.Survey f notes) (excuses : Excuses f log excused) {R : Revision} (shape : R.Shape s s')
    (noted : (s.id, span) ∈ notes.stmts) {σ τ : Store V}
    (here : SameValues (· ∈ f.allNames) (· ∈ f.freeVars) span.before (σ, τ))
    (found : arms? s' = some arms) (listed : (s', out) ∈ log) (id : NodeId)
    (site : id ∈ (arms.ift.stmts ++ arms.iff.stmts).map Stmt.id ∨ ∃ st ∈ out, st.id = id ∧ ∃ n ∈ st.binds,
      n ∈ namesBefore (.ofNotes (Reaching.entryOf f) exit notes) s'.id ∧ τ.value? n = none) : excused id := by
  rcases site with own | ⟨st, mem, rfl, n, bound, earlier, missing⟩
  · rw [(arms_of found).stmts] at own
    exact excuses.taken s' out listed id own
  · rw [Revision.shape_id shape, mem_namesBefore survey noted] at earlier
    refine excuses.choosing s' out listed st mem n bound ((here.held earlier).resolve_left ?_)
    rw [← here.read earlier, missing]
    simp

theorem follows_of_goes {first second second' : Outcome V C} (both : first.Follows excused post second)
    (goes : second.Goes ⟨a, fuel⟩) (goes' : second'.Goes ⟨b, fuel⟩) (moves : ∀ σ, post (σ, a) → post (σ, b)) :
    first.Follows excused post second' := by
  obtain ⟨next, state⟩ := goes
  obtain ⟨next', state'⟩ := goes'
  rcases both with ⟨⟨f, fault⟩, _⟩ | both
  · rw [next] at fault
    cases fault
  refine .inr ?_
  unfold Outcome.Matches at both ⊢
  rw [next, state] at both
  rw [next', state']
  cases exit : first.exit with
  | next =>
    rw [exit] at both
    exact ⟨rfl, both.2.1, moves _ both.2.2⟩
  | ret v =>
    rw [exit] at both
    cases both
  | fault f => trivial

theorem follows_rewrite (shaped : m.Shaped) (survey : Reaching.Survey f notes) (excuses : Excuses f log excused)
    (shape : (revision f (.ofNotes (Reaching.entryOf f) exit notes) log excused).Shape s s')
    (rewrites : (revision f (.ofNotes (Reaching.entryOf f) exit notes) log excused).rewrites s s' out)
    {c : C} {σ τ : State V} {o : Outline C (Store V × Store V)}
    (outline : o = notes.outline (SameValues (· ∈ f.allNames) (· ∈ f.freeVars)) fun _ => True)
    (seen : o.seen (.stmt s.id) c (σ.store, τ.store))
    (both : (m.exec s c σ).Follows excused (o.after s.id c) (m.exec s' c τ)) :
    (m.exec s c σ).Follows excused (o.after s.id c) (m.execStmts out c τ) := by
  obtain ⟨mem, listed, t, u, used, within, made⟩ := rewrites
  cases found : arms? s' with
  | none =>
    rw [rewrite_of_none found] at made
    obtain ⟨rfl, _⟩ := makes_pure.mp made
    rw [m.execStmts_single]
    exact both.after [] _
  | some arms =>
    have merged := merged_of_rewrite shaped found within made
    rw [(arms_of found).exec m c τ] at both
    obtain ⟨⟨before, after⟩, sub, noted, walk, _⟩ := survey.spans.visits s mem
    subst outline
    have here := (seen_stmt survey noted).mp seen
    cases tested : m.test c τ.store arms.test with
    | error e =>
      -- The test has no value, so the branch cannot go on or return, and it fails nowhere that is excused.
      rw [tested] at both
      rcases both with ⟨_, _, _, last, _⟩ | both
      · cases last
      · refine .inr ?_
        unfold Outcome.Matches at both ⊢
        cases exit : (m.exec s c σ).exit with
        | next =>
          rw [exit] at both
          nomatch both.1
        | ret v =>
          rw [exit] at both
          cases both
        | fault f => trivial
    | ok holds =>
      rw [tested] at both
      rcases merged.runs c τ.fuel τ.store holds tested with fails | ⟨a, b, goes, goes', values⟩
      · exact .inl (fails.imp (excused_of_site survey excuses shape noted here found (listed (by rw [found]; rfl))))
      · refine follows_of_goes both goes goes' fun σ' holds => ?_
        rw [outline_after survey noted] at holds ⊢
        refine holds.replace fun n inForce => values n (used n (holds.of_inForce inForce)) ?_
        rw [Revision.shape_id shape, mem_namesBefore survey noted]
        by_cases earlier : before.contains n = true
        · exact .inl earlier
        · refine .inr ((arms_of found).brings n ?_)
          exact new_shape (keeping _ _ _ _ n) s shape ((walk.contains_iff.mp inForce).resolve_left earlier)

theorem sound (shaped : m.Shaped) (survey : Reaching.Survey f notes) (excuses : Excuses f log excused) :
    (revision f (.ofNotes (Reaching.entryOf f) exit notes) log excused).Sound m (fun _ => True)
    (notes.outline (SameValues (· ∈ f.allNames) (· ∈ f.freeVars)) fun _ => True) where
  drops _ never := never.elim
  idle _ never := never.elim
  agrees := by
    rintro p e e' ⟨rfl, reads⟩ c w reached v
    exact reads.follows survey reached.1 v
  rewrites s s' out shape rewrites c σ τ fuel reached both :=
    follows_rewrite shaped survey excuses shape rewrites rfl reached.1 both

theorem revises (r : Reaching) (first last : Edit.State × Log) (excused : NodeId → Prop)
    (used : ∀ n ∈ f.allNames, n ∈ first.1.names.used) :
    Revises transitions (·.1.names.used) Further (logged r) (revision f r last.2 excused) f.body.all first last where
  agrees s mem e listed := ⟨rfl, s, mem, rfl, .inl listed⟩
  held s mem node name path value stores := by
    refine ⟨rfl, s, mem, by rw [stores]; rfl, .inr ⟨node, name, path, value, stores, rfl⟩⟩
  rewrites := by
    rintro s mem s' ⟨t, log⟩ out ⟨u, log'⟩ before after within made
    obtain ⟨rewritten, rfl⟩ := makes_logged.mp made
    refine ⟨mem, fun some => after.2 _ ?_, t, u, fun n known => before.1 n (used n known), within, rewritten⟩
    simp [some]

end Sound

/-- The merged function ends as the function does, unless it fails at an excused statement. -/
theorem ends_of_merging (shaped : m.Shaped) {f g : Func} (distinct : f.ids.Nodup)
    (made : Makes (edit f) { session := session, names := .ofFunc f } g s') {excused : NodeId → Prop}
    (excuses : Excuses f (merged f session) excused) {c : C} {fuel : Nat} {free : Name → Option V} {args : List V}
    {v : V} (returns : m.run c fuel f free args = some v) :
    ∃ out, m.execFunc c fuel g free args = some out ∧ (out.FailsAt excused ∨ out.exit = .ret v) := by
  obtain ⟨r, t, lifted, made⟩ := makes_bind.mp made
  obtain ⟨analysed, rfl⟩ := makes_lift.mp lifted
  obtain ⟨body, rebuilt, rfl⟩ := makes_bind_pure made
  obtain ⟨log, noted⟩ := related_onBlock (rewrites_hooks r) (rewrites_logging r) relates_keeps
    (fun s log t out u rewritten => ⟨_, makes_logged.mpr ⟨rewritten, rfl⟩⟩) f.body [] _ _ _ rebuilt
  have same : merged f session = log := by
    unfold Makes at noted
    rw [merged, analysed]
    dsimp only
    rw [noted]
  rw [same] at excuses
  obtain ⟨exit, notes, survey, rfl⟩ := Reaching.survey_of_func distinct analysed
  have steps : transitions.makes ((logging _).onBlock f.body) ({ session := session, names := .ofFunc f }, []) body
    (s', log) := noted
  have revised := revises (f := f) (.ofNotes (Reaching.entryOf f) exit notes)
    ({ session := session, names := .ofFunc f }, []) (s', log) excused fun _ known => known
  have done := done_onBlock (rewrites_logging _) (careful _) revised f.body (fun _ => id) (within_allNames f) steps
  refine ends_of_revision survey (upheld_sameValues m notes _ fun s mem n => Func.mem_allNames_of_binds mem)
    (sound shaped survey excuses) (done.revised (.refl _) (.refl _)) rfl ?_
    (fun _ _ _ _ => trivial) returns
  intro σ started
  refine sameValues_start started ?_ ?_ ?_
  · intro n mem
    simp [Func.allNames, mem]
  · intro n mem
    simp [Func.allNames, mem]
  · exact fun n mem _ => mem

theorem excuses_taken (f : Func) (session : Session) :
    Excuses f (merged f session) (· ∈ taken f session ++ choosing f session) where
  taken s out listed id own := by
    refine mem_append_left _ (mem_flatMap.mpr ⟨(s, out), listed, own⟩)
  choosing s out listed st mem n bound free := by
    refine mem_append_right _ (mem_flatMap.mpr ⟨(s, out), listed, mem_map.mpr ⟨st, ?_, rfl⟩⟩)
    exact mem_filter.mpr ⟨mem, List.any_eq_true.mpr ⟨n, bound, decide_eq_true free⟩⟩

end BranchMerging

namespace Outcome

def failure? (out : Outcome V C) : Option NodeId :=
  match out.exit, out.trace.getLast?.map Moment.point with
  | .fault _, some (.stmt id) => some id
  | _, _ => none

theorem failsAt_iff {out : Outcome V C} : out.FailsAt sites ↔ ∃ id, out.failure? = some id ∧ sites id := by
  unfold FailsAt failure?
  cases out.exit with
  | next | ret => simp
  | fault f =>
    cases last : out.trace.getLast? with
    | none => simp
    | some moment =>
      obtain ⟨point, c, σ⟩ := moment
      cases point <;> simp

end Outcome

namespace Reference

def failure? (f : Func) (args : List Value) : Option NodeId :=
  (Machine.reference.execFunc () fuel f (fun _ => none) args).bind Outcome.failure?

/-- Merging branches never changes a result: what the merged function returns is what the function returns. And it
returns that, unless it fails at a statement that it took over from an arm or where it chooses the value of a
free name. -/
theorem run_branchMerging (cfg : Config) (f g : Func) (events : EventLog) (session after : Session)
    (distinct : f.ids.Nodup) (applied : (Pass.branchMerging.run cfg f).run session = (.ok (g, events), after))
    (args : List Value) (v : Value) (returns : run f args = some v) :
    (∀ w, run g args = some w → w = v) ∧
      ((∀ id, failure? g args = some id →
          id ∉ BranchMerging.taken f session ∧ id ∉ BranchMerging.choosing f session) →
        run g args = some v) := by
  obtain ⟨s', made⟩ := Edit.makes_of_perform applied
  obtain ⟨out, ran, ends⟩ := BranchMerging.ends_of_merging Machine.shaped_reference distinct made
    (BranchMerging.excuses_taken f session) returns
  constructor
  · intro w again
    obtain ⟨_, ran', value⟩ := Option.bind_eq_some_iff.mp again
    cases ran.symm.trans ran'
    rcases ends with ⟨⟨f, fault⟩, _⟩ | exit
    · rw [fault] at value
      nomatch value
    · rw [exit] at value
      exact (Option.some.inj value).symm
  · intro clean
    rcases ends with fails | exit
    · obtain ⟨id, failed, site⟩ := Outcome.failsAt_iff.mp fails
      obtain ⟨outside, outside'⟩ := clean id (Option.bind_eq_some_iff.mpr ⟨out, ran, failed⟩)
      exact absurd site (by simp [outside, outside'])
    · refine Option.bind_eq_some_iff.mpr ⟨out, ran, ?_⟩
      rw [exit]

open Sample in
/-- One branch inside another, with a name that both arms of each define. -/
def clamping : Func :=
  func ["x", "y"] [] [
    .branch (node 10) (less 11 (var 12 "x") (var 13 "y"))
      ⟨⟨14⟩, [
        .branch (node 15) (less 16 (int 17 0) (var 18 "x"))
          ⟨⟨19⟩, [set 20 "r" (add 21 (var 22 "x") (int 23 1))]⟩
          ⟨⟨24⟩, [set 25 "r" (var 26 "y"), set 27 "x" (int 28 0)]⟩,
        set 29 "s" (add 30 (var 31 "r") (var 32 "x"))]⟩
      ⟨⟨33⟩, [set 34 "s" (var 35 "y")]⟩,
    .ret (node 36) (add 37 (var 38 "s") (var 39 "x"))]

theorem run_branchMerging_clamping :
    clamping.ids.Nodup ∧ ∃ g events after,
      (Pass.branchMerging.run {} clamping).run { next := 40 } = (.ok (g, events), after) ∧
      g.body.all.length = 12 ∧ (BranchMerging.taken clamping { next := 40 }).length = 11 ∧
      run clamping [.number 2, .number 9] = some (.number 7) ∧ run g [.number 2, .number 9] = some (.number 7) := by
  have distinct : clamping.ids.Nodup := by decide
  have returns : run clamping [.number 2, .number 9] = some (.number 7) := by decide +kernel
  have count : (BranchMerging.taken clamping { next := 40 }).length = 11 := by decide +kernel
  have clean : (((Pass.branchMerging.run {} clamping).run { next := 40 }).1.toOption.map
      fun made => (made.1.body.all.length, failure? made.1 [.number 2, .number 9])) = some (12, none) := by
    decide +kernel
  rcases applied : (Pass.branchMerging.run {} clamping).run { next := 40 } with ⟨_ | ⟨g, events⟩, after⟩
  · rw [applied] at clean
    cases clean
  · rw [applied] at clean
    obtain ⟨length, failure⟩ := Prod.mk.inj (Option.some.inj clean)
    refine ⟨distinct, g, events, after, rfl, length, count, returns, ?_⟩
    refine (run_branchMerging {} clamping g events { next := 40 } after distinct applied _ _ returns).2 ?_
    intro id failed
    rw [failure] at failed
    nomatch failed

open Sample in
def resetting : Func :=
  func ["c"] ["z"] [
    .when (node 10) (var 11 "c") ⟨⟨12⟩, [set 13 "z" (int 14 1)]⟩,
    .ret (node 15) (int 16 5)]

/-- A free name that holds nothing cannot be chosen: the merged function fails there, although nothing that it took
over from an arm fails. -/
theorem run_branchMerging_unset :
    resetting.ids.Nodup ∧ ∃ g events after,
      (Pass.branchMerging.run {} resetting).run { next := 40 } = (.ok (g, events), after) ∧
      run resetting [.bool false] = some (.number 5) ∧
      (∀ id, failure? g [.bool false] = some id → id ∉ BranchMerging.taken resetting { next := 40 }) ∧
      run g [.bool false] = none := by
  have distinct : resetting.ids.Nodup := by decide
  have returns : run resetting [.bool false] = some (.number 5) := by decide +kernel
  have fails : (((Pass.branchMerging.run {} resetting).run { next := 40 }).1.toOption.map
      fun made => (run made.1 [.bool false], (failure? made.1 [.bool false]).all
        (· ∉ BranchMerging.taken resetting { next := 40 }))) = some (none, true) := by
    decide +kernel
  rcases applied : (Pass.branchMerging.run {} resetting).run { next := 40 } with ⟨_ | ⟨g, events⟩, after⟩
  · rw [applied] at fails
    cases fails
  · rw [applied] at fails
    obtain ⟨none, outside⟩ := Prod.mk.inj (Option.some.inj fails)
    refine ⟨distinct, g, events, after, rfl, returns, ?_, none⟩
    intro id failed
    rw [failed, Option.all_some, decide_eq_true_iff] at outside
    exact outside

end Reference

end NumLang
