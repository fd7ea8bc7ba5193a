import NumLang.Proofs.Reference
import NumLang.Proofs.Visiting

/-!
Occurrences are counted in the order in which they are listed.
-/

namespace NumLang

namespace Pattern

def atExpr (p : Pattern) (e : Expr) : List Occurrence :=
  ((p.match? (.expr e)).map fun c => (⟨.expr e.id, c⟩ : Occurrence)).toList

theorem inExprs_eq (p : Pattern) (es : List Expr) : p.inExprs es = (Expr.allOf es).flatMap p.atExpr :=
  List.filterMap_eq_flatMap_toList _ _

end Pattern

theorem Region.hooks_name (region : Region) (made : Fragment) : (region.hooks made).name = pure := by
  cases region <;> cases made <;> rfl

namespace Rule

variable {r : Rule} {n : Nat}

section Exprs

variable {own : Region → Prop} {e : Expr} {usual : Replacing Expr} {put : Region → Fragment → Expr}

theorem plain_exprHooks (r : Rule) (wanted : Option Nat) : (r.exprHooks wanted).Plain fun _ => False :=
  ⟨fun _ => rfl, fun _ => False.elim⟩

theorem plain_hooks (region : Region) (made : Fragment) : (region.hooks made).Plain fun _ => False :=
  ⟨fun n => congrFun (region.hooks_name made) n, fun _ => False.elim⟩

theorem run_exprHook (e : Expr) (usual : Replacing Expr) (s : Progress) :
    ((r.exprHooks (some n)).expr e usual).run.run s =
      if 0 < s.replaced then (.ok e, s) else
      match r.lhs.match? (.expr e) with
      | some c =>
        if s.passed = n then (r.replaceExpr e c).run.run s else usual.run.run { s with passed := s.passed + 1 }
      | none => usual.run.run s := by
  dsimp only [exprHooks]
  rw [run_bind_of_ok (run_isDone n s)]
  by_cases done : 0 < s.replaced
  · simp only [done, if_true, decide_true]
    rfl
  · simp only [done, if_false, decide_false, Option.isSome_some, if_true]
    cases r.lhs.match? (.expr e) with
    | none => rfl
    | some c =>
      dsimp only
      rw [if_neg Bool.false_ne_true]
      have wanted := run_isWanted n s
      by_cases here : s.passed = n
      · rw [if_pos here] at wanted
        rw [if_pos here]
        exact run_bind_of_ok wanted
      · rw [if_neg here] at wanted
        rw [if_neg here]
        exact run_bind_of_ok wanted

variable {found : List Occurrence} {ids : List NodeId}

/-- A visit of an expression: first the expression itself, then what is inside. -/
theorem visits_node (isExpr : r.lhs.body.isExpr = true) (visits : r.Visits n usual e found put (Within ids))
    (distinct : (e.id :: ids).Nodup) : r.Visits n ((r.exprHooks (some n)).expr e usual) e (r.lhs.atExpr e ++ found)
    (fun region made => (region.hooks made).expr e (put region made)) (Within (e.id :: ids)) := by
  have elsewhere : ∀ region made, region.anchor ≠ e.id → (region.hooks made).expr e (put region made) = put region made := by
    intro region made other
    cases region with
    | window => cases made <;> rfl
    | expr id =>
      cases made with
      | stmts => rfl
      | expr new => exact if_neg fun same => other same.symm
  have outside : ∀ region made, region.isExpr = r.lhs.body.isExpr → ¬ Within (e.id :: ids) region →
      (region.hooks made).expr e (put region made) = e := by
    intro region made kind foreign
    obtain ⟨other, inner⟩ := List.ne_and_not_mem_of_not_mem_cons foreign
    rw [elsewhere region made other, visits.outside region made kind inner]
  have more : ∀ region, Within ids region → Within (e.id :: ids) region := fun _ => mem_cons_of_mem _
  have alike : ∀ region made, Within ids region → put region made = (region.hooks made).expr e (put region made) :=
    fun region made inner => (elsewhere region made fun same => (nodup_cons.mp distinct).1 (same ▸ inner)).symm
  cases matched : r.lhs.match? (.expr e) with
  | none =>
    have none : r.lhs.atExpr e = [] := by simp [Pattern.atExpr, matched]
    rw [none, nil_append]
    refine (visits.of_run_eq fun s => ?_).recast (fun region made _ => alike region made) more outside
    rw [run_exprHook, matched]
    split
    · exact (visits.done s ‹_›).symm
    · rfl
  | some c =>
    have one : r.lhs.atExpr e = [⟨.expr e.id, c⟩] := by simp [Pattern.atExpr, matched]
    rw [one, singleton_append]
    refine visits.after (fun s done => ?_) (fun s none here => ?_) (fun s none later => ?_) isExpr.symm
      mem_cons_self more (fun region made _ => alike region made) outside
    · rw [run_exprHook, if_pos done]
    · rw [run_exprHook, if_neg (by omega), matched]
      simp only [here, if_true, replaceExpr]
      rw [run_bind]
      rcases (r.instantiate c).run.run s with ⟨_ | made, t⟩
      · rfl
      · cases made with
        | expr new => exact congrArg (fun made => (Except.ok made, t)) (if_pos rfl).symm
        | stmts l =>
          have unchanged := visits.outside (.expr e.id) (.stmts l) isExpr.symm (nodup_cons.mp distinct).1
          exact congrArg (fun made => (Except.ok made, t)) unchanged.symm
    · rw [run_exprHook, if_neg (by omega), matched]
      simp only [later, if_false]

/-- The search goes through an expression as the list of all expressions in it does. -/
def Searches (r : Rule) (n : Nat) (e : Expr) : Prop :=
  e.ids.Nodup → r.Visits n ((r.exprHooks (some n)).onExpr e) e (e.all.flatMap r.lhs.atExpr)
    (fun region made => (region.hooks made).onExpr e) (Within e.ids)

theorem visits_exprs (each : ∀ e ∈ es, r.Searches n e) (distinct : (Expr.idsAll es).Nodup) :
    r.Visits n ((r.exprHooks (some n)).onExprs es) es ((Expr.allOf es).flatMap r.lhs.atExpr) (fun region made =>
    (region.hooks made).onExprs es) (Within (Expr.idsAll es)) := by
  induction es with
  | nil => exact (visits_pure []).congr rfl (fun _ _ _ => rfl) fun _ => id
  | cons e rest ih =>
    obtain ⟨here, later⟩ := forall_mem_cons.mp each
    exact (visits_two List.cons here (ih later) distinct).congr (by simp [Expr.allOf]) (fun _ _ _ => rfl) fun _ => id

theorem searches_expr (isExpr : r.lhs.body.isExpr = true) (e : Expr) : r.Searches n e := by
  induction e using Expr.byChildren with
  | step e ih =>
    intro distinct
    rw [Expr.ids_eq] at distinct ⊢
    have inside := (visits_exprs ih (nodup_cons.mp distinct).2).map e.fill
    rw [Expr.fill_children] at inside
    rw [Rebuild.onExpr_eq (plain_exprHooks r (some n)).name, Expr.all_eq, flatMap_cons]
    refine (visits_node isExpr inside distinct).congr rfl (fun region made _ => ?_) fun _ => id
    exact (Rebuild.onExpr_eq (plain_hooks region made).name e).symm

theorem atStart_of_isExpr {p : Pattern} (isExpr : p.body.isExpr = true) (block : NodeId) (start : Nat)
    (stmts : List Stmt) : p.atStart block start stmts = [] := by
  have size : p.body.window = 0 := by
    cases body : p.body with
    | expr => rfl
    | stmts => simp [body, Fragment.isExpr] at isExpr
  simp [Pattern.atStart, size]

theorem inStmt_eq (p : Pattern) (s : Stmt) :
    p.inStmt s = (Expr.allOf s.exprs).flatMap p.atExpr ++ s.blocks.flatMap p.inBlock := by
  rw [← Pattern.inExprs_eq]
  cases s <;> simp [Pattern.inStmt, Stmt.blocks]

def SearchesIn (r : Rule) (n : Nat) (s : Stmt) : Prop :=
  s.ids.Nodup → r.Visits n ((r.exprHooks (some n)).onStmt s) [s] (r.lhs.inStmt s)
    (fun region made => (region.hooks made).onStmt s) (Within s.ids)

theorem visits_onStmts (isExpr : r.lhs.body.isExpr = true) (block : NodeId) (start : Nat)
    (each : ∀ s ∈ stmts, r.SearchesIn n s) (distinct : (Stmt.idsAll stmts).Nodup) :
    r.Visits n ((r.exprHooks (some n)).onStmts stmts) stmts (r.lhs.inStmts block start stmts) (fun region made =>
    (region.hooks made).onStmts stmts) (Within (Stmt.idsAll stmts)) := by
  induction stmts generalizing start with
  | nil => exact (visits_pure []).congr rfl (fun _ _ _ => rfl) fun _ => id
  | cons s rest ih =>
    obtain ⟨here, later⟩ := forall_mem_cons.mp each
    have parts := (here distinct.of_append_left).both
      (fun u => (ih (start + 1) later distinct.of_append_right).map (u ++ ·)) distinct
    exact parts.congr (by simp [Pattern.inStmts, atStart_of_isExpr isExpr]) (fun _ _ _ => rfl) fun _ => id

theorem visits_block (isExpr : r.lhs.body.isExpr = true) {b : Block} (each : ∀ s ∈ b.stmts, r.SearchesIn n s)
    (distinct : b.ids.Nodup) : r.Visits n ((r.exprHooks (some n)).onBlock b) b (r.lhs.inBlock b)
      (fun region made => (region.hooks made).onBlock b) (Within b.ids) := by
  obtain ⟨id, stmts⟩ := b
  have inside := (visits_onStmts isExpr id 0 each (nodup_cons.mp distinct).2).map (Block.mk id)
  refine inside.congr rfl (fun region made kind => ?_) fun _ => mem_cons_of_mem _
  cases region with
  | window => rw [isExpr] at kind; nomatch kind
  | expr => cases made <;> rfl

theorem visits_blocks (isExpr : r.lhs.body.isExpr = true) {bs : List Block}
    (each : ∀ b ∈ bs, ∀ s ∈ b.stmts, r.SearchesIn n s) (distinct : (bs.flatMap Block.ids).Nodup) :
    r.Visits n (bs.mapM (r.exprHooks (some n)).onBlock) bs (bs.flatMap r.lhs.inBlock)
      (fun region made => bs.mapM (region.hooks made).onBlock) (Within (bs.flatMap Block.ids)) := by
  induction bs with
  | nil => exact (visits_pure []).congr rfl (fun _ _ _ => rfl) fun _ => id
  | cons b rest ih =>
    obtain ⟨here, later⟩ := forall_mem_cons.mp each
    rw [mapM_cons]
    refine (visits_two List.cons (visits_block isExpr here) (ih later) distinct).congr rfl (fun _ _ _ => ?_) fun _ => id
    rw [mapM_cons]
    rfl

/-- The search for an expression goes through a statement as the list of all expressions in it does. -/
theorem searches_stmt (isExpr : r.lhs.body.isExpr = true) (s : Stmt) : r.SearchesIn n s := by
  induction s using Stmt.byParts with
  | step s ih =>
    intro distinct
    rw [Stmt.ids_eq] at distinct ⊢
    have inside := visits_two s.fill (visits_exprs fun e _ => searches_expr isExpr e) (visits_blocks isExpr ih)
      (nodup_cons.mp distinct).2
    rw [s.fill_self] at inside
    rw [Rebuild.onStmt_eq (plain_exprHooks r (some n)).name]
    refine (inside.map fun s => [s]).congr (inStmt_eq _ s).symm (fun region made _ => ?_) fun _ => mem_cons_of_mem _
    rw [Rebuild.onStmt_eq (plain_hooks region made).name]
    cases region <;> cases made <;> rfl

theorem visits_onBlock (isExpr : r.lhs.body.isExpr = true) (b : Block) (distinct : b.ids.Nodup) :
    r.Visits n ((r.exprHooks (some n)).onBlock b) b (r.lhs.inBlock b)
      (fun region made => (region.hooks made).onBlock b) (Within b.ids) :=
  visits_block isExpr (fun s _ => searches_stmt isExpr s) distinct

end Exprs

section Stmts

variable {t : Progress} {s : Stmt} {rest : List Stmt}

theorem length_of_onStmts {p : Pattern} : (ss ts : List Stmt) → {c c' : Capture} → p.onStmts ss ts c = some c' →
    ss.length = ts.length
  | [], [], _, _, _ => rfl
  | _ :: rest, _ :: targets, _, _, walked => by
    obtain ⟨_, _, tail⟩ := bind_eq_some_iff.mp walked
    exact congrArg (· + 1) (length_of_onStmts rest targets tail)
  | [], _ :: _, _, _, walked | _ :: _, [], _, _, walked => nomatch walked

variable {p : Pattern} {region : Region} {block : NodeId} {start : Nat}

theorem length_of_match? {ts : List Stmt} (found : p.match? (.stmts ts) = some c) : ts.length = p.body.window := by
  obtain ⟨_, walked, _⟩ := bind_eq_some_iff.mp found
  cases body : p.body with
  | expr => simp [Pattern.walk, body] at walked
  | stmts ss =>
    simp only [Pattern.walk, body] at walked
    exact (length_of_onStmts ss ts walked).symm

theorem atStart_eq (some_ : 0 < p.body.window) (block : NodeId) (start : Nat) (stmts : List Stmt) :
    p.atStart block start stmts =
      ((p.match? (.stmts (stmts.take p.body.window))).map fun c =>
        (⟨.window block start p.body.window, c⟩ : Occurrence)).toList := by
  cases found : p.match? (.stmts (stmts.take p.body.window)) with
  | none => simp [Pattern.atStart, found]
  | some c =>
    have fits : p.body.window ≤ stmts.length := by
      have length := length_of_match? found
      rw [List.length_take] at length
      omega
    simp [Pattern.atStart, found, some_, fits]

theorem inExprs_of_stmts (stmts : p.body.isExpr = false) (es : List Expr) : p.inExprs es = [] := by
  refine List.filterMap_eq_nil_iff.mpr fun e _ => ?_
  cases body : p.body with
  | expr => simp [body, Fragment.isExpr] at stmts
  | stmts => simp [Pattern.match?, Pattern.walk, body]

theorem run_replaceWindow? (stmts : List Stmt) (s : Progress) : (r.replaceWindow? (some n) stmts).run.run s =
    if 0 < s.replaced then (.ok none, s) else
    match r.lhs.match? (.stmts (stmts.take r.lhs.body.window)) with
    | some c =>
      if s.passed = n then
        match (r.instantiate c).run.run s with
        | (.ok (.stmts made), t) => (.ok (some made), t)
        | (.ok (.expr _), t) => (.ok none, t)
        | (.error e, t) => (.error e, t)
      else (.ok none, { s with passed := s.passed + 1 })
    | none => (.ok none, s) := by
  unfold replaceWindow?
  rw [run_bind_of_ok (run_isDone n s)]
  by_cases done : 0 < s.replaced
  · simp only [done, if_true, decide_true]
    rfl
  · simp only [done, if_false, decide_false, Bool.false_eq_true]
    cases r.lhs.match? (.stmts (stmts.take r.lhs.body.window)) with
    | none => rfl
    | some c =>
      have wanted := run_isWanted n s
      by_cases here : s.passed = n
      · rw [if_pos here] at wanted
        simp only [run_bind_of_ok wanted, here, if_true]
        rw [run_bind]
        rcases (r.instantiate c).run.run s with ⟨_ | _ | _, _⟩ <;> rfl
      · rw [if_neg here] at wanted
        simp only [run_bind_of_ok wanted, here, if_false, Bool.false_eq_true]
        rfl

mutual

theorem inStmt_done (done : 0 < t.replaced) : (s : Stmt) → (r.inStmt (some n) s).run.run t = (.ok s, t)
  | .when _ _ body | .loop _ _ body | .each _ _ _ body | .scope _ _ _ body => run_bind_of_ok (inBlock_done done body)
  | .branch _ _ ift iff => (run_bind_of_ok (inBlock_done done ift)).trans (run_bind_of_ok (inBlock_done done iff))
  | .assign .. | .store .. | .assert .. | .effect .. | .ret .. | .skip .. => rfl

theorem inBlock_done (done : 0 < t.replaced) : (b : Block) → (r.inBlock (some n) b).run.run t = (.ok b, t)
  | ⟨_, stmts⟩ => run_bind_of_ok (inStmts_done done 0 stmts)

theorem inStmts_done (done : 0 < t.replaced) : (covered : Nat) → (stmts : List Stmt) →
    (r.inStmts (some n) covered stmts).run.run t = (.ok (stmts.drop covered), t)
  | covered, [] => by cases covered <;> rfl
  | covered + 1, _ :: rest => inStmts_done done covered rest
  | 0, s :: rest => by
    have window : (r.replaceWindow? (some n) (s :: rest)).run.run t = (.ok none, t) := by
      rw [run_replaceWindow?, if_pos done]
    exact (run_bind_of_ok window).trans
      ((run_bind_of_ok (inStmt_done done s)).trans (run_bind_of_ok (inStmts_done done 0 rest)))

end

theorem plain_windowHooks (window : region.isExpr = false) (made : Fragment) :
    (region.hooks made).Plain fun _ => True := by
  cases region with
  | expr => cases window
  | window => cases made <;> exact ⟨fun _ => rfl, fun _ _ => rfl⟩

/-- What a replacement makes of the statements of a block from number `start` on. -/
def putRows (block : NodeId) (start : Nat) (stmts : List Stmt) (region : Region) (made : Fragment) : List Stmt :=
  match region, made with
  | .window id first size, .stmts new =>
    if id = block ∧ start ≤ first then
      stmts.take (first - start) ++ new ++ stmts.drop (first - start + size)
    else (region.hooks made).onStmts stmts
  | _, _ => (region.hooks made).onStmts stmts

def Rows (block : NodeId) (start : Nat) (ids : List NodeId) : Region → Prop
  | .expr id => id ∈ ids
  | .window id first _ => (id = block ∧ start ≤ first) ∨ id ∈ ids

theorem onStmts_cons (window : region.isExpr = false) (made : Fragment) (s : Stmt) (rest : List Stmt) :
    (region.hooks made).onStmts (s :: rest) = (region.hooks made).remake s :: (region.hooks made).onStmts rest := by
  have single : (region.hooks made).onStmt s = pure [(region.hooks made).remake s] := by
    rw [Rebuild.onStmt_eq_remake (plain_windowHooks window made)]
    cases region <;> cases made <;> rfl
  rw [Rebuild.onStmts, single]
  rfl

theorem putRows_cons (window : region.isExpr = false) (other : ∀ size, region ≠ .window block start size)
    (unchanged : region.anchor = block → (region.hooks made).remake s = s) :
    putRows block start (s :: rest) region made = (region.hooks made).remake s :: putRows block (start + 1) rest region
    made := by
  cases region with
  | expr => cases window
  | window id first size =>
    cases made with
    | expr => exact onStmts_cons window _ s rest
    | stmts new =>
      by_cases here : id = block ∧ start ≤ first
      · obtain ⟨rfl, reached⟩ := here
        have later : start + 1 ≤ first := Nat.lt_of_le_of_ne reached fun same => other size (same ▸ rfl)
        have offset : first - start = first - (start + 1) + 1 := by omega
        simp only [putRows, unchanged rfl, reached, later, and_self, if_true, offset, List.take_succ_cons,
          cons_append, Nat.add_right_comm _ 1 size, List.drop_succ_cons]
      · have before : ¬ (id = block ∧ start + 1 ≤ first) := fun later => here ⟨later.1, by omega⟩
        simp only [putRows, here, before, if_false]
        exact onStmts_cons window _ s rest

theorem Rows.tail (rows : Within ids region ∨ Rows block (start + 1) more region) :
    Rows block start (ids ++ more) region := by
  cases region with
  | expr => exact mem_append.mpr rows
  | window =>
    rcases rows with inside | ⟨here, later⟩ | inside
    · exact .inr (mem_append_left _ inside)
    · exact .inl ⟨here, Nat.le_of_succ_le later⟩
    · exact .inr (mem_append_right _ inside)

theorem putRows_start (some_ : 0 < size) (s : Stmt) (rest new : List Stmt) :
    putRows block start (s :: rest) (.window block start size) (.stmts new) = new ++ rest.drop (size - 1) := by
  obtain ⟨size, rfl⟩ : ∃ k, size = k + 1 := ⟨size - 1, by omega⟩
  simp [putRows]

/-- The search for statements from a statement of a block on: first the statements that start with it, then what is
inside, then what comes behind it. -/
theorem visits_cons (stmts : r.lhs.body.isExpr = false) (some_ : 0 < r.lhs.body.window)
    (distinct : (block :: (s.ids ++ Stmt.idsAll rest)).Nodup)
    (head : r.Visits n (r.inStmt (some n) s) s (r.lhs.inStmt s) (fun region made => (region.hooks made).remake s)
    (Within s.ids)) (others : r.Visits n (r.inStmts (some n) 0 rest) rest (r.lhs.inStmts block (start + 1) rest)
    (putRows block (start + 1) rest) (Rows block (start + 1) (Stmt.idsAll rest))) : r.Visits n
    (r.inStmts (some n) 0 (s :: rest)) (s :: rest) (r.lhs.inStmts block start (s :: rest))
    (putRows block start (s :: rest)) (Rows block start (s.ids ++ Stmt.idsAll rest)) := by
  obtain ⟨fresh, apart⟩ := nodup_cons.mp distinct
  have notHere : block ∉ s.ids := fun inside => fresh (mem_append_left _ inside)
  have notLater : block ∉ Stmt.idsAll rest := fun inside => fresh (mem_append_right _ inside)
  have disjoint : ∀ region, Within s.ids region → ¬ Rows block (start + 1) (Stmt.idsAll rest) region := by
    intro region inside later
    have twice := (nodup_append.mp apart).2.2 _ inside
    cases region with
    | expr => exact twice _ later rfl
    | window =>
      rcases later with later | later
      · exact notHere (later.1 ▸ inside)
      · exact twice _ later rfl
  have tail := head.bind (fun u => others.map (u :: ·)) disjoint
  have cons : ∀ region made, region.isExpr = r.lhs.body.isExpr → (∀ size, region ≠ .window block start size) →
      putRows block start (s :: rest) region made =
        (region.hooks made).remake s :: putRows block (start + 1) rest region made := by
    intro region made kind other
    refine putRows_cons (kind.trans stmts) other fun here => head.outside region made kind fun inside => ?_
    exact notHere (here ▸ inside)
  have started : ∀ size, ¬ (Within s.ids (.window block start size) ∨
      Rows block (start + 1) (Stmt.idsAll rest) (.window block start size)) := by
    rintro size (inside | ⟨_, later⟩ | inside)
    · exact notHere inside
    · exact absurd later (Nat.not_succ_le_self start)
    · exact notLater inside
  have alike : ∀ region made, region.isExpr = r.lhs.body.isExpr →
      (Within s.ids region ∨ Rows block (start + 1) (Stmt.idsAll rest) region) →
      (region.hooks made).remake s :: putRows block (start + 1) rest region made =
        putRows block start (s :: rest) region made :=
    fun region made kind inside => (cons region made kind fun size here => started size (here ▸ inside)).symm
  have outside : ∀ region made, region.isExpr = r.lhs.body.isExpr →
      ¬ Rows block start (s.ids ++ Stmt.idsAll rest) region → putRows block start (s :: rest) region made = s :: rest := by
    intro region made kind foreign
    rw [cons region made kind fun size here => foreign (here ▸ .inl ⟨rfl, Nat.le_refl start⟩)]
    rw [head.outside region made kind fun inside => foreign (.tail (.inl inside)),
      others.outside region made kind fun inside => foreign (.tail (.inr inside))]
  cases matched : r.lhs.match? (.stmts ((s :: rest).take r.lhs.body.window)) with
  | none =>
    have none : r.lhs.inStmts block start (s :: rest) = r.lhs.inStmt s ++ r.lhs.inStmts block (start + 1) rest := by
      simp [Pattern.inStmts, atStart_eq some_, matched]
    rw [none]
    refine (tail.of_run_eq fun t => ?_).recast alike (fun _ => .tail) outside
    have window : (r.replaceWindow? (some n) (s :: rest)).run.run t = (.ok Option.none, t) := by
      rw [run_replaceWindow?, matched, ite_self]
    exact run_bind_of_ok window
  | some c =>
    have one : r.lhs.inStmts block start (s :: rest) = ⟨.window block start r.lhs.body.window, c⟩ ::
        (r.lhs.inStmt s ++ r.lhs.inStmts block (start + 1) rest) := by
      simp [Pattern.inStmts, atStart_eq some_, matched]
    rw [one]
    refine tail.after (fun t done => inStmts_done done 0 _) (fun t none here => ?_) (fun t none later => ?_) stmts.symm
      (.inl ⟨rfl, Nat.le_refl start⟩) (fun _ => .tail) alike outside
    · refine (run_bind _ _ t).trans ?_
      rw [run_replaceWindow?, if_neg (by omega), matched]
      simp only [here, if_true]
      rcases drawn : (r.instantiate c).run.run t with ⟨_ | made, t'⟩
      · rfl
      · have done := replaced_of_instantiate drawn
        cases made with
        | stmts new =>
          refine (run_bind_of_ok (inStmts_done done _ rest)).trans ?_
          exact congrArg (fun made => (Except.ok made, t')) (putRows_start some_ s rest new).symm
        | expr e =>
          have left := head.outside (.window block start r.lhs.body.window) (.expr e) stmts.symm notHere
          have right := others.outside (.window block start r.lhs.body.window) (.expr e) stmts.symm
            fun inside => started _ (.inr inside)
          have unchanged := (onStmts_cons rfl (.expr e) s rest).trans (congrArg₂ List.cons left right)
          exact (tail.done t' done).trans (congrArg (fun made => (Except.ok made, t')) unchanged.symm)
    · have window : (r.replaceWindow? (some n) (s :: rest)).run.run t = (.ok Option.none, { t with passed := t.passed + 1 }) := by
        rw [run_replaceWindow?, if_neg (by omega), matched]
        exact if_neg later
      exact run_bind_of_ok window

mutual

/-- The search for statements goes through a statement as the list of all occurrences does. -/
theorem visits_inStmt (stmts : r.lhs.body.isExpr = false) (some_ : 0 < r.lhs.body.window) : (s : Stmt) →
    s.ids.Nodup → r.Visits n (r.inStmt (some n) s) s (r.lhs.inStmt s)
      (fun region made => (region.hooks made).remake s) (Within s.ids)
  | .when _ _ body, distinct | .loop _ _ body, distinct | .each _ _ _ body, distinct | .scope _ _ _ body, distinct => by
    have apart := (nodup_cons.mp distinct).2.of_append_right
    exact ((visits_inBlock stmts some_ body apart).map _).congr (by simp [Pattern.inStmt, inExprs_of_stmts stmts])
      (fun _ _ _ => rfl) fun _ inside => mem_cons_of_mem _ (mem_append_right _ inside)
  | .branch node test ift iff, distinct => by
    have apart := (nodup_cons.mp distinct).2.of_append_right
    exact (visits_two (Stmt.branch node test) (visits_inBlock stmts some_ ift) (visits_inBlock stmts some_ iff)
      apart).congr (by simp [Pattern.inStmt, inExprs_of_stmts stmts]) (fun _ _ _ => rfl)
      fun _ inside => mem_cons_of_mem _ (mem_append_right _ inside)
  | .assign .., _ | .store .., _ | .assert .., _ | .effect .., _ | .ret .., _ | .skip .., _ =>
    (visits_pure _).congr (by simp [Pattern.inStmt, inExprs_of_stmts stmts]) (fun _ _ _ => rfl) fun _ => id

theorem visits_inBlock (stmts : r.lhs.body.isExpr = false) (some_ : 0 < r.lhs.body.window) : (b : Block) →
    b.ids.Nodup → r.Visits n (r.inBlock (some n) b) b (r.lhs.inBlock b)
      (fun region made => (region.hooks made).onBlock b) (Within b.ids)
  | ⟨id, body⟩, distinct => by
    refine ((visits_inStmts stmts some_ id 0 body distinct).map (Block.mk id)).congr rfl
      (fun region made kind => ?_) fun region inside => ?_
    · cases region with
      | expr => rw [stmts] at kind; nomatch kind
      | window block first size =>
        cases made with
        | expr => rfl
        | stmts new =>
          by_cases here : block = id
          · subst here
            have whole : putRows block 0 body (.window block first size) (.stmts new) =
                body.take first ++ new ++ body.drop (first + size) := by simp [putRows]
            rw [whole]
            exact (if_pos rfl).symm
          · have inner : putRows id 0 body (.window block first size) (.stmts new) =
                ((Region.window block first size).hooks (.stmts new)).onStmts body := if_neg fun both => here both.1
            rw [inner]
            exact (if_neg fun same => here same.symm).symm
    · cases region with
      | expr => exact mem_cons_of_mem _ inside
      | window => exact inside.elim (fun here => here.1 ▸ mem_cons_self) (mem_cons_of_mem _)

theorem visits_inStmts (stmts : r.lhs.body.isExpr = false) (some_ : 0 < r.lhs.body.window) (block : NodeId)
    (start : Nat) : (body : List Stmt) → (block :: Stmt.idsAll body).Nodup →
    r.Visits n (r.inStmts (some n) 0 body) body (r.lhs.inStmts block start body) (putRows block start body)
      (Rows block start (Stmt.idsAll body))
  | [], _ => by
    have nothing : r.Visits n (pure []) ([] : List Stmt) [] (fun _ _ => []) fun _ => False := visits_pure []
    refine nothing.recast (fun _ _ _ => False.elim) (fun _ => False.elim) fun region made kind foreign => ?_
    cases region with
    | expr => rw [stmts] at kind; nomatch kind
    | window =>
      cases made with
      | expr => rfl
      | stmts => exact if_neg fun here => foreign (.inl here)
  | s :: rest, distinct => by
    obtain ⟨fresh, apart⟩ := nodup_cons.mp distinct
    have later := nodup_cons.mpr ⟨fun inside => fresh (mem_append_right _ inside), apart.of_append_right⟩
    exact visits_cons stmts some_ distinct (visits_inStmt stmts some_ s apart.of_append_left)
      (visits_inStmts stmts some_ block (start + 1) rest later)

end

end Stmts

/-- Both sides of a rule are expressions, or both are statements, and at least one. -/
structure Valid (r : Rule) : Prop where
  same : r.lhs.body.isExpr = r.rhs.body.isExpr
  lhs : r.lhs.body ≠ .stmts []
  rhs : r.rhs.body ≠ .stmts []

variable {f : Func}

theorem body_ne_nil {p : Pattern} (read : Pattern.ofFunc f = .ok p) : p.body ≠ .stmts [] := by
  unfold Pattern.ofFunc at read
  split at read
  · rename_i only
    obtain ⟨vars, _, read⟩ := bind_ok.mp read
    rw [only] at read
    cases read
    exact nofun
  · obtain ⟨vars, _, read⟩ := bind_ok.mp read
    dsimp only at read
    split at read
    · cases read
    · rename_i some_
      cases read
      exact fun empty => some_ (by rw [Fragment.stmts.inj empty]; rfl)

theorem valid_of_ofFuncs {name : String} (built : ofFuncs name f g = .ok r) : r.Valid := by
  obtain ⟨lhs, left, built⟩ := bind_ok.mp built
  obtain ⟨rhs, right, built⟩ := bind_ok.mp built
  unfold build at built
  split at built
  · cases built
    exact ⟨‹_›, body_ne_nil left, body_ne_nil right⟩
  · cases built

theorem Valid.inverse (valid : r.Valid) : r.inverse.Valid := ⟨valid.same.symm, valid.rhs, valid.lhs⟩

theorem visits_inFunc (valid : r.Valid) (distinct : f.ids.Nodup) : r.Visits n (r.inFunc (some n) f) f (r.occurrences f)
    f.put (Within f.body.ids) := by
  obtain ⟨_, _, _, body, _, _, _, _, _⟩ := f
  have inner : body.ids.Nodup := (nodup_cons.mp distinct).2.of_append_right
  unfold inFunc
  cases isExpr : r.lhs.body.isExpr with
  | true =>
    rw [if_pos rfl]
    exact ((visits_onBlock isExpr body inner).map fun body => _).congr rfl (fun _ _ _ => rfl) fun _ => id
  | false =>
    have some_ : 0 < r.lhs.body.window := by
      cases lhs : r.lhs.body with
      | expr => simp [lhs, Fragment.isExpr] at isExpr
      | stmts l => exact List.length_pos_iff.mpr fun empty => valid.lhs (empty ▸ lhs)
    rw [if_neg Bool.false_ne_true]
    exact ((visits_inBlock isExpr some_ body inner).map fun body => _).congr rfl (fun _ _ _ => rfl) fun _ => id

/-- Applying a rule at the occurrence with a given number puts a new instance of the right side, made of what was
captured there, in the place of that occurrence, and leaves all else. There must be so many occurrences. -/
theorem apply_eq (r : Rule) (valid : r.Valid) (f : Func) (distinct : f.ids.Nodup) (i next : Nat) :
    (r.apply f i).run next =
      match (r.occurrences f)[i]? with
      | none => (.error (.noOccurrence r.name i (r.occurrences f).length), next)
      | some occ =>
        match (r.rhs.freshInstance occ.capture (.ofFunc f)).1 with
        | .error e => (.error e, next)
        | .ok made =>
          let (copy, next') := made.refresh.run next
          (.ok (f.put occ.region copy, ⟨(r.occurrences f).length, 1⟩), next') := by
  cases found : (r.occurrences f)[i]? with
  | none =>
    have few := List.getElem?_eq_none_iff.mp found
    simp only [apply, Nat.not_lt.mpr few, if_false]
    rfl
  | some occ =>
    have enough := (List.getElem?_eq_some_iff.mp found).1
    have hit := (visits_inFunc valid distinct).hits { next := next, names := .ofFunc f } rfl i occ found (Nat.zero_add i)
    have started : (r.run (some i) f).run next =
        let ran := (r.inFunc (some i) f).run.run { next := next, names := .ofFunc f }
        (ran.1.map fun made => (made, ⟨(r.occurrences f).length, ran.2.replaced⟩), ran.2.next) := rfl
    simp only [apply, enough, if_true]
    rw [started, hit, run_instantiate]
    rcases r.rhs.freshInstance occ.capture (.ofFunc f) with ⟨_ | made, names⟩
    · rfl
    · rfl

open Sample in
def plusZero : Except Error Rule :=
  ofFuncs "plusZero" (func ["x"] [] [.effect (node 10) (add 11 (var 12 "x") (int 13 0))])
    (func ["x"] [] [.effect (node 10) (var 11 "x")])

open Sample in
def addingZero : Func :=
  func ["a"] [] [
    set 10 "b" (add 11 (add 12 (var 13 "a") (int 14 0)) (int 15 0)),
    .ret (node 16) (add 17 (var 18 "b") (int 19 0))]

theorem apply_eq_addingZero : ∃ r, plusZero = .ok r ∧ r.Valid ∧ addingZero.ids.Nodup ∧
    (r.apply addingZero 1).run 20 = (.ok (addingZero.put (.expr ⟨12⟩) (.expr (Sample.var 20 "a")), ⟨3, 1⟩), 21) ∧
    (r.apply addingZero 3).run 20 = (.error (.noOccurrence "plusZero" 3 3), 20) := by
  obtain ⟨r, built⟩ : ∃ r, plusZero = .ok r := ⟨_, rfl⟩
  have valid := valid_of_ofFuncs built
  have distinct : addingZero.ids.Nodup := by decide
  refine ⟨r, built, valid, distinct, ?_, ?_⟩
  · rw [apply_eq r valid addingZero distinct 1 20]
    cases built
    rfl
  · rw [apply_eq r valid addingZero distinct 3 20]
    cases built
    rfl

end Rule

end NumLang
