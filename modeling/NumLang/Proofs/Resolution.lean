import NumLang.Flow.Uses
import NumLang.Proofs.FlowInvariant
import NumLang.Proofs.Sites

/-!
Resolved uses. Whatever a statement reads is a use that was resolved in the environment at the point where the statement
evaluates its expressions.
-/

namespace NumLang

variable {es : List Expr}

namespace Uses

variable {reach : Reaching} {stmt : NodeId}

/-- Uses that are all good, no more of them at a node than the node is found among the given ones. -/
structure Gathered (good : Use → Prop) (us : List Use) (ids : List NodeId) : Prop where
  each : ∀ use ∈ us, good use
  count : ∀ id, (us.map (·.site.node)).count id ≤ ids.count id

namespace Gathered

variable {good better : Use → Prop} {us others : List Use} {ids more : List NodeId}

theorem nil (ids : List NodeId) : Gathered good [] ids :=
  ⟨nofun, fun _ => Nat.zero_le _⟩

theorem append (left : Gathered good us ids) (right : Gathered good others more) :
    Gathered good (us ++ others) (ids ++ more) := by
  constructor
  · intro use mem
    exact (mem_append.mp mem).elim (left.each use) (right.each use)
  · intro id
    have := left.count id
    have := right.count id
    simp only [map_append, count_append]
    omega

theorem below (node : NodeId) (inside : Gathered good us ids) : Gathered good us (node :: ids) := by
  refine ⟨inside.each, fun id => Nat.le_trans (inside.count id) ?_⟩
  exact List.count_le_count_cons

theorem above {use : Use} (inside : Gathered good us ids) (own : good use) :
    Gathered good (us ++ [use]) (use.site.node :: ids) := by
  constructor
  · intro other mem
    rcases mem_append.mp mem with earlier | last
    · exact inside.each other earlier
    · cases mem_singleton.mp last
      exact own
  · intro id
    have := inside.count id
    simp only [map_append, map_cons, map_nil, count_append, count_cons, count_nil]
    omega

theorem imp (inside : Gathered good us ids) (stronger : ∀ use, good use → better use) : Gathered better us ids :=
  ⟨fun use mem => stronger use (inside.each use mem), inside.count⟩

end Gathered

def Bounded (reach : Reaching) (env : NameMap DefId) : Prop := ∀ n d, env.get? n = some d → d ≤ reach.size

variable {env : NameMap DefId} {us : List Use} {Q : NameMap DefId → Prop} {use : Use} {s : Stmt} {f : Func}
  {notes : Notes} {u : Uses} {site : NodeId} {name : Name}

theorem bounded_bindTargets (bounded : Bounded reach env) (bound : bindTargets reach site names env = .ok inside) :
    Bounded reach inside := by
  induction names generalizing env with
  | nil =>
    cases bound
    exact bounded
  | cons n rest ih =>
    unfold bindTargets at bound
    split at bound
    · rename_i d found
      refine ih ?_ bound
      intro x e held
      rw [OrdMap.get?_insert] at held
      split at held
      · cases held
        obtain ⟨_, defined, _⟩ := Reaching.mem_select_iff.mp (mem_of_find?_eq_some found)
        exact Nat.le_of_lt (List.getElem?_eq_some_iff.mp defined).1
      · exact bounded x e held
    · cases bound

theorem resolve_ok {site : UseSite} (resolved : resolve env name site = .ok us) :
    ∃ d, env.get? name = some d ∧ us = [⟨site, d, env⟩] := by
  unfold resolve at resolved
  split at resolved
  · rename_i d found
    cases resolved
    exact ⟨d, found, rfl⟩
  · cases resolved

/-- A property of all environments that uses are resolved in. -/
structure Prevails (reach : Reaching) (Q : NameMap DefId → Prop) : Prop where
  placed : ∀ {p env}, reach.envAt? p = some env → Q env
  bind : ∀ {site names env inside}, Q env → bindTargets reach site names env = .ok inside → Q inside

/-- A name that is read or called at a node is used, in an environment with a property. -/
structure Cites (Q : NameMap DefId → Prop) (at_node : NodeId → Name → Prop) (use : Use) : Prop where
  env : Q use.env
  name : ∃ n, use.env.get? n = some use.definition ∧ at_node use.site.node n

def citedIn (es : List Expr) (node : NodeId) (n : Name) : Prop :=
  ∃ part ∈ Expr.allOf es, part.id = node ∧ n ∈ part.reads ++ part.calls

def citedAt (stmts : List Stmt) (node : NodeId) (n : Name) : Prop :=
  ∃ s ∈ stmts, (s.id = node ∧ n ∈ s.reads) ∨ citedIn s.exprs node n

theorem Cites.mono (cites : Cites Q at_node use) (wider : ∀ node n, at_node node n → more node n) :
    Cites Q more use := by
  obtain ⟨env, n, held, here⟩ := cites
  exact ⟨env, n, held, wider _ n here⟩

theorem citedIn_mono (inside : ∀ part ∈ Expr.allOf es, part ∈ Expr.allOf others) (node : NodeId) (n : Name) :
    citedIn es node n → citedIn others node n
  | ⟨part, mem, here⟩ => ⟨part, inside part mem, here⟩

section Rows

theorem ofExprs_append (first others : List Expr) : ofExprs reach stmt env (first ++ others) =
    do return (← ofExprs reach stmt env first) ++ (← ofExprs reach stmt env others) := by
  induction first with
  | nil => simp [ofExprs]
  | cons e rest ih => simp only [cons_append, ofExprs, ih, bind_assoc, pure_bind, append_assoc]

theorem ofKeyed_eq (es : List (String × Expr)) :
    ofKeyed reach stmt env es = ofExprs reach stmt env (es.map Prod.snd) := by
  induction es with
  | nil => rfl
  | cons entry rest ih => simp [ofKeyed, ofExprs, ih]

theorem ofOption_eq (e : Option Expr) : ofOption reach stmt env e = ofExprs reach stmt env e.toList := by
  cases e <;> simp [ofOption, ofExprs]

/-- The use that a call makes of its name, if that is in force. -/
def ofCalls (stmt : NodeId) (env : NameMap DefId) (e : Expr) : List Use :=
  e.calls.filterMap fun n => (env.get? n).map (⟨⟨e.id, stmt, .call⟩, ·, env⟩)

theorem ofCalls_cases (stmt : NodeId) (env : NameMap DefId) (e : Expr) : ofCalls stmt env e = [] ∨
    ∃ n d, n ∈ e.calls ∧ env.get? n = some d ∧ ofCalls stmt env e = [⟨⟨e.id, stmt, .call⟩, d, env⟩] := by
  cases e with
  | call node func callee args kwargs =>
    cases held : env.get? func with
    | none => exact .inl (by simp [ofCalls, Expr.calls, held])
    | some d => exact .inr ⟨func, d, by simp [Expr.calls], held, by simp [ofCalls, Expr.calls, held]⟩
  | _ => exact .inl rfl

/-- Where only the parts count, the parts are resolved in a row; a call may have a use of its own after them. -/
theorem ofExpr_eq_ofExprs (reach : Reaching) (stmt : NodeId) (env : NameMap DefId) {e : Expr}
    (parts : e.onlyParts = true) :
    ofExpr reach stmt env e = ofExprs reach stmt env e.children >>= fun inner => pure (inner ++ ofCalls stmt env e) := by
  cases e with
  | var | comprehension => cases parts
  | call node func callee args kwargs =>
    have row : ofExpr reach stmt env (.call node func callee args kwargs) =
        ofExprs reach stmt env (args ++ kwargs.map Prod.snd) >>= fun inner => if env.contains func then do
          return inner ++ (← resolve env func ⟨node.id, stmt, .call⟩) else return inner := by
      simp only [ofExprs_append, ← ofKeyed_eq, bind_assoc, pure_bind]
      rfl
    rw [row, Expr.children]
    cases held : env.get? func with
    | none => simp [OrdMap.contains, held, ofCalls, Expr.calls]
    | some d =>
      simp only [OrdMap.contains, held, Option.isSome_some, if_true, resolve, ofCalls, Expr.calls]
      simp [held, Expr.id, Expr.node]
  | _ =>
    simp only [Expr.children, ofExprs, ofExprs_append, ← ofKeyed_eq, ← ofOption_eq, bind_assoc, pure_bind, append_nil,
      ← append_assoc, ofCalls, Expr.calls, List.filterMap_nil, bind_pure]
    rfl

end Rows

section Gathering

theorem gathered_row (resolved : ofExprs reach stmt env es = .ok us)
    (each : ∀ e ∈ es, ∀ own, ofExpr reach stmt env e = .ok own → Gathered (Cites Q (citedIn [e])) own e.ids) :
    Gathered (Cites Q (citedIn es)) us (Expr.idsAll es) := by
  induction es generalizing us with
  | nil =>
    cases resolved
    exact .nil _
  | cons e rest ih =>
    simp only [ofExprs, bind_ok] at resolved
    obtain ⟨own, head, others, tail, result⟩ := resolved
    cases result
    have first := each e mem_cons_self own head
    have later := ih tail fun e later => each e (mem_cons_of_mem _ later)
    refine (first.imp fun use cites => cites.mono (citedIn_mono fun part mem => ?_)).append
      (later.imp fun use cites => cites.mono (citedIn_mono fun part mem => mem_append_right _ mem))
    rw [Expr.allOf, Expr.allOf, append_nil] at mem
    exact mem_append_left _ mem

/-- The uses in an expression are of names that are read or called there, at most one for each node. -/
theorem gathered_ofExpr (prevails : Prevails reach Q) (e : Expr) (good : Q env) :
    ofExpr reach stmt env e = .ok us → Gathered (Cites Q (citedIn [e])) us e.ids := by
  induction e using Expr.byChildren generalizing env us with
  | step e ih =>
    intro resolved
    have single : Expr.allOf [e] = e :: Expr.allOf e.children := by
      rw [Expr.allOf, Expr.allOf, append_nil, Expr.all_eq]
    have below : ∀ use, Cites Q (citedIn e.children) use → Cites Q (citedIn [e]) use := fun use cites =>
      cites.mono (citedIn_mono fun part mem => single ▸ mem_cons_of_mem _ mem)
    have here : ∀ n ∈ e.reads ++ e.calls, citedIn [e] e.id n := fun n own => ⟨e, single ▸ mem_cons_self, rfl, own⟩
    by_cases parts : e.onlyParts = true
    · rw [ofExpr_eq_ofExprs reach stmt env parts] at resolved
      obtain ⟨inner, row, result⟩ := bind_ok.mp resolved
      cases result
      have inside := (gathered_row row fun part mem _ => ih part mem good).imp below
      rw [Expr.ids_eq]
      rcases ofCalls_cases stmt env e with none | ⟨n, d, called, found, one⟩
      · simpa [none] using inside.below e.id
      · rw [one]
        exact inside.above ⟨good, n, found, here n (mem_append_right _ called)⟩
    · cases e with
      | var node name =>
        obtain ⟨d, found, rfl⟩ := resolve_ok resolved
        exact (Gathered.nil []).above ⟨good, name, found, here name (by simp [Expr.reads])⟩
      | comprehension node targets iterables elt =>
        obtain ⟨outer, first, resolved⟩ := bind_ok.mp resolved
        obtain ⟨within, bound, resolved⟩ := bind_ok.mp resolved
        obtain ⟨inner, last, ⟨⟩⟩ := bind_ok.mp resolved
        have rows := gathered_row first fun part mem _ => ih part (mem_append_left _ mem) good
        have element := ih elt (mem_append_right _ mem_cons_self) (prevails.bind good bound) last
        refine (Gathered.append (rows.imp fun use cites => below use (cites.mono (citedIn_mono fun part mem => ?_)))
          (element.imp fun use cites => below use (cites.mono (citedIn_mono fun part mem => ?_)))).below node.id
        · rw [Expr.children, Expr.allOf_append]
          exact mem_append_left _ mem
        · rw [Expr.children, Expr.allOf_append]
          exact mem_append_right _ mem
      | _ => exact absurd rfl parts

theorem gathered_ofExprs (prevails : Prevails reach Q) (es : List Expr) (good : Q env)
    (resolved : ofExprs reach stmt env es = .ok us) : Gathered (Cites Q (citedIn es)) us (Expr.idsAll es) :=
  gathered_row resolved fun e _ _ => gathered_ofExpr prevails e good

end Gathering

def Lists (reach : Reaching) (stmt : NodeId) (env : NameMap DefId) (us : List Use) (e : Expr) : Prop :=
  ∃ own, ofExpr reach stmt env e = .ok own ∧ ∀ use ∈ own, use ∈ us

section Parts

variable {own : List Use} {e part : Expr}

theorem lists_of_exprs (resolved : ofExprs reach stmt env es = .ok own) (inside : ∀ use ∈ own, use ∈ us) :
    ∀ e ∈ es, Lists reach stmt env us e := by
  induction es generalizing own with
  | nil => simp
  | cons first rest ih =>
    simp only [ofExprs, bind_ok] at resolved
    obtain ⟨head, headed, tail, tailed, result⟩ := resolved
    cases result
    intro e mem
    rcases mem_cons.mp mem with rfl | later
    · exact ⟨head, headed, fun use listed => inside use (mem_append_left _ listed)⟩
    · exact ih tailed (fun use listed => inside use (mem_append_right _ listed)) e later

theorem Lists.child (listed : Lists reach stmt env us e) (parts : e.onlyParts = true) (mem : part ∈ e.children) :
    Lists reach stmt env us part := by
  obtain ⟨own, resolved, inside⟩ := listed
  rw [ofExpr_eq_ofExprs reach stmt env parts] at resolved
  obtain ⟨inner, row, result⟩ := bind_ok.mp resolved
  cases result
  exact lists_of_exprs row (fun use found => inside use (mem_append_left _ found)) part mem

theorem Lists.operand (listed : Lists reach stmt env us e) (mem : part ∈ e.operands) :
    Lists reach stmt env us part :=
  listed.child (Expr.mem_children_of_operands mem).1 (Expr.mem_children_of_operands mem).2

theorem Lists.var {node : Node} (listed : Lists reach stmt env us (.var node name)) :
    ∃ d, env.get? name = some d ∧ ⟨⟨node.id, stmt, .var⟩, d, env⟩ ∈ us := by
  obtain ⟨own, resolved, inside⟩ := listed
  obtain ⟨d, found, rfl⟩ := resolve_ok resolved
  exact ⟨d, found, inside _ mem_cons_self⟩

end Parts

/-- What a statement reads by itself is among the given uses, in the environment where it is evaluated. -/
structure Reads (reach : Reaching) (us : List Use) (s : Stmt) (env : NameMap DefId) : Prop where
  located : reach.envAt? s.point = some env
  exprs : ∀ e ∈ s.exprs, Lists reach s.id env us e
  held : ∀ node name path value, s = .store node name path value →
    ∃ d, env.get? name = some d ∧ ⟨⟨node.id, s.id, .stored⟩, d, env⟩ ∈ us

theorem Reads.mono (reads : Reads reach us s env) (inside : ∀ use ∈ us, use ∈ more) : Reads reach more s env := by
  refine ⟨reads.located, ?_, ?_⟩
  · intro e mem
    obtain ⟨own, resolved, listed⟩ := reads.exprs e mem
    exact ⟨own, resolved, fun use found => inside use (listed use found)⟩
  · intro node name path value same
    obtain ⟨d, found, stored⟩ := reads.held node name path value same
    exact ⟨d, found, inside _ stored⟩

theorem envOf_ok {id : NodeId} (found : envOf reach id = .ok env) : reach.envAt? (.stmt id) = some env := by
  unfold envOf at found
  split at found
  · cases found
    assumption
  · cases found

theorem headOf_ok (loop : NodeId) (found : headOf reach body = .ok env) :
    reach.envAt? (.test loop body) = some env := by
  unfold headOf at found
  split at found
  · cases found
    assumption
  · cases found

def envFor (reach : Reaching) : Stmt → Except Error (NameMap DefId)
  | .loop node _ body => do
    let _ ← envOf reach node.id
    headOf reach body.id
  | s => envOf reach s.id

theorem envFor_ok (found : envFor reach s = .ok env) : reach.envAt? s.point = some env := by
  cases s with
  | loop node test body =>
    obtain ⟨_, _, found⟩ := bind_ok.mp found
    exact headOf_ok node.id found
  | _ => exact envOf_ok found

def ofStored (env : NameMap DefId) : Stmt → Except Error (List Use)
  | .store node name _ _ => resolve env name ⟨node.id, node.id, .stored⟩
  | _ => pure []

theorem ofBlock_eq (b : Block) : ofBlock reach b = ofStmts reach b.stmts := by
  cases b
  rfl

theorem ofStmts_append (first others : List Stmt) :
    ofStmts reach (first ++ others) = do return (← ofStmts reach first) ++ (← ofStmts reach others) := by
  induction first with
  | nil => simp [ofStmts]
  | cons s rest ih => simp only [cons_append, ofStmts, ih, bind_assoc, pure_bind, append_assoc]

theorem ofStmt_eq (reach : Reaching) (s : Stmt) : ofStmt reach s = do
    let env ← envFor reach s
    let own ← ofExprs reach s.id env s.exprs
    let stored ← ofStored env s
    return own ++ stored ++ (← ofStmts reach (s.blocks.flatMap Block.stmts)) := by
  cases s <;> simp [ofStmt, envFor, ofStored, Stmt.exprs, Stmt.blocks, Stmt.id, Stmt.node, ofExprs, ofExprs_append,
    ofOption_eq, ofStmts, ofStmts_append, ofBlock_eq, -bind_pure_comp]

/-- All uses in a part of a program: none is missing, and no node has two of them. -/
structure Complete (reach : Reaching) (Q : NameMap DefId → Prop) (us : List Use) (ids : List NodeId) (stmts : List Stmt) :
    Prop where
  gathered : Gathered (Cites Q (citedAt stmts)) us ids
  reads : ∀ s ∈ stmts, ∃ env, Reads reach us s env

namespace Complete

theorem nil : Complete reach Q [] [] [] := ⟨.nil [], nofun⟩

theorem append (left : Complete reach Q us ids first) (right : Complete reach Q others more rest) :
    Complete reach Q (us ++ others) (ids ++ more) (first ++ rest) := by
  constructor
  · refine (left.gathered.imp fun use cites => cites.mono ?_).append (right.gathered.imp fun use cites => cites.mono ?_)
    · exact fun _ _ ⟨s, mem, here⟩ => ⟨s, mem_append_left _ mem, here⟩
    · exact fun _ _ ⟨s, mem, here⟩ => ⟨s, mem_append_right _ mem, here⟩
  · intro s mem
    rcases mem_append.mp mem with mem | mem
    · obtain ⟨env, reads⟩ := left.reads s mem
      exact ⟨env, reads.mono fun _ => mem_append_left _⟩
    · obtain ⟨env, reads⟩ := right.reads s mem
      exact ⟨env, reads.mono fun _ => mem_append_right _⟩

theorem own (prevails : Prevails reach Q) (found : envFor reach s = .ok env)
    (evaluated : ofExprs reach s.id env s.exprs = .ok us) (written : ofStored env s = .ok stored) :
    Complete reach Q (us ++ stored) (s.id :: Expr.idsAll s.exprs) [s] := by
  have located := envFor_ok found
  have inside : Gathered (Cites Q (citedAt [s])) us (Expr.idsAll s.exprs) :=
    (gathered_ofExprs prevails s.exprs (prevails.placed located) evaluated).imp fun use cites =>
      cites.mono fun _ _ here => ⟨s, mem_cons_self, .inr here⟩
  have exprs : ∀ e ∈ s.exprs, Lists reach s.id env (us ++ stored) e :=
    lists_of_exprs evaluated fun use mem => mem_append_left _ mem
  cases s with
  | store node name path value =>
    obtain ⟨d, held, rfl⟩ := resolve_ok written
    refine ⟨inside.above ⟨prevails.placed located, name, held, _, mem_cons_self, .inl ⟨rfl, mem_cons_self⟩⟩,
      forall_mem_singleton.mpr ⟨env, located, exprs, ?_⟩⟩
    rintro _ _ _ _ ⟨⟩
    exact ⟨d, held, mem_append_right _ mem_cons_self⟩
  | _ =>
    cases written
    rw [append_nil] at exprs ⊢
    exact ⟨inside.below _, forall_mem_singleton.mpr ⟨env, located, exprs, nofun⟩⟩

theorem blocks {bs : List Block} (each : ∀ b ∈ bs, ∀ {us : List Use}, ofStmts reach b.stmts = .ok us →
      Complete reach Q us (Stmt.idsAll b.stmts) (Stmt.allOf b.stmts))
    (resolved : ofStmts reach (bs.flatMap Block.stmts) = .ok us) :
    Complete reach Q us (bs.flatMap Block.ids) (bs.flatMap Block.all) := by
  induction bs generalizing us with
  | nil =>
    cases resolved
    exact .nil
  | cons b rest ih =>
    rw [flatMap_cons, ofStmts_append] at resolved
    obtain ⟨first, head, resolved⟩ := bind_ok.mp resolved
    obtain ⟨others, tail, result⟩ := bind_ok.mp resolved
    cases result
    have inside := each b mem_cons_self head
    rw [flatMap_cons, flatMap_cons, b.ids_eq, b.all_eq]
    exact append ⟨inside.gathered.below b.id, inside.reads⟩ (ih (fun b later => each b (mem_cons_of_mem _ later)) tail)

end Complete

theorem complete_ofStmts (prevails : Prevails reach Q) (stmts : List Stmt) :
    ∀ {us : List Use}, ofStmts reach stmts = .ok us → Complete reach Q us (Stmt.idsAll stmts) (Stmt.allOf stmts) := by
  induction stmts using Stmt.byBlocks with
  | nil =>
    intro us resolved
    cases resolved
    exact .nil
  | cons s rest first later =>
    intro us resolved
    rw [← singleton_append, ofStmts_append] at resolved
    obtain ⟨own, head, resolved⟩ := bind_ok.mp resolved
    obtain ⟨others, tail, result⟩ := bind_ok.mp resolved
    cases result
    simpa [Stmt.idsAll, Stmt.allOf] using (first head).append (later tail)
  | step s inner =>
    intro us resolved
    simp only [ofStmts, ofStmt_eq, bind_ok] at resolved
    obtain ⟨_, ⟨env, found, own, evaluated, stored, written, below, inside, result⟩, _, none, whole⟩ := resolved
    cases result
    cases none
    cases whole
    have whole := (Complete.own prevails found evaluated written).append (.blocks inner inside)
    simpa [Stmt.idsAll, Stmt.allOf, s.ids_eq, s.all_eq] using whole

open Flow Reaching

theorem bounded_numberEnv (entry exit : Env) (notes : Notes) (env : Env) :
    Bounded (ofNotes entry exit notes) (numberEnv notes.records env) := by
  intro n d found
  obtain ⟨p, _, rfl⟩ := get?_numberEnv.mp found
  rw [Reaching.size, ofNotes, length_map]
  exact List.findIdx_le_length

theorem bounded_envAt? (survey : Survey f notes) (entry exit : Env)
    (located : (ofNotes entry exit notes).envAt? p = some env) : Bounded (ofNotes entry exit notes) env := by
  cases p with
  | stmt id =>
    obtain ⟨_, found, rfl⟩ := map_eq_some_iff.mp located
    obtain ⟨span, _, rfl⟩ := (get?_numberSpans survey.stmts).mp found
    exact bounded_numberEnv entry exit notes span.before
  | test loop body =>
    obtain ⟨_, found, rfl⟩ := map_eq_some_iff.mp located
    obtain ⟨span, _, rfl⟩ := (get?_numberSpans survey.blocks).mp found
    exact bounded_numberEnv entry exit notes span.before
  | draw loop =>
    obtain ⟨_, found, rfl⟩ := map_eq_some_iff.mp located
    obtain ⟨span, _, rfl⟩ := (get?_numberSpans survey.stmts).mp found
    exact bounded_numberEnv entry exit notes span.after

theorem complete_ofBlock (prevails : Prevails reach Q) {b : Block} (resolved : ofBlock reach b = .ok us) :
    Complete reach Q us b.ids b.all := by
  have inside := complete_ofStmts prevails b.stmts (ofBlock_eq b ▸ resolved)
  rw [b.ids_eq, b.all_eq]
  exact ⟨inside.gathered.below b.id, inside.reads⟩

/-- The uses in a function and the notes of it that they are resolved against. -/
structure Resolved (f : Func) (u : Uses) (notes : Notes) : Prop where
  survey : Survey f notes
  reach : ∃ exit, u.reach = ofNotes (entryOf f) exit notes
  complete : Complete u.reach (Bounded u.reach) u.uses f.body.ids f.body.all

theorem resolved_of_walk {exit : Env} {inner : Notes} (distinct : f.ids.Nodup) (found : Uses.ofFunc f = .ok u)
    (walked : Flow.ofBlock (entryOf f) f.body = .ok (exit, inner)) : Resolved f u ({ records := inputsOf f } ++ inner)
    := by
  obtain ⟨reach, analysed, found⟩ := bind_ok.mp found
  obtain ⟨us, resolved, result⟩ := bind_ok.mp found
  cases result
  obtain ⟨_, _, same, rfl⟩ := walk_of_func analysed
  cases walked.symm.trans same
  have survey := survey_of_walk distinct walked
  have prevails : Prevails (ofNotes (entryOf f) exit ({ records := inputsOf f } ++ inner)) (Bounded _) :=
    ⟨bounded_envAt? survey (entryOf f) exit, bounded_bindTargets⟩
  exact ⟨survey, ⟨exit, rfl⟩, complete_ofBlock prevails resolved⟩

theorem resolved_of_func (distinct : f.ids.Nodup) (found : Uses.ofFunc f = .ok u) : ∃ notes, Resolved f u notes := by
  obtain ⟨reach, analysed, _⟩ := bind_ok.mp found
  obtain ⟨exit, inner, walked, _⟩ := walk_of_func analysed
  exact ⟨_, resolved_of_walk distinct found walked⟩

section

variable (resolved : Resolved f u notes)

include resolved

theorem Resolved.def? {record : Record} (mem : record ∈ notes.records) :
    u.reach.def? (number notes.records record.place) = some (record.definition.map (number notes.records)) := by
  obtain ⟨exit, reach⟩ := resolved.reach
  rw [reach]
  exact resolved.survey.def? (entryOf f) exit mem

theorem Resolved.bounded (used : use ∈ u.uses) : use.definition ≤ u.reach.size := by
  obtain ⟨bounded, n, held, _⟩ := resolved.complete.gathered.each use used
  exact bounded n use.definition held

theorem Resolved.reads_of_seen (mem : s ∈ f.body.all) (seen : (notes.outline A fault).seen s.point c w) :
    ∃ env, A env w ∧ Reads u.reach u.uses s (numberEnv notes.records env) := by
  obtain ⟨exit, reach⟩ := resolved.reach
  obtain ⟨env, reads⟩ := resolved.complete.reads s mem
  obtain ⟨inForce, placed, holds⟩ := located_of_seen resolved.survey (entryOf f) exit seen
  have located := reads.located
  rw [reach, placed] at located
  cases located
  exact ⟨inForce, holds, reads⟩

theorem Resolved.unique {a b : Use} (first : a ∈ u.uses) (second : b ∈ u.uses) (same : a.site.node = b.site.node) :
    a = b := by
  have once : (u.uses.map (·.site.node)).Nodup := by
    refine nodup_iff_count.mpr fun id => ?_
    exact Nat.le_trans (resolved.complete.gathered.count id) (nodup_iff_count.mp resolved.survey.nodup_body id)
  exact List.inj_on_of_nodup_map once first second same

end

theorem mem_of_at? (found : u.at? node = some use) : use ∈ u.uses ∧ use.site.node = node := by
  rw [at?, List.findRev?_eq_find?_reverse] at found
  exact ⟨List.mem_reverse.mp (mem_of_find?_eq_some found), by simpa using find?_some found⟩

theorem Resolved.at?_eq (resolved : Resolved f u notes) (used : use ∈ u.uses) : u.at? use.site.node = some use := by
  cases found : u.at? use.site.node with
  | none =>
    rw [at?, List.findRev?_eq_find?_reverse] at found
    have absent := List.find?_eq_none.mp found use (List.mem_reverse.mpr used)
    simp at absent
  | some other =>
    obtain ⟨listed, same⟩ := mem_of_at? found
    rw [resolved.unique listed used same]

theorem Resolved.join_bounded (resolved : Resolved f u notes) (found : u.reach.def? d = some (.join name site lhs rhs))
    : ∀ e ∈ [lhs, rhs], e ≤ u.reach.size := by
  obtain ⟨exit, reach⟩ := resolved.reach
  have numbered : ∀ p, number notes.records p ≤ u.reach.size := by
    intro p
    rw [reach, Reaching.size, ofNotes, length_map]
    exact List.findIdx_le_length
  rw [reach] at found
  obtain ⟨⟨place, definition⟩, _, _, same⟩ := resolved.survey.def?_cases found
  cases definition with
  | assign name site prev => cases same
  | join name site first second =>
    cases same
    simpa using ⟨numbered first, numbered second⟩

end Uses

end NumLang
