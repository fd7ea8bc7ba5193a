import NumLang.Pass.BranchMerging
import NumLang.Proofs.Renaming

/-!
One branch that is merged.
-/

namespace NumLang

variable {b : Block} {V C : Type}

namespace BranchMerging

open Edit Machine Rebuild Stmt

def Straight (stmts : List Stmt) : Prop :=
  ∀ s ∈ stmts, (∃ node target ann value, s = .assign node target ann value) ∨ ∃ node, s = .skip node

theorem straight_of_isStraight (straight : isStraight b = true) : Straight b.stmts := by
  intro s mem
  have pure := all_eq_true.mp straight s mem
  cases s with
  | assign node target ann value => exact .inl ⟨node, target, ann, value, rfl⟩
  | skip node => exact .inr ⟨node, rfl⟩
  | _ => cases pure

/-- What is known of statements that were carried over to new names: which names have new ones, and that an
execution of them fails at one of the statements or goes along with an execution of the statements, without
touching a name that was in use. -/
structure Copies (m : Machine V C) (old : Name → Prop) (table : NameMap Name) (stmts : List Stmt) (s : Edit.State)
    (out : List Stmt) (last : NameMap Name) (s' : Edit.State) : Prop where
  grows : Grows s s'
  fresh : last.Fresh old s'
  within : Within s'.names.used (Stmt.names out)
  kept : ∀ n, n ∉ stmts.flatMap Stmt.binds → last.get? n = table.get? n
  covered : ∀ n ∈ stmts.flatMap Stmt.binds, (last.get? n).isSome = true
  runs : ∀ c fuel (a b : Store V), Carries old table.toRenaming a b →
    (m.execStmts out c ⟨b, fuel⟩).FailsAt (· ∈ stmts.map Stmt.id) ∨
    ∃ a' b', (m.execStmts stmts c ⟨a, fuel⟩).Goes ⟨a', fuel⟩ ∧ (m.execStmts out c ⟨b, fuel⟩).Goes ⟨b', fuel⟩ ∧
      Carries old last.toRenaming a' b' ∧ (∀ n ∈ s.names.used, b'.value? n = b.value? n) ∧
      ∀ n, n ∈ stmts.flatMap Stmt.binds ∨ (a.value? n).isSome = true → (a'.value? n).isSome = true

section Copies

variable {m : Machine V C} {old : Name → Prop} {table last : NameMap Name} {rest out : List Stmt} {s t s' : Edit.State}

theorem Copies.nil (fresh : table.Fresh old s) : Copies m old table [] s [] table s where
  grows := .refl s
  fresh := fresh
  within _ mem := nomatch mem
  kept _ _ := rfl
  covered _ mem := nomatch mem
  runs _ _ a b carries := .inr ⟨a, b, ⟨rfl, rfl⟩, ⟨rfl, rfl⟩, carries, fun _ _ => rfl, by simp⟩

theorem Copies.skip (copies : Copies m old table rest s out last s') (node : Node) :
    Copies m old table (.skip node :: rest) s out last s' := by
  refine ⟨copies.grows, copies.fresh, copies.within, copies.kept, copies.covered, ?_⟩
  intro c fuel a b carries
  rcases copies.runs c fuel a b carries with fails | ⟨a', b', goes, others⟩
  · exact .inl (fails.imp fun id listed => mem_cons_of_mem _ listed)
  · refine .inr ⟨a', b', ?_, others⟩
    have still : (m.execStmts [.skip node] c ⟨a, fuel⟩).Goes ⟨a, fuel⟩ := ⟨rfl, rfl⟩
    exact goes_append still goes

theorem Copies.assign (shaped : m.Shaped) {table' : NameMap Name} {node : Node} {target : Binder} {value : Expr}
    (fresh : table.Fresh old s) (used : ∀ n, old n → n ∈ s.names.used) (bound : ∀ n ∈ target.names, old n)
    (read : ∀ n ∈ value.vars, old n) (drawn : Makes (refreshNames table target.names) s table' t)
    (copies : Copies m old table' rest t out last s') :
    Copies m old table (.assign node target ann value :: rest) s (.assign node (target.rename table'.toRenaming) ann
    (value.rename table.toRenaming) :: out) last s' := by
  obtain ⟨fresh', grows, covered, kept⟩ := makes_refreshNames fresh used drawn
  have new : ∀ n ∈ target.names, table'.toRenaming n ∉ s.names.used := by
    intro n mem
    obtain ⟨x, found, unused⟩ := covered n mem
    simpa [NameMap.toRenaming, found] using unused
  refine ⟨grows.trans copies.grows, copies.fresh, ?_, ?_, ?_, ?_⟩
  · rw [names_cons, within_append, names_single]
    refine ⟨?_, copies.within⟩
    simp only [ownNames, Stmt.binds, Stmt.exprs, Stmt.blocks, flatMap_cons, flatMap_nil,
      append_nil, Binder.names_rename, Expr.vars_copy _ (Expr.copy_rename _ value)]
    refine within_append.mpr ⟨?_, ?_⟩
    · intro x listed
      obtain ⟨n, mem, rfl⟩ := mem_map.mp listed
      exact copies.grows _ (fresh'.toRenaming_mem (fun n here => grows n (used n here)) (bound n mem))
    · intro x listed
      obtain ⟨n, mem, rfl⟩ := mem_map.mp listed
      exact copies.grows _ (grows _ (fresh.toRenaming_mem used (read n mem)))
  · intro n absent
    simp only [flatMap_cons, mem_append, not_or] at absent
    rw [copies.kept n absent.2, kept n absent.1]
  · intro n mem
    by_cases later : n ∈ rest.flatMap Stmt.binds
    · exact copies.covered n later
    · obtain ⟨x, found, _⟩ := covered n (by simpa [Stmt.binds, later] using mem)
      rw [copies.kept n later, found]
      rfl
  · intro c fuel a b carries
    have same : ∀ n ∈ value.uses, b.value? (table.toRenaming n) = a.value? n := fun n used =>
      carries n (read n (value.mem_vars_of_uses used))
    cases result : m.assigned c b (target.rename table'.toRenaming) (value.rename table.toRenaming) with
    | error f =>
      refine .inl (failsAt_first _ ((failsAt_assign result).imp fun id here => ?_))
      exact mem_cons.mpr (.inl here)
    | ok writes =>
      obtain ⟨values, fits, rfl, assigned⟩ := (assigned_copy shaped (Expr.copy_rename _ value) same).mp result
      have carries' : Carries old table'.toRenaming (a.writeAll ⟨.stmt, node.id⟩ (target.names.zip values))
          (b.writeAll ⟨.stmt, node.id⟩ ((target.names.map table'.toRenaming).zip values)) := by
        refine carries_writeAll fresh'.apart fits bound fun n here absent => ?_
        simpa [NameMap.toRenaming, kept n absent] using carries n here
      rcases copies.runs c fuel _ _ carries' with fails | ⟨a', b', first, second, carries', still, held⟩
      · refine .inl (failsAt_append (goes_assign result) (fails.imp fun id listed => ?_))
        exact mem_cons_of_mem _ listed
      · refine .inr ⟨a', b', goes_append (goes_assign assigned) first,
          goes_append (goes_assign result) second, carries', fun n mem => ?_, fun n present => ?_⟩
        · rw [still n (grows n mem)]
          refine Store.value?_writeAll_of_notMem fun listed => ?_
          rw [map_fst_zip (by simp [fits])] at listed
          obtain ⟨other, member', rfl⟩ := mem_map.mp listed
          exact new other member' mem
        · apply held
          by_cases later : n ∈ rest.flatMap Stmt.binds
          · exact .inl later
          · refine .inr (Store.isSome_value?_writeAll ?_)
            rw [map_fst_zip (Nat.le_of_eq fits.symm)]
            simpa [Stmt.binds, later] using present

theorem copies_of_speculate (shaped : m.Shaped) (straight : Straight stmts) (fresh : table.Fresh old s)
    (used : ∀ n, old n → n ∈ s.names.used) (inside : ∀ n ∈ Stmt.names stmts, old n)
    (made : Makes (speculate table stmts) s (out, last) s') : Copies m old table stmts s out last s' := by
  induction stmts generalizing table s out with
  | nil =>
    obtain ⟨same, rfl⟩ := makes_pure.mp made
    cases same
    exact .nil fresh
  | cons st rest ih =>
    have later : Straight rest := fun s mem => straight s (mem_cons_of_mem _ mem)
    rw [names_cons, forall_mem_append] at inside
    rcases straight st mem_cons_self with ⟨node, target, ann, value, rfl⟩ | ⟨node, rfl⟩
    · obtain ⟨table', t, drawn, made⟩ := makes_bind.mp made
      obtain ⟨⟨out', last'⟩, copied, same⟩ := makes_bind_pure made
      cases same
      obtain ⟨fresh', grows, _⟩ := makes_refreshNames fresh used drawn
      have own := inside.1
      simp only [names_single, ownNames, Stmt.binds, Stmt.exprs, Stmt.blocks, flatMap_cons,
        flatMap_nil, append_nil, forall_mem_append] at own
      refine .assign shaped fresh used own.1 own.2 drawn ?_
      exact ih later fresh' (fun n here => grows n (used n here)) inside.2 copied
    · exact (ih later fresh used inside.2 made).skip node

end Copies

def Chooses (test n taken other : Name) (st : Stmt) : Prop :=
  ∃ node inner x y z, st = .assign node (.name n) none (.cond inner (.var x test) (.var y taken) (.var z other))

variable {test : Name} {choice : Name → Option (Name × Name)} {names : List Name} {out : List Stmt}

theorem makes_choose {s s' : Edit.State} (made : Makes (choose test n taken other) s st s') :
    Chooses test n taken other st ∧ s'.names = s.names := by
  obtain ⟨x, t₁, first, made⟩ := makes_bind_made made
  obtain ⟨y, t₂, second, made⟩ := makes_bind_made made
  obtain ⟨z, t₃, third, made⟩ := makes_bind_made made
  obtain ⟨inner, t₄, fourth, made⟩ := makes_bind_node made
  obtain ⟨⟨node, rfl⟩, fifth⟩ := makes_made made
  exact ⟨⟨node, inner, x, y, z, rfl⟩, by rw [fifth, fourth, third, second, first]⟩

/-- Statements that choose the values of names, one after the other. -/
inductive Merges (choice : Name → Option (Name × Name)) (test : Name) : List Name → List Stmt → Prop where
  | nil : Merges choice test [] []
  | choose {n taken other st names out} (chosen : choice n = some (taken, other))
    (chooses : Chooses test n taken other st) (rest : Merges choice test names out) :
    Merges choice test (n :: names) (st :: out)
  | pass {n names out} (open_ : choice n = none) (rest : Merges choice test names out) :
    Merges choice test (n :: names) out

theorem makes_merges {s s' : Edit.State}

    (made : Makes (names.filterMapM fun n => do
      match choice n with
      | some (taken, other) => return some (← choose test n taken other)
      | none => return none) s out s') : Merges choice test names out ∧ s'.names = s.names := by
  induction names generalizing s out with
  | nil =>
    obtain ⟨rfl, rfl⟩ := makes_pure.mp made
    exact ⟨.nil, rfl⟩
  | cons n rest ih =>
    rw [List.filterMapM_cons] at made
    obtain ⟨result, t, first, later⟩ := makes_bind.mp made
    cases chosen : choice n with
    | none =>
      rw [chosen] at first
      obtain ⟨rfl, rfl⟩ := makes_pure.mp first
      obtain ⟨merges, same⟩ := ih later
      exact ⟨.pass chosen merges, same⟩
    | some p =>
      rw [chosen] at first
      obtain ⟨st, t', chosen', first⟩ := makes_bind.mp first
      obtain ⟨chooses, same⟩ := makes_choose chosen'
      obtain ⟨rfl, rfl⟩ := makes_pure.mp first
      obtain ⟨others, rest, rfl⟩ := makes_bind_pure later
      obtain ⟨merges, same'⟩ := ih rest
      exact ⟨.choose chosen chooses merges, same'.trans same⟩

theorem Merges.within (merges : Merges choice test names out) (inside : ∀ n ∈ names, n ∈ used) (held : test ∈ used)
    (drawn : ∀ n ∈ names, ∀ p, choice n = some p → p.1 ∈ used ∧ p.2 ∈ used) : Within used (Stmt.names out) := by
  induction merges with
  | nil => exact nofun
  | choose chosen chooses rest ih =>
    obtain ⟨node, inner, x, y, z, rfl⟩ := chooses
    obtain ⟨first, second⟩ := drawn _ mem_cons_self _ chosen
    have own := inside _ mem_cons_self
    rw [names_cons, within_append]
    refine ⟨?_, ih (fun n later => inside n (mem_cons_of_mem _ later)) fun n later => drawn n (mem_cons_of_mem _ later)⟩
    intro n mem
    simp only [names_single, ownNames, Stmt.binds, Stmt.exprs, Stmt.blocks, Binder.names, Expr.vars_eq,
      Expr.children, Expr.reads, flatMap_cons, flatMap_nil, append_nil, nil_append, cons_append, mem_cons,
      not_mem_nil, or_false] at mem
    rcases mem with rfl | rfl | rfl | rfl <;> assumption
  | pass _ _ ih =>
    exact ih (fun n later => inside n (mem_cons_of_mem _ later)) fun n later => drawn n (mem_cons_of_mem _ later)

theorem Merges.covers (merges : Merges choice test names out) (mem : n ∈ names) (chosen : choice n = some p) :
    ∃ st ∈ out, n ∈ st.binds := by
  induction merges with
  | nil => cases mem
  | choose _ chooses _ ih =>
    rcases mem_cons.mp mem with rfl | later
    · obtain ⟨node, inner, x, y, z, rfl⟩ := chooses
      exact ⟨_, mem_cons_self, mem_cons_self⟩
    · obtain ⟨st, listed, bound⟩ := ih later
      exact ⟨st, mem_cons_of_mem _ listed, bound⟩
  | pass missing _ ih =>
    rcases mem_cons.mp mem with rfl | later
    · rw [missing] at chosen
      cases chosen
    · exact ih later

def pick (holds : Bool) (p : Name × Name) : Name := if holds then p.1 else p.2

section Merges

variable {m : Machine V C} {c : C} {b : Store V} {e : Expr}

theorem eval_choice {taken other : Name} {inner x y z : Node} {v : V} {holds : Bool} (tested : b.value? test = some v)
    (truth : m.truth v = some holds) :
    m.eval c b (.cond inner (.var x test) (.var y taken) (.var z other)) = b.read (pick holds (taken, other)) := by
  have read : b.read test = .ok v := Store.read_eq_ok_iff.mpr tested
  rw [Machine.eval, Machine.eval, read]
  change (do if ← demand (m.truth v) then m.eval c b (.var y taken) else m.eval c b (.var z other)) = _
  rw [truth]
  cases holds <;> rfl

theorem assigned_name (shaped : m.Shaped) (computed : m.eval c b e = .ok u) :
    m.assigned c b (.name n) e = .ok [(n, u)] :=
  assigned_eq_ok_iff.mpr ⟨u, [u], computed, shaped.name n u, rfl, rfl⟩

theorem assigned_error (fails : m.eval c b e = .error f) : m.assigned c b target e = .error f := by
  rw [Machine.assigned, fails]
  rfl

/-- Names are chosen in any order: a choice reads only the test, new names and the name itself. -/
theorem runs_merges (shaped : m.Shaped) (merges : Merges choice test names out) (distinct : names.Nodup)
    (apart : test ∉ names) (own : ∀ n ∈ names, ∀ p holds, choice n = some p → pick holds p = n ∨ pick holds p ∉ names)
    (tested : b.value? test = some v) (truth : m.truth v = some holds) :
    (∃ n ∈ names, ∃ p, choice n = some p ∧ b.value? (pick holds p) = none ∧ (m.execStmts out c ⟨b, fuel⟩).FailsAt fun id
    => ∃ st ∈ out, st.id = id ∧ n ∈ st.binds) ∨ ∃ b', (m.execStmts out c ⟨b, fuel⟩).Goes ⟨b', fuel⟩ ∧ ∀ x, b'.value? x =
    if x ∈ names then (choice x).elim (b.value? x) fun p => b.value? (pick holds p) else b.value? x := by
  induction merges generalizing b with
  | nil => exact .inr ⟨b, ⟨rfl, rfl⟩, fun x => by simp⟩
  | @choose n taken other st names out chosen chooses rest ih =>
    obtain ⟨node, inner, x, y, z, rfl⟩ := chooses
    obtain ⟨absent, distinct⟩ := nodup_cons.mp distinct
    obtain ⟨differ, apart⟩ := not_or.mp fun listed => apart (mem_cons.mpr listed)
    have computed : m.eval c b (.cond inner (.var x test) (.var y taken) (.var z other)) =
        b.read (pick holds (taken, other)) := eval_choice tested truth
    cases held : b.value? (pick holds (taken, other)) with
    | none =>
      have fails : (m.execStmts [.assign node (.name n) none _] c ⟨b, fuel⟩).FailsAt (· = node.id) :=
        failsAt_assign (assigned_error (computed.trans (Store.read_of_none held)))
      refine .inl ⟨n, mem_cons_self, _, chosen, held, failsAt_first out (fails.imp ?_)⟩
      exact fun id here => ⟨_, mem_cons_self, here.symm, mem_cons_self⟩
    | some u =>
      have goes : (m.execStmts [.assign node (.name n) none _] c ⟨b, fuel⟩).Goes
          ⟨b.insert n ⟨u, ⟨.stmt, node.id⟩⟩, fuel⟩ :=
        goes_assign (assigned_name shaped (computed.trans (Store.read_eq_ok_iff.mpr held)))
      have later : ∀ n' ∈ names, ∀ p, choice n' = some p → pick holds p ≠ n := by
        intro n' mem p chosen' same
        rcases own n' (mem_cons_of_mem _ mem) p holds chosen' with itself | outside
        · exact absent (same ▸ itself ▸ mem)
        · exact outside (same ▸ mem_cons_self)
      rcases ih distinct apart (fun n' mem p holds chosen' =>
          (own n' (mem_cons_of_mem _ mem) p holds chosen').imp_right fun outside listed =>
            outside (mem_cons_of_mem _ listed))
          (b := b.insert n ⟨u, ⟨.stmt, node.id⟩⟩) (by simp [differ, tested]) with
        ⟨n', mem, p, chosen', missing, fails⟩ | ⟨b', goes', values⟩
      · refine .inl ⟨n', mem_cons_of_mem _ mem, p, chosen', ?_, ?_⟩
        · simpa [later n' mem p chosen'] using missing
        · refine failsAt_append goes (fails.imp ?_)
          exact fun id ⟨st, listed, same⟩ => ⟨st, mem_cons_of_mem _ listed, same⟩
      · refine .inr ⟨b', goes_append goes goes', fun x => ?_⟩
        rw [values x]
        by_cases here : x = n
        · subst here
          simp [absent, chosen, held]
        · by_cases mem : x ∈ names
          · cases chosen' : choice x with
            | none => simp [here, mem]
            | some p => simp [mem, later x mem p chosen']
          · simp [here, mem]
  | @pass n names out chosen rest ih =>
    obtain ⟨absent, distinct⟩ := nodup_cons.mp distinct
    rcases ih distinct (fun listed => apart (mem_cons_of_mem _ listed))
        (fun n' mem p holds chosen' =>
          (own n' (mem_cons_of_mem _ mem) p holds chosen').imp_right fun outside listed =>
            outside (mem_cons_of_mem _ listed)) tested with
      ⟨n', mem, others⟩ | ⟨b', goes, values⟩
    · exact .inl ⟨n', mem_cons_of_mem _ mem, others⟩
    · refine .inr ⟨b', goes, fun x => ?_⟩
      rw [values x]
      by_cases here : x = n
      · subst here
        simp [absent, chosen]
      · simp [here]

end Merges

theorem makes_nameTest {assigned : NameSet} {test : Expr} {s s' : Edit.State} {n : Name} {head : List Stmt}
    (made : Makes (nameTest assigned test) s (n, head) s') (inside : Within s.names.used test.vars)
    (taken : ∀ x ∈ assigned, x ∈ s.names.used) :
    Grows s s' ∧ n ∈ s'.names.used ∧ n ∉ assigned ∧ Within s'.names.used (Stmt.names head) ∧
      ∀ {V C : Type} {m : Machine V C}, m.Shaped → ∀ c fuel (b : Store V) v, m.eval c b test = .ok v →
        ∃ b', (m.execStmts head c ⟨b, fuel⟩).Goes ⟨b', fuel⟩ ∧ b'.value? n = some v ∧
          ∀ x ∈ s.names.used, b'.value? x = b.value? x := by
  unfold nameTest at made
  split at made
  · rename_i name found
    obtain ⟨same, rfl⟩ := makes_pure.mp made
    cases same
    obtain ⟨variable_, outside⟩ := Option.filter_eq_some_iff.mp found
    cases test with
    | var node name =>
      cases variable_
      refine ⟨.refl _, inside _ mem_cons_self, of_decide_eq_true outside, by rintro _ ⟨⟩, ?_⟩
      intro V C m shaped c fuel b v computed
      exact ⟨b, ⟨rfl, rfl⟩, Store.read_eq_ok_iff.mp computed, fun _ _ => rfl⟩
    | _ => cases variable_
  · obtain ⟨fresh, t, drawn, made⟩ := makes_bind.mp made
    obtain ⟨unused, used, grows⟩ := makes_freshName drawn
    obtain ⟨node, t', names, made⟩ := makes_bind_made made
    obtain ⟨same, rfl⟩ := makes_pure.mp made
    cases same
    refine ⟨grows.trans (grows_of_eq names), names ▸ used, fun mem => unused (taken n mem), ?_, ?_⟩
    · rw [names]
      simp only [names_single, ownNames, Stmt.binds, Stmt.exprs, Stmt.blocks, flatMap_cons,
        flatMap_nil, append_nil, Binder.names]
      refine within_append.mpr ⟨?_, fun x mem => grows x (inside x mem)⟩
      exact fun x mem => mem_singleton.mp mem ▸ used
    · intro V C m shaped c fuel b v computed
      refine ⟨_, goes_assign (assigned_name shaped computed), by simp [Store.writeAll], fun x mem => ?_⟩
      have differ : x ≠ n := fun same => unused (same ▸ mem)
      simp [Store.writeAll, differ]

abbrev binds (b : Block) : List Name := b.stmts.flatMap Stmt.binds

/-- What is known of the statements that take the place of a branch. -/
structure Merged (m : Machine V C) (before : NameSet) (test : Expr) (ift iff : Block) (t : Edit.State)
    (out : List Stmt) (u : Edit.State) : Prop where
  grows : Grows t u
  within : Within u.names.used (Stmt.names out)
  /-- What both arms bind is bound. -/
  covers : ∀ n ∈ binds ift, n ∈ binds iff → ∃ st ∈ out, n ∈ st.binds
  /-- If they do not fail, they end as the arm that is taken. -/
  runs : ∀ c fuel (τ : Store V) holds, m.test c τ test = .ok holds →
    (m.execStmts out c ⟨τ, fuel⟩).FailsAt (fun id => id ∈ (ift.stmts ++ iff.stmts).map Stmt.id ∨
      ∃ st ∈ out, st.id = id ∧ ∃ n ∈ st.binds, n ∈ before ∧ τ.value? n = none) ∨
    ∃ a b, (m.execStmts (if holds then ift else iff).stmts c ⟨τ, fuel⟩).Goes ⟨a, fuel⟩ ∧
      (m.execStmts out c ⟨τ, fuel⟩).Goes ⟨b, fuel⟩ ∧
      ∀ n ∈ t.names.used, n ∈ before ∨ n ∈ binds ift ∧ n ∈ binds iff → b.value? n = a.value? n

section Merged

variable {m : Machine V C} {before : NameSet} {test : Expr} {ift iff : Block} {t u u' : Edit.State} {out' : List Stmt}
  {iftNames iffNames : NameMap Name} {n : Name} {stmts : List Stmt}

theorem Merged.replace (merged : Merged m before test ift iff t out u) (same : u'.names = u.names)
    (names : Stmt.names out' = Stmt.names out) (alike : ∀ c σ, (m.execStmts out c σ).Alike (m.execStmts out' c σ))
    (listed : ∀ st ∈ out, ∃ st' ∈ out', st'.id = st.id ∧ st'.binds = st.binds) :
    Merged m before test ift iff t out' u' := by
  refine ⟨merged.grows.trans (grows_of_eq same), ?_, ?_, ?_⟩
  · rw [same, names]
    exact merged.within
  · intro n left right
    obtain ⟨st, mem, bound⟩ := merged.covers n left right
    obtain ⟨st', member', _, binds'⟩ := listed st mem
    exact ⟨st', member', binds' ▸ bound⟩
  · intro c fuel τ holds tested
    have ends := alike c ⟨τ, fuel⟩
    rcases merged.runs c fuel τ holds tested with fails | ⟨a, b, goes, ⟨next, state⟩, values⟩
    · refine .inl ((ends.fails _).mp (fails.imp fun id site => site.imp_right ?_))
      rintro ⟨st, mem, here, n, bound, rest⟩
      obtain ⟨st', member', same', binds'⟩ := listed st mem
      exact ⟨st', member', same'.trans here, n, binds' ▸ bound, rest⟩
    · exact .inr ⟨a, b, goes, ⟨ends.exit ▸ next, ends.state ▸ state⟩, values⟩

theorem choices?_eq_some (chosen : choices? before iftNames iffNames n = some p) :
    p = (iftNames.toRenaming n, iffNames.toRenaming n) ∧ ((iftNames.get? n).isSome = true ∧ (iffNames.get? n).isSome =
    true ∨ n ∈ before) := by
  unfold choices? at chosen
  unfold NameMap.toRenaming
  split at chosen
  · rename_i x y left right
    cases chosen
    simp [left, right]
  · rename_i x left right
    split at chosen
    · cases chosen
      simp [*]
    · cases chosen
  · rename_i y left right
    split at chosen
    · cases chosen
      simp [*]
    · cases chosen
  · cases chosen

theorem isSome_choices? (some_ : (iftNames.get? n).isSome = true ∨ (iffNames.get? n).isSome = true)
    (visible : n ∈ before ∨ (iftNames.get? n).isSome = true ∧ (iffNames.get? n).isSome = true) :
    (choices? before iftNames iffNames n).isSome = true := by
  unfold choices?
  cases left : iftNames.get? n <;> cases right : iffNames.get? n <;> simp_all

theorem allOf_of_straight (straight : Straight stmts) : Stmt.allOf stmts = stmts := by
  induction stmts with
  | nil => rfl
  | cons s rest ih =>
    have later := ih fun s mem => straight s (mem_cons_of_mem _ mem)
    rcases straight s mem_cons_self with ⟨node, target, ann, value, rfl⟩ | ⟨node, rfl⟩ <;>
      simp [Stmt.allOf, Stmt.all, later]

theorem mem_assigned_of_straight (straight : Straight b.stmts) : n ∈ b.assigned ↔ n ∈ binds b := by
  obtain ⟨id, stmts⟩ := b
  rw [Flow.mem_assigned, Block.all, allOf_of_straight straight]

theorem mem_names_of_binds (bound : n ∈ stmts.flatMap Stmt.binds) : n ∈ Stmt.names stmts := by
  induction stmts with
  | nil => exact bound
  | cons s rest ih =>
    rw [names_cons, names_single, ownNames]
    rw [flatMap_cons, mem_append] at bound
    simp only [mem_append]
    rcases bound with own | later
    · exact .inl (.inl (.inl own))
    · exact .inr (ih later)

section Arms

variable {s₁ s₂ s₃ : Edit.State} {iftStmts iffStmts : List Stmt}

/-- Both arms are carried out: afterwards the new names of each hold what it leads to. -/
theorem runs_arms (left : Copies m (· ∈ t.names.used) ∅ ift.stmts s₁ iftStmts iftNames s₂)
    (right : Copies m (· ∈ t.names.used) ∅ iff.stmts s₂ iffStmts iffNames s₃) (grows : Grows t s₁) {τ b : Store V}
    (same : ∀ n ∈ t.names.used, b.value? n = τ.value? n) :
    (m.execStmts (iftStmts ++ iffStmts) c ⟨b, fuel⟩).FailsAt (· ∈ (ift.stmts ++ iff.stmts).map Stmt.id) ∨ ∃ (a : Bool →
    Store V) (b' : Store V), (∀ holds, (m.execStmts (if holds then ift else iff).stmts c ⟨τ, fuel⟩).Goes ⟨a holds, fuel⟩
    ∧ (∀ n ∈ t.names.used, b'.value? (pick holds (iftNames.toRenaming n, iffNames.toRenaming n)) = (a holds).value? n) ∧
    ∀ n ∈ binds (if holds then ift else iff), ((a holds).value? n).isSome = true) ∧ (m.execStmts (iftStmts ++ iffStmts)
    c ⟨b, fuel⟩).Goes ⟨b', fuel⟩ ∧ ∀ n ∈ s₁.names.used, b'.value? n = b.value? n := by
  rcases left.runs c fuel τ b same with fails | ⟨a₁, b₁, goes₁, copied₁, carries₁, still₁, held₁⟩
  · refine .inl (failsAt_first _ (fails.imp fun id listed => ?_))
    rw [map_append]
    exact mem_append_left _ listed
  have same₁ : ∀ n ∈ t.names.used, b₁.value? n = τ.value? n := fun n mem => (still₁ n (grows n mem)).trans (same n mem)
  rcases right.runs c fuel τ b₁ same₁ with fails | ⟨a₂, b₂, goes₂, copied₂, carries₂, still₂, held₂⟩
  · refine .inl (failsAt_append copied₁ (fails.imp fun id listed => ?_))
    rw [map_append]
    exact mem_append_right _ listed
  refine .inr ⟨fun holds => if holds then a₁ else a₂, b₂, fun holds => ?_, goes_append copied₁ copied₂, fun n mem => ?_⟩
  · cases holds with
    | true =>
      refine ⟨goes₁, fun n mem => ?_, fun n bound => held₁ n (.inl bound)⟩
      have used := left.fresh.toRenaming_mem (fun n old => left.grows n (grows n old)) mem
      exact (still₂ _ used).trans (carries₁ n mem)
    | false => exact ⟨goes₂, fun n mem => carries₂ n mem, fun n bound => held₂ n (.inl bound)⟩
  · exact (still₂ n (left.grows n mem)).trans (still₁ n mem)

theorem get?_isSome_iff {stmts copied : List Stmt} {last : NameMap Name}
    (copies : Copies m (· ∈ t.names.used) ∅ stmts s₁ copied last s₂) :
    (last.get? n).isSome = true ↔ n ∈ stmts.flatMap Stmt.binds := by
  by_cases bound : n ∈ stmts.flatMap Stmt.binds
  · exact ⟨fun _ => bound, fun _ => copies.covered n bound⟩
  · rw [copies.kept n bound]
    simp [bound]

theorem merged_of_parts (shaped : m.Shaped) {assigned : NameSet} {testName : Name} {head merges : List Stmt}
    (inside : ∀ n ∈ assigned, n ∈ t.names.used) (all : ∀ n, n ∈ assigned ↔ n ∈ binds ift ∨ n ∈ binds iff)
    (grows : Grows t s₁) (used : testName ∈ s₁.names.used) (apart : testName ∉ assigned)
    (within : Within s₁.names.used (Stmt.names head))
    (named : ∀ c fuel (b : Store V) v, m.eval c b test = .ok v → ∃ b',
      (m.execStmts head c ⟨b, fuel⟩).Goes ⟨b', fuel⟩ ∧ b'.value? testName = some v ∧
      ∀ x ∈ t.names.used, b'.value? x = b.value? x)
    (left : Copies m (· ∈ t.names.used) ∅ ift.stmts s₁ iftStmts iftNames s₂)
    (right : Copies m (· ∈ t.names.used) ∅ iff.stmts s₂ iffStmts iffNames s₃)
    (merging : Merges (choices? before iftNames iffNames) testName assigned.toList merges) :
    Merged m before test ift iff t (head ++ ((iftStmts ++ iffStmts) ++ merges)) s₃ := by
  have bound₁ : ∀ n, (iftNames.get? n).isSome = true ↔ n ∈ binds ift := fun n => get?_isSome_iff left
  have bound₂ : ∀ n, (iffNames.get? n).isSome = true ↔ n ∈ binds iff := fun n => get?_isSome_iff right
  have visible : ∀ n ∈ assigned, (n ∈ before ∨ n ∈ binds ift ∧ n ∈ binds iff) →
      choices? before iftNames iffNames n = some (iftNames.toRenaming n, iffNames.toRenaming n) := by
    intro n mem shown
    rw [all, ← bound₁, ← bound₂] at mem
    rw [← bound₁, ← bound₂] at shown
    obtain ⟨p, chosen⟩ := isSome_iff_exists.mp (isSome_choices? mem shown)
    rw [chosen, (choices?_eq_some chosen).1]
  refine ⟨grows.trans (left.grows.trans right.grows), ?_, ?_, ?_⟩
  · simp only [names_append, within_append]
    refine ⟨fun n mem => right.grows n (left.grows n (within n mem)),
      ⟨fun n mem => right.grows n (left.within n mem), right.within⟩, ?_⟩
    refine merging.within (fun n mem => right.grows n (left.grows n (grows n (inside n mem))))
      (right.grows _ (left.grows _ used)) fun n mem p chosen => ?_
    rw [(choices?_eq_some chosen).1]
    have old₂ : ∀ n ∈ t.names.used, n ∈ s₂.names.used := fun n old => left.grows n (grows n old)
    exact ⟨right.grows _ (left.fresh.toRenaming_mem old₂ (inside n mem)),
      right.fresh.toRenaming_mem (fun n old => right.grows n (old₂ n old)) (inside n mem)⟩
  · intro n first second
    have mem := (all n).mpr (.inl first)
    obtain ⟨st, listed, bound⟩ := merging.covers mem (visible n mem (.inr ⟨first, second⟩))
    exact ⟨st, mem_append_right _ (mem_append_right _ listed), bound⟩
  · intro c fuel τ holds tested
    obtain ⟨v, computed, truth⟩ := bind_ok.mp tested
    obtain ⟨b₀, goes₀, held₀, same₀⟩ := named c fuel τ v computed
    rcases runs_arms left right grows same₀ (c := c) with fails | ⟨a, b₁, arms, goes₁, still₁⟩
    · exact .inl (failsAt_append goes₀ (failsAt_first _ (fails.imp fun id listed => .inl listed)))
    obtain ⟨taken, values, held⟩ := arms holds
    have own : ∀ n ∈ assigned.toList, ∀ p holds, choices? before iftNames iffNames n = some p →
        pick holds p = n ∨ pick holds p ∉ assigned.toList := by
      intro n mem p holds chosen
      rw [(choices?_eq_some chosen).1]
      cases holds with
      | true => exact (left.fresh.toRenaming_new n).imp_right fun new listed => new (inside _ listed)
      | false => exact (right.fresh.toRenaming_new n).imp_right fun new listed => new (inside _ listed)
    -- A name that the arm does not bind stays what it was, and is its own new name.
    have itself : ∀ n, n ∉ binds (if holds then ift else iff) →
        pick holds (iftNames.toRenaming n, iffNames.toRenaming n) = n := by
      intro n unbound
      unfold NameMap.toRenaming
      cases holds with
      | true =>
        have none := (bound₁ n).not.mpr unbound
        simp only [Bool.not_eq_true, Option.isSome_eq_false_iff, Option.isNone_iff_eq_none] at none
        simp [pick, none]
      | false =>
        have none := (bound₂ n).not.mpr unbound
        simp only [Bool.not_eq_true, Option.isSome_eq_false_iff, Option.isNone_iff_eq_none] at none
        simp [pick, none]
    rcases runs_merges shaped merging assigned.nodup_toList apart own ((still₁ _ used).trans held₀)
        (demand_ok.mp truth) (c := c) with
      ⟨n, mem, p, chosen, missing, fails⟩ | ⟨b₂, goes₂, after⟩
    · refine .inl (failsAt_append goes₀ (failsAt_append goes₁ (fails.imp ?_)))
      rintro id ⟨st, listed, same, bound⟩
      obtain ⟨rfl, shown⟩ := choices?_eq_some chosen
      have unbound : n ∉ binds (if holds then ift else iff) := by
        intro bound
        have present := held n bound
        rw [← values n (inside n mem), missing] at present
        cases present
      rw [itself n unbound, still₁ n (grows n (inside n mem)), same₀ n (inside n mem)] at missing
      refine .inr ⟨st, mem_append_right _ (mem_append_right _ listed), same, n, bound, ?_, missing⟩
      refine shown.resolve_left ?_
      rw [bound₁, bound₂]
      rintro ⟨first, second⟩
      cases holds with
      | true => exact unbound first
      | false => exact unbound second
    · refine .inr ⟨a holds, b₂, taken, goes_append goes₀ (goes_append goes₁ goes₂), ?_⟩
      intro n mem shown
      rw [after n, ← values n mem]
      split
      · rename_i listed
        rw [visible n listed shown, Option.elim_some]
      · rename_i outside
        rw [itself n]
        intro bound
        refine outside ((all n).mpr ?_)
        cases holds with
        | true => exact .inl bound
        | false => exact .inr bound

end Arms

theorem exec_withNode (m : Machine V C) (s : Stmt) {node : Node} (same : node.id = s.id) (c : C) (σ : State V) :
    m.exec (s.withNode node) c σ = m.exec s c σ := by
  have same : node.id = s.node.id := same
  cases s <;> simp_all [Stmt.withNode, Machine.exec, Stmt.node]

theorem Merged.locate (merged : Merged m before test ift iff t out u) (loc : Option Loc) :
    Merged m before test ift iff t (locate loc out) u := by
  cases out with
  | nil => exact merged
  | cons s rest =>
    simp only [BranchMerging.locate]
    split
    · have id : ({ s.node with loc := loc } : Node).id = s.id := rfl
      have id' : (s.withNode { s.node with loc := loc }).id = s.id := by cases s <;> rfl
      refine merged.replace rfl ?_ (fun c σ => ?_) fun st listed => ?_
      · rw [names_cons, names_cons s, names_single, names_single s]
        cases s <;> rfl
      · have same : m.execStmts (s :: rest) c σ =
            m.execStmts (s.withNode { s.node with loc := loc } :: rest) c σ := by
          rw [Machine.execStmts, Machine.execStmts, exec_withNode m s id, id']
        rw [same]
        exact ⟨rfl, rfl, fun _ => .rfl⟩
      · rcases mem_cons.mp listed with rfl | later
        · exact ⟨_, mem_cons_self, id', by cases st <;> rfl⟩
        · exact ⟨st, mem_cons_of_mem _ later, rfl, rfl⟩
    · exact merged

theorem Merged.filled (merged : Merged m before test ift iff t [] u) (same : u'.names = u.names) (node : Node) :
    Merged m before test ift iff t [.skip node] u' := by
  refine merged.replace same rfl (fun c σ => ⟨rfl, rfl, fun sites => ⟨?_, ?_⟩⟩) nofun
  · rintro ⟨⟨_, fault⟩, _⟩
    cases fault
  · rintro ⟨⟨_, fault⟩, _⟩
    cases fault

def namesBefore (r : Reaching) (id : NodeId) : NameSet := ((r.before? id).map (·.keys)).getD ∅

theorem makes_noted (made : Makes (do noteAt kind site message; return stmts) t out u) :
    out = stmts ∧ u.names = t.names := by
  obtain ⟨_, s, noted, made⟩ := makes_bind.mp made
  have still : s.names = t.names := nameless_note _ _ _ _ _ _ noted
  obtain ⟨rfl, rfl⟩ := makes_pure.mp made
  exact ⟨rfl, still⟩

theorem merged_of_merge (shaped : m.Shaped) {node : Node} (straight : Straight ift.stmts)
    (straight' : Straight iff.stmts) (inside : Within t.names.used (Stmt.names ift.stmts))
    (inside' : Within t.names.used (Stmt.names iff.stmts)) (read : Within t.names.used test.vars)
    (made : Makes (merge r node test ift iff) t out u) : Merged m (namesBefore r node.id) test ift iff t out u := by
  have all : ∀ n, n ∈ ift.assigned ∪ iff.assigned ↔ n ∈ binds ift ∨ n ∈ binds iff := by
    intro n
    rw [mem_union, mem_assigned_of_straight straight, mem_assigned_of_straight straight']
  have taken : ∀ n ∈ ift.assigned ∪ iff.assigned, n ∈ t.names.used := by
    intro n mem
    rcases (all n).mp mem with bound | bound
    · exact inside n (mem_names_of_binds bound)
    · exact inside' n (mem_names_of_binds bound)
  obtain ⟨⟨testName, head⟩, s₁, naming, made⟩ := makes_bind.mp made
  obtain ⟨grows, used, apart, within, named⟩ := makes_nameTest naming read taken
  obtain ⟨⟨iftStmts, iftNames⟩, s₂, first, made⟩ := makes_bind.mp made
  have left := copies_of_speculate shaped straight (.empty (· ∈ t.names.used) s₁) grows inside first
  obtain ⟨⟨iffStmts, iffNames⟩, s₃, second, made⟩ := makes_bind.mp made
  have right := copies_of_speculate shaped straight' (.empty (· ∈ t.names.used) s₂)
    (fun n old => left.grows n (grows n old)) inside' second
  obtain ⟨merges, s₄, merging, made⟩ := makes_bind.mp made
  obtain ⟨merging, same⟩ := makes_merges merging
  have merged := (merged_of_parts shaped taken all grows used apart within (named shaped) left right merging).locate
    node.loc
  simp only [← append_assoc] at merged
  dsimp only at made
  split at made
  · rename_i empty
    rw [List.isEmpty_iff.mp empty] at merged
    obtain ⟨st, s₅, drawn, made⟩ := makes_bind.mp made
    obtain ⟨filled, s₆, filling, made⟩ := makes_bind.mp made
    obtain ⟨rfl, rfl⟩ := makes_pure.mp filling
    obtain ⟨rfl, still⟩ := makes_noted made
    cases drawn
    exact merged.filled (still.trans same) _
  · obtain ⟨filled, s₅, filling, made⟩ := makes_bind.mp made
    obtain ⟨rfl, rfl⟩ := makes_pure.mp filling
    obtain ⟨rfl, still⟩ := makes_noted made
    exact merged.replace (still.trans same) rfl (fun _ _ => ⟨rfl, rfl, fun _ => .rfl⟩)
      fun st listed => ⟨st, listed, rfl, rfl⟩

end Merged

end BranchMerging

end NumLang
