import NumLang.Proofs.Bundles

/-!
Only live names matter: stores that hold the same for the names live before a statement take it to the same end, and
on to stores that hold the same for the names live after it.
-/

namespace NumLang

variable {V C : Type}

/-- Two stores hold the same for the given names. -/
def AgreeOn (live : NameSet) (w : Store V × Store V) : Prop := ∀ n ∈ live, w.2.value? n = w.1.value? n

theorem AgreeOn.bridge : Bridge (fun _ => True) (fun n => n) (AgreeOn : NameSet → Store V × Store V → Prop) where
  mono agree within n mem := agree n (within n mem)
  read agree n mem _ := agree n mem
  write {_ fewer _ _ names _} agree fits _ kept _ _ := by
    have apart : Apart (fun n => n ∈ fewer ∨ n ∈ names) fun n => n := fun _ _ _ _ => id
    refine fun n mem => carries_writeAll apart fits (fun _ => .inr) (fun n known absent => agree n ?_) n (.inl mem)
    exact (kept n (known.resolve_right absent)).resolve_right absent

mutual

theorem Stmt.rename_self (s : Stmt) : s.rename (fun n => n) = s := by
  have own : Expr.rename (fun n => n) = id := funext Expr.rename_self
  cases s <;> simp [Stmt.rename, own, Expr.renameAll_eq, Expr.renameOption_eq, Block.rename_self]

theorem Block.rename_self : (b : Block) → b.rename (fun n => n) = b
  | ⟨_, stmts⟩ => by rw [Block.rename, Stmt.renameAll_self]

theorem Stmt.renameAll_self (stmts : List Stmt) : Stmt.renameAll (fun n => n) stmts = stmts := by
  cases stmts <;> simp only [Stmt.renameAll, Stmt.rename_self, Stmt.renameAll_self]

end

def Live.Of (record : Live) (s : Stmt) : Prop := ∃ after, record = ⟨s.id, s.liveIn after, after⟩

mutual

/-- What is recorded of the live names is one record for each statement. -/
theorem Stmt.records_live : (s : Stmt) → ∀ out, Forall₂ Live.Of (s.live out) s.all
  | .assign .., out | .store .., out | .assert .., out | .effect .., out | .ret .., out | .skip .., out =>
    .cons ⟨out, rfl⟩ .nil
  | .when _ _ body, out | .scope _ _ _ body, out => .cons ⟨out, rfl⟩ (body.records_live out)
  | .branch _ _ ift iff, out => .cons ⟨out, rfl⟩ (rel_append (ift.records_live out) (iff.records_live out))
  | .loop _ _ body, out | .each _ _ _ body, out => .cons ⟨out, rfl⟩ (body.records_live _)

theorem Block.records_live : (b : Block) → ∀ out, Forall₂ Live.Of (b.live out) b.all
  | ⟨_, stmts⟩, out => Stmt.records_liveAll stmts out

theorem Stmt.records_liveAll : (stmts : List Stmt) → ∀ out, Forall₂ Live.Of (Stmt.liveAll stmts out) (Stmt.allOf stmts)
  | [], _ => .nil
  | s :: rest, out => rel_append (s.records_live _) (Stmt.records_liveAll rest out)

end

/-- With distinct identities, the record found for a statement is its own. -/
theorem Liveness.exists_at? {f : Func} (distinct : f.ids.Nodup) {s : Stmt} (mem : s ∈ f.body.all) :
    ∃ after, (ofFunc f).at? s.id = some ⟨s.id, s.liveIn after, after⟩ := by
  have recorded := f.body.records_live ∅
  obtain ⟨_, listed, after, rfl⟩ := exists_of_forall₂ recorded s mem
  have ids : (f.body.live ∅).map Live.stmt = f.body.all.map Stmt.id := by
    refine List.forall₂_eq_eq_eq ▸ List.forall₂_map_left_iff.mpr (List.forall₂_map_right_iff.mpr (recorded.imp ?_))
    rintro _ s ⟨after, rfl⟩
    rfl
  have once : ((f.body.live ∅).map Live.stmt).Nodup :=
    ids ▸ f.body.map_id_sublist.nodup (nodup_append.mp (nodup_cons.mp distinct).2).2.1
  refine ⟨after, ?_⟩
  cases found : (ofFunc f).at? s.id with
  | none => simpa using List.find?_eq_none.mp found _ listed
  | some other =>
    have same : other.stmt = s.id := by simpa using List.find?_some found
    rw [List.inj_on_of_nodup_map once (List.mem_of_find?_eq_some found) listed same]

namespace Outcome

theorem ends_same {first second : Outcome V C} (there : first.Matches (AgreeOn live) second)
    (back : second.Matches (AgreeOn live) first) :
    ((∃ f, first.exit = .fault f) ∧ ∃ f, second.exit = .fault f) ∨ second.exit = first.exit ∧ (first.exit = .next →
    AgreeOn live (first.state.store, second.state.store)) := by
  unfold Matches at there back
  cases one : first.exit with
  | next =>
    rw [one] at there
    exact .inr ⟨there.1, fun _ => there.2.2⟩
  | ret v =>
    rw [one] at there
    exact .inr ⟨there, nofun⟩
  | fault f =>
    refine .inl ⟨⟨f, rfl⟩, ?_⟩
    cases two : second.exit with
    | fault g => exact ⟨g, rfl⟩
    | _ => simp [one, two] at back

end Outcome

namespace Machine

theorem agree_bindArgs {args others : List V} (length : others.length = args.length) (agree : AgreeOn live (σ, τ))
    (same : ∀ (i : Nat) (p : Param) n, params[i]? = some p → p.name = some n → n ∈ live → others[i]? = args[i]?)
    (bound : bindArgs params args σ = some σ') : ∃ τ', bindArgs params others τ = some τ' ∧ AgreeOn live (σ', τ') := by
  fun_induction bindArgs params args σ generalizing others τ with
  | case1 σ =>
    cases List.length_eq_zero_iff.mp length
    cases bound
    exact ⟨τ, rfl, agree⟩
  | case2 p params v args σ n named ih =>
    obtain ⟨w, others, rfl⟩ := List.exists_cons_of_length_eq_add_one length
    simp only [bindArgs, named]
    refine ih (Nat.succ.inj length) (fun x here => ?_) (fun i q n' held => same (i + 1) q n' held) bound
    by_cases equal : x = n
    · subst equal
      simpa using same 0 p x rfl named here
    · simpa [equal] using agree x here
  | case3 | case4 => cases bound

end Machine

namespace Reference

/-- Which arguments a run may depend on, and what a statement may depend on: stores that hold the same for the names live
before a statement both fail at it or both end it in the same way, with the same held for the names live after it; and
arguments that are the same for the parameters live at the start give the same result. -/
theorem live_determine (f : Func) (distinct : f.ids.Nodup) :
    (∀ s ∈ f.body.all, ∃ live, (Liveness.ofFunc f).at? s.id = some live ∧
      ∀ (fuel : Nat) (σ τ : Store Value), AgreeOn live.before (σ, τ) →
        let first := Machine.reference.exec s () ⟨σ, fuel⟩
        let second := Machine.reference.exec s () ⟨τ, fuel⟩
        ((∃ f, first.exit = .fault f) ∧ ∃ f, second.exit = .fault f) ∨
          second.exit = first.exit ∧ (first.exit = .next → AgreeOn live.after (first.state.store, second.state.store))) ∧
    ∀ args others : List Value, others.length = args.length →
      (∀ (i : Nat) (p : Param) n, f.params[i]? = some p → p.name = some n → n ∈ (Liveness.ofFunc f).entry →
        others[i]? = args[i]?) → run f others = run f args := by
  constructor
  · intro s mem
    obtain ⟨after, found⟩ := Liveness.exists_at? distinct mem
    have copy : s.Copy (fun n => n) s := by simpa only [s.rename_self] using s.copy_rename fun n => n
    have one (fuel : Nat) (σ τ : Store Value) (agree : AgreeOn (s.liveIn after) (σ, τ)) :=
      (follows_copy Machine.shaped_reference AgreeOn.bridge s copy (fun _ _ => trivial) after () ⟨σ, fuel⟩ ⟨τ, fuel⟩
        rfl agree).toMatches
    exact ⟨_, found, fun fuel σ τ agree =>
      Outcome.ends_same (one fuel σ τ agree) (one fuel τ σ fun n live => (agree n live).symm)⟩
  · have one : ∀ {args others : List Value}, others.length = args.length →
        (∀ (i : Nat) (p : Param) n, f.params[i]? = some p → p.name = some n → n ∈ (Liveness.ofFunc f).entry →
          others[i]? = args[i]?) → ∀ v, run f args = some v → run f others = some v := by
      intro args others length same v returns
      obtain ⟨_, executed, ends⟩ := Option.bind_eq_some_iff.mp returns
      obtain ⟨σ, bound, rfl⟩ := Option.map_eq_some_iff.mp executed
      obtain ⟨τ, bound', agree⟩ := Machine.agree_bindArgs length (fun _ _ => rfl) same bound
      have copy : f.body.Copy (fun n => n) f.body := by
        simpa only [f.body.rename_self] using f.body.copy_rename fun n => n
      have both := (follows_copyBlock Machine.shaped_reference AgreeOn.bridge f.body copy (fun _ _ => trivial) ∅ ()
        ⟨σ, fuel⟩ ⟨τ, fuel⟩ rfl agree).toMatches
      refine Option.bind_eq_some_iff.mpr ⟨_, Option.map_eq_some_iff.mpr ⟨τ, bound', rfl⟩, ?_⟩
      unfold Outcome.Matches at both
      split at ends
      · rename_i exit
        rw [exit] at both
        rw [both]
        exact ends
      · nomatch ends
    exact fun args others length same => Option.ext fun v =>
      ⟨one length.symm (fun i p n held named live => (same i p n held named live).symm) v, one length same v⟩

open Sample

/-- The second parameter is overwritten before it is read, also where a loop reads it. -/
def restarting : Func :=
  func ["x", "s"] [] [
    set 10 "s" (int 11 0),
    .loop (node 12) (less 13 (var 14 "s") (var 15 "x")) ⟨⟨16⟩, [
      set 17 "t" (add 18 (var 19 "s") (int 20 2)),
      set 21 "s" (var 22 "t")]⟩,
    .ret (node 23) (var 24 "s")]

theorem live_determine_restarting : restarting.ids.Nodup ∧ (Liveness.ofFunc restarting).entry.toList = [name "x"] ∧
    ∀ x v w, run restarting [x, w] = run restarting [x, v] := by
  have entry : (Liveness.ofFunc restarting).entry.toList = [name "x"] := by decide
  have distinct : restarting.ids.Nodup := by decide
  refine ⟨distinct, entry, fun x v w => (live_determine restarting distinct).2 [x, v] [x, w] rfl ?_⟩
  rintro (_ | _ | i) p n held named live
  · rfl
  · cases held
    cases named
    rw [OrdSet.mem_def, entry] at live
    exact absurd live (by decide)
  · nomatch held

end Reference

end NumLang
