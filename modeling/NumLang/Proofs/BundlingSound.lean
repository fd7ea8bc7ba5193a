import NumLang.Proofs.BundlingTotal
import NumLang.Proofs.Lists

/-!
Bundling in loops preserves results. While a loop runs, the bundle holds the values that the names it stands for would
have; all other names in use have their own.
-/

namespace NumLang

variable {s' : Stmt} {n : Name} {V C : Type}

namespace Outcome

variable {first : Outcome V C}

theorem Follows.ends (both : first.Follows sites post second) (ends : first.Ends (fun _ => True) P) :
    first.Follows sites (fun w => post w ∧ P w.1) second := by
  refine both.imp_right fun both => ?_
  unfold Matches at both ⊢
  unfold Ends at ends
  cases exit : first.exit with
  | next =>
    rw [exit] at both ends
    exact ⟨both.1, both.2.1, both.2.2, ends⟩
  | ret v =>
    rw [exit] at both
    exact both
  | fault f => trivial

theorem follows_self (same : ∀ σ : Store V, post (σ, σ)) : first.Follows sites post first := by
  refine .inr ?_
  unfold Matches
  cases exit : first.exit with
  | next => exact ⟨rfl, rfl, same _⟩
  | ret v => rfl
  | fault f => trivial

theorem Follows.andThen_goes (both : first.Follows sites mid second)
    (rest : ∀ (σ : Store V) (τ : State V), mid (σ, τ.store) → ∃ υ : State V, (k τ).Goes υ ∧ υ.fuel = τ.fuel ∧ post (σ,
    υ.store)) : first.Follows sites post (second.andThen k) := by
  rcases both with fails | both
  · exact .inl (fails.andThen k)
  refine .inr ?_
  unfold Matches at both ⊢
  cases exit : first.exit with
  | next =>
    rw [exit] at both
    obtain ⟨next, fuel, holds⟩ := both
    obtain ⟨_, ⟨stops, rfl⟩, same, done⟩ := rest _ _ holds
    rw [andThen_of_next next]
    exact ⟨stops, same.trans fuel, done⟩
  | ret v =>
    rw [exit] at both
    rw [andThen_of_ne (by simp [both])]
    exact both
  | fault f => trivial

end Outcome

theorem Store.value?_writeAll_congr {writes : List (Name × V)} {σ τ : Store V}
    (same : n ∈ writes.map Prod.fst ∨ τ.value? n = σ.value? n) :
    (τ.writeAll site' writes).value? n = (σ.writeAll site writes).value? n := by
  induction writes generalizing σ τ with
  | nil => simpa [Store.writeAll] using same
  | cons entry rest ih =>
    apply ih
    by_cases here : n = entry.1
    · simp [here]
    · simpa [here] using same

def Outline.steady (P : Store V → Prop) : Outline C (Store V) where
  seen _ _ := P
  after _ _ := P
  start _ _ := P
  finish _ _ := P
  fault _ := True

theorem Machine.ends_execBlock (m : Machine V C) (kept : ∀ σ site writes, P σ → P (Store.writeAll site writes σ))
    (b : Block) (c : C) (σ : State V) (holds : P σ.store) : (m.execBlock b c σ).Ends (fun _ => True) P := by
  have written : ∀ site writes σ, P σ → P (World.single.write site writes σ) := fun site writes σ holds => by
    rw [World.write_single]
    exact kept σ site writes holds
  have step : ∀ s, (Outline.steady P).Step m .single (fun _ => True) s := by
    intro s
    cases s with
    | assign | store => exact fun c w reached => settles_of_ok fun _ _ => written _ _ _ reached.1
    | when | branch =>
      refine ⟨fun c w reached => settles_of_ok fun holds _ => ?_, ?_⟩
      · cases holds <;> exact reached.1
      · simp [Outline.steady]
    | loop =>
      refine ⟨fun _ _ reached => reached.1, fun c w reached => settles_of_ok fun holds _ => ?_, fun _ _ => id⟩
      cases holds <;> exact reached.1
    | each =>
      refine ⟨fun c w reached => settles_of_ok fun _ _ => ⟨reached.1, fun v _ w reached => ?_⟩, fun _ _ => id, fun _ _ => id⟩
      exact settles_of_ok fun _ _ => written _ _ _ reached.1
    | scope => exact fun c w reached => settles_of_ok fun _ _ => ⟨written _ _ _ reached.1, fun _ => id⟩
    | assert | effect => exact fun c w reached => settles_of_ok fun _ _ => reached.1
    | ret => exact fun c w _ => settles_of_ok fun _ _ => trivial
    | skip => exact fun c w reached => reached.1
  have chain : ∀ stmts, (Outline.steady P : Outline C (Store V)).Chain (fun _ => P) (fun _ => P) stmts := by
    intro stmts
    induction stmts with
    | nil => exact fun _ _ => id
    | cons s rest ih => exact ⟨fun _ _ => id, ih⟩
  exact (Outline.covers_execBlock ⟨b.closed, trivial, fun s _ => step s, fun b _ => chain b.stmts⟩ b b.mem_allBlocks c σ holds
    (Outcome.sees_true _)).ends

namespace Bundling

open Edit Outcome Rebuild

/-! ### Packing and unpacking -/

def Holds (σ : Store V) (ns : List Name) (vs : List V) : Prop := ns.map σ.value? = vs.map some

section Holds

variable {σ τ : Store V} {ns : List Name} {vs : List V}

theorem Holds.length (held : Holds σ ns vs) : vs.length = ns.length := by
  simpa using (congrArg List.length held).symm

theorem holds_cons : Holds σ (n :: ns) (v :: vs) ↔ σ.value? n = some v ∧ Holds σ ns vs := by
  simp [Holds]

theorem exists_holds (held : ∀ n ∈ ns, (σ.value? n).isSome = true) : ∃ vs, Holds σ ns vs := by
  induction ns with
  | nil => exact ⟨[], rfl⟩
  | cons n rest ih =>
    obtain ⟨v, here⟩ := isSome_iff_exists.mp (held n mem_cons_self)
    obtain ⟨vs, others⟩ := ih fun x listed => held x (mem_cons_of_mem _ listed)
    exact ⟨v :: vs, holds_cons.mpr ⟨here, others⟩⟩

theorem Holds.isSome (held : Holds σ ns vs) (listed : n ∈ ns) : (σ.value? n).isSome = true := by
  obtain ⟨v, _, same⟩ := mem_map.mp (held ▸ mem_map_of_mem listed)
  rw [← same]
  rfl

theorem Holds.congr (held : Holds σ ns vs) (same : ∀ n ∈ ns, τ.value? (ρ n) = σ.value? n) : Holds τ (ns.map ρ) vs := by
  rw [Holds, List.map_map]
  exact (List.map_congr_left same).trans held

theorem Holds.eq (held : Holds σ ns vs) (held' : Holds τ (ns.map ρ) vs) : ∀ n ∈ ns, τ.value? (ρ n) = σ.value? n := by
  rw [Holds, List.map_map] at held'
  exact List.map_inj_left.mp (held'.trans held.symm)

theorem holds_writeAll (distinct : ns.Nodup) (fits : vs.length = ns.length) (site : Site) (σ : Store V) :
    Holds (σ.writeAll site (ns.zip vs)) ns vs := by
  induction ns generalizing vs σ with
  | nil =>
    rw [List.length_eq_zero_iff.mp fits]
    rfl
  | cons n rest ih =>
    cases vs with
    | nil => cases fits
    | cons v others =>
      obtain ⟨new, distinct⟩ := nodup_cons.mp distinct
      refine holds_cons.mpr ⟨?_, ih distinct (Nat.succ.inj fits) _⟩
      rw [List.zip_cons_cons, Store.writeAll, Store.value?_writeAll_of_notMem, Store.value?_insert, if_pos rfl]
      rwa [map_fst_zip (Nat.le_of_eq (Nat.succ.inj fits).symm)]

end Holds

variable {m : Machine V C} {number : Nat → V} {tuple : List V → V} {bundle : Name} {ns : List Name} {st : Stmt} {c : C}
  {σ : NumLang.State V} {vs : List V} {s : Stmt}

theorem evalAll_vars {σ : Store V} (each : Forall₂ (fun n e => ∃ node, e = .var node n) ns elts) (held : Holds σ ns vs)
    : m.evalAll c σ elts = .ok vs := by
  induction each generalizing vs with
  | nil =>
    rw [List.length_eq_zero_iff.mp held.length]
    rfl
  | cons here _ ih =>
    obtain ⟨node, rfl⟩ := here
    cases vs with
    | nil => nomatch held.length
    | cons v others =>
      obtain ⟨value, rest⟩ := holds_cons.mp held
      exact bind_ok.mpr ⟨v, Machine.eval_var value, bind_ok.mpr ⟨others, ih rest, rfl⟩⟩

theorem Packs.goes (shaped : m.Shaped) (groups : m.Groups number tuple) (packs : Packs bundle ns st) (c : C)
    (held : Holds σ.store ns vs) :
    ∃ τ : NumLang.State V, (m.execStmts [st] c σ).Goes τ ∧ τ.fuel = σ.fuel ∧ τ.store.value? bundle = some (tuple vs) ∧ ∀
      x ≠ bundle, τ.store.value? x = σ.store.value? x := by
  obtain ⟨each⟩ := packs
  refine Machine.goes_set shaped _ bundle (bind_ok.mpr ⟨vs, evalAll_vars each held, ?_⟩)
  rw [groups.gather]
  rfl

theorem Unpacks.goes (groups : m.Groups number tuple) (unpacks : Unpacks ns bundle st) (distinct : ns.Nodup) (c : C)
    (held : σ.store.value? bundle = some (tuple vs)) (fits : vs.length = ns.length) :
    ∃ τ : NumLang.State V, (m.execStmts [st] c σ).Goes τ ∧ τ.fuel = σ.fuel ∧ Holds τ.store ns vs ∧ ∀ x ∉ ns,
      τ.store.value? x = σ.store.value? x := by
  obtain ⟨⟩ := unpacks
  have names : (Binder.tuple (ns.map .name)).names = ns := namesAll_map_name ns
  have assigned : ∀ node, m.assigned c σ.store (.tuple (ns.map .name)) (.var node bundle) = .ok (ns.zip vs) :=
    fun node => Machine.assigned_eq_ok_iff.mpr
      ⟨tuple vs, vs, Machine.eval_var held, groups.spread ns vs fits, by rw [names, fits], by rw [names]⟩
  refine ⟨_, Machine.goes_assign (assigned _), rfl, holds_writeAll distinct fits _ _, fun x new => ?_⟩
  refine Store.value?_writeAll_of_notMem ?_
  rwa [map_fst_zip (Nat.le_of_eq fits.symm)]

theorem mem_names_of_assigned {b : Block} (assigned : n ∈ b.assigned) : n ∈ Stmt.names b.stmts := by
  obtain ⟨s, mem, bound⟩ := mem_flatMap.mp (Flow.mem_assigned.mp assigned)
  rw [Block.all_eq] at mem
  exact mem_flatMap.mpr ⟨s, mem, mem_append_left _ bound⟩

/-! ### Loops -/

/-- The second store has in the bundle what the first has under the names that are bundled. Under all other names in
use it has the same. -/
structure Gathers (tuple : List V → V) (used : NameSet) (bundle : Name) (ns : List Name) (w : Store V × Store V) : Prop where
  others : ∀ n ∈ used, n ∉ ns → w.2.value? n = w.1.value? n
  bundled : ∃ vs, Holds w.1 ns vs ∧ w.2.value? bundle = some (tuple vs)

namespace Gathers

variable {a b : Store V} (gathers : Gathers tuple used bundle ns (a, b))

include gathers

theorem read (groups : m.Groups number tuple) (position : ns.idxOf? n = some i) (node whole part place : Node) :
    Rebuild.Follows m c a b (.var node n) (.index whole (.var part bundle) (.lit place (.integer i))) := by
  obtain ⟨vs, held, tupled⟩ := gathers.bundled
  obtain ⟨below, same, _⟩ := List.idxOf?_eq_some_iff.mp position
  have found : vs[i]? = a.value? n := by
    have here := congrArg (·[i]?) held
    have there : i < vs.length := held.length ▸ below
    simp only [getElem?_map, List.getElem?_eq_getElem below, List.getElem?_eq_getElem there, map_some,
      same, Option.some.injEq] at here
    rw [List.getElem?_eq_getElem there, here]
  intro v read
  refine bind_ok.mpr ⟨tuple vs, Machine.eval_var tupled, bind_ok.mpr ⟨number i, ?_, ?_⟩⟩
  · exact demand_ok.mpr (groups.literal i)
  · rw [groups.index, found]
    exact demand_ok.mpr (Store.read_eq_ok_iff.mp read)

/-- A test that reads the names from the bundle has the value that the test has. -/
theorem follows (groups : m.Groups number tuple) (projected : Projected bundle ns test test')
    (inside : ∀ n ∈ test.vars, n ∈ used) : Rebuild.Follows m c a b test test' := by
  have drawn : ∀ {node n e' i}, ns.idxOf? n = some i → results.gives () (do
      let value ← Edit.var bundle
      let position ← Edit.nat i
      return Expr.index (← Edit.node) value position) e' → Rebuild.Follows m c a b (.var node n) e' := by
    rintro node n e' i position ⟨s, t, made⟩
    obtain ⟨_, _, _, made⟩ := makes_bind_made made
    obtain ⟨_, _, _, made⟩ := makes_bind_made made
    obtain ⟨_, _, _, made⟩ := makes_bind.mp made
    obtain ⟨rfl, _⟩ := makes_pure.mp made
    exact gathers.read groups position _ _ _ _
  have keeps : (project bundle ns).Preserves results m c a b () fun e => ∀ n ∈ e.vars, n ∈ used := by
    refine ⟨fun e inside part operand n read => inside n ?_, fun node n inside e' given => ?_,
      fun e inside usual e' given rest => ?_⟩
    · exact Expr.mem_vars.mpr (.inr ⟨part, (Expr.mem_children_of_operands operand).2, read⟩)
    · rw [onExpr] at given
      simp only [project] at given
      split at given
      · exact drawn ‹_› given
      · rename_i absent
        obtain ⟨s, t, made⟩ := given
        obtain ⟨rfl, _⟩ := makes_pure.mp made
        intro v read
        have same := gathers.others n (inside n (Expr.mem_vars.mpr (.inl mem_cons_self)))
          (List.idxOf?_eq_none_iff.mp absent)
        exact Store.read_eq_ok_iff.mpr (same.trans (Store.read_eq_ok_iff.mp read))
    · simp only [project] at given
      split at given
      · split at given
        · exact drawn ‹_› given
        · exact rest e' given
      · exact rest e' given
  exact follows_onExpr (fun _ => rfl) keeps test inside projected

theorem write (new : bundle ∉ used) {writes : List (Name × V)} (inside : ∀ n ∈ writes.map Prod.fst, n ∈ used)
    (apart : ∀ n ∈ writes.map Prod.fst, n ∉ ns) (site site' : Site) :
    Gathers tuple used bundle ns (a.writeAll site writes, b.writeAll site' writes) := by
  obtain ⟨vs, held, tupled⟩ := gathers.bundled
  refine ⟨fun n known absent => Store.value?_writeAll_congr (.inr (gathers.others n known absent)), vs, ?_, ?_⟩
  · exact (List.map_congr_left fun n listed =>
      Store.value?_writeAll_of_notMem fun named => apart n named listed).trans held
  · rw [← tupled]
    exact Store.value?_writeAll_of_notMem fun named => new (inside _ named)

end Gathers

section Turns

variable {mid more : NameSupply} {used : NameSet} (shaped : m.Shaped)
  (groups : m.Groups number tuple) (turn : Turn mid more bundle ns body body') (known : ∀ n ∈ used, n ∈ mid.used)
  (new : bundle ∉ used) (distinct : ns.Nodup) (assigned : ∀ n ∈ ns, n ∈ body.assigned)
  (inside : ∀ n ∈ Stmt.names body.stmts, n ∈ used) {τ : NumLang.State V} (fuel : τ.fuel = σ.fuel)
  (gathers : Gathers tuple used bundle ns (σ.store, τ.store))

include shaped groups turn known new distinct assigned inside fuel gathers

variable {node : Node}

theorem Turn.follows :
    (m.execBlock body c σ).Follows (fun _ => False) (Gathers tuple used bundle ns) (m.execBlock body' c τ) := by
  obtain @⟨ρ, first, last, kept, renamed, unpacks, packs⟩ := turn
  obtain ⟨vs, held, tupled⟩ := gathers.bundled
  have listed : ∀ n ∈ ns, n ∈ used := fun n mem => inside n (mem_names_of_assigned (assigned n mem))
  have renames : Renames (· ∈ used) ρ := renamed.renames.mono known
  have fixed : ∀ n ∉ ns, ρ n = n := fun n absent => renamed.others n fun ⟨mem, _⟩ => absent mem
  obtain ⟨τ₁, goes, fuel₁, taken, still⟩ := unpacks.goes groups (renames.nodup listed distinct) c tupled
    (by rw [length_map, held.length])
  have tracks : Tracks (· ∈ used) ρ τ₁.store (σ.store, τ₁.store) := by
    refine ⟨fun n here => ?_, fun _ _ => rfl⟩
    by_cases mem : n ∈ ns
    · exact held.eq taken n mem
    · change τ₁.store.value? (ρ n) = σ.store.value? n
      rw [fixed n mem, still n fun moved => ?_]
      · exact gathers.others n here mem
      · obtain ⟨x, listed, rfl⟩ := mem_map.mp moved
        exact renamed.fresh x listed (assigned x listed) (known _ here)
  -- The names keep their values while the body runs, so that they can be packed after it.
  have both := (follows_copyBlock shaped (Tracks.bridge renames.apart) body (body.copy_rename ρ) inside ∅ c σ τ₁
    (fuel₁.trans fuel) tracks).ends (m.ends_execBlock (P := fun σ => ∀ n ∈ ns, (σ.value? n).isSome = true)
      (fun σ site writes held n mem => Store.isSome_value?_writeAll (.inr (held n mem))) body c σ
      fun n mem => held.isSome mem)
  rw [m.execBlock_eq (body.rename ρ)] at both
  rw [m.execBlock_eq { body.rename ρ with stmts := _ }, m.execStmts_append, m.execStmts_cons, andThen_assoc]
  refine goes.follows (both.andThen_goes ?_)
  rintro a τ₂ ⟨tracks, defined⟩
  obtain ⟨values, held⟩ := exists_holds defined
  obtain ⟨υ, goes, fuel₂, packed, rest⟩ := packs.goes shaped groups c
    (held.congr fun n mem => tracks.carries n (listed n mem))
  refine ⟨υ, goes, fuel₂, fun n here absent => ?_, values, held, packed⟩
  have same := tracks.carries n here
  rw [fixed n absent] at same
  exact (rest n fun same => new (same ▸ here)).trans same

theorem follows_loop (projected : Projected bundle ns test test')
    (reads : ∀ n ∈ test.vars, n ∈ used) : (m.exec (.loop node test body) c σ).Follows (fun _ => False)
    (Gathers tuple used bundle ns) (m.exec (.loop node test' body') c τ) := by
  unfold Machine.exec
  rw [fuel]
  refine follows_repeatWhile (fun _ => True) (Gathers tuple used bundle ns) fuel gathers (sees_true _) ?_ ?_
  · exact fun w gathers _ holds tested => Revision.test_agrees (gathers.follows groups projected reads) tested
  · intro w gathers _
    refine settles_of_ok fun holds _ => ?_
    cases holds with
    | true => exact fun fuel _ => turn.follows shaped groups known new distinct assigned inside rfl gathers
    | false => exact gathers

theorem follows_each {target : Binder} {iterable : Expr} (apart : ∀ n ∈ target.names, n ∉ ns)
    (bound : ∀ n ∈ target.names, n ∈ used) (same : ∀ n ∈ iterable.uses, τ.store.value? n = σ.store.value? n) :
    (m.exec (.each node target iterable body) c σ).Follows (fun _ => False) (Gathers tuple used bundle ns)
    (m.exec (.each node target iterable body') c τ) := by
  refine follows_attempt_of fun elements drawn => ⟨elements, ?_, ?_⟩
  · exact Revision.drawn_agrees (fun v => (Machine.eval_copy_iff iterable.copy_self same).mpr) drawn
  · refine follows_forEach (Gathers tuple used bundle ns) fuel gathers (sees_true _) ?_
    intro v _ σ τ fuel gathers _
    refine (follows_attempt_of fun writes written => ⟨writes, written, ?_⟩).after _ _
    obtain ⟨values, _, fits, rfl⟩ := Machine.writes_eq_ok_iff.mp written
    have first := map_fst_zip (Nat.le_of_eq fits.symm)
    refine turn.follows shaped groups known new distinct assigned inside fuel (gathers.write new ?_ ?_ _ _)
    · exact fun n named => bound n (first ▸ named)
    · exact fun n named => apart n (first ▸ named)

end Turns

/-- Between packing the names and unpacking them, a statement that has the bundle for the names ends as the statement
does with the names. -/
theorem follows_enclosed (shaped : m.Shaped) (groups : m.Groups number tuple) (packs : Packs bundle ns front)
    (unpacks : Unpacks ns bundle back) (new : bundle ∉ used) (distinct : ns.Nodup)
    (defined : ∀ n ∈ ns, (σ.store.value? n).isSome = true)
    (inner : ∀ τ : NumLang.State V, τ.fuel = σ.fuel → (∀ n ∈ used, τ.store.value? n = σ.store.value? n) → Gathers tuple
    used bundle ns (σ.store, τ.store) → (m.exec s c σ).Follows (fun _ => False) (Gathers tuple used bundle ns) (m.exec
    s' c τ)) :
    (m.exec s c σ).Follows (fun _ => False) (fun w => ∀ n ∈ used, w.2.value? n = w.1.value? n) (m.execStmts [front, s',
    back] c σ) := by
  obtain ⟨vs, held⟩ := exists_holds defined
  obtain ⟨τ, goes, fuel, packed, rest⟩ := packs.goes shaped groups c held
  have same : ∀ n ∈ used, τ.store.value? n = σ.store.value? n := fun n known => rest n fun here => new (here ▸ known)
  have both := inner τ fuel same ⟨fun n known _ => same n known, vs, held, packed⟩
  rw [m.execStmts_cons]
  refine goes.follows ((both.after [] _).andThen_goes (k := m.execStmts [back] c) ?_)
  rintro a υ ⟨others, values, held, tupled⟩
  obtain ⟨ω, goes, fuel, taken, still⟩ := unpacks.goes groups distinct c tupled held.length
  refine ⟨ω, goes, fuel, fun n known => ?_⟩
  by_cases mem : n ∈ ns
  · exact held.eq ((List.map_id' ns).symm ▸ taken) n mem
  · exact (still n mem).trans (others n known mem)

variable {targets : BundleTargets}

/-- What a loop becomes ends as the loop does, with the same values for the names in use. -/
theorem Bundled.follows (shaped : m.Shaped) (groups : m.Groups number tuple)
    {names more : NameSupply} (off : targets.branches = false)
    (bundled : Bundled targets before names more st out) (inside : Within names.used (Stmt.names [st]))
    (defined : ∀ n ∈ before, (σ.store.value? n).isSome = true) : (m.exec st c σ).Follows
    (fun _ => False) (fun w => ∀ n ∈ names.used, w.2.value? n = w.1.value? n) (m.execStmts out c σ) := by
  have carries : ∀ {body n}, n ∈ carried body before → (σ.store.value? n).isSome = true :=
    fun listed => defined _ (mem_carried.mp listed).2
  simp only [Within, Stmt.names_single, Stmt.ownNames, forall_mem_append] at inside
  cases bundled with
  | stays =>
    rw [m.execStmts_single]
    exact (follows_self fun _ _ _ => rfl).after [] _
  | loop _ drawn turn projected packs unpacks =>
    simp only [Stmt.exprs, Stmt.blocks, flatMap_cons, flatMap_nil, append_nil] at inside
    refine follows_enclosed shaped groups packs unpacks drawn.new (OrdSet.nodup_toList _) (fun _ => carries) ?_
    exact fun τ fuel _ gathers => follows_loop shaped groups turn drawn.kept drawn.new (OrdSet.nodup_toList _)
      (fun n listed => (mem_carried.mp listed).1) inside.2 fuel gathers projected inside.1.2
  | each some drawn turn packs unpacks =>
    simp only [Stmt.binds, Stmt.exprs, Stmt.blocks, flatMap_cons, flatMap_nil, append_nil] at inside
    obtain ⟨on, _⟩ := met_of_meeting rfl some
    refine follows_enclosed shaped groups packs unpacks drawn.new (OrdSet.nodup_toList _) (fun _ => carries) ?_
    refine fun τ fuel same gathers => follows_each shaped groups turn drawn.kept drawn.new (OrdSet.nodup_toList _)
      (fun n listed => (mem_carried.mp listed).1) inside.2 fuel gathers ?_ inside.1.1
      fun n read => same n (inside.1.2 n (Expr.mem_vars_of_uses _ read))
    intro n bound listed
    simp only [Bool.and_eq_true, Bool.not_eq_true', List.any_eq_false, decide_eq_true_eq] at on
    exact on.2 n bound (mem_carried.mp listed).2
  | when some | branch some =>
    obtain ⟨on, _⟩ := met_of_meeting rfl some
    rw [off] at on
    cases on

/-! ### Names in use -/

section Within

theorem Packs.within (packs : Packs bundle ns st) (there : bundle ∈ used) (inside : ∀ n ∈ ns, n ∈ used) :
    Within used (Stmt.names [st]) := by
  obtain ⟨each⟩ := packs
  rw [Stmt.names_single, within_append, Stmt.ownNames, within_append]
  refine ⟨⟨fun n bound => mem_singleton.mp bound ▸ there, fun n read => ?_⟩, by rintro _ ⟨⟩⟩
  rw [Stmt.exprs, flatMap_singleton, Expr.mem_vars] at read
  obtain ⟨part, listed, read⟩ := read.resolve_left (by rintro ⟨⟩)
  obtain ⟨x, mem, node, rfl⟩ := exists_of_forall₂ each part listed
  exact mem_singleton.mp read ▸ inside x mem

theorem Unpacks.within (unpacks : Unpacks ns bundle st) (there : bundle ∈ used) (inside : ∀ n ∈ ns, n ∈ used) :
    Within used (Stmt.names [st]) := by
  obtain ⟨⟩ := unpacks
  rw [Stmt.names_single, within_append, Stmt.ownNames, within_append, Stmt.binds, Binder.names, namesAll_map_name]
  exact ⟨⟨inside, fun n read => mem_singleton.mp read ▸ there⟩, by rintro _ ⟨⟩⟩

theorem Turn.within (turn : Turn mid more bundle ns body body') (there : bundle ∈ mid.used)
    (listed : ∀ n ∈ ns, n ∈ mid.used) (inside : Within mid.used (Stmt.names body.stmts)) :
    Within more.used (Stmt.names body'.stmts) := by
  obtain @⟨ρ, first, last, kept, renamed, unpacks, packs⟩ := turn
  have taken : ∀ names : List Name, (∀ n ∈ names, n ∈ mid.used) → ∀ x ∈ names.map ρ, x ∈ more.used := by
    intro names inside x moved
    obtain ⟨n, mem, rfl⟩ := mem_map.mp moved
    exact renamed.taken n (inside n mem)
  rw [Stmt.names_append, Stmt.names_cons, Stmt.names_copyAll (Stmt.copyAll_block (body.copy_rename ρ)), within_append, within_append]
  exact ⟨⟨unpacks.within (kept _ there) (taken ns listed), taken _ inside⟩, packs.within (kept _ there) (taken ns listed)⟩

theorem within_enclosed (drawn : Drawn names mid bundle) (turn : Turn mid more bundle ns body body')
    (packs : Packs bundle ns front) (unpacks : Unpacks ns bundle back) (assigned : ∀ n ∈ ns, n ∈ body.assigned)
    (inside : Within names.used (Stmt.names body.stmts)) (only : s'.blocks = [body'])
    (own : Within more.used s'.ownNames) : Within more.used (Stmt.names [front, s', back]) := by
  have inside : Within mid.used (Stmt.names body.stmts) := fun n named => drawn.kept n (inside n named)
  have listed : ∀ n ∈ ns, n ∈ mid.used := fun n mem => inside n (mem_names_of_assigned (assigned n mem))
  have there := turn.kept _ drawn.there
  rw [Stmt.names_cons, Stmt.names_cons s', Stmt.names_single s', only, flatMap_singleton, within_append, within_append,
    within_append]
  exact ⟨packs.within there fun n mem => turn.kept n (listed n mem),
    ⟨own, turn.within drawn.there listed inside⟩, unpacks.within there fun n mem => turn.kept n (listed n mem)⟩

theorem Bundled.within (off : targets.branches = false)
    (bundled : Bundled targets before names more st out) (inside : Within names.used (Stmt.names [st])) :
    Retains names more ∧ Within more.used (Stmt.names out) := by
  cases bundled with
  | stays => exact ⟨.refl _, inside⟩
  | loop _ drawn turn projected packs unpacks =>
    simp only [Stmt.names_single, Stmt.ownNames, Stmt.binds, Stmt.exprs, Stmt.blocks, flatMap_singleton,
      nil_append, within_append] at inside
    have kept := drawn.kept.trans turn.kept
    refine ⟨kept, within_enclosed drawn turn packs unpacks (fun n listed => (mem_carried.mp listed).1) inside.2 rfl ?_⟩
    intro n read
    simp only [Stmt.ownNames, Stmt.binds, Stmt.exprs, flatMap_singleton, nil_append] at read
    rcases projected.vars n read with read | rfl
    · exact kept n (inside.1 n read)
    · exact turn.kept _ drawn.there
  | each some drawn turn packs unpacks =>
    simp only [Stmt.names_single, Stmt.blocks, flatMap_singleton, within_append] at inside
    have kept := drawn.kept.trans turn.kept
    exact ⟨kept, within_enclosed drawn turn packs unpacks (fun n listed => (mem_carried.mp listed).1) inside.2 rfl
      fun n named => kept n (inside.1 n named)⟩
  | when some | branch some =>
    obtain ⟨on, _⟩ := met_of_meeting rfl some
    rw [off] at on
    cases on

end Within

/-! ### Functions -/

theorem bundled_of_makes {t u : Edit.State} (made : Makes (Bundling.bundle targets before s) t out u) :
    Bundled targets before t.names u.names s out := by
  obtain ⟨_, _, made', bundled⟩ := leads_bundle targets before s t rfl
  cases made.symm.trans made'
  exact bundled

theorem careful (off : targets.branches = false) (r : Reaching) : Careful transitions (·.names.used) Grows fun s =>
    Bundling.bundle targets (Flow.inForce r s.id) s where
  refl := .refl
  trans := .trans
  grows more := more
  rewrite within made := (bundled_of_makes made).within off within

open Flow in
/-- Bundling in loops preserves results, if all names that are in force have values. -/
theorem run_of_bundling (shaped : m.Shaped) (groups : m.Groups number tuple) (off : targets.branches = false)
    {f g : Func} (distinct : f.ids.Nodup)
    (made : Makes (edit targets f) { session := session, names := .ofFunc f } g last) {fuel : Nat}
    {free : Name → Option V} (given : ∀ n ∈ f.freeVars, (free n).isSome = true) {args : List V} {v : V}
    (returns : m.run c fuel f free args = some v) : m.run c fuel g free args = some v := by
  obtain ⟨r, _, lifted, made⟩ := makes_bind.mp made
  obtain ⟨analysed, rfl⟩ := makes_lift.mp lifted
  obtain ⟨body, rebuilt, rfl⟩ := makes_bind_pure made
  obtain ⟨exit, notes, survey, rfl⟩ := Reaching.survey_of_func distinct analysed
  refine run_of_rewrites (rewrites_hooks targets _) (careful off _) survey (fun _ => False) (fun _ => True) ?_ rebuilt ?_
    (fun _ _ => sees_true _) returns
  · rintro s s' out shape ⟨mem, t, u, used, within, treated⟩ c σ τ reached both
    obtain ⟨⟨before, after⟩, sub, noted, walk, _⟩ := survey.spans.visits s mem
    have same := (seen_stmt survey noted).mp reached.1
    have ends := (bundled_of_makes treated).follows shaped groups off within (c := c) (σ := τ) ?_
    · refine .inr (both.toMatches.trans ends.toMatches fun σ' a b holds agree => ?_)
      rw [outline_after survey noted] at holds ⊢
      exact holds.replace fun n inForce => agree n (used n (holds.of_inForce inForce))
    · intro n here
      rw [Revision.shape_id shape, BranchMerging.mem_namesBefore survey noted] at here
      rw [same.read here]
      exact (same.held here).resolve_right id
  · intro n mem missing
    have here := given n mem
    rw [missing] at here
    cases here

end Bundling

namespace Tuples

/-- Bundling in loops preserves results: for a function without free names the bundled function returns what the function
returns. -/
theorem run_bundling (cfg : Config) (targets : BundleTargets) (off : targets.branches = false) (f g : Func)
    (events : EventLog) (session after : Session) (distinct : f.ids.Nodup) (closed : f.freeVars = ∅)
    (applied : ((Pass.bundling targets).run cfg f).run session = (.ok (g, events), after)) (args : List Value) (v : Value)
    (returns : run f args = some v) : run g args = some v := by
  obtain ⟨s', made⟩ := Edit.makes_of_perform applied
  refine Bundling.run_of_bundling Machine.shaped_tuples Machine.groups_tuples off distinct made (fun n free => ?_) returns
  rw [closed] at free
  nomatch free

def amounts : List Value := [.number 5, .list [.number (-5), .number 1]]

/-- Two loops, one in the other, carry three names and two of these. -/
theorem run_bundling_carrying : Bundling.carrying.ids.Nodup ∧ Bundling.carrying.freeVars = ∅ ∧
    run Bundling.carrying amounts = some (.number 11) ∧
    ∃ g events after, ((Pass.bundling { branches := false }).run {} Bundling.carrying).run { next := 60 } =
        (.ok (g, events), after) ∧ g.body.all.length = 20 ∧
      run g amounts = some (.number 11) := by
  have distinct : Bundling.carrying.ids.Nodup := by decide
  have returns : run Bundling.carrying amounts = some (.number 11) := by decide +kernel
  have size : (((Pass.bundling { branches := false }).run {} Bundling.carrying).run { next := 60 }).1.toOption.map
      (fun made => made.1.body.all.length) = some 20 := by
    decide +kernel
  refine ⟨distinct, rfl, returns, ?_⟩
  rcases applied : ((Pass.bundling { branches := false }).run {} Bundling.carrying).run { next := 60 } with
    ⟨_ | ⟨g, events⟩, after⟩
  · rw [applied] at size
    cases size
  · rw [applied] at size
    exact ⟨g, events, after, rfl, Option.some.inj size,
      run_bundling {} _ rfl _ g events _ after distinct rfl applied _ _ returns⟩

end Tuples

end NumLang
