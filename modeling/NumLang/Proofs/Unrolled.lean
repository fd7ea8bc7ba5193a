import NumLang.Pass.Unrolling
import NumLang.Proofs.Copying
import NumLang.Proofs.Lists

/-!
One loop that is unrolled. A copy of the body for one element does what a round of the loop does, but that the target
may have new names; copies in a row do what as many rounds do.
-/

namespace NumLang

variable {V C : Type}

namespace Outcome

variable {α : Type}

theorem forEach_append (body : α → State V → Outcome V C) (first others : List α) (σ : State V) :
    forEach body (first ++ others) σ = (forEach body first σ).andThen (forEach body others) := by
  induction first generalizing σ with
  | nil => rfl
  | cons a rest ih => rw [cons_append, forEach, forEach, andThen_assoc, funext ih]

theorem forEach_flatten (body : α → State V → Outcome V C) (rows : List (List α)) (σ : State V) :
    forEach body rows.flatten σ = forEach (forEach body) rows σ := by
  induction rows generalizing σ with
  | nil => rfl
  | cons row rest ih => rw [List.flatten_cons, forEach_append, forEach, funext ih]

theorem forEach_singleton (body : α → State V → Outcome V C) (a : α) (σ : State V) : forEach body [a] σ = body a σ := by
  rw [forEach]
  obtain ⟨trace, exit, τ⟩ := body a σ
  cases exit with
  | next => simp [andThen, forEach, done, after]
  | ret v => rfl
  | fault f => rfl

variable {sites : NodeId → Prop} {post : Store V × Store V → Prop}

theorem follows_forEach₂ {β : Type} (inv : Store V × Store V → Prop) {rel : α → β → Prop}
    {body' : β → State V → Outcome V C} {bs : List β} (paired : Forall₂ rel as bs)
    (round : ∀ a b, rel a b → ∀ σ τ : State V, τ.fuel = σ.fuel → inv (σ.store, τ.store) → (body a σ).Follows sites inv
    (body' b τ)) {σ τ : State V} (fuel : τ.fuel = σ.fuel) (start : inv (σ.store, τ.store)) :
    (forEach body as σ).Follows sites inv (forEach body' bs τ) := by
  induction paired generalizing σ τ with
  | nil => exact follows_done fuel start
  | cons here _ ih =>
    refine follows_andThen (sees_true _) (fun _ => round _ _ here σ τ fuel start) ?_
    intro σ τ fuel holds _
    exact ih fuel holds

end Outcome

open Outcome

namespace Machine

variable {m : Machine V C} {c : C} {number : Nat → V} {list : List V → V}

theorem Counts.eval_nat (counts : m.Counts number list) (σ : Store V) (node : Node) (n : Nat) :
    m.eval c σ (.lit node (.integer n)) = .ok (number n) := by
  rw [eval, counts.literal]
  rfl

end Machine

namespace Unrolling

open Edit Rebuild Stmt

/-- A loop that is unrolled, with the names of its target that cannot be seen after it. -/
structure Loop where
  node : Node
  target : Binder
  body : Block
  hidden : List Name

def Loop.round (l : Loop) (m : Machine V C) (c : C) (v : V) (σ : State V) : Outcome V C :=
  .after [⟨.draw l.node.id, c, σ.store⟩] <| .attempt (m.writes l.target v) σ fun writes =>
    m.execBlock l.body c (σ.write ⟨.stmt, l.node.id⟩ writes)

def Agree (old : Name → Prop) (hidden : List Name) (w : Store V × Store V) : Prop :=
  ∀ n, old n → n ∉ hidden → w.2.value? n = w.1.value? n

def Kept (used : NameSet) (old : Name → Prop) (a b : Store V) : Prop :=
  ∀ x ∈ used, ¬ old x → b.value? x = a.value? x

/-- What is known of statements that treat the elements of a list at some offsets after an index. -/
structure Treats (m : Machine V C) (number : Nat → V) (list : List V → V) (l : Loop) (old : Name → Prop)
    (listName index : Name) (offsets : List Nat) (t : Edit.State) (stmts : List Stmt) (u : Edit.State) : Prop where
  grows : Grows t u
  within : Within u.names.used (Stmt.names stmts)
  runs : ∀ c (σ τ : State V) vs i chunk, τ.fuel = σ.fuel → Agree old l.hidden (σ.store, τ.store) →
    τ.store.value? listName = some (list vs) → τ.store.value? index = some (number i) →
    Forall₂ (fun offset v => vs[i + offset]? = some v) offsets chunk →
    (forEach (l.round m c) chunk σ).Follows (fun _ => False)
      (fun w => Agree old l.hidden w ∧ Kept t.names.used old τ.store w.2) (m.execStmts stmts c τ)

section Treats

variable {m : Machine V C} {number : Nat → V} {list : List V → V} {l : Loop} {old : Name → Prop} {listName index : Name}
  {t s u : Edit.State} {offset start size : Nat} {stmts : List Stmt} {e : Expr} {site : NodeId} {target : Binder}
  {c : C} {σ τ : State V} {α : Type}

theorem Treats.nil (t : Edit.State) : Treats m number list l old listName index [] t [] t where
  grows := .refl t
  within _ mem := nomatch mem
  runs c σ τ vs i chunk fuel agree _ _ paired := by
    cases paired
    exact follows_done fuel ⟨agree, fun _ _ _ => rfl⟩

theorem Treats.cons (first : Treats m number list l old listName index [offset] t stmts s)
    (second : Treats m number list l old listName index others s rest u)
    (listed : listName ∈ t.names.used ∧ ¬ old listName) (indexed : index ∈ t.names.used ∧ ¬ old index) :
    Treats m number list l old listName index (offset :: others) t (stmts ++ rest) u where
  grows := first.grows.trans second.grows
  within := by
    rw [names_append, within_append]
    exact ⟨fun n mem => second.grows n (first.within n mem), second.within⟩
  runs c σ τ vs i chunk fuel agree held at_ paired := by
    obtain ⟨v, back, here, paired', rfl⟩ := List.forall₂_cons_left_iff.mp paired
    rw [← singleton_append, forEach_append, m.execStmts_append]
    refine follows_andThen (sees_true _) (fun _ => first.runs c σ τ vs i [v] fuel agree held at_ (.cons here .nil)) ?_
    rintro σ' τ' fuel' ⟨agree', kept⟩ _
    have held' := (kept listName listed.1 listed.2).trans held
    have at_' := (kept index indexed.1 indexed.2).trans at_
    refine (second.runs c σ' τ' vs i back fuel' agree' held' at_' paired').imp ?_
    rintro w ⟨agree, kept'⟩
    exact ⟨agree, fun x mem new => (kept' x (first.grows x mem) new).trans (kept x mem new)⟩

theorem element_eq (listName index : Name) (offset : Nat) : element listName index offset = (do
    let first ← Edit.var index
    let position ← (if offset = 0 then pure first else do
      let offset ← Edit.nat offset
      pure (Expr.binary (← Edit.node) .add none first offset) : Edit Expr)
    let list ← Edit.var listName
    return .index (← Edit.node) list position) := by
  unfold element
  by_cases zero : offset = 0 <;> simp [zero]

theorem copy_eq (r : Reaching) (site : NodeId) (target : Binder) (body : Block) (listName index : Name)
    (offset : Nat) : copy r site target body listName index offset = (do
    let table ← (if target.names.any fun n => (r.reaching? site n).isSome then pure ∅
      else refreshNames ∅ target.names : Edit (NameMap Name))
    let first ← Edit.assign (target.rename table.toRenaming) (← element listName index offset)
    let body ← Edit.supplied body.refresh
    return first :: (body.rename table.toRenaming).stmts) := by
  unfold copy
  cases target.names.any fun n => (r.reaching? site n).isSome <;> simp

theorem makes_element (counts : m.Counts number list) (made : Makes (element listName index offset) t e u) :
    u.names = t.names ∧ (∀ n ∈ e.vars, n = listName ∨ n = index) ∧ ∀ (c : C) (σ : Store V) vs i v, σ.value? listName =
      some (list vs) → σ.value? index = some (number i) → vs[i + offset]? = some v → m.eval c σ e = .ok v := by
  rw [element_eq] at made
  obtain ⟨x, t₁, first, made⟩ := makes_bind_made made
  obtain ⟨place, t₂, placed, made⟩ := makes_bind.mp made
  obtain ⟨y, t₃, third, made⟩ := makes_bind_made made
  obtain ⟨node, t₄, fourth, made⟩ := makes_bind_node made
  obtain ⟨rfl, rfl⟩ := makes_pure.mp made
  have position : t₂.names = t₁.names ∧ (∀ n ∈ place.vars, n = index) ∧ ∀ (c : C) (σ : Store V) i,
      σ.value? index = some (number i) → m.eval c σ place = .ok (number (i + offset)) := by
    split at placed
    · rename_i zero
      obtain ⟨rfl, rfl⟩ := makes_pure.mp placed
      refine ⟨rfl, fun n read => mem_singleton.mp read, fun c σ i held => ?_⟩
      rw [zero, Nat.add_zero]
      exact Machine.eval_var held
    · obtain ⟨z, s₁, fifth, placed⟩ := makes_bind_made placed
      obtain ⟨inner, s₂, sixth, placed⟩ := makes_bind_node placed
      obtain ⟨rfl, rfl⟩ := makes_pure.mp placed
      refine ⟨sixth.trans fifth, fun n read => mem_singleton.mp read, fun c σ i held => ?_⟩
      refine bind_ok.mpr ⟨number i, Machine.eval_var held, bind_ok.mpr ⟨number offset, counts.eval_nat σ z offset, ?_⟩⟩
      rw [counts.add]
      rfl
  obtain ⟨second, reads, computed⟩ := position
  refine ⟨by rw [fourth, third, second, first], fun n read => ?_, fun c σ vs i v held at_ here => ?_⟩
  · have read : n ∈ [listName] ++ place.vars := read
    rcases mem_append.mp read with read | read
    · exact .inl (mem_singleton.mp read)
    · exact .inr (reads n read)
  · refine bind_ok.mpr ⟨list vs, Machine.eval_var held, bind_ok.mpr ⟨_, computed c σ i at_, ?_⟩⟩
    rw [counts.index, here]
    rfl

def hidden (r : Reaching) (site : NodeId) (target : Binder) : List Name :=
  if target.names.any fun n => (r.reaching? site n).isSome then [] else target.names

variable {r : Reaching}

theorem mem_of_hidden (mem : n ∈ hidden r site target) : n ∈ target.names := by
  unfold hidden at mem
  split at mem
  · cases mem
  · exact mem

theorem makes_table {table : NameMap Name} (used : ∀ n, old n → n ∈ t.names.used)
    (made : Makes (if target.names.any fun n => (r.reaching? site n).isSome then pure ∅ else refreshNames ∅
    target.names) t table u) : table.Fresh old u ∧ Grows t u ∧ (∀ n ∉ hidden r site target, table.toRenaming n = n) ∧
    ∀ n, table.toRenaming n = n ∨ table.toRenaming n ∉ t.names.used := by
  unfold hidden
  split at made
  · rename_i visible
    obtain ⟨rfl, rfl⟩ := makes_pure.mp made
    exact ⟨.empty old _, .refl _, fun _ _ => rfl, fun _ => .inl rfl⟩
  · rename_i invisible
    rw [if_neg invisible]
    obtain ⟨fresh, grows, covered, kept⟩ := makes_refreshNames (.empty old t) used made
    have same : ∀ n ∉ target.names, table.toRenaming n = n := by
      intro n absent
      rw [NameMap.toRenaming, kept n absent]
      rfl
    refine ⟨fresh, grows, same, fun n => ?_⟩
    by_cases mem : n ∈ target.names
    · obtain ⟨x, found, new⟩ := covered n mem
      rw [NameMap.toRenaming, found]
      exact .inr new
    · exact .inl (same n mem)

theorem follows_round (shaped : m.Shaped) (apart : Apart old ρ) (bound : ∀ n ∈ l.target.names, old n)
    (inside : ∀ n ∈ Stmt.names l.body.stmts, old n) (same : ∀ n ∉ l.hidden, ρ n = n)
    (lost : ∀ n ∈ l.hidden, n ∈ l.target.names) (outside : ∀ x ∈ used, ¬ old x → ∀ n, old n → ρ n ≠ x) {body' : Block}
    (copied : l.body.Copy ρ body') {node : Node} (fuel : τ.fuel = σ.fuel)
    (agree : Agree old l.hidden (σ.store, τ.store)) (value : m.eval c τ.store e = .ok v) :
    (l.round m c v σ).Follows (fun _ => False) (fun w => Agree old l.hidden w ∧ Kept used old τ.store w.2) (m.execStmts
    (.assign node (l.target.rename ρ) none e :: body'.stmts) c τ) := by
  rw [Loop.round, m.execStmts_cons]
  cases written : m.writes l.target v with
  | error f => exact follows_failed.after _ []
  | ok writes =>
    obtain ⟨values, fits, rfl, again⟩ := Machine.writes_copy (ρ := ρ) shaped written
    obtain ⟨before, steps⟩ := σ
    obtain ⟨store, _⟩ := τ
    cases fuel
    have tracks : Tracks old ρ (store.writeAll ⟨.stmt, node.id⟩ ((l.target.names.map ρ).zip values))
        (before.writeAll ⟨.stmt, l.node.id⟩ (l.target.names.zip values),
          store.writeAll ⟨.stmt, node.id⟩ ((l.target.names.map ρ).zip values)) := by
      refine ⟨carries_writeAll apart fits bound fun n known absent => ?_, fun _ _ => rfl⟩
      have shown : n ∉ l.hidden := fun mem => absent (lost n mem)
      rw [same n shown]
      exact agree n known shown
    have both := follows_copyBlock shaped (Tracks.bridge apart) l.body copied inside ∅ c ⟨_, steps⟩ ⟨_, steps⟩ (by rfl) tracks
    rw [m.execBlock_eq body'] at both
    refine (Machine.goes_assign (bind_ok.mpr ⟨v, value, again⟩)).follows ((both.after _ []).imp ?_)
    rintro w ⟨carries, rest⟩
    refine ⟨fun n known shown => ?_, fun x mem unknown => ?_⟩
    · have carried := carries n known
      rwa [same n shown] at carried
    · rw [rest x (outside x mem unknown)]
      refine Store.value?_writeAll_of_notMem fun named => ?_
      rw [map_fst_zip (by simp [fits])] at named
      obtain ⟨n, target, renamed⟩ := mem_map.mp named
      exact outside x mem unknown n (bound n target) renamed

/-- What is asked of a loop to copy its body: the names in it are known, and those that are hidden are its own. -/
structure Copies (m : Machine V C) (number : Nat → V) (list : List V → V) (r : Reaching) (l : Loop) (old : Name → Prop) :
    Prop where
  shaped : m.Shaped
  counts : m.Counts number list
  lost : l.hidden = hidden r l.node.id l.target
  bound : ∀ n ∈ l.target.names, old n
  inside : ∀ n ∈ Stmt.names l.body.stmts, old n

theorem treats_copy (copies : Copies m number list r l old) (used : ∀ n, old n → n ∈ t.names.used)
    (listed : listName ∈ t.names.used) (indexed : index ∈ t.names.used)
    (made : Makes (copy r l.node.id l.target l.body listName index offset) t stmts u) :
    Treats m number list l old listName index [offset] t stmts u := by
  obtain ⟨shaped, counts, lost, bound, inside⟩ := copies
  rw [copy_eq] at made
  obtain ⟨table, t₁, drawn, made⟩ := makes_bind.mp made
  obtain ⟨fresh, grows, same, new⟩ := makes_table used drawn
  rw [← lost] at same
  obtain ⟨e, t₂, computed, made⟩ := makes_bind.mp made
  obtain ⟨second, reads, evaluates⟩ := makes_element counts computed
  obtain ⟨node, t₃, third, made⟩ := makes_bind_made made
  obtain ⟨body, t₄, supplied, made⟩ := makes_bind.mp made
  obtain ⟨rfl, fourth⟩ := makes_supplied supplied
  obtain ⟨rfl, rfl⟩ := makes_pure.mp made
  have names : u.names = t₁.names := by rw [fourth, third, second]
  have copied := l.body.copy_refresh table.toRenaming t₃.session.next
  have taken : ∀ n, old n → table.toRenaming n ∈ u.names.used := by
    intro n here
    rw [names]
    exact fresh.toRenaming_mem (fun n here => grows n (used n here)) here
  refine ⟨grows.trans (grows_of_eq names), ?_, ?_⟩
  · rw [names_cons, names_single, names_copyAll (Stmt.copyAll_block copied)]
    simp only [ownNames, Stmt.binds, Stmt.exprs, Stmt.blocks, flatMap_cons, flatMap_nil,
      append_nil, Binder.names_rename, within_append]
    refine ⟨⟨?_, ?_⟩, ?_⟩
    · intro x named
      obtain ⟨n, mem, rfl⟩ := mem_map.mp named
      exact taken n (bound n mem)
    · intro n read
      rw [names]
      rcases reads n read with rfl | rfl
      · exact grows _ listed
      · exact grows _ indexed
    · intro x named
      obtain ⟨n, mem, rfl⟩ := mem_map.mp named
      exact taken n (inside n mem)
  · intro c σ τ vs i chunk fuel agree held at_ paired
    obtain ⟨v, _, here, rest, rfl⟩ := List.forall₂_cons_left_iff.mp paired
    cases rest
    rw [forEach_singleton]
    refine follows_round shaped fresh.apart bound inside same (fun n lost' => mem_of_hidden (lost ▸ lost')) ?_ copied
      fuel agree (evaluates c τ.store vs i v held at_ here)
    rintro x mem unknown n known rfl
    rcases new n with still | unused
    · exact unknown (still.symm ▸ known)
    · exact unused mem

theorem treats_copies (whole : Copies m number list r l old) (used : ∀ n, old n → n ∈ t.names.used)
    (listed : listName ∈ t.names.used ∧ ¬ old listName) (indexed : index ∈ t.names.used ∧ ¬ old index)
    {offsets : List Nat} {copies : List (List Stmt)}
    (made : Makes (offsets.mapM (copy r l.node.id l.target l.body listName index)) t copies u) :
    Treats m number list l old listName index offsets t copies.flatten u := by
  induction offsets generalizing t copies with
  | nil =>
    rw [List.mapM_nil] at made
    obtain ⟨rfl, rfl⟩ := makes_pure.mp made
    exact .nil _
  | cons offset rest ih =>
    rw [mapM_cons] at made
    obtain ⟨stmts, s, first, made⟩ := makes_bind.mp made
    obtain ⟨others, later, rfl⟩ := makes_bind_pure made
    have head := treats_copy whole used listed.1 indexed.1 first
    refine head.cons ?_ listed indexed
    exact ih (fun n known => head.grows n (used n known)) ⟨head.grows _ listed.1, listed.2⟩
      ⟨head.grows _ indexed.1, indexed.2⟩ later

theorem take_mul_eq_flatten (vs : List α) (size count : Nat) :
    vs.take (count * size) = ((List.range count).map fun j => (vs.drop (j * size)).take size).flatten := by
  induction count with
  | zero => simp
  | succ count ih => simp [Nat.succ_mul, List.take_add, List.range_succ, ih]

theorem forall₂_piece {vs : List α} (enough : start + size ≤ vs.length) :
    Forall₂ (fun offset v => vs[start + offset]? = some v) (List.range size) ((vs.drop start).take size) := by
  rw [List.forall₂_iff_get]
  refine ⟨by simp; omega, fun i below below' => ?_⟩
  simp only [List.length_range] at below
  simp only [List.get_eq_getElem, List.getElem_range, List.getElem_take, List.getElem_drop]
  exact List.getElem?_eq_getElem (by omega)

/-- A loop over positions, each with copies of the body for as many elements, goes through a part of the list. -/
theorem follows_loop (shaped : m.Shaped)
    (treats : Treats m number list l old listName index (List.range size) t stmts u)
    (listed : listName ∈ t.names.used ∧ ¬ old listName) (indexed : ¬ old index) (differ : listName ≠ index)
    (node : Node) (id : NodeId) {range : Expr} {vs : List V} {count : Nat}
    (enough : start + count * size ≤ vs.length) (fuel : τ.fuel = σ.fuel) (agree : Agree old l.hidden (σ.store, τ.store))
    (held : τ.store.value? listName = some (list vs))
    (drawn : m.drawn c τ.store range = .ok ((List.range count).map fun j => number (start + j * size))) :
    (forEach (l.round m c) ((vs.drop start).take (count * size)) σ).Follows (fun _ => False)
    (fun w => Agree old l.hidden w ∧ ∀ x ∈ t.names.used, ¬ old x → x ≠ index → w.2.value? x = τ.store.value? x)
    (m.exec (.each node (.name index) range ⟨id, stmts⟩) c τ) := by
  have pairs : Forall₂
      (fun chunk v => ∃ place, v = number place ∧
        Forall₂ (fun offset v => vs[place + offset]? = some v) (List.range size) chunk)
      ((List.range count).map fun j => ((vs.drop start).drop (j * size)).take size)
      ((List.range count).map fun j => number (start + j * size)) := by
    rw [List.forall₂_map_left_iff, List.forall₂_map_right_iff, List.forall₂_same]
    intro j mem
    refine ⟨_, rfl, ?_⟩
    rw [List.drop_drop]
    refine forall₂_piece ?_
    have below : (j + 1) * size ≤ count * size := Nat.mul_le_mul_right size (List.mem_range.mp mem)
    rw [Nat.succ_mul] at below
    omega
  rw [take_mul_eq_flatten, forEach_flatten, Machine.exec, drawn]
  refine follows_forEach₂ _ pairs ?_ fuel ⟨agree, fun _ _ _ _ => rfl⟩
  rintro chunk v ⟨place, rfl, paired⟩ σ' τ' fuel' ⟨agree', kept⟩
  rw [Machine.writes_name shaped]
  refine Follows.after ?_ [] _
  have others : ∀ x ≠ index,
      (τ'.write ⟨.stmt, node.id⟩ [(index, number place)]).store.value? x = τ'.store.value? x := by
    intro x other
    simp [State.write, Store.writeAll, other]
  refine (treats.runs c σ' (τ'.write ⟨.stmt, node.id⟩ [(index, number place)]) vs place chunk fuel' ?_ ?_ ?_ paired).imp
    ?_
  · intro n known shown
    rw [others n fun same => indexed (same ▸ known)]
    exact agree' n known shown
  · rw [others listName differ]
    exact (kept listName listed.1 listed.2 differ).trans held
  · simp [State.write, Store.writeAll]
  · rintro w ⟨agree, kept'⟩
    refine ⟨agree, fun x mem unknown other => ?_⟩
    rw [kept' x mem unknown, others x other]
    exact kept x mem unknown other

end Treats

section Unroll

variable {m : Machine V C} {number : Nat → V} {list : List V → V} {l : Loop} {old : Name → Prop} {k : Unroll}
  {listName length limit : Name} {t u : Edit.State} {check : Stmt} {node : Node} {rest : List Stmt} {index : Name}
  {s : Edit.State} {iterable : Expr}

theorem makes_remainder (counts : m.Counts number list) (positive : 0 < factor) {e : Expr}
    (made : Makes (remainder length factor) t e u) :
    u.names = t.names ∧ (∀ n ∈ e.vars, n = length) ∧ ∀ (c : C) (σ : Store V) size, σ.value? length = some (number size)
    → m.eval c σ e = .ok (number (size % factor)) := by
  obtain ⟨x, t₁, first, made⟩ := makes_bind_made made
  obtain ⟨y, t₂, second, made⟩ := makes_bind_made made
  obtain ⟨node, t₃, third, made⟩ := makes_bind_node made
  obtain ⟨rfl, rfl⟩ := makes_pure.mp made
  refine ⟨by rw [third, second, first], fun n read => mem_singleton.mp read, fun c σ size held => ?_⟩
  refine bind_ok.mpr ⟨number size, Machine.eval_var held, bind_ok.mpr ⟨number factor, counts.eval_nat σ y factor, ?_⟩⟩
  rw [counts.fmod c size factor positive]
  rfl

def Fits (k : Unroll) (size : Nat) : Prop := k.leftover = .strict → k.factor ∣ size

/-- What is known of the statement that settles how far the main loop goes. -/
structure Bounds (m : Machine V C) (number : Nat → V) (k : Unroll) (length limit : Name) (t : Edit.State)
    (check : Stmt) (u : Edit.State) : Prop where
  grows : Grows t u
  within : Within u.names.used (Stmt.names [check])
  new : limit = length ∨ limit ∉ t.names.used
  taken : limit ∈ u.names.used
  runs : ∀ c (σ : State V) size, σ.store.value? length = some (number size) → Fits k size →
    ∃ τ : State V, (m.execStmts [check] c σ).Goes τ ∧ τ.fuel = σ.fuel ∧
      (∀ n ∈ t.names.used, τ.store.value? n = σ.store.value? n) ∧
      τ.store.value? limit = some (number (size / k.factor * k.factor))

theorem makes_bound (shaped : m.Shaped) (counts : m.Counts number list) (positive : 0 < k.factor)
    (counted : length ∈ t.names.used) (made : Makes (bound k length) t (stop, check) u) :
    ∃ node limit, stop = .var node limit ∧ Bounds m number k length limit t check u := by
  unfold bound at made
  cases strategy : k.leftover with
  | strict =>
    rw [strategy] at made
    obtain ⟨rest, t₁, drawn, made⟩ := makes_bind.mp made
    obtain ⟨first, reads, computed⟩ := makes_remainder counts positive drawn
    obtain ⟨x, t₂, second, made⟩ := makes_bind_made made
    obtain ⟨inner, t₃, third, made⟩ := makes_bind_node made
    obtain ⟨node, t₄, fourth, made⟩ := makes_bind_node made
    obtain ⟨y, t₅, fifth, made⟩ := makes_bind_made made
    obtain ⟨same, rfl⟩ := makes_pure.mp made
    cases same
    have names : u.names = t.names := by rw [fifth, fourth, third, second, first]
    refine ⟨y, length, rfl, grows_of_eq names, ?_, .inl rfl, by rwa [names], fun c σ size held fits => ?_⟩
    · intro n named
      have read : n ∈ rest.vars := by
        simpa [names_single, ownNames, Stmt.binds, Stmt.exprs, Stmt.blocks, Expr.vars, Expr.all_eq, Expr.children,
          Expr.allOf, Expr.reads] using named
      rwa [reads n read, names]
    · have divides := fits strategy
      have holds : m.test c σ.store (.compare inner [.eq] [rest, .lit x (.integer (0 : Nat))]) = .ok true := by
        have tested := counts.eq c (size % k.factor) 0
        rw [bind_eq_some_iff] at tested
        obtain ⟨v, compared, truth⟩ := tested
        refine bind_ok.mpr ⟨v, bind_ok.mpr ⟨[number (size % k.factor), number 0], ?_, demand_ok.mpr compared⟩, ?_⟩
        · refine bind_ok.mpr ⟨_, computed c σ.store size held, bind_ok.mpr ⟨[number 0], ?_, rfl⟩⟩
          exact bind_ok.mpr ⟨_, counts.eval_nat σ.store x 0, rfl⟩
        · rw [truth, Nat.mod_eq_zero_of_dvd divides]
          rfl
      refine ⟨σ, ?_, rfl, fun _ _ => rfl, by rwa [Nat.div_mul_cancel divides]⟩
      rw [m.execStmts_single, Machine.exec, holds]
      exact ⟨rfl, rfl⟩
  | epilogue =>
    rw [strategy] at made
    obtain ⟨main, t₁, drawn, made⟩ := makes_bind.mp made
    obtain ⟨unused, taken, grows⟩ := makes_freshName drawn
    obtain ⟨x, t₂, second, made⟩ := makes_bind_made made
    obtain ⟨rest, t₃, drawn, made⟩ := makes_bind.mp made
    obtain ⟨third, reads, computed⟩ := makes_remainder counts positive drawn
    obtain ⟨inner, t₄, fourth, made⟩ := makes_bind_node made
    obtain ⟨node, t₅, fifth, made⟩ := makes_bind_made made
    obtain ⟨y, t₆, sixth, made⟩ := makes_bind_made made
    obtain ⟨same, rfl⟩ := makes_pure.mp made
    cases same
    have names : u.names = t₁.names := by rw [sixth, fifth, fourth, third, second]
    refine ⟨y, main, rfl, grows.trans (grows_of_eq names), ?_, .inr unused, by rwa [names],
      fun c σ size held fits => ?_⟩
    · intro n named
      have read : n = main ∨ n = length ∨ n ∈ rest.vars := by
        simpa [names_single, ownNames, Stmt.binds, Stmt.exprs, Stmt.blocks, Expr.vars, Expr.all_eq, Expr.children,
          Expr.allOf, Expr.reads, Binder.names] using named
      rw [names]
      rcases read with rfl | rfl | read
      · exact taken
      · exact grows _ counted
      · exact reads n read ▸ grows _ counted
    · have whole : size - size % k.factor = size / k.factor * k.factor := by
        have parts := Nat.div_add_mod' size k.factor
        omega
      have value : m.eval c σ.store (.binary inner .sub none (.var x length) rest) =
          .ok (number (size / k.factor * k.factor)) := by
        refine bind_ok.mpr ⟨number size, Machine.eval_var held, bind_ok.mpr ⟨_, computed c σ.store size held, ?_⟩⟩
        rw [counts.sub c _ _ (Nat.mod_le size k.factor), whole]
        rfl
      obtain ⟨τ, goes, fuel, set, others⟩ := Machine.goes_set shaped node main value
      exact ⟨τ, goes, fuel, fun n mem => others n fun same => unused (same ▸ mem), set⟩

/-- The names that an unrolled loop works with hold what they are for. -/
structure Ready (number : Nat → V) (list : List V → V) (factor : Nat) (listName length limit : Name) (vs : List V)
    (τ : Store V) : Prop where
  list : τ.value? listName = some (list vs)
  length : τ.value? length = some (number vs.length)
  limit : τ.value? limit = some (number (vs.length / factor * factor))

/-- What is known of the statements that treat what the main loop leaves over. -/
structure Finishes (m : Machine V C) (number : Nat → V) (list : List V → V) (l : Loop) (old : Name → Prop) (k : Unroll)
    (listName length limit : Name) (t : Edit.State) (rest : List Stmt) (u : Edit.State) : Prop where
  grows : Grows t u
  within : Within u.names.used (Stmt.names rest)
  runs : ∀ c (σ τ : State V) vs, τ.fuel = σ.fuel → Agree old l.hidden (σ.store, τ.store) →
    Ready number list k.factor listName length limit vs τ.store → Fits k vs.length →
    (forEach (l.round m c) (vs.drop (vs.length / k.factor * k.factor)) σ).Follows (fun _ => False)
      (Agree old l.hidden) (m.execStmts rest c τ)

theorem finishes_nil (strict : k.leftover = .strict) (t : Edit.State) :
    Finishes m number list l old k listName length limit t [] t where
  grows := .refl t
  within _ mem := nomatch mem
  runs c σ τ vs fuel agree _ fits := by
    rw [Nat.div_mul_cancel (fits strict), List.drop_length]
    exact follows_done fuel agree

variable {r : Reaching}

theorem finishes_epilogue (copies : Copies m number list r l old) (used : ∀ n, old n → n ∈ t.names.used)
    (listed : listName ∈ t.names.used ∧ ¬ old listName) (counted : length ∈ t.names.used)
    (limited : limit ∈ t.names.used)
    (made : Makes (epilogue r l.node.id l.target l.body listName length (.var node limit)) t st u) :
    Finishes m number list l old k listName length limit t [st] u := by
  obtain ⟨index, t₁, drawn, made⟩ := makes_bind.mp made
  obtain ⟨unused, taken, grows⟩ := makes_freshName drawn
  obtain ⟨stmts, t₂, copied, made⟩ := makes_bind.mp made
  obtain ⟨x, t₃, third, made⟩ := makes_bind_made made
  obtain ⟨inner, t₄, fourth, made⟩ := makes_bind_node made
  obtain ⟨body, t₅, drawn, made⟩ := makes_bind.mp made
  obtain ⟨whole, fifth⟩ := makes_block drawn
  obtain ⟨outer, t₆, sixth, made⟩ := makes_bind_node made
  obtain ⟨rfl, rfl⟩ := makes_pure.mp made
  obtain ⟨id, stmts⟩ := body
  cases whole
  have indexed : ¬ old index := fun known => unused (used index known)
  have treats := treats_copy copies (fun n known => grows n (used n known)) (grows _ listed.1) taken copied
  have names : u.names = t₂.names := by rw [sixth, fifth, fourth, third]
  refine ⟨grows.trans (treats.grows.trans (grows_of_eq names)), ?_, fun c σ τ vs fuel agree ready fits => ?_⟩
  · intro n named
    have own : n = index ∨ n = limit ∨ n = length ∨ n ∈ Stmt.names stmts := by
      simpa [names_single, ownNames, Stmt.binds, Stmt.exprs, Stmt.blocks, Expr.vars_eq, Expr.children, Expr.reads,
        Binder.names] using named
    rw [names]
    rcases own with rfl | rfl | rfl | inner
    · exact treats.grows _ taken
    · exact treats.grows _ (grows _ limited)
    · exact treats.grows _ (grows _ counted)
    · exact treats.within n inner
  · have below : vs.length / k.factor * k.factor ≤ vs.length := Nat.div_mul_le_self _ _
    obtain ⟨count, total⟩ := Nat.exists_eq_add_of_le below
    obtain ⟨held, stops, starts⟩ := ready
    rw [total] at stops
    generalize vs.length / k.factor * k.factor = start at total stops starts ⊢
    have elements : m.drawn c τ.store (.binary inner .range (some "range") (.var node limit) (.var x length)) =
        .ok ((List.range count).map fun j => number (start + j * 1)) := by
      refine bind_ok.mpr ⟨_, bind_ok.mpr ⟨_, Machine.eval_var starts, bind_ok.mpr ⟨_, Machine.eval_var stops,
        demand_ok.mpr (copies.counts.range c start count)⟩⟩, demand_ok.mpr ?_⟩
      simp only [Nat.mul_one]
      exact (copies.counts.elements _ _).mpr rfl
    have all : (vs.drop start).take (count * 1) = vs.drop start := List.take_of_length_le (by simp; omega)
    have both := follows_loop copies.shaped (treats : Treats m number list l old listName index (List.range 1) t₁ stmts t₂)
      ⟨grows _ listed.1, listed.2⟩ indexed (fun same => unused (same ▸ listed.1)) outer id (by omega) fuel agree held
      elements
    rw [all] at both
    rw [m.execStmts_single]
    exact (both.after [] _).imp fun w holds => holds.1

def leftovers (k : Unroll) (r : Reaching) (l : Loop) (listName length : Name) (start : Expr) : Edit (List Stmt) :=
  match k.leftover with
  | .strict => pure []
  | .epilogue => do return [← epilogue r l.node.id l.target l.body listName length start]

theorem finishes_leftovers (copies : Copies m number list r l old) (used : ∀ n, old n → n ∈ t.names.used)
    (listed : listName ∈ t.names.used ∧ ¬ old listName) (counted : length ∈ t.names.used)
    (limited : limit ∈ t.names.used) (made : Makes (leftovers k r l listName length (.var node limit)) t rest u) :
    Finishes m number list l old k listName length limit t rest u := by
  unfold leftovers at made
  cases strategy : k.leftover with
  | strict =>
    rw [strategy] at made
    obtain ⟨rfl, rfl⟩ := makes_pure.mp made
    exact finishes_nil strategy _
  | epilogue =>
    rw [strategy] at made
    obtain ⟨st, drawn, rfl⟩ := makes_bind_pure made
    exact finishes_epilogue copies used listed counted limited drawn

theorem unroll_eq (k : Unroll) (r : Reaching) (l : Loop) (iterable : Expr) :
    unroll k r l.node l.target iterable l.body = (do
      let list ← Edit.freshName "t"
      let length ← Edit.freshName "n"
      let index ← Edit.freshName "i"
      let keep ← Edit.assign (.name list) iterable
      let value := Expr.unary (← Edit.node) .len (some "len") (← Edit.var list)
      let measure ← Edit.assign (.name length) value
      let (stop, check) ← bound k length
      let copies ← (List.range k.factor).mapM fun offset => copy r l.node.id l.target l.body list index offset
      let zero ← Edit.nat 0
      let step ← Edit.nat k.factor
      let range := Expr.ternary (← Edit.node) .range (some "range") zero stop step
      let main := Stmt.each (← Edit.node l.node.loc) (.name index) range (← Edit.block copies.flatten)
      let rest ← leftovers k r l list length stop
      Edit.noteAt .loopUnrolled l.node.id ("by " ++ toString k.factor ++ " (" ++ k.leftover.text ++ ")")
      return [keep, measure, check, main] ++ rest) := by
  unfold unroll leftovers
  cases k.leftover with
  | strict => rfl
  | epilogue => simp only [bind_assoc]

/-- Names for a list, its length and a position in it that are new and differ from each other. -/
structure Drawn (listName length index : Name) (t s : Edit.State) : Prop where
  grows : Grows t s
  newList : listName ∈ s.names.used ∧ listName ∉ t.names.used
  newLength : length ∈ s.names.used ∧ length ∉ t.names.used
  newIndex : index ∈ s.names.used ∧ index ∉ t.names.used
  listLength : listName ≠ length
  listIndex : listName ≠ index
  lengthIndex : length ≠ index

theorem drawn_of_fresh {t₁ t₂ t₃ : Edit.State} (first : Makes (freshName base) t listName t₁)
    (second : Makes (freshName base') t₁ length t₂) (third : Makes (freshName base'') t₂ index t₃)
    (same : s.names = t₃.names) : Drawn listName length index t s := by
  obtain ⟨newList, takenList, grows₁⟩ := makes_freshName first
  obtain ⟨newLength, takenLength, grows₂⟩ := makes_freshName second
  obtain ⟨newIndex, takenIndex, grows₃⟩ := makes_freshName third
  have grows₄ : Grows t₃ s := grows_of_eq same
  constructor
  · exact grows₁.trans (grows₂.trans (grows₃.trans grows₄))
  · exact ⟨grows₄ _ (grows₃ _ (grows₂ _ takenList)), newList⟩
  · exact ⟨grows₄ _ (grows₃ _ takenLength), fun mem => newLength (grows₁ _ mem)⟩
  · exact ⟨grows₄ _ takenIndex, fun mem => newIndex (grows₂ _ (grows₁ _ mem))⟩
  · exact fun equal => newLength (equal ▸ takenList)
  · exact fun equal => newIndex (equal ▸ grows₂ _ takenList)
  · exact fun equal => newIndex (equal ▸ takenLength)

/-- The list, its length and the end of the main loop are settled, then the two loops go through the list. -/
theorem follows_unrolled (shaped : m.Shaped) (counts : m.Counts number list) (positive : 0 < k.factor)
    (drawn : Drawn listName length index t s) (bounds : Bounds m number k length limit s check v)
    (treats : Treats m number list l (· ∈ t.names.used) listName index (List.range k.factor) v stmts w)
    (finishes : Finishes m number list l (· ∈ t.names.used) k listName length limit v' rest u)
    (a b d e g h o p q : Node) (id : NodeId) {σ : State V}
    (fits : ∀ vs, m.drawn c σ.store iterable = .ok vs → Fits k vs.length) :
    (m.exec (.each l.node l.target iterable l.body) c σ).Follows (fun _ => False) (Agree (· ∈ t.names.used) l.hidden)
    (m.execStmts ([.assign a (.name listName) none iterable, .assign b (.name length) none (.unary d .len (some "len")
    (.var e listName)), check, .each g (.name index) (.ternary h .range (some "range") (.lit o (.integer (0 : Nat)))
    (.var p limit) (.lit q (.integer k.factor))) ⟨id, stmts⟩] ++ rest) c σ) := by
  rw [Machine.exec]
  cases result : m.drawn c σ.store iterable with
  | error f => exact follows_failed
  | ok vs =>
    obtain ⟨value, computed, elements⟩ := bind_ok.mp result
    obtain rfl := (counts.elements value vs).mp (demand_ok.mp elements)
    obtain ⟨τ₁, goes₁, fuel₁, set₁, others₁⟩ := Machine.goes_set shaped a listName computed
    have counted : m.eval c τ₁.store (.unary d .len (some "len") (.var e listName)) = .ok (number vs.length) :=
      bind_ok.mpr ⟨_, Machine.eval_var set₁, demand_ok.mpr (counts.len c vs)⟩
    obtain ⟨τ₂, goes₂, fuel₂, set₂, others₂⟩ := Machine.goes_set shaped b length counted
    obtain ⟨τ₃, goes₃, fuel₃, others₃, set₃⟩ := bounds.runs c τ₂ vs.length set₂ (fits vs result)
    have agree : Agree (· ∈ t.names.used) l.hidden (σ.store, τ₃.store) := by
      intro n known _
      rw [others₃ n (drawn.grows n known), others₂ n fun same => drawn.newLength.2 (same ▸ known),
        others₁ n fun same => drawn.newList.2 (same ▸ known)]
    have ready : Ready number list k.factor listName length limit vs τ₃.store := by
      refine ⟨?_, ?_, set₃⟩
      · rw [others₃ listName drawn.newList.1, others₂ listName drawn.listLength, set₁]
      · rw [others₃ length drawn.newLength.1, set₂]
    have limited : ¬ limit ∈ t.names.used ∧ limit ≠ index := by
      rcases bounds.new with rfl | new
      · exact ⟨drawn.newLength.2, drawn.lengthIndex⟩
      · exact ⟨fun known => new (drawn.grows _ known), fun same => new (same ▸ drawn.newIndex.1)⟩
    have places : m.drawn c τ₃.store (.ternary h .range (some "range") (.lit o (.integer (0 : Nat))) (.var p limit)
        (.lit q (.integer k.factor))) =
        .ok ((List.range (vs.length / k.factor)).map fun j => number (0 + j * k.factor)) := by
      refine bind_ok.mpr ⟨_, bind_ok.mpr ⟨_, counts.eval_nat _ o 0, bind_ok.mpr ⟨_, Machine.eval_var set₃,
        bind_ok.mpr ⟨_, counts.eval_nat _ q k.factor, demand_ok.mpr (counts.stepped c _ _ positive)⟩⟩⟩,
        demand_ok.mpr ?_⟩
      simp only [Nat.zero_add]
      exact (counts.elements _ _).mpr rfl
    have fuel : τ₃.fuel = σ.fuel := by rw [fuel₃, fuel₂, fuel₁]
    have main := follows_loop shaped treats ⟨bounds.grows _ drawn.newList.1, drawn.newList.2⟩ drawn.newIndex.2 drawn.listIndex
      g id (by rw [Nat.zero_add]; exact Nat.div_mul_le_self _ _) fuel agree ready.list places
    rw [List.drop_zero] at main
    have parts : forEach (l.round m c) vs σ =
        (forEach (l.round m c) (vs.take (vs.length / k.factor * k.factor)) σ).andThen
          (forEach (l.round m c) (vs.drop (vs.length / k.factor * k.factor))) := by
      rw [← forEach_append, List.take_append_drop]
    change (forEach (l.round m c) vs σ).Follows _ _ _
    rw [parts, cons_append, m.execStmts_cons]
    refine goes₁.follows ?_
    rw [cons_append, m.execStmts_cons]
    refine goes₂.follows ?_
    rw [cons_append, m.execStmts_cons]
    refine goes₃.follows ?_
    rw [cons_append, nil_append, m.execStmts_cons, m.execStmts_single]
    refine follows_andThen (sees_true _) (fun _ => main.after [] _) ?_
    rintro σ' τ' fuel' ⟨agree', kept⟩ _
    refine finishes.runs c σ' τ' vs fuel' agree' ⟨?_, ?_, ?_⟩ (fits vs result)
    · rw [kept _ (bounds.grows _ drawn.newList.1) drawn.newList.2 drawn.listIndex, ready.list]
    · rw [kept _ (bounds.grows _ drawn.newLength.1) drawn.newLength.2 drawn.lengthIndex, ready.length]
    · rw [kept _ bounds.taken limited.1 limited.2, ready.limit]

/-- What takes the place of a loop is as it should be: it ends as the loop does, but for what is hidden. -/
structure Unrolled (m : Machine V C) (l : Loop) (iterable : Expr) (k : Unroll) (t : Edit.State) (out : List Stmt)
    (u : Edit.State) : Prop where
  grows : Grows t u
  within : Within u.names.used (Stmt.names out)
  runs : ∀ c (σ : State V), (∀ vs, m.drawn c σ.store iterable = .ok vs → Fits k vs.length) →
    (m.exec (.each l.node l.target iterable l.body) c σ).Follows (fun _ => False) (Agree (· ∈ t.names.used) l.hidden)
      (m.execStmts out c σ)

theorem unrolled_of_unroll (shaped : m.Shaped) (counts : m.Counts number list) (positive : 0 < k.factor)
    (lost : l.hidden = hidden r l.node.id l.target)
    (within : Within t.names.used (Stmt.names [.each l.node l.target iterable l.body]))
    (made : Makes (unroll k r l.node l.target iterable l.body) t out u) : Unrolled m l iterable k t out u := by
  rw [unroll_eq] at made
  obtain ⟨listName, t₁, first, made⟩ := makes_bind.mp made
  obtain ⟨length, t₂, second, made⟩ := makes_bind.mp made
  obtain ⟨index, t₃, third, made⟩ := makes_bind.mp made
  obtain ⟨keep, t₄, same₄, made⟩ := makes_bind_made made
  obtain ⟨counter, t₅, same₅, made⟩ := makes_bind_node made
  obtain ⟨x, t₆, same₆, made⟩ := makes_bind_made made
  obtain ⟨measure, t₇, same₇, made⟩ := makes_bind_made made
  have new : Drawn listName length index t t₇ := drawn_of_fresh first second third (by rw [same₇, same₆, same₅, same₄])
  obtain ⟨⟨_, check⟩, t₈, drawn, made⟩ := makes_bind.mp made
  obtain ⟨y, limit, rfl, bounds⟩ := makes_bound shaped counts positive new.newLength.1 drawn
  obtain ⟨copies, t₉, drawn, made⟩ := makes_bind.mp made
  simp only [names_single, ownNames, Stmt.binds, Stmt.exprs, Stmt.blocks, flatMap_cons, flatMap_nil,
    append_nil, within_append] at within
  obtain ⟨⟨bound, reads⟩, inside⟩ := within
  have grows₈ : Grows t t₈ := new.grows.trans bounds.grows
  have treats : Treats m number list l (· ∈ t.names.used) listName index (List.range k.factor) t₈ copies.flatten t₉ :=
    treats_copies ⟨shaped, counts, lost, bound, inside⟩ (fun n known => grows₈ n known)
      ⟨bounds.grows _ new.newList.1, new.newList.2⟩ ⟨bounds.grows _ new.newIndex.1, new.newIndex.2⟩ drawn
  obtain ⟨o, t₁₀, same₁₀, made⟩ := makes_bind_made made
  obtain ⟨q, t₁₁, same₁₁, made⟩ := makes_bind_made made
  obtain ⟨h, t₁₂, same₁₂, made⟩ := makes_bind_node made
  obtain ⟨g, t₁₃, same₁₃, made⟩ := makes_bind_node made
  obtain ⟨⟨id, stmts⟩, t₁₄, drawn, made⟩ := makes_bind.mp made
  obtain ⟨whole, same₁₄⟩ := makes_block drawn
  cases whole
  have names : t₁₄.names = t₉.names := by rw [same₁₄, same₁₃, same₁₂, same₁₁, same₁₀]
  have grows₁₄ : Grows t₇ t₁₄ := bounds.grows.trans (treats.grows.trans (grows_of_eq names))
  obtain ⟨rest, t₁₅, drawn, made⟩ := makes_bind.mp made
  have finishes : Finishes m number list l (· ∈ t.names.used) k listName length limit t₁₄ rest t₁₅ := by
    refine finishes_leftovers ⟨shaped, counts, lost, bound, inside⟩ ?_ ?_ ?_ ?_ drawn
    · exact fun n known => grows₁₄ n (new.grows n known)
    · exact ⟨grows₁₄ _ new.newList.1, new.newList.2⟩
    · exact grows₁₄ _ new.newLength.1
    · rw [names]
      exact treats.grows _ bounds.taken
  obtain ⟨_, t₁₆, noted, made⟩ := makes_bind.mp made
  have still : t₁₆.names = t₁₅.names := nameless_note _ _ _ _ _ _ noted
  obtain ⟨rfl, rfl⟩ := makes_pure.mp made
  have grows : Grows t₁₄ u := finishes.grows.trans (grows_of_eq still)
  have all : Grows t₇ u := grows₁₄.trans grows
  refine ⟨new.grows.trans all, ?_, fun c σ fits => ?_⟩
  · rw [names_append, within_append, names_cons _ [_, _, _], names_cons _ [_, _], names_cons _ [_]]
    simp only [within_append]
    refine ⟨⟨?_, ?_, ?_, ?_⟩, fun n named => grows_of_eq still n (finishes.within n named)⟩
    · intro n named
      have own : n = listName ∨ n ∈ iterable.vars := by
        simpa [names_single, ownNames, Stmt.binds, Stmt.exprs, Stmt.blocks, Binder.names] using named
      rcases own with rfl | read
      · exact all _ new.newList.1
      · exact all _ (new.grows _ (reads n read))
    · intro n named
      have own : n = length ∨ n = listName := by
        simpa [names_single, ownNames, Stmt.binds, Stmt.exprs, Stmt.blocks, Binder.names, Expr.vars_eq, Expr.children,
          Expr.reads] using named
      rcases own with rfl | rfl
      · exact all _ new.newLength.1
      · exact all _ new.newList.1
    · exact fun n named => grows _ (grows_of_eq names _ (treats.grows _ (bounds.within n named)))
    · intro n named
      have own : n = index ∨ n = limit ∨ n ∈ Stmt.names copies.flatten := by
        simpa [names_single, ownNames, Stmt.binds, Stmt.exprs, Stmt.blocks, Binder.names, Expr.vars_eq, Expr.children,
          Expr.reads] using named
      rcases own with rfl | rfl | inner
      · exact all _ new.newIndex.1
      · exact grows _ (grows_of_eq names _ (treats.grows _ bounds.taken))
      · exact grows _ (grows_of_eq names _ (treats.within n inner))
  · exact follows_unrolled shaped counts positive new bounds treats finishes keep measure counter x g h o y q id fits

end Unroll

end Unrolling

end NumLang
