import Mathlib.Data.Finset.Card
import Mathlib.Tactic.Choose
import NumLang.Ordered.Map
import NumLang.Partition

/-!
Partitions against labels. Every element carries a label, at first itself, and merging two classes gives the label of
the first to all elements of the second.
-/

namespace NumLang

namespace Partition

/-- The way from a slot up to its root, which takes `n` steps. -/
inductive Leads (parents : List Nat) : (n slot root : Nat) → Prop where
  | root {i : Nat} (own : parents[i]? = some i) : Leads parents 0 i i
  | step {n i p r : Nat} (next : parents[i]? = some p) (other : p ≠ i) (rest : Leads parents n p r) :
    Leads parents (n + 1) i r

variable {parents : List Nat} {m n i k r s : Nat}

namespace Leads

theorem unique (first : Leads parents m i r) (second : Leads parents n i s) : m = n ∧ r = s := by
  induction first generalizing n with
  | root own =>
    cases second with
    | root => exact ⟨rfl, rfl⟩
    | step next other => exact absurd (Option.some.inj (next.symm.trans own)) other
  | step next other _ ih =>
    cases second with
    | root own => exact absurd (Option.some.inj (next.symm.trans own)) other
    | step again _ rest =>
      cases Option.some.inj (next.symm.trans again)
      obtain ⟨rfl, rfl⟩ := ih rest
      exact ⟨rfl, rfl⟩

theorem isRoot (leads : Leads parents n i r) : parents[r]? = some r := by
  induction leads with
  | root own => exact own
  | step _ _ _ ih => exact ih

theorem exists_below (leads : Leads parents n i r) (le : k ≤ n) : ∃ j, Leads parents k j r := by
  induction leads with
  | root own =>
    cases Nat.le_zero.mp le
    exact ⟨_, .root own⟩
  | step next other rest ih =>
    rcases Nat.le_succ_iff.mp le with le | rfl
    · exact ih le
    · exact ⟨_, .step next other rest⟩

theorem lt_length (leads : Leads parents n i r) : n < parents.length := by
  choose! slot ways using fun k (le : k ≤ n) => leads.exists_below le
  have bounded : ∀ k ∈ Finset.range (n + 1), slot k ∈ Finset.range parents.length := by
    intro k le
    refine Finset.mem_range.mpr ?_
    cases ways k (Finset.mem_range_succ_iff.mp le) with
    | root own => exact (List.getElem?_eq_some_iff.mp own).1
    | step next => exact (List.getElem?_eq_some_iff.mp next).1
  have distinct : Set.InjOn slot (Finset.range (n + 1)) := by
    intro j low k high same
    have first := ways j (Finset.mem_range_succ_iff.mp low)
    rw [same] at first
    exact (first.unique (ways k (Finset.mem_range_succ_iff.mp high))).1
  simpa [Nat.succ_le_iff] using Finset.card_le_card_of_injOn slot bounded distinct

theorem append (more : List Nat) (leads : Leads parents n i r) : Leads (parents ++ more) n i r := by
  have kept : ∀ {j p : Nat}, parents[j]? = some p → (parents ++ more)[j]? = some p := fun held => by
    rw [List.getElem?_append_left (List.getElem?_eq_some_iff.mp held).1, held]
  induction leads with
  | root own => exact .root (kept own)
  | step next other _ ih => exact .step (kept next) other ih

theorem getElem?_set_of_ne (held : parents[j]? = some p) (other : j ≠ k) : (parents.set k r)[j]? = some p := by
  rw [List.getElem?_set_ne other.symm, held]

theorem getElem?_set_of_eq (held : parents[k]? = some s) : (parents.set k r)[k]? = some r :=
  List.getElem?_set_self (List.getElem?_eq_some_iff.mp held).1

theorem shorten (leads : Leads parents m i r) (short : Leads parents n k s) :
    ∃ h ≤ m, Leads (parents.set k s) h i r := by
  induction leads with
  | @root i own =>
    refine ⟨0, Nat.le_refl 0, .root ?_⟩
    by_cases same : i = k
    · subst same
      rw [(short.unique (.root own)).2]
      exact getElem?_set_of_eq own
    · exact getElem?_set_of_ne own same
  | @step m i p r next other rest ih =>
    by_cases same : i = k
    · subst same
      obtain ⟨-, rfl⟩ := short.unique (.step next other rest)
      have below : s ≠ i := by
        rintro rfl
        exact other (Option.some.inj (next.symm.trans short.isRoot))
      exact ⟨1, Nat.le_add_left 1 m,
        .step (getElem?_set_of_eq next) below (.root (getElem?_set_of_ne short.isRoot below))⟩
    · obtain ⟨h, le, leads⟩ := ih
      exact ⟨h + 1, Nat.succ_le_succ le, .step (getElem?_set_of_ne next same) other leads⟩

theorem link (leads : Leads parents m i r) (first : parents[s]? = some s) (second : parents[k]? = some k) (other : s ≠ k) :
    ∃ h, Leads (parents.set k s) h i (if r = k then s else r) := by
  induction leads with
  | @root i own =>
    by_cases same : i = k
    · subst same
      rw [if_pos rfl]
      exact ⟨1, .step (getElem?_set_of_eq own) other (.root (getElem?_set_of_ne first other))⟩
    · rw [if_neg same]
      exact ⟨0, .root (getElem?_set_of_ne own same)⟩
  | @step m i p r next away rest ih =>
    obtain ⟨h, leads⟩ := ih
    have inner : i ≠ k := by
      rintro rfl
      exact away (Option.some.inj (next.symm.trans second))
    exact ⟨h + 1, .step (getElem?_set_of_ne next inner) away leads⟩

end Leads

theorem rootFrom_eq (leads : Leads parents n i r) (le : n ≤ fuel) : rootFrom parents fuel i = r := by
  induction leads generalizing fuel with
  | root own =>
    cases fuel with
    | zero => rfl
    | succ fuel => simp [rootFrom, List.getD, own]
  | step next other _ ih =>
    cases fuel with
    | zero => cases le
    | succ fuel => simp [rootFrom, List.getD, next, other, ih (Nat.le_of_succ_le_succ le)]

/-- With enough rounds, the rounds left do not matter: shortening a way ends by itself. -/
theorem compress_eq (leads : Leads parents n i r) (le : n ≤ fuel) (few : n ≤ more) :
    compress r fuel i parents = compress r more i parents := by
  induction fuel generalizing more n i parents with
  | zero =>
    cases Nat.le_zero.mp le
    cases leads with
    | root own => cases more <;> simp [compress, List.getD, own]
  | succ fuel ih =>
    cases leads with
    | root own => cases more <;> simp [compress, List.getD, own]
    | @step n _ p _ next other rest =>
      obtain ⟨more, rfl⟩ := Nat.exists_eq_succ_of_ne_zero (Nat.ne_zero_of_lt few)
      obtain ⟨h, shorter, onward⟩ := rest.shorten (.step next other rest)
      simp only [compress, List.getD, next, Option.getD_some]
      rw [ih onward (shorter.trans (Nat.le_of_succ_le_succ le)) (shorter.trans (Nat.le_of_succ_le_succ few))]

theorem length_compress (root fuel slot : Nat) (parents : List Nat) :
    (compress root fuel slot parents).length = parents.length := by
  induction fuel generalizing slot parents with
  | zero => rfl
  | succ fuel ih =>
    unfold compress
    dsimp only
    split
    · rfl
    · rw [ih, List.length_set]

theorem leads_compress (fuel : Nat) (short : Leads parents n k s) (leads : Leads parents m i r) :
    ∃ h, Leads (compress s fuel k parents) h i r := by
  induction fuel generalizing n m k parents with
  | zero => exact ⟨m, leads⟩
  | succ fuel ih =>
    cases short with
    | root own => exact ⟨m, by simpa [compress, List.getD, own] using leads⟩
    | step next other rest =>
      have whole := Leads.step next other rest
      obtain ⟨_, _, onward⟩ := rest.shorten whole
      obtain ⟨_, _, leads⟩ := leads.shorten whole
      simp only [compress, List.getD, next, Option.getD_some]
      split
      · exact ⟨m, ‹Leads parents m i r›⟩
      · exact ih onward leads

end Partition

/-- Elements with their labels, in the order in which they were added. -/
abbrev Labels (α : Type) := List (α × α)

/-- What is asked of a partition. -/
inductive Request (α : Type) where
  | add (x : α)
  | union (a b : α)
  | find (x : α)
  | same (a b : α)
  | component (x : α)
  | representatives

/-- What is answered. -/
inductive Answer (α : Type) where
  | element (x : Option α)
  | truth (b : Bool)
  | elements (xs : List α)

/-- The answers to requests that are made one after the other, and the state after them. -/
def Request.answerAll {α σ : Type} (answer : Request α → σ → Answer α × σ) : List (Request α) → σ → List (Answer α) × σ
  | [], state => ([], state)
  | request :: rest, state =>
    let (first, state) := answer request state
    let (others, state) := answerAll answer rest state
    (first :: others, state)

variable {α : Type} [DecidableEq α]

namespace Labels

def add (x : α) (l : Labels α) : Labels α := if x ∈ l.map Prod.fst then l else l ++ [(x, x)]

def relabel (old new : α) (l : Labels α) : Labels α := l.map fun entry => (entry.1, if entry.2 = old then new else entry.2)

def union (a b : α) (l : Labels α) : Labels α :=
  match l.lookup a, l.lookup b with
  | some u, some v => l.relabel v u
  | _, _ => l

def component (x : α) (l : Labels α) : List α :=
  match l.lookup x with
  | some u => (l.filter (·.2 = u)).map Prod.fst
  | none => []

def representatives (l : Labels α) : List α := (l.filter fun (x, y) => x = y).map Prod.fst

theorem mem_add {l : Labels α} : z ∈ (l.add x).map Prod.fst ↔ z = x ∨ z ∈ l.map Prod.fst := by
  unfold add
  split
  · exact ⟨.inr, fun either => either.elim (fun same => same ▸ ‹_›) id⟩
  · simp [or_comm]

theorem lookup_relabel (old new x : α) (l : Labels α) :
    (l.relabel old new).lookup x = (l.lookup x).map fun y => if y = old then new else y := by
  induction l with
  | nil => rfl
  | cons entry rest ih =>
    rw [relabel, List.map_cons, OrdMap.lookup_cons_eq_ite, OrdMap.lookup_cons_eq_ite, ← relabel, ih]
    rw [apply_ite (Option.map _)]
    rfl

theorem relabel_self (u : α) (l : Labels α) : l.relabel u u = l := by
  refine (List.map_congr_left fun entry _ => ?_).trans (List.map_id l)
  split_ifs with same
  · exact Prod.ext rfl same.symm
  · rfl

def answer : Request α → Labels α → Answer α × Labels α
  | .add x, l => (.element ((l.add x).lookup x), l.add x)
  | .union a b, l =>
    let merged := Labels.union a b ((l.add a).add b)
    (.element (merged.lookup a), merged)
  | .find x, l => (.element (l.lookup x), l)
  | .same a b, l => (.truth ((l.lookup a).isSome && l.lookup a == l.lookup b), l)
  | .component x, l => (.elements (l.component x), l)
  | .representatives, l => (.elements l.representatives, l)

end Labels

namespace Partition

def answer : Request α → Partition α → Answer α × Partition α
  | .add x, p => (p.add x).map .element id
  | .union a b, p => (p.union a b).map .element id
  | .find x, p => (p.find? x).map .element id
  | .same a b, p => (p.same a b).map .truth id
  | .component x, p => (p.component x).map .elements id
  | .representatives, p => p.representatives.map .elements id

/-- A forest for labelled elements: from the slot of each of them the way leads to the slot of its label. -/
structure Represents (p : Partition α) (l : Labels α) : Prop where
  elements : p.elements = l.map Prod.fst
  distinct : p.elements.Nodup
  length : p.parents.length = l.length
  leads : ∀ {i x y}, l[i]? = some (x, y) → ∃ n r, Leads p.parents n i r ∧ p.elements[r]? = some y

namespace Represents

variable {p : Partition α} {l : Labels α} {i j r : Nat} {x y : α}

section

omit [DecidableEq α]

section

variable (rep : p.Represents l)

include rep

theorem slot_eq_iff (first : p.elements[i]? = some x) (second : p.elements[j]? = some y) : i = j ↔ x = y := by
  rw [← List.getElem?_inj (List.getElem?_eq_some_iff.mp first).1 rep.distinct, first, second, Option.some_inj]

theorem element (held : l[i]? = some (x, y)) : p.elements[i]? = some x := by
  rw [rep.elements, List.getElem?_map, held]
  rfl

theorem leads_to (held : l[i]? = some (x, y)) (labelled : p.elements[r]? = some y) : ∃ n, Leads p.parents n i r := by
  obtain ⟨n, s, leads, same⟩ := rep.leads held
  cases (rep.slot_eq_iff same labelled).mpr rfl
  exact ⟨n, leads⟩

theorem label_of_root (held : l[i]? = some (x, y)) : p.elements[p.root i]? = some y := by
  obtain ⟨n, r, leads, labelled⟩ := rep.leads held
  rw [root, rootFrom_eq leads leads.lt_length.le, labelled]

theorem locate (held : l[i]? = some (x, y)) : (p.locate i).2.Represents l := by
  obtain ⟨n, short⟩ := rep.leads_to held (rep.label_of_root held)
  refine ⟨rep.elements, rep.distinct, (length_compress ..).trans rep.length, fun held => ?_⟩
  obtain ⟨m, r, leads, labelled⟩ := rep.leads held
  obtain ⟨h, leads⟩ := leads_compress p.parents.length short leads
  exact ⟨h, r, leads, labelled⟩

/-- The slots from one on with their roots, beside the elements with their labels. -/
theorem locateAll {count first : Nat} (all : first + count = l.length) :
    (p.locateAll count first).2.Represents l ∧ (p.locateAll count first).2.elements = p.elements ∧ List.Forall₂
      (fun entry label => p.elements[entry.1]? = some label.1 ∧ p.elements[entry.2]? = some label.2)
      (p.locateAll count first).1 (l.drop first) := by
  induction count generalizing first p with
  | zero =>
    rw [List.drop_eq_nil_of_le (show l.length ≤ first from Nat.le_of_eq all.symm)]
    exact ⟨rep, rfl, .nil⟩
  | succ count ih =>
    have inside : first < l.length := by omega
    have held : l[first]? = some l[first] := List.getElem?_eq_getElem inside
    obtain ⟨after, same, others⟩ := ih (rep.locate held) (show first + 1 + count = l.length by omega)
    rw [List.drop_eq_getElem_cons inside]
    exact ⟨after, same, .cons ⟨rep.element held, rep.label_of_root held⟩ others⟩

end

theorem chosen {located : List (Nat × Nat)} {labels : Labels α} {elements : List α}
    (beside : List.Forall₂ (fun entry label => elements[entry.1]? = some label.1 ∧ elements[entry.2]? = some label.2)
    located labels)
    (agree : ∀ entry label, elements[entry.1]? = some label.1 → elements[entry.2]? = some label.2 → P entry = Q label) :
    (located.filter P).filterMap (fun entry => elements[entry.1]?) = (labels.filter Q).map Prod.fst := by
  induction beside with
  | nil => rfl
  | cons here _ ih =>
    rw [List.filter_cons, List.filter_cons, agree _ _ here.1 here.2]
    split
    · rw [List.filterMap_cons, here.1, List.map_cons, ih]
    · exact ih

end

variable (rep : p.Represents l)

include rep

theorem link (first : l[i]? = some (a, u)) (second : l[j]? = some (b, v)) (one : p.elements[r]? = some u)
    (two : p.elements[s]? = some v) (other : r ≠ s) :
    Represents { p with parents := p.parents.set s r } (l.relabel v u) := by
  obtain ⟨_, upper⟩ := rep.leads_to first one
  obtain ⟨_, lower⟩ := rep.leads_to second two
  refine ⟨?_, rep.distinct, ?_, ?_⟩
  · rw [rep.elements, Labels.relabel, List.map_map]
    rfl
  · rw [List.length_set, rep.length, Labels.relabel, List.length_map]
  · intro k x y held
    rw [Labels.relabel, List.getElem?_map] at held
    obtain ⟨⟨x, old⟩, found, same⟩ := Option.map_eq_some_iff.mp held
    cases same
    obtain ⟨n, t, leads, labelled⟩ := rep.leads found
    obtain ⟨h, leads⟩ := leads.link upper.isRoot lower.isRoot other
    refine ⟨h, _, leads, ?_⟩
    by_cases same : t = s
    · cases same
      cases two.symm.trans labelled
      rw [if_pos rfl, if_pos rfl]
      exact one
    · rw [if_neg same, if_neg (mt (rep.slot_eq_iff labelled two).mpr same)]
      exact labelled

theorem lookup_cases (x : α) :
    (l.lookup x = none ∧ p.slot? x = none) ∨ ∃ i y, l.lookup x = some y ∧ p.slot? x = some i ∧ l[i]? = some (x, y) := by
  rw [slot?, rep.elements]
  clear rep
  induction l with
  | nil => exact .inl ⟨rfl, rfl⟩
  | cons entry rest ih =>
    simp only [OrdMap.lookup_cons_eq_ite, List.map_cons, List.idxOf?_cons, beq_iff_eq]
    by_cases same : entry.1 = x
    · subst same
      exact .inr ⟨0, entry.2, if_pos rfl, if_pos rfl, rfl⟩
    · rw [if_neg same, if_neg (Ne.symm same)]
      rcases ih with ⟨absent, none⟩ | ⟨i, y, found, slot, held⟩
      · exact .inl ⟨absent, by rw [none]; rfl⟩
      · exact .inr ⟨i + 1, y, found, by rw [slot]; rfl, held⟩

theorem find? (x : α) : (p.find? x).1 = l.lookup x ∧ (p.find? x).2.Represents l := by
  unfold Partition.find?
  rcases rep.lookup_cases x with ⟨absent, none⟩ | ⟨i, y, found, slot, held⟩
  · rw [none, absent]
    exact ⟨rfl, rep⟩
  · rw [slot, found]
    exact ⟨rep.label_of_root held, rep.locate held⟩

theorem insert (x : α) : (p.insert x).Represents (l.add x) := by
  unfold Partition.insert Labels.add
  rw [← rep.elements]
  split
  · exact rep
  · rename_i absent
    have size : p.elements.length = l.length := by rw [rep.elements, List.length_map]
    have distinct : (p.elements ++ [x]).Nodup := by
      simpa [List.nodup_append] using ⟨rep.distinct, fun y mem same => absent (same ▸ mem)⟩
    refine ⟨by simp [rep.elements], distinct, by simp [rep.length], ?_⟩
    intro i z y held
    rcases Nat.lt_or_ge i l.length with old | new
    · rw [List.getElem?_append_left old] at held
      obtain ⟨n, r, leads, labelled⟩ := rep.leads held
      refine ⟨n, r, leads.append _, ?_⟩
      rw [List.getElem?_append_left (List.getElem?_eq_some_iff.mp labelled).1, labelled]
    · obtain rfl : i = l.length := by
        have := (List.getElem?_eq_some_iff.mp held).1
        simp only [List.length_append, List.length_singleton] at this
        omega
      rw [List.getElem?_concat_length] at held
      cases held
      refine ⟨0, l.length, .root ?_, ?_⟩
      · rw [size, ← rep.length, List.getElem?_concat_length]
      · rw [← size, List.getElem?_concat_length]

theorem add (x : α) : (p.add x).1 = (l.add x).lookup x ∧ (p.add x).2.Represents (l.add x) :=
  (rep.insert x).find? x

theorem exists_slot (mem : x ∈ l.map Prod.fst) :
    ∃ i y, l.lookup x = some y ∧ p.slot? x = some i ∧ l[i]? = some (x, y) := by
  rcases rep.lookup_cases x with ⟨_, absent⟩ | found
  · rw [slot?, List.idxOf?_eq_none_iff, rep.elements] at absent
    exact absurd mem absent
  · exact found

theorem union (a b : α) :
    (p.union a b).1 = (Labels.union a b ((l.add a).add b)).lookup a ∧ (p.union a b).2.Represents
      (Labels.union a b ((l.add a).add b)) := by
  have both := ((rep.add a).2.add b).2
  have mem : a ∈ ((l.add a).add b).map Prod.fst ∧ b ∈ ((l.add a).add b).map Prod.fst := by simp [Labels.mem_add]
  unfold Partition.union Labels.union
  dsimp only
  generalize ((p.add a).2.add b).2 = q, (l.add a).add b = l at both mem ⊢
  obtain ⟨i, u, first, slot, held⟩ := both.exists_slot mem.1
  obtain ⟨j, v, second, slot', held'⟩ := both.exists_slot mem.2
  have one := both.locate held
  have two := one.locate held'
  have top := both.label_of_root held
  have low := one.label_of_root held'
  simp only [slot, slot', first, second]
  refine ⟨?_, ?_⟩
  · rw [Labels.lookup_relabel, first, Option.map_some, ite_self]
    exact top
  · split
    · rename_i same
      have equal : some u = some v := top.symm.trans ((congrArg _ same).trans low)
      rw [Option.some.inj equal, Labels.relabel_self]
      exact two
    · exact two.link held held' top low ‹_›

theorem same (a b : α) :
    (p.same a b).1 = ((l.lookup a).isSome && l.lookup a == l.lookup b) ∧ (p.same a b).2.Represents l := by
  obtain ⟨first, one⟩ := rep.find? a
  obtain ⟨second, two⟩ := one.find? b
  refine ⟨?_, two⟩
  rw [← first, ← second]
  rfl

theorem component (x : α) : (p.component x).1 = l.component x ∧ (p.component x).2.Represents l := by
  unfold Partition.component Labels.component
  rcases rep.lookup_cases x with ⟨absent, none⟩ | ⟨i, u, found, slot, held⟩
  · rw [none, absent]
    exact ⟨rfl, rep⟩
  · rw [slot, found]
    have size : (p.locate i).2.size = l.length := by rw [size, (rep.locate held).elements, List.length_map]
    obtain ⟨after, same, beside⟩ := (rep.locate held).locateAll (show 0 + l.length = l.length from Nat.zero_add _)
    dsimp only
    rw [size, same]
    refine ⟨chosen beside fun entry label _ labelled => ?_, after⟩
    exact decide_eq_decide.mpr (rep.slot_eq_iff labelled (rep.label_of_root held))

theorem representatives : p.representatives.1 = l.representatives ∧ p.representatives.2.Represents l := by
  have size : p.size = l.length := by rw [size, rep.elements, List.length_map]
  obtain ⟨after, same, beside⟩ := rep.locateAll (show 0 + l.length = l.length from Nat.zero_add _)
  unfold Partition.representatives
  dsimp only
  rw [size, same]
  exact ⟨chosen beside fun entry label own labelled => decide_eq_decide.mpr (rep.slot_eq_iff own labelled), after⟩

theorem answer (request : Request α) :
    (p.answer request).1 = (l.answer request).1 ∧ (p.answer request).2.Represents (l.answer request).2 := by
  cases request with
  | add x => exact (rep.add x).imp_left (congrArg _)
  | union a b => exact (rep.union a b).imp_left (congrArg _)
  | find x => exact (rep.find? x).imp_left (congrArg _)
  | same a b => exact (rep.same a b).imp_left (congrArg _)
  | component x => exact (rep.component x).imp_left (congrArg _)
  | representatives => exact rep.representatives.imp_left (congrArg _)

theorem answerAll (requests : List (Request α)) :
    (Request.answerAll Partition.answer requests p).1 = (Request.answerAll Labels.answer requests l).1 ∧
      (Request.answerAll Partition.answer requests p).2.Represents (Request.answerAll Labels.answer requests l).2 := by
  induction requests generalizing p l with
  | nil => exact ⟨rfl, rep⟩
  | cons request rest ih =>
    obtain ⟨first, after⟩ := rep.answer request
    obtain ⟨others, after⟩ := ih after
    exact ⟨congrArg₂ List.cons first others, after⟩

end Represents

/-- Whatever is asked of a partition that starts empty, it answers as labels do. In the state that it is in then, looking
up a root and shortening the way to it end by themselves: no greater bound on their rounds changes what they give. -/
theorem answers_eq_labels (requests : List (Request α)) :
    let (given, p) := Request.answerAll answer requests {}
    given = (Request.answerAll Labels.answer requests []).1 ∧
      ∀ slot < p.size, ∀ bound ≥ p.size, p.parents[p.root slot]? = some (p.root slot) ∧
        rootFrom p.parents bound slot = p.root slot ∧
        compress (p.root slot) bound slot p.parents = (p.locate slot).2.parents := by
  have start : (Partition.mk [] [] : Partition α).Represents [] := ⟨rfl, .nil, rfl, nofun⟩
  obtain ⟨same, rep⟩ := start.answerAll requests
  refine ⟨same, fun slot inside bound enough => ?_⟩
  generalize (Request.answerAll answer requests {}).2 = p at rep inside enough ⊢
  have size : p.size = p.parents.length := by rw [size, rep.elements, List.length_map, rep.length]
  rw [size] at inside enough
  have held := List.getElem?_eq_getElem (rep.length ▸ inside)
  obtain ⟨n, leads⟩ := rep.leads_to held (rep.label_of_root held)
  have short := leads.lt_length.le
  exact ⟨leads.isRoot, rootFrom_eq leads (short.trans enough), compress_eq leads (short.trans enough) short⟩

end Partition

end NumLang
