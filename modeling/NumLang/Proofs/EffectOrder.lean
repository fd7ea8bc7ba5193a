import NumLang.Proofs.InliningSound

/-!
The order of effects under inlining. What a replaced call holds is evaluated before the statement, everything else where
it stood.
-/

namespace NumLang

/-! ### Rows that are evaluated one after the other -/

/-- Two rows, each in two pieces, stand in their order after the first pieces were put before the second ones just if one
of the pieces that change places is empty. -/
theorem append_interleave_iff {α : Type} {a b c d p q : List α} (first : (a ++ c).Perm p) (second : (b ++ d).Perm q)
    (apart : ∀ x ∈ b, x ∉ p) : a ++ b ++ (c ++ d) = p ++ q ↔ a ++ c = p ∧ b ++ d = q ∧ (c = [] ∨ b = []) := by
  constructor
  · intro same
    cases b with
    | nil =>
      rw [append_nil, ← append_assoc] at same
      obtain ⟨left, right⟩ := append_inj same first.length_eq
      exact ⟨left, right, .inr rfl⟩
    | cons x rest =>
      cases c with
      | nil =>
        rw [append_assoc, nil_append] at same
        obtain ⟨left, right⟩ := append_inj same (by simpa using first.length_eq)
        exact ⟨by rwa [append_nil], right, .inl rfl⟩
      | cons y others =>
        -- The first element that moves would stand within the first row.
        have fits : a.length < p.length := by
          have length := first.length_eq
          simp only [length_append, length_cons] at length
          omega
        have here : (p ++ q)[a.length]? = some x := by
          rw [← same]
          simp
        rw [List.getElem?_append_left fits] at here
        exact absurd (mem_of_getElem? here) (apart x mem_cons_self)
  · rintro ⟨rfl, rfl, rfl | rfl⟩ <;> simp

namespace Inlining

variable {replaced : NodeId → Bool}

def staying (replaced : NodeId → Bool) (es : List Expr) : List Expr :=
  (Expr.evaluatedAll (fun e => !replaced e.id) es).filter fun e => !replaced e.id

def moving (replaced : NodeId → Bool) (es : List Expr) : List Expr :=
  (Expr.order es).flatMap fun e => if replaced e.id then staying replaced e.children else []

variable {sites : List NodeId} {α : Type}

theorem staying_append (es fs : List Expr) : staying replaced (es ++ fs) = staying replaced es ++ staying replaced fs := by
  simp [staying, Expr.evaluatedAll_append]

theorem staying_single (e : Expr) :
    staying replaced [e] = if replaced e.id then [] else staying replaced e.children ++ [e] := by
  cases here : replaced e.id <;> simp [staying, Expr.evaluatedAll, Expr.evaluated_eq, here]

theorem moving_append (es fs : List Expr) : moving replaced (es ++ fs) = moving replaced es ++ moving replaced fs := by
  simp [moving, Expr.order_append]

theorem moving_single (e : Expr) :
    moving replaced [e] = moving replaced e.children ++ if replaced e.id then staying replaced e.children else [] := by
  simp [moving, Expr.order_single]

theorem byRows {P : List Expr → Prop} (nil : P []) (cons : ∀ e rest, P [e] → P rest → P (e :: rest))
    (single : ∀ e, P e.children → P [e]) : (es : List Expr) → P es := by
  have rows : ∀ es : List Expr, (∀ e ∈ es, P [e]) → P es := by
    intro es each
    induction es with
    | nil => exact nil
    | cons e rest ih =>
      obtain ⟨first, others⟩ := forall_mem_cons.mp each
      exact cons e rest first (ih others)
  exact fun es => rows es fun e _ => Expr.byChildren (fun e parts => single e (rows e.children parts)) e

theorem unmoved : (es : List Expr) → (∀ id ∈ Expr.idsAll es, replaced id = false) →
    moving replaced es = [] ∧ staying replaced es = Expr.order es := by
  refine byRows (fun _ => ⟨rfl, rfl⟩) (fun e rest first later clear => ?_) fun e parts clear => ?_
  · rw [← singleton_append] at clear ⊢
    rw [Expr.idsAll_append, forall_mem_append] at clear
    rw [moving_append, staying_append, Expr.order_append, (first clear.1).1, (first clear.1).2, (later clear.2).1,
      (later clear.2).2]
    exact ⟨rfl, rfl⟩
  · rw [Expr.idsAll_single, forall_mem_cons] at clear
    rw [moving_single, staying_single, Expr.order_single, clear.1, (parts clear.2).1, (parts clear.2).2]
    exact ⟨rfl, rfl⟩

theorem moving_staying_perm : (es : List Expr) →
    (moving replaced es ++ staying replaced es).Perm ((Expr.order es).filter fun e => !replaced e.id) := by
  refine byRows .nil (fun e rest first later => ?_) fun e parts => ?_
  · rw [← singleton_append, moving_append, staying_append, Expr.order_append, filter_append]
    refine (first.append later).symm.trans ?_ |>.symm
    simp only [append_assoc]
    refine List.Perm.append_left _ ?_
    simp only [← append_assoc]
    exact List.Perm.append_right _ List.perm_append_comm
  · rw [moving_single, staying_single, Expr.order_single, filter_append]
    cases here : replaced e.id with
    | true => simpa [here] using parts
    | false =>
      simp only [Bool.false_eq_true, if_false, append_nil, ← append_assoc]
      simpa [here] using parts.append_right [e]

def effectsOf (es : List Expr) : List NodeId := (es.filter Expr.isEffect).map Expr.id

theorem effectsOf_append (es fs : List Expr) : effectsOf (es ++ fs) = effectsOf es ++ effectsOf fs := by
  simp [effectsOf]

variable {es : List Expr} {e : Expr}

theorem perm_effectsOf {fs : List Expr} (perm : es.Perm fs) : (effectsOf es).Perm (effectsOf fs) :=
  (perm.filter _).map _

/-- No expression with an effect that stays comes before one with an effect that moves, among any that are evaluated one
after the other. -/
def Orderly (replaced : NodeId → Bool) (es : List Expr) : Prop :=
  ∀ row ∈ es :: (Expr.allOf es).map Expr.children, row.Pairwise fun e e' =>
    effectsOf (staying replaced [e]) = [] ∨ effectsOf (moving replaced [e']) = []

instance (replaced : NodeId → Bool) (es : List Expr) : Decidable (Orderly replaced es) := by
  unfold Orderly
  infer_instance

theorem orderly_cons {rest : List Expr} : Orderly replaced (e :: rest) ↔ Orderly replaced [e] ∧ Orderly replaced rest ∧
    (effectsOf (staying replaced [e]) = [] ∨ effectsOf (moving replaced rest) = []) := by
  have row : effectsOf (moving replaced rest) = [] ↔ ∀ e' ∈ rest, effectsOf (moving replaced [e']) = [] := by
    induction rest with
    | nil => simp [moving, Expr.order, Expr.evaluatedAll, effectsOf]
    | cons e' rest ih =>
      rw [← singleton_append, moving_append, effectsOf_append, List.append_eq_nil_iff, ih]
      simp
  simp only [Orderly, forall_mem_cons, Expr.allOf, append_nil, map_append, forall_mem_append, List.pairwise_cons, row]
  grind

theorem orderly_single : Orderly replaced [e] ↔ Orderly replaced e.children := by
  simp only [Orderly, forall_mem_cons, Expr.allOf, append_nil, Expr.all_eq, map_cons, List.pairwise_singleton, true_and]

theorem mem_effectsOf {id : NodeId} : id ∈ effectsOf es ↔ ∃ e ∈ es, e.isEffect = true ∧ e.id = id := by
  simp [effectsOf, and_assoc]

/-- Effects stand in the order of evaluation after the calls are replaced just if the expressions are orderly. -/
theorem orderly_iff : (es : List Expr) → (Expr.idsAll es).Nodup →
    (effectsOf (moving replaced es ++ staying replaced es) =
      effectsOf ((Expr.order es).filter fun e => !replaced e.id) ↔ Orderly replaced es) := by
  refine byRows (fun _ => ?_) (fun e rest first later distinct => ?_) fun e parts distinct => ?_
  · simp [Orderly, Expr.allOf, moving, staying, Expr.order, Expr.evaluatedAll, effectsOf]
  · rw [← singleton_append, Expr.idsAll_append, nodup_append] at distinct
    obtain ⟨left, right, apart⟩ := distinct
    rw [orderly_cons, ← first left, ← later right, ← singleton_append, moving_append, staying_append,
      Expr.order_append, filter_append]
    simp only [effectsOf_append]
    refine append_interleave_iff ?_ ?_ fun id here there => ?_
    · rw [← effectsOf_append]
      exact perm_effectsOf (moving_staying_perm [e])
    · rw [← effectsOf_append]
      exact perm_effectsOf (moving_staying_perm rest)
    · have inside : ∀ fs : List Expr, id ∈ effectsOf ((Expr.order fs).filter fun e => !replaced e.id) →
          id ∈ Expr.idsAll fs := by
        intro fs found
        obtain ⟨part, listed, _, rfl⟩ := mem_effectsOf.mp found
        rw [← Expr.map_id_allOf]
        exact mem_map_of_mem ((Expr.order_perm fs).mem_iff.mp (mem_filter.mp listed).1)
      have moved : id ∈ effectsOf (moving replaced rest ++ staying replaced rest) := by
        rw [effectsOf_append]
        exact mem_append_left _ here
      exact apart id (inside [e] there) id (inside rest ((perm_effectsOf (moving_staying_perm rest)).mem_iff.mp moved)) rfl
  · rw [Expr.idsAll_single, nodup_cons] at distinct
    rw [orderly_single, ← parts distinct.2, moving_single, staying_single, Expr.order_single, filter_append]
    cases here : replaced e.id with
    | true => simp [here]
    | false => simp [here, effectsOf_append, ← append_assoc]

/-! ### Where the expressions go -/

variable {s t : Stage} {caller : Func} {threshold first : Nat}

def remains (first : Nat) (es : List Expr) : List (NodeId × Bool) :=
  (es.filter fun e => e.id.val < first).map fun e => (e.id, e.isEffect)

theorem remains_append (es fs : List Expr) : remains first (es ++ fs) = remains first es ++ remains first fs := by
  simp [remains]

theorem remains_eq_nil (new : ∀ e ∈ es, first ≤ e.id.val) : remains first es = [] := by
  simpa [remains] using new

theorem remains_rebuilt (rebuilt : e.Rebuilt e') : remains first [e'] = remains first [e] := by
  by_cases old : e.id.val < first <;> simp [remains, rebuilt.id, rebuilt.isEffect, old]

theorem order_assigns (splice : Splice callee site args s t e) : Stmt.order splice.assigns = Expr.order args := by
  have pairs : ∀ {pairs assigns}, Forall₂ (Passes s.1.session.next splice.ρ) pairs assigns →
      Stmt.order assigns = Expr.order (pairs.map Prod.snd) := by
    intro pairs assigns passes
    induction passes with
    | nil => rfl
    | cons head _ ih =>
      obtain ⟨node, rfl, _⟩ := head
      rw [Stmt.order_cons, map_cons, Expr.order_cons, ih, Stmt.order_single]
      simp [Stmt.exprs, Stmt.blocks]
  rw [pairs splice.passes, List.map_snd_zip (Nat.le_of_eq splice.fits)]

/-- What expressions have become, what was added before the statement and which calls were replaced: what is in replaced
calls has gone before the statement, all else is where it stood. -/
structure Relocates (first : Nat) (s t : Stage) (es es' : List Expr) (added : List Stmt) (sites : List NodeId) : Prop where
  later : first ≤ t.1.session.next
  prelude : t.2.prelude = s.2.prelude ++ added
  notes : Notes s t sites
  inside : ∀ id ∈ sites, id ∈ Expr.idsAll es
  moved : ∀ replaced : NodeId → Bool, (∀ id ∈ Expr.idsAll es, replaced id = true ↔ id ∈ sites) →
    remains first (Stmt.order added) = remains first (moving replaced es)
  stayed : ∀ replaced : NodeId → Bool, (∀ id ∈ Expr.idsAll es, replaced id = true ↔ id ∈ sites) →
    remains first (Expr.order es') = remains first (staying replaced es)

theorem replaced_of_append {ids others more : List NodeId} (distinct : (ids ++ others).Nodup)
    (inside : ∀ id ∈ sites, id ∈ ids) (inside' : ∀ id ∈ more, id ∈ others)
    (told : ∀ id ∈ ids ++ others, replaced id = true ↔ id ∈ sites ++ more) :
    (∀ id ∈ ids, replaced id = true ↔ id ∈ sites) ∧ ∀ id ∈ others, replaced id = true ↔ id ∈ more := by
  have apart : ∀ id ∈ ids, id ∉ others := fun id here there => (nodup_append.mp distinct).2.2 id here id there rfl
  constructor
  · intro id here
    rw [told id (mem_append_left _ here), mem_append]
    exact or_iff_left fun there => apart id here (inside' id there)
  · intro id there
    rw [told id (mem_append_right _ there), mem_append]
    exact or_iff_right fun here => apart id (inside id here) there

theorem relocates_of_treats {es' : List Expr} (treats : Treats caller threshold s t es es')
    (distinct : (Expr.idsAll es).Nodup) (old : ∀ id ∈ Expr.idsAll es, id.val < first)
    (started : first ≤ s.1.session.next) : ∃ added sites, Relocates first s t es es' added sites := by
  induction treats with
  | nil s => exact ⟨[], [], started, (append_nil _).symm, .of_eq rfl, nofun, fun _ _ => rfl, fun _ _ => rfl⟩
  | append _ _ ih ih' =>
    rw [Expr.idsAll_append] at distinct old
    obtain ⟨before, after⟩ := forall_mem_append.mp old
    obtain ⟨added, sites, head⟩ := ih (nodup_append.mp distinct).1 before started
    obtain ⟨more, others, tail⟩ := ih' (nodup_append.mp distinct).2.1 after head.later
    refine ⟨added ++ more, sites ++ others, tail.later, ?_, head.notes.trans tail.notes, fun id here => ?_,
      fun replaced told => ?_, fun replaced told => ?_⟩
    · rw [tail.prelude, head.prelude, append_assoc]
    · rw [Expr.idsAll_append]
      exact mem_append.mpr ((mem_append.mp here).imp (head.inside id) (tail.inside id))
    · rw [Expr.idsAll_append] at told
      obtain ⟨left, right⟩ := replaced_of_append distinct head.inside tail.inside told
      rw [Stmt.order_append, moving_append, remains_append, remains_append, head.moved replaced left,
        tail.moved replaced right]
    · rw [Expr.idsAll_append] at told
      obtain ⟨left, right⟩ := replaced_of_append distinct head.inside tail.inside told
      rw [Expr.order_append, staying_append, remains_append, remains_append, head.stayed replaced left,
        tail.stayed replaced right]
  | @keep s e _ =>
    have none : ∀ replaced : NodeId → Bool, (∀ id ∈ Expr.idsAll [e], replaced id = true ↔ id ∈ ([] : List NodeId)) →
        moving replaced [e] = [] ∧ staying replaced [e] = Expr.order [e] := by
      intro replaced told
      refine unmoved [e] fun id here => ?_
      simpa using told id here
    refine ⟨[], [], started, (append_nil _).symm, .of_eq rfl, nofun, fun replaced told => ?_, fun replaced told => ?_⟩
    · rw [(none replaced told).1]
      rfl
    · rw [(none replaced told).2]
  | @rebuild s t u e e' _ _ rebuilt moves ih =>
    rw [Expr.idsAll_single] at distinct old
    obtain ⟨fresh, distinct⟩ := nodup_cons.mp distinct
    obtain ⟨added, sites, parts⟩ := ih distinct (forall_mem_cons.mp old).2 started
    -- The expression itself is none of the calls that are replaced in it.
    have split : ∀ replaced : NodeId → Bool, (∀ id ∈ Expr.idsAll [e], replaced id = true ↔ id ∈ sites) →
        replaced e.id = false ∧ ∀ id ∈ Expr.idsAll e.children, replaced id = true ↔ id ∈ sites := by
      intro replaced told
      rw [Expr.idsAll_single, forall_mem_cons] at told
      refine ⟨?_, told.2⟩
      rw [← Bool.not_eq_true, told.1]
      exact fun here => fresh (parts.inside _ here)
    refine ⟨added, sites, Nat.le_trans parts.later moves.draws.later, ?_, ?_, fun id here => ?_, fun replaced told => ?_,
      fun replaced told => ?_⟩
    · rw [moves.prelude, parts.prelude, append_nil]
    · have both := parts.notes.trans moves.notes
      rwa [append_nil] at both
    · rw [Expr.idsAll_single]
      exact mem_cons_of_mem _ (parts.inside id here)
    · obtain ⟨own, told⟩ := split replaced told
      rw [moving_single, own, parts.moved replaced told]
      simp
    · obtain ⟨own, told⟩ := split replaced told
      rw [staying_single, own, Expr.order_single, remains_append, parts.stayed replaced told, remains_rebuilt rebuilt,
        ← remains_append]
      rfl
  | @replace s t u v e e' callee args _ _ _ moves _ splice ih =>
    rw [Expr.idsAll_single] at distinct old
    obtain ⟨fresh, distinct⟩ := nodup_cons.mp distinct
    obtain ⟨added, sites, parts⟩ := ih distinct (forall_mem_cons.mp old).2 started
    have begun : first ≤ u.1.session.next := Nat.le_trans parts.later moves.draws.later
    have split : ∀ replaced : NodeId → Bool, (∀ id ∈ Expr.idsAll [e], replaced id = true ↔ id ∈ sites ++ [e.id]) →
        replaced e.id = true ∧ ∀ id ∈ Expr.idsAll e.children, replaced id = true ↔ id ∈ sites := by
      intro replaced told
      rw [Expr.idsAll_single, forall_mem_cons] at told
      refine ⟨told.1.mpr (by simp), fun id here => ?_⟩
      rw [told.2 id here, mem_append]
      exact or_iff_left fun own => fresh (mem_singleton.mp own ▸ here)
    refine ⟨added ++ (splice.assigns ++ splice.placed), sites ++ [e.id], Nat.le_trans begun splice.later, ?_, ?_, fun id here => ?_,
      fun replaced told => ?_, fun replaced told => ?_⟩
    · rw [splice.prelude, moves.prelude, parts.prelude, append_nil, append_assoc]
    · have both := parts.notes.trans (moves.notes.trans splice.notes)
      rwa [nil_append] at both
    · rw [Expr.idsAll_single]
      rcases mem_append.mp here with inside | own
      · exact mem_cons_of_mem _ (parts.inside id inside)
      · exact mem_cons.mpr (.inl (mem_singleton.mp own))
    · obtain ⟨own, told⟩ := split replaced told
      have new : remains first (Stmt.order splice.placed) = [] := by
        refine remains_eq_nil fun e here => Nat.le_trans begun (splice.drawn e.id ?_)
        exact (Stmt.order_ids splice.placed).subset (mem_map_of_mem here)
      rw [Stmt.order_append, Stmt.order_append, order_assigns splice, remains_append, remains_append, new,
        append_nil, parts.moved replaced told, parts.stayed replaced told, moving_single, own, if_pos rfl,
        remains_append]
    · obtain ⟨own, _⟩ := split replaced told
      rw [staying_single, own, if_pos rfl, splice.shown]
      refine remains_eq_nil fun part here => ?_
      obtain rfl : part = .var splice.node splice.result := by
        simpa [Expr.order, Expr.evaluatedAll, Expr.evaluated_eq, Expr.children] using here
      exact Nat.le_trans begun (splice.new _ mem_cons_self)

def rearranged (replaced : NodeId → Bool) (stmts : List Stmt) : List Expr :=
  (Stmt.allOf stmts).flatMap fun s => moving replaced s.exprs ++ staying replaced s.exprs

/-- What statements have become and which calls were replaced in them. -/
structure Rearranges (first : Nat) (s t : Stage) (rows rows' : List (List Stmt)) (sites : List NodeId) : Prop where
  later : first ≤ t.1.session.next
  notes : Notes s t sites
  inside : ∀ id ∈ sites, id ∈ Stmt.idsAll rows.flatten
  arranged : ∀ replaced : NodeId → Bool, (∀ id ∈ Stmt.idsAll rows.flatten, replaced id = true ↔ id ∈ sites) →
    remains first (Stmt.order rows'.flatten) = remains first (rearranged replaced rows.flatten)

theorem order_rowsIn (st : Stmt) : (st.blocks.flatMap fun b => Stmt.order b.stmts) = Stmt.order (rowsIn st).flatten := by
  rw [rowsIn, Stmt.order, ← List.flatMap_def]
  have rows : ∀ blocks : List Block, Stmt.allOf (blocks.flatMap Block.stmts) = blocks.flatMap fun b => Stmt.allOf b.stmts := by
    intro blocks
    induction blocks with
    | nil => rfl
    | cons b rest ih => rw [flatMap_cons, Stmt.allOf_append, ih, flatMap_cons]
  rw [rows, List.flatMap_assoc]
  rfl

theorem idsAll_rowsIn (st : Stmt) : (Stmt.idsAll (rowsIn st).flatten).Sublist (st.blocks.flatMap Block.ids) := by
  rw [rowsIn, ← List.flatMap_def]
  induction st.blocks with
  | nil => exact .slnil
  | cons b rest ih =>
    rw [flatMap_cons, Stmt.idsAll_append, flatMap_cons, Block.ids_eq]
    exact (List.sublist_cons_self _ _).append ih

/-- What is in a statement is put before it or stays in it, and the blocks in it follow. -/
theorem remains_stmt {u : Stage} {st st' : Stmt}
    (relocates : Relocates first (opened root s) t (treated st) own added sites)
    (joined : st'.exprs = untouched st ++ own) (prelude : u.2.prelude = t.2.prelude)
    (stays : ∀ id ∈ Expr.idsAll (untouched st), replaced id = false)
    (told : ∀ id ∈ Expr.idsAll (treated st), replaced id = true ↔ id ∈ sites)
    (inner : remains first (Stmt.order (rowsIn st').flatten) = remains first (rearranged replaced (rowsIn st).flatten))
    : remains first (Stmt.order (u.2.prelude ++ [st'])) = remains first (rearranged replaced [st]) := by
  have whole : Stmt.allOf [st] = st :: Stmt.allOf (rowsIn st).flatten := by
    rw [Stmt.allOf, Stmt.allOf, append_nil, st.all_eq, allOf_rowsIn]
  have begun : t.2.prelude = added := relocates.prelude
  have before := unmoved _ stays
  have exprs : moving replaced st.exprs ++ staying replaced st.exprs =
      moving replaced (treated st) ++ (Expr.order (untouched st) ++ staying replaced (treated st)) := by
    rw [exprs_eq, moving_append, staying_append, before.1, before.2, nil_append]
  rw [prelude, begun, Stmt.order_append, Stmt.order_single, order_rowsIn, joined, Expr.order_append, rearranged, whole,
    flatMap_cons, exprs]
  simp only [remains_append, relocates.moved replaced told, relocates.stayed replaced told, inner, append_assoc]
  rfl

theorem rearranges_of_treats {rows rows' : List (List Stmt)} (treats : TreatsAll caller threshold s t rows rows')
    (distinct : (Stmt.idsAll rows.flatten).Nodup) (old : ∀ id ∈ Stmt.idsAll rows.flatten, id.val < first)
    (started : first ≤ s.1.session.next) : ∃ sites, Rearranges first s t rows rows' sites := by
  induction treats with
  | nil => exact ⟨[], started, .of_eq rfl, nofun, fun _ _ => rfl⟩
  | row _ ih =>
    obtain ⟨sites, rest⟩ := ih distinct old started
    exact ⟨sites, rest.later, rest.notes, rest.inside, rest.arranged⟩
  | @stmt s t u v root st st' own stmts out rows rows' exprs blocks rebuilt joined _ _ ih ih' =>
    have split : Stmt.idsAll ((st :: stmts) :: rows).flatten = st.ids ++ Stmt.idsAll (stmts :: rows).flatten := rfl
    rw [split] at distinct old
    obtain ⟨here, others⟩ := forall_mem_append.mp old
    -- The identities of the statement are its own, those of what is treated in it and those in its blocks.
    have parts : (Expr.idsAll (untouched st) ++ (Expr.idsAll (treated st) ++ Stmt.idsAll (rowsIn st).flatten)).Sublist
        st.ids := by
      rw [Stmt.ids_eq, exprs_eq, Expr.idsAll_append, append_assoc]
      exact ((List.Sublist.refl _).append ((List.Sublist.refl _).append (idsAll_rowsIn st))).cons _
    have apart := (nodup_append.mp distinct).1.sublist parts
    obtain ⟨_, apart', separate⟩ := nodup_append.mp apart
    have below : ∀ id ∈ Expr.idsAll (treated st) ++ Stmt.idsAll (rowsIn st).flatten, id ∈ st.ids :=
      fun id mem => parts.subset (mem_append_right _ mem)
    obtain ⟨own', inside⟩ := forall_mem_append.mp below
    obtain ⟨added, sites, relocates⟩ :=
      relocates_of_treats exprs (nodup_append.mp apart').1 (fun id mem => here id (own' id mem)) started
    obtain ⟨more, inner⟩ := ih (nodup_append.mp apart').2.1 (fun id mem => here id (inside id mem)) relocates.later
    obtain ⟨most, rest⟩ := ih' (nodup_append.mp distinct).2.1 others inner.later
    have within : ∀ id ∈ sites ++ more, id ∈ Expr.idsAll (treated st) ++ Stmt.idsAll (rowsIn st).flatten := fun id mem =>
      mem_append.mpr ((mem_append.mp mem).imp (relocates.inside id) (inner.inside id))
    have notes : Notes s (closed s u) (sites ++ more) := relocates.notes.trans inner.notes
    refine ⟨sites ++ more ++ most, rest.later, notes.trans rest.notes, fun id mem => ?_, fun replaced told => ?_⟩
    · rw [split]
      exact mem_append.mpr ((mem_append.mp mem).imp (fun early => below id (within id early)) (rest.inside id))
    · rw [split] at told
      obtain ⟨left, right⟩ := replaced_of_append distinct (fun id mem => below id (within id mem)) rest.inside told
      obtain ⟨mine, deeper⟩ := replaced_of_append apart' relocates.inside inner.inside fun id mem =>
        left id (below id mem)
      have stays : ∀ id ∈ Expr.idsAll (untouched st), replaced id = false := by
        intro id mem
        rw [← Bool.not_eq_true, left id (parts.subset (mem_append_left _ mem))]
        exact fun site => separate id mem id (within id site) rfl
      have first := remains_stmt relocates joined blocks.prelude stays mine (inner.arranged replaced deeper)
      have cut : ((u.2.prelude ++ st' :: out) :: rows').flatten = (u.2.prelude ++ [st']) ++ (out :: rows').flatten := by simp
      have cut' : ((st :: stmts) :: rows).flatten = [st] ++ (stmts :: rows).flatten := rfl
      rw [cut, cut', Stmt.order_append, remains_append, first, rest.arranged replaced right, rearranged, rearranged,
        rearranged, Stmt.allOf_append, flatMap_append, remains_append]

/-! ### The effects of a function -/

/-- The calls in a block that are not known to be pure, in the order of evaluation. -/
def effects (b : Block) : List NodeId := effectsOf (Stmt.order b.stmts)

theorem effectsOf_old (es : List Expr) :
    (effectsOf es).filter (·.val < first) = ((remains first es).filter Prod.snd).map Prod.fst := by
  induction es with
  | nil => rfl
  | cons e rest ih =>
    rw [← singleton_append, effectsOf_append, remains_append, filter_append, filter_append, map_append, ih]
    congr 1
    by_cases old : e.id.val < first <;> cases here : e.isEffect <;> simp [effectsOf, remains, old, here]

theorem flatMap_eq_iff {β : Type} {l : List α} {f g : α → List β} (same : ∀ a ∈ l, (f a).length = (g a).length) :
    l.flatMap f = l.flatMap g ↔ ∀ a ∈ l, f a = g a := by
  induction l with
  | nil => simp
  | cons a rest ih =>
    obtain ⟨here, later⟩ := forall_mem_cons.mp same
    rw [flatMap_cons, flatMap_cons, forall_mem_cons, ← ih later]
    exact ⟨fun whole => append_inj whole here, fun ⟨first, others⟩ => by rw [first, others]⟩

theorem effectsOf_flatMap (l : List α) (f : α → List Expr) :
    effectsOf (l.flatMap f) = l.flatMap fun a => effectsOf (f a) := by
  induction l with
  | nil => rfl
  | cons a rest ih => rw [flatMap_cons, effectsOf_append, ih, flatMap_cons]

theorem rearranged_iff {b : Block} (distinct : b.ids.Nodup) : effectsOf (rearranged replaced b.stmts) = effectsOf
    ((Stmt.order b.stmts).filter fun e => !replaced e.id) ↔ ∀ s ∈ b.all, Orderly replaced s.exprs := by
  rw [rearranged, Stmt.order, List.filter_flatMap, effectsOf_flatMap, effectsOf_flatMap, flatMap_eq_iff, Block.all_eq]
  · refine forall_congr' fun s => forall_congr' fun mem => orderly_iff s.exprs ?_
    rw [← Block.all_eq] at mem
    refine distinct.sublist (.trans ?_ (b.ids_sublist mem))
    rw [s.ids_eq]
    exact (List.sublist_append_left _ _).cons _
  · exact fun s _ => (perm_effectsOf (moving_staying_perm s.exprs)).length_eq

theorem rearranged_perm (stmts : List Stmt) :
    (rearranged replaced stmts).Perm ((Stmt.order stmts).filter fun e => !replaced e.id) := by
  rw [rearranged, Stmt.order, List.filter_flatMap]
  exact List.Perm.flatMap_left _ fun s _ => moving_staying_perm s.exprs

/-- Inlining keeps the order in which the calls that are not known to be pure are evaluated, of those that are there
before and after it, exactly if in every statement no such call that stays comes before one that moves with a replaced
call. -/
theorem run_inlining_order_iff (cfg : Config) (threshold : Option Nat) (f g : Func) (events : EventLog)
    (session after : Session) (distinct : f.ids.Nodup) (drawn : ∀ id ∈ f.ids, id.val < session.next)
    (applied : ((Pass.inlining threshold).run cfg f).run session = (.ok (g, events), after)) :
    (effects g.body).filter (· ∈ effects f.body) = (effects f.body).filter (· ∈ effects g.body) ↔
      ∀ s ∈ f.body.all, Orderly (isReplaced events) s.exprs := by
  have within : f.body.ids.Sublist f.ids := (List.sublist_append_right _ _).cons _
  have body : Stmt.idsAll f.body.stmts = Stmt.idsAll [f.body.stmts].flatten := by simp
  have listed : (Stmt.idsAll [f.body.stmts].flatten).Sublist f.ids := by
    rw [← body]
    refine .trans ?_ within
    rw [Block.ids_eq]
    exact List.sublist_cons_self _ _
  obtain ⟨t, treats, _, _, _, told⟩ := treats_of_run applied
  obtain ⟨sites, rearranges⟩ := rearranges_of_treats treats (distinct.sublist listed)
    (fun id member => drawn id (listed.subset member)) (Nat.le_refl session.next)
  have replaced : ∀ id, isReplaced events id = true ↔ id ∈ sites := by
    rw [told]
    exact isReplaced_iff rearranges.notes rfl
  have arranged := rearranges.arranged (isReplaced events) fun id _ => replaced id
  simp only [List.flatten_cons, List.flatten_nil, List.append_nil] at arranged
  have known : ∀ id ∈ effects f.body, id.val < session.next := by
    intro id member
    obtain ⟨e, inside, _, rfl⟩ := mem_effectsOf.mp member
    exact drawn _ (listed.subset (body ▸ (Stmt.order_ids _).subset (List.mem_map_of_mem inside)))
  have perm : (effectsOf (rearranged (isReplaced events) f.body.stmts)).Perm
      (effectsOf ((Stmt.order f.body.stmts).filter fun e => !isReplaced events e.id)) :=
    perm_effectsOf (rearranged_perm f.body.stmts)
  -- What stays or moves are the effects of the function but the replaced calls.
  have kept : effectsOf ((Stmt.order f.body.stmts).filter fun e => !isReplaced events e.id) =
      (effects f.body).filter fun id => !isReplaced events id := by
    simp [effects, effectsOf, List.filter_map, List.filter_filter, Bool.and_comm, Function.comp_def]
  have inside : ∀ id, id ∈ effectsOf (rearranged (isReplaced events) f.body.stmts) ↔
      id ∈ effects f.body ∧ isReplaced events id = false := by
    intro id
    rw [perm.mem_iff, kept, List.mem_filter, Bool.not_eq_true']
  have old : (effects g.body).filter (·.val < session.next) = effectsOf (rearranged (isReplaced events) f.body.stmts) := by
    rw [effects, effectsOf_old, arranged, ← effectsOf_old, List.filter_eq_self]
    exact fun id member => by simpa using known id ((inside id).mp member).1
  have left : (effects g.body).filter (· ∈ effects f.body) = effectsOf (rearranged (isReplaced events) f.body.stmts) := by
    have whole : (effectsOf (rearranged (isReplaced events) f.body.stmts)).filter (· ∈ effects f.body) =
        effectsOf (rearranged (isReplaced events) f.body.stmts) :=
      List.filter_eq_self.mpr fun id member => by simpa using ((inside id).mp member).1
    rw [← whole, ← old, List.filter_filter]
    refine List.filter_congr fun id _ => ?_
    by_cases member : id ∈ effects f.body
    · simp [member, known id member]
    · simp [member]
  have right : (effects f.body).filter (· ∈ effects g.body) =
      effectsOf ((Stmt.order f.body.stmts).filter fun e => !isReplaced events e.id) := by
    rw [kept]
    refine List.filter_congr fun id member => ?_
    have same : id ∈ effects g.body ↔ isReplaced events id = false := by
      have here := inside id
      rw [← old, List.mem_filter] at here
      simpa [known id member, member] using here
    cases replaced : isReplaced events id <;> simp [same, replaced]
  rw [left, right]
  exact rearranged_iff (distinct.sublist within)

open Sample in
def unknown (id : Nat) (text : String) (args : List Expr) : Expr := .call (node id) (name text) none args []

open Sample Calls in
/-- Unknown calls in the arguments of calls that are replaced, and after those. -/
def leading : Func :=
  func ["x"] [] [
    set 10 "y" (add 11 (callOf 12 doubling [unknown 13 "p" [var 14 "x"]])
      (add 15 (callOf 16 doubling [unknown 17 "q" [var 18 "x"]]) (unknown 19 "r" [var 20 "x"]))),
    .ret (node 21) (unknown 22 "p" [callOf 23 doubling [var 24 "y"]])]

theorem run_inlining_leading :
    leading.ids.Nodup ∧ (∀ id ∈ leading.ids, id.val < 40) ∧ ∃ g events after,
      ((Pass.inlining).run {} leading).run { next := 40 } = (.ok (g, events), after) ∧
      (leading.ids.filter (isReplaced events)).length = 3 ∧ effects leading.body = [⟨13⟩, ⟨17⟩, ⟨19⟩, ⟨22⟩] ∧
      (effects g.body).filter (· ∈ effects leading.body) = (effects leading.body).filter (· ∈ effects g.body) := by
  have facts : (((Pass.inlining).run {} leading).run { next := 40 }).1.toOption.map (fun made =>
      decide ((leading.ids.filter (isReplaced made.2)).length = 3 ∧
        ∀ s ∈ leading.body.all, Orderly (isReplaced made.2) s.exprs)) = some true := by
    decide +kernel
  rcases applied : ((Pass.inlining).run {} leading).run { next := 40 } with ⟨_ | ⟨g, events⟩, after⟩
  · rw [applied] at facts
    cases facts
  · rw [applied] at facts
    obtain ⟨three, orderly⟩ := of_decide_eq_true (Option.some.inj facts)
    refine ⟨by decide, by decide, g, events, after, rfl, three, by decide, ?_⟩
    exact (run_inlining_order_iff {} none leading g events _ after (by decide) (by decide) applied).mpr orderly

open Sample Calls in
/-- An unknown call before the argument of a call that is replaced. -/
def trailing : Func :=
  func ["x"] [] [.ret (node 10) (add 11 (unknown 12 "p" [var 13 "x"])
    (callOf 14 doubling [unknown 15 "q" [var 16 "x"]]))]

/-- The argument of a call that is replaced is evaluated before what stood before it. -/
theorem run_inlining_trailing :
    trailing.ids.Nodup ∧ (∀ id ∈ trailing.ids, id.val < 40) ∧ effects trailing.body = [⟨12⟩, ⟨15⟩] ∧
      ∃ g events after, ((Pass.inlining).run {} trailing).run { next := 40 } = (.ok (g, events), after) ∧
        (effects g.body).filter (· ∈ effects trailing.body) = [⟨15⟩, ⟨12⟩] := by
  have order : (((Pass.inlining).run {} trailing).run { next := 40 }).1.toOption.map (fun made =>
      (effects made.1.body).filter (· ∈ effects trailing.body)) = some [⟨15⟩, ⟨12⟩] := by
    decide +kernel
  rcases applied : ((Pass.inlining).run {} trailing).run { next := 40 } with ⟨_ | ⟨g, events⟩, after⟩
  · rw [applied] at order
    cases order
  · rw [applied] at order
    exact ⟨by decide, by decide, by decide, g, events, after, rfl, Option.some.inj order⟩

end Inlining

end NumLang
