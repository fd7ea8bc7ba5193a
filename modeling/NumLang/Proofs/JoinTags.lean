import NumLang.Proofs.Grounded

/-!
The tags of joins. Each round of the iteration raises tags only, so it comes to an end, and every join then has the tag
of all binders that it goes back to, if they have one in common.
-/

open Relation (ReflTransGen)

namespace NumLang

namespace ContextTag

/-- No tag is below every tag, and every tag below the unknown one. -/
def Under (a b : Option ContextTag) : Prop := a = none ∨ a = b ∨ b = some .unknown

def rank : Option ContextTag → Nat
  | none => 0
  | some .unknown => 2
  | some _ => 1

variable {a b c : Option ContextTag}

theorem Under.trans (first : Under a b) (second : Under b c) : Under a c := by
  unfold Under at *
  grind

theorem under_left (a b : Option ContextTag) : Under a (join? a b) := by
  cases a <;> cases b <;> simp [Under, join?, join]
  grind

theorem under_right (a b : Option ContextTag) : Under b (join? a b) := by
  cases a <;> cases b <;> simp [Under, join?, join]
  grind

theorem join?_under (left : Under a c) (right : Under b c) : Under (join? a b) c := by
  cases a <;> cases b <;> simp_all [Under, join?, join]
  grind

theorem rank_le (under : Under a b) : rank a ≤ rank b ∧ (rank b ≤ rank a → b = a) := by
  unfold rank
  split <;> split <;> simp_all [Under]

end ContextTag

open ContextTag

namespace StaticView

variable {view : StaticView} {tags next given : List (Option ContextTag)} {d e : DefId}

def total : List (Option ContextTag) → Nat
  | [] => 0
  | tag :: rest => rank tag + total rest

def Rises (tags next : List (Option ContextTag)) : Prop := List.Forall₂ Under tags next

theorem Rises.total (rises : Rises tags next) : total tags ≤ total next ∧ (total next ≤ total tags → next = tags) := by
  induction rises with
  | nil => exact ⟨Nat.le_refl _, fun _ => rfl⟩
  | cons first _ ih =>
    obtain ⟨low, same⟩ := rank_le first
    simp only [StaticView.total] at *
    exact ⟨by omega, fun le => by rw [same (by omega), ih.2 (by omega)]⟩

theorem total_le (tags : List (Option ContextTag)) : total tags ≤ 2 * tags.length := by
  induction tags with
  | nil => exact Nat.le_refl _
  | cons tag rest ih =>
    have low : rank tag ≤ 2 := by unfold rank; split <;> omega
    simp only [total, List.length_cons] at *
    omega

theorem Rises.at (rises : Rises tags next) (d : DefId) : Under (tagOf? tags d) (tagOf? next d) := by
  induction rises generalizing d with
  | nil => exact .inl rfl
  | cons first _ ih =>
    cases d with
    | zero => exact first
    | succ d => exact ih d

theorem Rises.join? (rises : Rises tags next) (lhs rhs : DefId) :
    Under (join? (tagOf? tags lhs) (tagOf? tags rhs)) (join? (tagOf? next lhs) (tagOf? next rhs)) :=
  join?_under ((rises.at lhs).trans (under_left _ _)) ((rises.at rhs).trans (under_right _ _))

theorem rises_refl (tags : List (Option ContextTag)) : Rises tags tags :=
  List.forall₂_same.mpr fun _ _ => .inr (.inl rfl)

theorem rises_set (under : Under (tagOf? tags d) tag) : Rises tags (tags.set d tag) := by
  induction tags generalizing d with
  | nil => exact .nil
  | cons first rest ih =>
    cases d with
    | zero => exact .cons under (rises_refl rest)
    | succ d => exact .cons (.inr (.inl rfl)) (ih under)

theorem Rises.trans (first : Rises tags next) (second : Rises next last) : Rises tags last := by
  induction first generalizing last with
  | nil => exact second
  | cons low _ ih =>
    cases second with
    | cons high rest => exact .cons (low.trans high) (ih rest)

def Binder (view : StaticView) (d leaf : DefId) : Prop :=
  ReflTransGen (fun d e => e ∈ view.uses.reach.sources d) d leaf ∧
    ∃ n site prev, view.def? leaf = some (.assign n site prev)

theorem mem_sources : e ∈ view.uses.reach.sources d ↔
    ∃ n site lhs rhs, view.def? d = some (.join n site lhs rhs) ∧ (e = lhs ∨ e = rhs) := by
  unfold Reaching.sources def?
  cases view.uses.reach.def? d with
  | none => simp
  | some definition => cases definition <;> simp [Definition.sources]

/-- What the iteration keeps, from the tags of the binders on: joins stay below what their sides give them, binders keep
their tags, and no tag is above one that all binders behind it have. -/
structure Tagged (view : StaticView) (given tags : List (Option ContextTag)) : Prop where
  below : ∀ {d n site lhs rhs}, view.def? d = some (.join n site lhs rhs) →
    Under (tagOf? tags d) (join? (tagOf? tags lhs) (tagOf? tags rhs))
  binder : ∀ {d n site prev}, view.def? d = some (.assign n site prev) → tagOf? tags d = tagOf? given d
  least : ∀ {d tag}, (∀ leaf, view.Binder d leaf → tagOf? given leaf = some tag) → Under (tagOf? tags d) (some tag)

section

variable (tagged : view.Tagged given tags)

include tagged

theorem retag_spec (d : DefId) : view.Tagged given (view.retag tags d) ∧ Rises tags (view.retag tags d) := by
  unfold retag
  split
  · rename_i n site lhs rhs joined
    have under := tagged.below joined
    generalize sides : join? (tagOf? tags lhs) (tagOf? tags rhs) = tag at under ⊢
    dsimp only
    split
    · have rises := rises_set under
      have other : ∀ e, e ≠ d → tagOf? (tags.set d tag) e = tagOf? tags e := fun e differ => by
        rw [tagOf?, List.getElem?_set_ne differ.symm, tagOf?]
      have own : Under (tagOf? (tags.set d tag) d) tag := by
        rw [tagOf?, List.getElem?_set_self']
        cases tags[d]? with
        | none => exact .inl rfl
        | some => exact .inr (.inl rfl)
      refine ⟨⟨fun {e _ _ _ _} met => ?_, fun {e _ _ _} made => ?_, fun {e common} all => ?_⟩, rises⟩
      · by_cases same : e = d
        · subst same
          cases joined.symm.trans met
          exact own.trans (sides ▸ rises.join? lhs rhs)
        · rw [other e same]
          exact (tagged.below met).trans (rises.join? _ _)
      · rw [other e fun same => by rw [same, joined] at made; cases made]
        exact tagged.binder made
      · by_cases same : e = d
        · subst same
          have part : ∀ side, side = lhs ∨ side = rhs → Under (tagOf? tags side) (some common) := fun side one =>
            tagged.least fun leaf binds => all leaf ⟨.head (mem_sources.mpr ⟨_, _, _, _, joined, one⟩) binds.1, binds.2⟩
          exact own.trans (sides ▸ join?_under (part lhs (.inl rfl)) (part rhs (.inr rfl)))
        · rw [other e same]
          exact tagged.least all
    · exact ⟨tagged, rises_refl tags⟩
  · exact ⟨tagged, rises_refl tags⟩

theorem round_spec (ds : List DefId) :
    view.Tagged given (ds.foldl view.retag tags) ∧ Rises tags (ds.foldl view.retag tags) := by
  induction ds generalizing tags with
  | nil => exact ⟨tagged, rises_refl tags⟩
  | cons d rest ih =>
    obtain ⟨first, rises⟩ := retag_spec tagged d
    obtain ⟨last, later⟩ := ih first
    exact ⟨last, rises.trans later⟩

theorem under_round {ds : List DefId} (mem : d ∈ ds) (inside : d < tags.length)
    (joined : view.def? d = some (.join n site lhs rhs)) :
    Under (join? (tagOf? tags lhs) (tagOf? tags rhs)) (tagOf? (ds.foldl view.retag tags) d) := by
  induction ds generalizing tags with
  | nil => cases mem
  | cons first rest ih =>
    obtain ⟨after, rises⟩ := retag_spec tagged first
    rcases mem_cons.mp mem with rfl | later
    · refine .trans ?_ ((round_spec after rest).2.at d)
      rw [retag, joined]
      dsimp only
      split
      · exact .inr (.inl (by simp [tagOf?, List.getElem?_set_self inside]))
      · exact .inl (Option.not_isSome_iff_eq_none.mp ‹_›)
    · have above := ih after later (rises.length_eq ▸ inside)
      exact (rises.join? lhs rhs).trans above

/-- With enough rounds to raise every tag, the iteration ends with tags that a further round leaves alone. -/
theorem retagAll_spec (length : tags.length = size) (enough : 2 * size ≤ rounds + total tags) :
    view.Tagged given (view.retagAll rounds tags) ∧ (view.retagAll rounds tags).length = size ∧ (List.range size).foldl
    view.retag (view.retagAll rounds tags) = view.retagAll rounds tags ∧ ∀ more, view.retagAll (rounds + more) tags =
    view.retagAll rounds tags := by
  obtain ⟨after, rises⟩ := round_spec tagged (List.range size)
  induction rounds generalizing tags with
  | zero =>
    have limit := total_le ((List.range size).foldl view.retag tags)
    rw [← rises.length_eq] at limit
    have stable := rises.total.2 (by omega)
    refine ⟨tagged, length, stable, fun more => ?_⟩
    cases more with
    | zero => rfl
    | succ more => simp only [retagAll, length, if_pos stable]
  | succ rounds ih =>
    simp only [Nat.succ_add, retagAll, length]
    split
    · exact ⟨tagged, length, ‹_›, fun _ => rfl⟩
    · rename_i differ
      have more := Nat.lt_of_not_le fun le => differ (rises.total.2 le)
      obtain ⟨next, further⟩ := round_spec after (List.range size)
      exact ih after (rises.length_eq.symm.trans length) (by omega) next further

end

theorem tagOf?_given (root : ContextTag) (marks : NodeMap ContextTag) (d : DefId) :
    tagOf? (view.uses.reach.defs.map (binderTag? root marks)) d = (view.def? d).bind (binderTag? root marks) := by
  rw [tagOf?, List.getElem?_map, def?, Reaching.def?]
  cases view.uses.reach.defs[d]? <;> rfl

theorem tagged_given (root : ContextTag) (marks : NodeMap ContextTag) :
    let given := view.uses.reach.defs.map (binderTag? root marks)
    view.Tagged given given where
  below joined := .inl (by rw [tagOf?_given, joined]; rfl)
  binder _ := rfl
  least {d tag} all := by
    cases found : view.def? d with
    | none => exact .inl (by rw [tagOf?_given, found]; rfl)
    | some definition =>
      cases definition with
      | assign n site prev => exact .inr (.inl (all d ⟨.refl, n, site, prev, found⟩))
      | join => exact .inl (by rw [tagOf?_given, found]; rfl)

section Final

variable (root : ContextTag) (marks : NodeMap ContextTag) {leaf : DefId}

theorem defTags_spec (view : StaticView) :
    let given := view.uses.reach.defs.map (binderTag? root marks)
    view.Tagged given (view.defTags root marks) ∧ (view.defTags root marks).length = view.uses.reach.size ∧
      (List.range view.uses.reach.size).foldl view.retag (view.defTags root marks) = view.defTags root marks ∧
      ∀ more, view.retagAll (2 * view.uses.reach.size + more) given = view.defTags root marks :=
  retagAll_spec (tagged_given root marks) (List.length_map _) (Nat.le_add_right _ _)

theorem under_of_binder (binds : view.Binder d leaf) :
    Under (tagOf? (view.defTags root marks) leaf) (tagOf? (view.defTags root marks) d) := by
  obtain ⟨tagged, length, stable, _⟩ := defTags_spec root marks view
  obtain ⟨back, _⟩ := binds
  induction back using ReflTransGen.head_induction_on with
  | refl => exact .inr (.inl rfl)
  | @head d e step _ ih =>
    obtain ⟨n, site, lhs, rhs, joined, side⟩ := mem_sources.mp step
    have inside : d < view.uses.reach.size := (List.getElem?_eq_some_iff.mp joined).1
    have above := under_round tagged (List.mem_range.mpr inside) (length ▸ inside) joined
    rw [stable] at above
    refine ih.trans (.trans ?_ above)
    rcases side with rfl | rfl
    · exact under_left _ _
    · exact under_right _ _

theorem exists_tag_of_binder (binds : view.Binder d leaf) : ∃ tag, tagOf? (view.defTags root marks) leaf = some tag := by
  obtain ⟨_, n, ⟨kind, node⟩, prev, made⟩ := binds
  rw [(defTags_spec root marks view).1.binder made, tagOf?_given, made]
  cases kind <;> exact ⟨_, rfl⟩

/-- A definition with a binder behind it has a tag, and a known one exactly if it is that of all its binders. -/
theorem tagOf?_defTags_iff (binds : view.Binder d first) (known : tag ≠ .unknown) :
    tagOf? (view.defTags root marks) d = some tag ↔ ∀ leaf, view.Binder d leaf → tagOf? (view.defTags root marks) leaf =
    some tag := by
  obtain ⟨tagged, _⟩ := defTags_spec root marks view
  constructor
  · intro here leaf binds
    obtain ⟨own, tagged⟩ := exists_tag_of_binder root marks binds
    have under := under_of_binder root marks binds
    rw [here, tagged] at under
    rw [tagged]
    simpa [Under, known] using under
  · intro all
    have above := under_of_binder root marks binds
    have under := tagged.least fun leaf binds =>
      (tagged.binder binds.2.choose_spec.choose_spec.choose_spec).symm.trans (all leaf binds)
    rw [all first binds] at above
    simp only [Under, known, Option.some.injEq, or_false, reduceCtorEq, false_or] at above under
    rcases under with none | here
    · simp [none] at above
    · exact here

end Final

section Resolved

variable {f : Func} {u : Uses} {notes : Flow.Notes} (resolved : Uses.Resolved f u notes)

include resolved

theorem spreads_binder : Flow.Spreads (fun _ p => ∃ leaf, (ofFunc f u).Binder (Reaching.number notes.records p) leaf)
    notes f.body.all where
  join _ recorded first := by
    obtain ⟨leaf, back, made⟩ := first
    exact ⟨leaf, .head (mem_sources.mpr ⟨_, _, _, _, resolved.def? recorded, .inl rfl⟩) back, made⟩
  binder _ _ _ _ _ _ recorded := ⟨_, .refl, _, _, _, resolved.def? recorded⟩
  other _ recorded := ⟨_, .refl, _, _, _, resolved.def? recorded⟩

theorem exists_binder (found : (ofFunc f u).def? d = some definition) : ∃ leaf, (ofFunc f u).Binder d leaf := by
  obtain ⟨exit, same⟩ := resolved.reach
  rw [def?, same] at found
  obtain ⟨record, mem, rfl, _⟩ := resolved.survey.def?_cases found
  exact ((spreads_binder resolved).func resolved.survey).records record mem _ mem_cons_self

end Resolved

end StaticView

namespace Contexts

open StaticView

def AllTagged (f : Func) (contexts : Contexts) (d : DefId) (tag : ContextTag) : Prop :=
  ∀ leaf, (StaticView.ofFunc f contexts.uses).Binder d leaf → contexts.ofDef? leaf = some tag

/-- The iteration over the joins ends by itself: more rounds give the same tags. A join then has a tag that is known
exactly if all binders behind it have that tag, and the unknown tag otherwise. -/
theorem ofDef?_join_iff (f : Func) (contexts : Contexts) (distinct : f.ids.Nodup)
    (found : Contexts.ofFunc f = .ok contexts) :
    (∀ more, (StaticView.ofFunc f contexts.uses).retagAll (2 * contexts.uses.reach.size + more)
      (contexts.uses.reach.defs.map (binderTag? contexts.root contexts.tags)) =
        (StaticView.ofFunc f contexts.uses).defTags contexts.root contexts.tags) ∧
    ∀ d n site lhs rhs, contexts.uses.reach.def? d = some (.join n site lhs rhs) →
      (∀ tag, tag ≠ .unknown → (contexts.ofDef? d = some tag ↔ contexts.AllTagged f d tag)) ∧
      ((∀ tag, tag ≠ .unknown → ¬ contexts.AllTagged f d tag) → contexts.ofDef? d = some .unknown) := by
  obtain ⟨u, used, found⟩ := bind_ok.mp found
  obtain ⟨notes, resolved⟩ := Uses.resolved_of_func distinct used
  obtain ⟨own, _, found⟩ := bind_ok.mp found
  obtain ⟨_, _, result⟩ := bind_ok.mp found
  cases result
  refine ⟨(defTags_spec _ _ _).2.2.2, fun d n site lhs rhs joined => ?_⟩
  obtain ⟨first, binds⟩ := exists_binder resolved joined
  let final := (StaticView.ofFunc f u).defTags (.ofFunc f) (OrdMap.ofList own.tags)
  have shown : ∀ e, (∃ tag, tagOf? final e = some tag) → ∀ tag,
      (final.map (·.getD .unknown))[e]? = some tag ↔ tagOf? final e = some tag := by
    rintro e ⟨held, has⟩ tag
    rw [List.getElem?_map, has, Option.join_eq_some_iff.mp has]
    rfl
  have has : ∃ tag, tagOf? final d = some tag := by
    obtain ⟨tag, tagged⟩ := exists_tag_of_binder (.ofFunc f) (OrdMap.ofList own.tags) binds
    rcases under_of_binder (.ofFunc f) (OrdMap.ofList own.tags) binds with none | same | top
    · rw [tagged] at none
      cases none
    · exact ⟨tag, same.symm.trans tagged⟩
    · exact ⟨_, top⟩
  have iff : ∀ tag, tag ≠ .unknown → ((final.map (·.getD .unknown))[d]? = some tag ↔
      ∀ leaf, (StaticView.ofFunc f u).Binder d leaf → (final.map (·.getD .unknown))[leaf]? = some tag) := by
    intro tag known
    rw [shown d has, tagOf?_defTags_iff _ _ binds known]
    exact forall₂_congr fun leaf behind => (shown leaf (exists_tag_of_binder _ _ behind) tag).symm
  refine ⟨iff, fun none => ?_⟩
  obtain ⟨tag, tagged⟩ := has
  by_contra other
  have known : tag ≠ .unknown := fun same => other ((shown d ⟨tag, tagged⟩ _).mpr (same ▸ tagged))
  exact none tag known ((iff tag known).mp ((shown d ⟨tag, tagged⟩ _).mpr tagged))

/-- The two definitions of `c` that meet in `narrowing` are made under the context of the caller. -/
theorem ofDef?_join_iff_narrowing : narrowing.ids.Nodup ∧ ∃ contexts, Contexts.ofFunc narrowing = .ok contexts ∧
    contexts.uses.reach.def? 6 = some (.join (Sample.name "c") ⟨16⟩ 4 5) ∧ contexts.ofDef? 6 = some .default ∧
    contexts.AllTagged narrowing 6 .default := by
  have distinct : narrowing.ids.Nodup := by decide
  have known : (Contexts.ofFunc narrowing).toOption.map (fun contexts => (contexts.uses.reach.def? 6, contexts.ofDef? 6)) =
      some (some (.join (Sample.name "c") ⟨16⟩ 4 5), some .default) := by decide +kernel
  obtain ⟨contexts, found, same⟩ := map_eq_some_iff.mp known
  obtain ⟨met, tagged⟩ := Prod.mk.inj same
  have inferred := toOption_eq_some.mp found
  have iff := ((ofDef?_join_iff narrowing contexts distinct inferred).2 6 _ _ _ _ met).1 .default nofun
  exact ⟨distinct, contexts, inferred, met, tagged, iff.mp tagged⟩

end Contexts

end NumLang
