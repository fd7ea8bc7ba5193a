import NumLang.Proofs.Numbering

/-!
Where definitions are made.
-/

namespace NumLang

namespace Flow

def Record.Proper (record : Record) : Prop :=
  match record.definition with
  | .assign _ site _ => ∃ slot, record.place = .binder site.node slot
  | .join name site _ _ => record.place = .join site name

variable {env : Env} {slot : Nat} {record : Record} {site : Site} {names : List Name} {records : List Record}
  {after : Env} {notes : Notes} {s : Stmt}

theorem proper_bindNames : ∀ record ∈ (bindNames site slot names env).2, record.Proper := by
  induction names generalizing slot env with
  | nil => exact forall_mem_nil _
  | cons n rest ih =>
    intro record mem
    rcases mem_cons.mp mem with rfl | later
    · exact ⟨slot, rfl⟩
    · exact ih record later

theorem mem_bindNames (mem : record ∈ (bindNames site slot names env).2) :
    ∃ i n prev, names[i]? = some n ∧ record = ⟨.binder site.node (slot + i), .assign n site prev⟩ := by
  induction names generalizing slot env with
  | nil => cases mem
  | cons first rest ih =>
    rcases mem_cons.mp mem with rfl | later
    · exact ⟨0, first, _, rfl, rfl⟩
    · obtain ⟨i, n, prev, named, rfl⟩ := ih later
      refine ⟨i + 1, n, prev, named, ?_⟩
      rw [Nat.add_right_comm, Nat.add_assoc]

theorem ExprsWalk.proper (walk : ExprsWalk env es records) : ∀ record ∈ records, record.Proper := by
  induction walk with
  | nil | var => exact forall_mem_nil _
  | append _ _ early late => exact forall_mem_append.mpr ⟨early, late⟩
  | parts _ _ ih => exact ih
  | comprehension _ _ rows inner => exact forall_mem_append.mpr ⟨forall_mem_append.mpr ⟨rows, proper_bindNames⟩, inner⟩

mutual

theorem StmtsWalk.proper {env after : Env} {notes : Notes} :
    StmtsWalk env stmts after notes → ∀ record ∈ notes.records, record.Proper
  | .nil => forall_mem_nil _
  | .cons (.stmt _ reads arms _ whole) tail => by
    subst whole
    simp only [Notes.records_append, Notes.records_around, forall_mem_append]
    refine ⟨⟨⟨⟨(walk_of_exprs reads).proper, proper_bindNames⟩, arms.proper⟩, fun record mem => ?_⟩, tail.proper⟩
    obtain ⟨n, lhs, rhs, _, _, rfl⟩ := arms.meets.joined record mem
    rfl

theorem ArmsWalk.proper {env : Env} {notes : Notes} :
    ArmsWalk env blocks outs notes → ∀ record ∈ notes.records, record.Proper
  | .nil => forall_mem_nil _
  | .cons (.block inside) tail => by
    simp only [Notes.records_append, append_nil, forall_mem_append]
    exact ⟨inside.proper, tail.proper⟩

end

theorem site_mem_of_times {ids : List NodeId} (bound : ∀ p : Place, times p records ≤ ids.count p.site)
    (mem : record ∈ records) : record.place.site ∈ ids := by
  have recorded : 0 < times record.place records := List.count_pos_iff.mpr (mem_map.mpr ⟨record, mem, rfl⟩)
  exact List.count_pos_iff.mp (Nat.lt_of_lt_of_le recorded (bound record.place))

/-- What is recorded at the node of a statement is made by binding its names or by what meets there. -/
theorem StmtWalk.own (walk : StmtWalk env s after notes) (distinct : s.ids.Nodup) :
    ∃ head outs joins inner, ArmsWalk (bound ⟨.stmt, s.id⟩ s.binds head) s.blocks outs inner ∧ inner.Within notes ∧
      Meets s env head outs after joins ∧ (∀ record ∈ joins, record ∈ notes.records) ∧ ∀ record ∈ notes.records,
      record.place.site = s.id → record ∈ made ⟨.stmt, s.id⟩ s.binds head ∨ record ∈ joins := by
  obtain ⟨_, reads, arms, rfl, rfl⟩ := walk
  have absent := (nodup_cons.mp (s.ids_eq ▸ distinct)).1
  simp only [mem_append] at absent
  refine ⟨_, _, _, _, arms, .middle .., arms.meets, fun record mem => by simp [mem], fun record mem site => ?_⟩
  -- Whatever is recorded inside has its site among the identities below, and `s.id` is none of them.
  simp only [Notes.records_around, Notes.records_append, mem_append] at mem
  rcases mem with ((evaluated | fresh) | inner) | joined
  · exact absurd (.inl (site ▸ site_mem_of_times (walk_of_exprs reads).times evaluated)) absent
  · exact .inl fresh
  · exact absurd (.inr (site ▸ site_mem_of_times arms.counted.times inner)) absent
  · exact .inr joined

theorem StmtWalk.binders (walk : StmtWalk env s after notes) (distinct : s.ids.Nodup) (mem : record ∈ notes.records)
    (placed : record.place = .binder s.id slot) :
    ∃ n prev, s.binds[slot]? = some n ∧ record = ⟨.binder s.id slot, .assign n ⟨.stmt, s.id⟩ prev⟩ := by
  obtain ⟨_, _, _, _, _, _, meets, _, own⟩ := walk.own distinct
  rcases own record mem (by rw [placed]; rfl) with fresh | joined
  · obtain ⟨i, n, prev, named, rfl⟩ := mem_bindNames fresh
    cases placed
    exact ⟨n, prev, by rwa [Nat.zero_add], rfl⟩
  · obtain ⟨n, lhs, rhs, _, _, rfl⟩ := meets.joined record joined
    cases placed

end Flow

namespace Reaching

open Flow

variable {d : DefId} {entry exit : Env}

theorem mem_select_iff {r : Reaching} :
    d ∈ r.select p ↔ ∃ definition, r.def? d = some definition ∧ p definition = true := by
  constructor
  · intro mem
    obtain ⟨⟨definition, _⟩, listed, rfl⟩ := mem_map.mp mem
    obtain ⟨found, selected⟩ := mem_filter.mp listed
    exact ⟨definition, List.mem_zipIdx_iff_getElem?.mp found, selected⟩
  · rintro ⟨definition, found, selected⟩
    refine mem_map.mpr ⟨(definition, d), mem_filter.mpr ⟨?_, selected⟩, rfl⟩
    exact List.mem_zipIdx_iff_getElem?.mpr found

variable {f : Func} {notes : Notes}

theorem number_of_getElem? {records : List Record} (distinct : (records.map (·.place)).Nodup) {record : Record}
    (found : records[i]? = some record) : number records record.place = i := by
  have other := getElem?_number distinct (mem_of_getElem? found)
  have left : (records.map (·.place))[number records record.place]? = some record.place := by
    rw [getElem?_map, other]
    rfl
  have right : (records.map (·.place))[i]? = some record.place := by
    rw [getElem?_map, found]
    rfl
  have below := (List.getElem?_eq_some_iff.mp left).1
  exact (List.getElem?_inj below distinct).mp (left.trans right.symm)

theorem Survey.def?_cases (survey : Survey f notes) (found : (ofNotes entry exit notes).def? d = some definition) :
    ∃ record ∈ notes.records, number notes.records record.place = d ∧ definition = record.definition.map (number
    notes.records) := by
  rw [Reaching.def?, ofNotes, getElem?_map, map_eq_some_iff] at found
  obtain ⟨record, listed, rfl⟩ := found
  exact ⟨record, mem_of_getElem? listed, number_of_getElem? survey.places listed, rfl⟩

theorem proper_bindParams : ∀ record ∈ (bindParams params env).2, record.Proper := by
  induction params generalizing env with
  | nil => exact forall_mem_nil _
  | cons p rest ih => exact forall_mem_append.mpr ⟨proper_bindNames, ih⟩

theorem Survey.proper (survey : Survey f notes) : ∀ record ∈ notes.records, record.Proper := by
  obtain ⟨exit, inner, walk, rfl⟩ := survey.walk
  refine forall_mem_append.mpr ⟨?_, walk.single.proper⟩
  exact forall_mem_append.mpr ⟨proper_bindParams, proper_bindNames⟩

theorem Survey.mem_defsAt (survey : Survey f notes) {s : Stmt} (mem : s ∈ f.body.all)
    (listed : d ∈ (ofNotes entry exit notes).defsAt s.id) : ∃ slot n prev, s.binds[slot]? = some n ∧
    ⟨.binder s.id slot, .assign n ⟨.stmt, s.id⟩ prev⟩ ∈ notes.records ∧
    number notes.records (.binder s.id slot) = d := by
  obtain ⟨definition, found, selected⟩ := mem_select_iff.mp listed
  obtain ⟨record, recorded, rfl, rfl⟩ := survey.def?_cases found
  have proper := survey.proper record recorded
  obtain ⟨span, sub, _, walk, part⟩ := survey.spans.visits s mem
  obtain ⟨place, definition⟩ := record
  cases definition with
  | join name site lhs rhs => simp [Definition.map, Definition.isJoin] at selected
  | assign name site prev =>
    have own : site.node = s.id := of_decide_eq_true selected
    obtain ⟨slot, rfl⟩ : ∃ slot, place = .binder site.node slot := proper
    have inside := survey.own part recorded (by rw [Place.site, own]; exact s.id_mem_ids)
    obtain ⟨n, prev, named, same⟩ := walk.binders (survey.nodup_ids mem) inside (by rw [own])
    exact ⟨slot, n, prev, named, same ▸ recorded, by rw [own]⟩

theorem Survey.number_mem_defsAt (survey : Survey f notes)
    (recorded : ⟨.binder site slot, .assign n ⟨.stmt, site⟩ prev⟩ ∈ notes.records) :
    number notes.records (.binder site slot) ∈ (ofNotes entry exit notes).defsAt site := by
  refine mem_select_iff.mpr ⟨_, survey.def? entry exit recorded, ?_⟩
  simp [Definition.map, Definition.isJoin, Definition.site]

end Reaching

end NumLang
