import NumLang.Proofs.Bundles

/-!
Bundling succeeds on a well-formed function if each arm of a branch opens the names that meet behind it.
-/

namespace NumLang

variable {ift' iff' ift iff : Block}

namespace Bundling

open Edit Stmt

variable {names more : NameSupply} {held : Name → Prop} {s s' st : Stmt} {stmts out : List Stmt}

/-- Statements that may stand in place of others, bind what the others bind and else only names that were not in use. -/
structure Replaces (names more : NameSupply) (held : Name → Prop) (stmts out : List Stmt) : Prop
    extends Serves more.used held stmts out where
  kept : ∀ n ∈ bindsAll stmts, n ∈ bindsAll out
  drawn : ∀ n ∈ bindsAll out, n ∈ bindsAll stmts ∨ n ∉ names.used

variable {before : NameSet} {n : Name} {f : Func}

theorem Replaces.trans (first : Replaces names more held stmts middle) (kept : Retains names more)
    (second : Replaces more most held middle out) : Replaces names most held stmts out := by
  refine ⟨first.toServes.trans second.toServes, fun n bound => second.kept n (first.kept n bound), fun n bound => ?_⟩
  rcases second.drawn n bound with earlier | new
  · exact first.drawn n earlier
  · exact .inr fun known => new (kept n known)

def bundled (asked : Stmt → NameSet) : Becoming := fun names more defined stmts out =>
  Replaces names more (fun n => defined n ∧ n ∈ demandsAll asked stmts) stmts out

theorem rows_bundled : Rows (bundled asked) where
  nil names defined := ⟨.nil _ _, fun _ bound => bound, fun _ bound => .inl bound⟩
  cons := by
    intro names middle more defined s rest out others kept first later second
    have here : Serves more.used (fun n => defined n ∧ n ∈ demandsAll asked (s :: rest)) [s] out := by
      refine ⟨(first.toServes.mono later).toStands.wider fun n held => ⟨held.1, ?_⟩, first.defines, first.filled⟩
      exact mem_demandsAll_cons.mpr (.inl held.2)
    have there : Serves more.used (fun n => (defined n ∧ n ∈ demandsAll asked (s :: rest)) ∨ n ∈ s.defines) rest others := by
      refine ⟨second.toStands.wider fun n held => ?_, second.defines, second.filled⟩
      by_cases own : n ∈ s.defines
      · exact .inr own
      · exact .inl ⟨held.1.resolve_right own, mem_demandsAll_cons.mpr (.inr ⟨held.2, own⟩)⟩
    refine ⟨.cons here there, fun n bound => ?_, fun n bound => ?_⟩
    · rw [← singleton_append, bindsAll_append] at bound
      rw [bindsAll_append]
      exact mem_append.mpr ((mem_append.mp bound).imp (first.kept n) (second.kept n))
    · rw [← singleton_append, bindsAll_append, mem_append]
      rw [bindsAll_append] at bound
      rcases mem_append.mp bound with early | late
      · exact (first.drawn n early).imp_left .inl
      · exact (second.drawn n late).imp .inr fun new known => new (kept n known)

theorem replaces_of_reshaped {before : NodeId → NameSet} (settled : Settled before more.used defined [s])
    (shape : Reshaped (bundled asked) names more defined s s') :
    Replaces names more (fun n => defined n ∧ n ∈ s.demands asked) [s] [s'] := by
  obtain ⟨binds, reads, exprs, _, start⟩ := shape.same
  have serves : Serves more.used defined [s] [s'] := serves_of_reshaped settled (shape.imp fun replaces =>
    ⟨replaces.toStands.wider fun _ held => held.1, replaces.defines, replaces.filled⟩)
  have demanded : ∀ n ∈ s'.needs, n ∈ s.demands asked := by
    obtain ⟨_, own, exprs', deeper⟩ := @demands_covers s asked
    refine needs_iff.mpr ⟨reads ▸ own, exprs ▸ exprs', fun b' listed n need => ?_⟩
    obtain ⟨b, mem, _, _, _, replaces, _⟩ := exists_of_forall₂ shape.blocks b' listed
    rw [start]
    exact deeper b mem n (replaces.needs n need).2
  refine ⟨⟨⟨serves.made, fun n need => ⟨serves.needs n need, ?_⟩, serves.known⟩, serves.defines, serves.filled⟩, ?_, ?_⟩
  · exact demanded n (mem_needsAll_single.mp need)
  · intro n bound
    rw [mem_bindsAll_single] at bound ⊢
    refine bound.imp (fun own => binds ▸ own) fun ⟨b, mem, inner⟩ => ?_
    obtain ⟨b', listed, _, _, _, replaces, _⟩ := exists_of_forall₂ shape.blocks.flip b mem
    exact ⟨b', listed, replaces.kept n inner⟩
  · intro n bound
    rw [mem_bindsAll_single] at bound ⊢
    rcases bound with own | ⟨b', listed, inner⟩
    · exact .inl (.inl (binds ▸ own))
    · obtain ⟨b, mem, _, _, kept, replaces, _⟩ := exists_of_forall₂ shape.blocks b' listed
      rcases replaces.drawn n inner with earlier | new
      · exact .inl (.inr ⟨b, mem, earlier⟩)
      · exact .inr fun known => new (kept n known)

/-! ### Renamed blocks -/

section Renamed

variable {ns : List Name} {b : Block} {bundle : Name}

theorem Renamed.copy (b : Block) (ρ : Name → Name) : CopyAll ρ b.stmts (b.rename ρ).stmts :=
  copyAll_block (Block.copy_rename ρ b)

variable (renamed : Renamed old new ns b ρ)

include renamed

theorem Renamed.kept (bound : n ∈ bindsAll b.stmts) : n ∈ ns ∨ n ∈ bindsAll (b.rename ρ).stmts := by
  by_cases listed : n ∈ ns
  · exact .inl listed
  · exact .inr ((mem_bindsAll_copy (copy b ρ)).mpr ⟨n, bound, renamed.others n fun both => listed both.1⟩)

theorem Renamed.drawn (bound : n ∈ bindsAll (b.rename ρ).stmts) : n ∈ bindsAll b.stmts ∨ n ∉ old := by
  obtain ⟨m, earlier, rfl⟩ := (mem_bindsAll_copy (copy b ρ)).mp bound
  by_cases both : m ∈ ns ∧ m ∈ b.assigned
  · exact .inr (renamed.fresh m both.1 both.2)
  · exact .inl ((renamed.others m both).symm ▸ earlier)

theorem Renamed.targets (distinct : ns.Nodup) (bound : ∀ n ∈ ns, n.IsPlain ∧ n ∈ old) :
    (ns.map ρ).Nodup ∧ ∀ n ∈ ns.map ρ, n.IsPlain ∧ n ∈ new := by
  refine ⟨renamed.renames.nodup (fun n listed => (bound n listed).2) distinct, fun n listed => ?_⟩
  obtain ⟨m, mem, rfl⟩ := mem_map.mp listed
  exact ⟨renamed.renames.plain m (bound m mem).2 (bound m mem).1, renamed.taken m (bound m mem).2⟩

theorem stands_arm (stands : Stands old held b.stmts) (opens : Opens Block.needs ns b) (known : ∀ n ∈ ns, n ∈ old)
    (left : ∀ n ∈ ns, n ∉ b.assigned → held n) (packs : Packs bundle (ns.map ρ) last) (plain : bundle.IsPlain)
    (there : bundle ∈ new) : Stands new held (append (b.rename ρ) last).stmts := by
  have own : Stands old (· ∈ needsAll b.stmts) b.stmts := ⟨stands.made, fun _ need => need, stands.known⟩
  refine stands_append.mpr ⟨stands_copy (Renamed.copy b ρ) own renamed.renames renamed.taken fun n need => ?_, ?_⟩
  · rw [renamed.others n fun both => (opens n both.1 both.2).2 (Block.needs_eq b ▸ need)]
    exact stands.needs n need
  · refine packs.stands plain there fun n listed => ?_
    obtain ⟨m, mem, rfl⟩ := mem_map.mp listed
    refine ⟨renamed.taken m (known m mem), ?_⟩
    by_cases assigned : m ∈ b.assigned
    · have defined := (opens m mem assigned).1
      rw [Block.defines_eq] at defined
      exact .inr (definesAll_copy b.stmts (Renamed.copy b ρ) m defined)
    · rw [renamed.others m fun both => assigned both.2]
      exact .inl (left m mem assigned)

theorem stands_turn (stands : Stands old held b.stmts) (distinct : ns.Nodup) (bound : ∀ n ∈ ns, n.IsPlain ∧ n ∈ old)
    (unpacks : Unpacks (ns.map ρ) bundle first) (packs : Packs bundle (ns.map ρ) last) (plain : bundle.IsPlain)
    (there : bundle ∈ new) (given : wider bundle) (moves : ∀ n, held n → n ∉ ns → wider n) :
    Stands new wider (first :: (b.rename ρ).stmts ++ [last]) := by
  obtain ⟨distinct', bound'⟩ := renamed.targets distinct bound
  refine stands_append.mpr ⟨stands_cons.mpr ⟨unpacks.stands bound' distinct' there given, ?_⟩, ?_⟩
  · refine stands_copy (Renamed.copy b ρ) stands renamed.renames renamed.taken fun n here => ?_
    by_cases listed : n ∈ ns
    · exact .inr (unpacks.defines.mpr (mem_map_of_mem listed))
    · rw [renamed.others n fun both => listed both.1]
      exact .inl (moves n here listed)
  · refine packs.stands plain there fun n listed => ⟨(bound' n listed).2, .inr ?_⟩
    rw [definesAll, mem_union]
    exact .inl (unpacks.defines.mpr listed)

end Renamed

/-! ### Single statements -/

/-- What is bound in a block, of which some names are given elsewhere, is bound in another, and in that one else only
names that were not in use. -/
structure Rebinds (old : NameSet) (bundle : Name) (ns : List Name) (b b' : Block) : Prop where
  kept : ∀ n ∈ bindsAll b.stmts, n ∈ ns ∨ n ∈ bindsAll b'.stmts
  drawn : ∀ n ∈ bindsAll b'.stmts, n ∈ bindsAll b.stmts ∨ n ∉ old ∨ n = bundle

section Leads

variable {bundle : Name} {inner : List Name} {b b' : Block} {mid : NameSupply}

theorem Rebinds.unused (rebinds : Rebinds mid.used bundle ns b b') (drawn : Drawn names mid bundle)
    (bound : n ∈ bindsAll b'.stmts) : n ∈ bindsAll b.stmts ∨ n ∉ names.used := by
  rcases rebinds.drawn n bound with earlier | new | rfl
  · exact .inl earlier
  · exact .inr fun known => new (drawn.kept n known)
  · exact .inr drawn.new

/-- A statement with one block that defines nothing is replaced by another between packing names and unpacking them. -/
theorem replaces_enclosed (only : st.blocks = [b]) (only' : s'.blocks = [b']) (same : s'.binds = st.binds)
    (none : ∀ n, n ∉ st.defines) (rebinds : Rebinds mid.used bundle ns b b') (distinct : ns.Nodup)
    (bound : ∀ n ∈ ns, n.IsPlain ∧ n ∈ names.used) (inside : ∀ n ∈ ns, n ∈ b.assigned) (given : ∀ n ∈ ns, held n)
    (drawn : Drawn names mid bundle) (later : Retains mid more) (packs : Packs bundle ns first)
    (unpacks : Unpacks ns bundle last) (stands : Stands more.used (fun n => held n ∨ n = bundle) [s']) :
    Replaces names more held [st] [first, s', last] := by
  have there := later _ drawn.there
  have bound' : ∀ n ∈ ns, n.IsPlain ∧ n ∈ more.used := fun n listed =>
    ⟨(bound n listed).1, later n (drawn.kept n (bound n listed).2)⟩
  have own : Stands more.used held [first, s', last] := by
    refine stands_cons.mpr ⟨packs.stands drawn.plain there fun n listed => ⟨(bound' n listed).2, given n listed⟩, ?_⟩
    refine stands_cons.mpr ⟨stands.wider fun n => Or.imp_right packs.defines.mpr, ?_⟩
    exact unpacks.stands bound' distinct there (.inl (.inr (packs.defines.mpr rfl)))
  have outer : ∀ n, n ∈ bindsAll [st] ↔ n ∈ st.binds ∨ n ∈ bindsAll b.stmts := by
    simp [mem_bindsAll_single, only]
  have binds : ∀ n, n ∈ bindsAll [first, s', last] ↔ n = bundle ∨ (n ∈ st.binds ∨ n ∈ bindsAll b'.stmts) ∨ n ∈ ns := by
    intro n
    have middle : n ∈ bindsAll [s'] ↔ n ∈ st.binds ∨ n ∈ bindsAll b'.stmts := by
      simp [mem_bindsAll_single, only', same]
    rw [← middle, ← packs.binds, ← unpacks.binds, ← mem_append, ← mem_append, ← bindsAll_append, ← bindsAll_append]
    rfl
  refine ⟨⟨own, fun n here => ?_, fun _ => cons_ne_nil _ _⟩, fun n here => ?_, fun n here => ?_⟩
  · exact absurd (mem_definesAll_single.mp here) (none n)
  · rw [binds]
    rcases (outer n).mp here with own | inner
    · exact .inr (.inl (.inl own))
    · exact .inr ((rebinds.kept n inner).symm.imp_left .inr)
  · rw [outer]
    rcases (binds n).mp here with rfl | (own | inner) | listed
    · exact .inr drawn.new
    · exact .inl (.inl own)
    · exact (rebinds.unused drawn inner).imp_left .inr
    · exact .inl (.inr (mem_bindsAll_assigned.mp (inside n listed)))

end Leads

section Blocks

variable {old new : NameSet} {ns : List Name} {b : Block} {bundle : Name}
  (renamed : Renamed old new ns b ρ)

include renamed

theorem Renamed.rebinds_arm (packs : Packs bundle (ns.map ρ) last) :
    Rebinds old bundle ns b (append (b.rename ρ) last) := by
  have binds : ∀ n, n ∈ bindsAll (append (b.rename ρ) last).stmts ↔ n ∈ bindsAll (b.rename ρ).stmts ∨ n = bundle := by
    intro n
    rw [← packs.binds, ← mem_append, ← bindsAll_append]
    rfl
  refine ⟨fun n bound => ?_, fun n bound => ?_⟩
  · rw [binds]
    exact (renamed.kept bound).imp_right .inl
  · rcases (binds n).mp bound with inner | same
    · exact (renamed.drawn inner).imp_right .inl
    · exact .inr (.inr same)

theorem Renamed.rebinds_turn (all : ∀ n ∈ ns, n ∈ b.assigned) (unpacks : Unpacks (ns.map ρ) bundle first)
    (packs : Packs bundle (ns.map ρ) last) :
    Rebinds old bundle ns b { b.rename ρ with stmts := first :: (b.rename ρ).stmts ++ [last] } := by
  have binds : ∀ n, n ∈ bindsAll (first :: (b.rename ρ).stmts ++ [last]) ↔
      (n ∈ ns.map ρ ∨ n ∈ bindsAll (b.rename ρ).stmts) ∨ n = bundle := by
    intro n
    rw [← packs.binds, ← unpacks.binds, ← mem_append, ← mem_append, ← bindsAll_append, ← bindsAll_append]
    rfl
  refine ⟨fun n bound => ?_, fun n bound => ?_⟩
  · rw [binds]
    exact (renamed.kept bound).imp_right fun inner => .inl (.inr inner)
  · rcases (binds n).mp bound with (listed | inner) | same
    · obtain ⟨m, mem, rfl⟩ := mem_map.mp listed
      exact .inr (.inl (renamed.fresh m mem (all m mem)))
    · exact (renamed.drawn inner).imp_right .inl
    · exact .inr (.inr same)

end Blocks

section Statements

variable {bundle : Name} {b b' : Block}

theorem Turn.rebinds (turn : Turn names more bundle ns b b') (all : ∀ n ∈ ns, n ∈ b.assigned) :
    Rebinds names.used bundle ns b b' := by
  obtain ⟨_, renamed, unpacks, packs⟩ := turn
  exact renamed.rebinds_turn all unpacks packs

theorem Arm.rebinds (arm : Arm names more bundle ns b b') : Rebinds names.used bundle ns b b' := by
  obtain ⟨_, renamed, packs⟩ := arm
  exact renamed.rebinds_arm packs

theorem Turn.stands (turn : Turn mid more bundle ns b b') (drawn : Drawn names mid bundle)
    (stands : Stands names.used held b.stmts) (distinct : ns.Nodup) (all : ∀ n ∈ ns, n ∈ b.assigned)
    (given : wider bundle) (moves : ∀ n, held n → wider n) : b'.stmts ≠ [] ∧ Stands more.used wider b'.stmts := by
  obtain ⟨later, renamed, unpacks, packs⟩ := turn
  refine ⟨cons_ne_nil _ _, stands_turn renamed (stands.mono drawn.kept) distinct (fun n listed => ?_) unpacks packs
    drawn.plain (later _ drawn.there) given fun n here _ => moves n here⟩
  exact (stands.assigned (all n listed)).imp_right (drawn.kept n)

theorem Arm.stands (arm : Arm mid more bundle ns b b') (stands : Stands mid.used held b.stmts)
    (opens : Opens Block.needs ns b) (known : ∀ n ∈ ns, n ∈ mid.used) (left : ∀ n ∈ ns, n ∉ b.assigned → held n)
    (plain : bundle.IsPlain) (there : bundle ∈ mid.used) : b'.stmts ≠ [] ∧ Stands more.used held b'.stmts := by
  obtain ⟨later, renamed, packs⟩ := arm
  refine ⟨fun empty => (nomatch (List.append_eq_nil_iff.mp empty).2), ?_⟩
  exact stands_arm renamed stands opens known left packs plain (later _ there)

theorem Arm.defines (arm : Arm mid more bundle ns b b') : bundle ∈ b'.defines := by
  obtain ⟨_, _, packs⟩ := arm
  rw [Block.defines_eq]
  exact mem_definesAll_append.mpr (.inr (mem_definesAll_single.mpr (packs.defines.mpr rfl)))

theorem mem_assigned_of_carried (listed : n ∈ carried b before) : n ∈ b.assigned :=
  (mem_carried.mp listed).1

theorem replaces_carried (only : st.blocks = [b]) (only' : s'.blocks = [b']) (same : s'.binds = st.binds)
    (none : ∀ n, n ∉ st.defines) (stands : Stands names.used held [st]) (distinct : (carried b before).Nodup)
    (given : ∀ n ∈ carried b before, held n) (drawn : Drawn names mid bundle) (later : Retains mid more)
    (rebinds : Rebinds mid.used bundle (carried b before) b b') (packs : Packs bundle (carried b before) first)
    (unpacks : Unpacks (carried b before) bundle last) (stands' : Stands more.used (fun n => held n ∨ n = bundle) [s'])
    : Replaces names more held [st] [first, s', last] := by
  obtain ⟨_, _, _, _, within⟩ := stands_single.mp stands
  have inner := (within b (only ▸ List.mem_singleton_self b)).2
  exact replaces_enclosed only only' same none rebinds distinct
    (fun n listed => inner.assigned (mem_assigned_of_carried listed)) (fun n => mem_assigned_of_carried) given drawn later
    packs unpacks stands'

/-- A branch is replaced by one that carries the bundle, if both arms open the names. -/
theorem replaces_branch {node : Node} (stands : Stands names.used held [.branch node test ift iff])
    (distinct : (merged ift iff before).Nodup)
    (given : ∀ n ∈ merged ift iff before, ¬ (n ∈ ift.assigned ∧ n ∈ iff.assigned) → held n)
    (opens : Opens Block.needs (merged ift iff before) ift) (opens' : Opens Block.needs (merged ift iff before) iff)
    (drawn : Drawn names mid bundle) (left : Arm mid next bundle (merged ift iff before) ift ift')
    (right : Arm next more bundle (merged ift iff before) iff iff')
    (unpacks : Unpacks (merged ift iff before) bundle back) :
    Replaces names more held [.branch node test ift iff] [.branch node test ift' iff', back] := by
  obtain ⟨_, _, exprs, _, within⟩ := stands_single.mp stands
  obtain ⟨_, first⟩ := within ift mem_cons_self
  obtain ⟨_, second⟩ := within iff (mem_cons_of_mem _ mem_cons_self)
  have bound : ∀ n ∈ merged ift iff before, n.IsPlain ∧ n ∈ names.used := fun n listed =>
    (mem_merged.mp listed).1.elim first.assigned second.assigned
  have known : ∀ n ∈ merged ift iff before, n ∈ names.used := fun n listed => (bound n listed).2
  have early := drawn.kept.trans left.kept
  have there := left.kept _ drawn.there
  obtain ⟨filled, one⟩ := left.stands (first.mono drawn.kept) opens (fun n listed => drawn.kept n (known n listed))
    (fun n listed missing => given n listed fun both => missing both.1) drawn.plain drawn.there
  have two := right.stands (second.mono early) opens' (fun n listed => early n (known n listed))
    (fun n listed missing => given n listed fun both => missing both.2) drawn.plain there
  have outer : ∀ n, n ∈ bindsAll [.branch node test ift iff] ↔ n ∈ bindsAll ift.stmts ∨ n ∈ bindsAll iff.stmts := by
    simp [mem_bindsAll_single, Stmt.binds, Stmt.blocks]
  have binds : ∀ n, n ∈ bindsAll [.branch node test ift' iff', back] ↔
      (n ∈ bindsAll ift'.stmts ∨ n ∈ bindsAll iff'.stmts) ∨ n ∈ merged ift iff before := by
    intro n
    rw [← unpacks.binds, ← singleton_append, bindsAll_append, mem_append, mem_bindsAll_single]
    simp [Stmt.binds, Stmt.blocks]
  refine ⟨⟨stands_cons.mpr ⟨?_, ?_⟩, fun n here => ?_, fun _ => cons_ne_nil _ _⟩, fun n here => ?_, fun n here => ?_⟩
  · refine stands_single.mpr ⟨nofun, nofun, ?_, trivial, ?_⟩
    · exact forall_mem_singleton.mpr (((exprs test mem_cons_self).mono early).mono right.kept)
    · exact forall_mem_cons.mpr ⟨⟨filled, one.mono right.kept⟩, forall_mem_singleton.mpr two⟩
  · refine unpacks.stands (fun n listed => ⟨(bound n listed).1, right.kept n (early n (known n listed))⟩) distinct
      (right.kept _ there) (.inr ?_)
    exact mem_inter.mpr ⟨left.defines, right.defines⟩
  · obtain ⟨here, there⟩ := mem_inter.mp (mem_definesAll_single.mp here)
    rw [Block.defines_eq] at here there
    have both : n ∈ ift.assigned ∧ n ∈ iff.assigned :=
      ⟨mem_bindsAll_assigned.mpr (bindsAll_of_definesAll here), mem_bindsAll_assigned.mpr (bindsAll_of_definesAll there)⟩
    rw [← singleton_append, mem_definesAll_append, mem_definesAll_single, mem_definesAll_single]
    exact .inr (unpacks.defines.mpr (mem_merged.mpr ⟨.inl both.1, .inr both⟩))
  · rw [binds]
    rcases (outer n).mp here with inner | inner
    · exact (left.rebinds.kept n inner).symm.imp_left .inl
    · exact (right.rebinds.kept n inner).symm.imp_left .inr
  · rw [outer]
    rcases (binds n).mp here with (inner | inner) | listed
    · exact (left.rebinds.unused drawn inner).imp_left .inl
    · rcases right.rebinds.drawn n inner with earlier | new | rfl
      · exact .inl (.inr earlier)
      · exact .inr fun known => new (early n known)
      · exact .inr drawn.new
    · exact .inl ((mem_merged.mp listed).1.imp mem_bindsAll_assigned.mp mem_bindsAll_assigned.mp)

/-- A statement is replaced if what is packed before it is defined and its arms open the names that meet. -/
theorem Bundled.replaces (bundled : Bundled targets before names more st out) (stands : Stands names.used held [st])
    (given : ∀ n ∈ packed targets before st, held n) (opened : Opened targets before Block.needs st) :
    Retains names more ∧ Replaces names more held [st] out := by
  have nodup := @nodup_met targets before st
  cases bundled with
  | stays =>
    refine ⟨.refl names, ⟨stands, fun _ here => here, fun filled => filled⟩, fun _ bound => bound, ?_⟩
    exact fun _ bound => .inl bound
  | loop some drawn turn projected packs unpacks =>
    have same := (met_of_meeting rfl some).2.1
    obtain ⟨_, _, exprs, _, within⟩ := stands_single.mp stands
    refine ⟨drawn.kept.trans turn.kept, replaces_carried rfl rfl rfl (by rintro _ ⟨⟩) stands (same ▸ nodup)
      (fun n listed => given n (mem_ofList.mpr (same ▸ listed))) drawn turn.kept
      (turn.rebinds fun n => mem_assigned_of_carried) packs unpacks ?_⟩
    have tested := (exprs _ mem_cons_self).mono (drawn.kept.trans turn.kept)
    refine stands_single.mpr ⟨by rintro _ ⟨⟩, by rintro _ ⟨⟩, forall_mem_singleton.mpr
      (projected.stands tested (turn.kept _ drawn.there)), trivial, forall_mem_singleton.mpr ?_⟩
    exact turn.stands drawn (within _ mem_cons_self).2 (same ▸ nodup) (fun n => mem_assigned_of_carried) (.inr rfl)
      fun n here => .inl here
  | each some drawn turn packs unpacks =>
    have same := (met_of_meeting rfl some).2.1
    obtain ⟨names', _, exprs, side, within⟩ := stands_single.mp stands
    have kept := drawn.kept.trans turn.kept
    refine ⟨kept, replaces_carried rfl rfl rfl (by rintro _ ⟨⟩) stands (same ▸ nodup)
      (fun n listed => given n (mem_ofList.mpr (same ▸ listed))) drawn turn.kept
      (turn.rebinds fun n => mem_assigned_of_carried) packs unpacks ?_⟩
    refine stands_single.mpr ⟨fun n here => (names' n here).imp_right (kept n), by rintro _ ⟨⟩,
      forall_mem_singleton.mpr (((exprs _ mem_cons_self).mono kept).wider fun n here => .inl here), side,
      forall_mem_singleton.mpr ?_⟩
    exact turn.stands drawn (within _ mem_cons_self).2 (same ▸ nodup) (fun n => mem_assigned_of_carried)
      (.inr (.inr rfl)) fun n here => here.imp_right .inl
  | when some drawn arm packs unpacks =>
    have same := (met_of_meeting rfl some).2.1
    obtain ⟨_, _, exprs, _, within⟩ := stands_single.mp stands
    have inner := (within _ mem_cons_self).2
    have kept := drawn.kept.trans arm.kept
    refine ⟨kept, replaces_carried rfl rfl rfl (by rintro _ ⟨⟩) stands (same ▸ nodup)
      (fun n listed => given n (mem_ofList.mpr (same ▸ listed))) drawn arm.kept arm.rebinds packs unpacks
      (Stands.wider ?_ fun n here => .inl here)⟩
    refine stands_single.mpr ⟨by rintro _ ⟨⟩, by rintro _ ⟨⟩,
      forall_mem_singleton.mpr ((exprs _ mem_cons_self).mono kept), trivial, forall_mem_singleton.mpr ?_⟩
    exact arm.stands (inner.mono drawn.kept) (same ▸ opened _ mem_cons_self)
      (fun n listed => drawn.kept n (inner.assigned (mem_assigned_of_carried listed)).2)
      (fun n listed missing => absurd (mem_assigned_of_carried listed) missing) drawn.plain drawn.there
  | branch some drawn left right unpacks =>
    have same := (met_of_meeting rfl some).2.1
    refine ⟨(drawn.kept.trans left.kept).trans right.kept, replaces_branch stands (same ▸ nodup) (fun n listed apart => ?_)
      (same ▸ opened _ mem_cons_self) (same ▸ opened _ (mem_cons_of_mem _ mem_cons_self)) drawn left right
      unpacks⟩
    refine given n (mem_ofList.mpr (mem_filter.mpr ⟨same ▸ listed, ?_⟩))
    simpa [imp_iff_not_or] using apart

end Statements

/-! ### What meets after the blocks are replaced -/

section Reshaped

variable {targets : BundleTargets} {b b' : Block}

theorem mem_assigned_iff (replaces : bundled asked first last defined b.stmts b'.stmts) (known : n ∈ first.used) :
    n ∈ b'.assigned ↔ n ∈ b.assigned := by
  rw [mem_bindsAll_assigned, mem_bindsAll_assigned]
  exact ⟨fun bound => (replaces.drawn n bound).resolve_right fun new => new known, replaces.kept n⟩

theorem carried_eq (replaces : bundled asked first last defined b.stmts b'.stmts)
    (earlier : ∀ n ∈ before, n ∈ first.used) : carried b' before = carried b before := by
  refine congrArg OrdSet.toList (OrdSet.ext fun n => ?_)
  rw [mem_inter, mem_inter]
  exact and_congr_left fun here => mem_assigned_iff replaces (earlier n here)

theorem merged_eq (kept : Retains names middle) (left : bundled asked names middle defined ift.stmts ift'.stmts)
    (right : bundled asked middle more defined iff.stmts iff'.stmts) (earlier : ∀ n ∈ before, n ∈ names.used)
    (own : ∀ n ∈ ift.assigned, n ∈ names.used) (own' : ∀ n ∈ iff.assigned, n ∈ names.used) :
    merged ift' iff' before = merged ift iff before := by
  refine congrArg OrdSet.toList (@OrdSet.ext _ _ _ _ ((ift'.assigned ∪ iff'.assigned).filter _)
    ((ift.assigned ∪ iff.assigned).filter _) fun n => ?_)
  simp only [OrdSet.mem_filter, mem_union, Bool.or_eq_true, Bool.and_eq_true, decide_eq_true_eq]
  by_cases known : n ∈ names.used
  · rw [mem_assigned_iff left known, mem_assigned_iff right (kept n known)]
  · have drawn : n ∈ ift'.assigned → n ∉ iff'.assigned := fun here there => by
      have later := (left.toStands.assigned here).2
      exact known (own' n ((mem_assigned_iff right later).mp there))
    have absent := fun here => known (earlier n here)
    have absent' := fun here => known (own n here)
    have absent'' := fun here => known (own' n here)
    grind

theorem met_reshaped (shape : Reshaped (bundled asked) names more defined s s') (earlier : ∀ n ∈ before, n ∈ names.used)
    (own : ∀ b ∈ s.blocks, ∀ n ∈ b.assigned, n ∈ names.used) : met targets before s' = met targets before s := by
  suffices same : meeting targets before s' = meeting targets before s by rw [met, met, same]
  cases shape with
  | leaf => rfl
  | when inner | loop inner | each inner => rw [meeting, meeting, carried_eq inner earlier]
  | branch kept left _ right =>
    rw [meeting, meeting, merged_eq kept left right earlier (own _ mem_cons_self)
      (own _ (mem_cons_of_mem _ mem_cons_self))]
  | scope => rfl

theorem packed_reshaped (shape : Reshaped (bundled asked) names more defined s s')
    (same : met targets before s' = met targets before s) (known : ∀ n ∈ met targets before s, n ∈ names.used) :
    ∀ n ∈ packed targets before s', n ∈ packed targets before s := by
  intro n here
  cases shape with
  | branch kept left _ right =>
    rw [packed, mem_ofList, mem_filter] at here ⊢
    rw [same] at here
    have used := known n here.1
    simpa only [mem_assigned_iff left used, mem_assigned_iff right (kept n used)] using here
  | leaf => exact here
  | when | loop | each | scope =>
    rw [packed, mem_ofList] at here ⊢
    · rwa [same] at here
    all_goals exact nofun

theorem Opens.replaced (opens : Opens (Block.demands asked) ns b)
    (replaces : bundled asked first last defined b.stmts b'.stmts) (known : ∀ n ∈ ns, n ∈ first.used) :
    Opens Block.needs ns b' := by
  intro n listed assigned
  obtain ⟨defines, undemanded⟩ := opens n listed ((mem_assigned_iff replaces (known n listed)).mp assigned)
  rw [Block.defines_eq] at defines ⊢
  rw [Block.demands_eq] at undemanded
  rw [Block.needs_eq]
  exact ⟨replaces.defines n defines, fun need => undemanded (replaces.needs n need).2⟩

theorem opened_reshaped (shape : Reshaped (bundled asked) names more defined s s')
    (same : met targets before s' = met targets before s) (known : ∀ n ∈ met targets before s, n ∈ names.used)
    (opened : Opened targets before (Block.demands asked) s) : Opened targets before Block.needs s' := by
  rw [Opened, same]
  cases shape with
  | when inner => exact forall_mem_singleton.mpr ((opened _ mem_cons_self).replaced inner known)
  | branch kept left _ right =>
    refine forall_mem_cons.mpr ⟨(opened _ mem_cons_self).replaced left known, forall_mem_singleton.mpr ?_⟩
    exact (opened _ (mem_cons_of_mem _ mem_cons_self)).replaced right fun n listed => kept n (known n listed)
  | leaf only =>
    cases s with
    | when | branch => cases only
    | _ => exact nofun
  | loop | each | scope => exact nofun

end Reshaped

/-! ### Whole functions -/

def packing (targets : BundleTargets) (before : NodeId → NameSet) (s : Stmt) : NameSet := packed targets (before s.id) s

/-- In a function every arm of a branch gives a value to those of the names that meet behind it and that it assigns,
before it reads one of them or packs it. -/
def Opening (targets : BundleTargets) (f : Func) : Prop :=
  match Reaching.ofFunc f with
  | .ok r => ∀ s ∈ f.body.all, Opened targets (Flow.inForce r s.id) (Block.demands (packing targets (Flow.inForce r))) s
  | .error _ => False

instance (targets : BundleTargets) (f : Func) : Decidable (Opening targets f) := by
  unfold Opening
  split <;> infer_instance

variable {targets : BundleTargets}

theorem mem_used_of_met (earlier : ∀ n ∈ before, n ∈ names.used)
    (own : ∀ b ∈ s.blocks, ∀ n ∈ b.assigned, n ∈ names.used) (here : n ∈ met targets before s) : n ∈ names.used := by
  have some := List.ne_nil_of_mem here
  cases s with
  | when | loop | each =>
    rw [(met_of_meeting rfl some).2.1] at here
    exact earlier n (mem_carried.mp here).2
  | branch =>
    rw [(met_of_meeting rfl some).2.1] at here
    exact (mem_merged.mp here).1.elim (own _ mem_cons_self n) (own _ (mem_cons_of_mem _ mem_cons_self) n)
  | _ => exact absurd rfl some

theorem mem_before_of_packed (here : n ∈ packed targets before s) : n ∈ before := by
  cases s with
  | when | loop | each =>
    have listed := mem_ofList.mp here
    rw [(met_of_meeting rfl (List.ne_nil_of_mem listed)).2.1] at listed
    exact (mem_carried.mp listed).2
  | branch =>
    obtain ⟨listed, apart⟩ := mem_filter.mp (mem_ofList.mp here)
    rw [(met_of_meeting rfl (List.ne_nil_of_mem listed)).2.1] at listed
    refine (mem_merged.mp listed).2.resolve_right fun both => ?_
    simp [both] at apart
  | _ => cases here

theorem steps (targets : BundleTargets) (r : Reaching) : Rebuild.Steps (Flow.inForce r)
    (bundled (packing targets (Flow.inForce r)))
    (fun s => Opened targets (Flow.inForce r s.id) (Block.demands (packing targets (Flow.inForce r))) s) fun s => bundle
    targets (Flow.inForce r s.id) s := by
  intro names more defined s s' settled opened kept shape
  have earlier : ∀ n ∈ Flow.inForce r s.id, defined n := settled.own
  have inUse : ∀ n ∈ Flow.inForce r s.id, n ∈ names.used := fun n here => settled.bounded n (earlier n here)
  have own : ∀ b ∈ s.blocks, ∀ n ∈ b.assigned, n ∈ names.used := fun b mem n here =>
    ((settled.block mem).toStands.assigned here).2
  have same := @met_reshaped _ _ _ _ _ targets _ _ shape inUse own
  have known : ∀ n ∈ met targets (Flow.inForce r s.id) s, n ∈ names.used := fun n => mem_used_of_met inUse own
  have whole := replaces_of_reshaped (settled.mono kept) shape
  have given : ∀ n ∈ packed targets (Flow.inForce r s.id) s',
      defined n ∧ n ∈ s.demands (packing targets (Flow.inForce r)) := by
    intro n here
    have packs := packed_reshaped shape same known n here
    exact ⟨earlier n (mem_before_of_packed packs), demands_covers.1 n packs⟩
  dsimp only
  rw [shape.id]
  refine (leads_bundle targets _ s').imp fun out most bundled => ?_
  obtain ⟨later, replaces⟩ := bundled.replaces whole.toStands given (opened_reshaped shape same known opened)
  have done := whole.trans kept replaces
  exact ⟨later, ⟨done.toStands.wider fun n held => ⟨held.1, mem_demandsAll_single.mpr held.2⟩, done.defines, done.filled⟩,
    done.kept, done.drawn⟩

theorem leads_edit (distinct : f.ids.Nodup) (checked : f.check = .ok ()) (opening : Opening targets f) :
    Leads (.ofFunc f) (edit targets f) fun g _ => g.check = .ok () := by
  obtain ⟨_, _, r, analysed⟩ := WellFormed.check_ok.mp checked
  rw [Opening, analysed] at opening
  refine leads_bind (leads_lift analysed ?_)
  refine (Rebuild.leads_onFunc (rewrites_hooks targets r) rows_bundled (steps targets r) distinct checked analysed
    opening).imp ?_
  rintro _ more ⟨b, rfl, replaces⟩
  have stands : Stmt.Stands more.used f.Inputs b.stmts := replaces.toStands.wider fun n held => held.1
  exact Func.check_of_serves checked ⟨stands, replaces.defines, replaces.filled⟩

theorem opening_of_loops (off : targets.branches = false) (checked : f.check = .ok ()) : Opening targets f := by
  obtain ⟨_, _, r, analysed⟩ := WellFormed.check_ok.mp checked
  rw [Opening, analysed]
  intro s mem arm inside n here
  cases s with
  | when | branch =>
    have on := (met_of_meeting rfl (List.ne_nil_of_mem here)).1
    rw [off] at on
    cases on
  | _ => cases inside

/-- Bundling succeeds on a well-formed function with distinct identities if, where branches are changed, every arm gives
a value to those of the names that meet behind it and that it assigns before it asks for one of them. -/
theorem succeeds_bundling (targets : BundleTargets) (cfg : Config) (f : Func) (session : Session)
    (distinct : f.ids.Nodup) (checked : f.check = .ok ()) (opening : targets.branches = true → Opening targets f) :
    (Pass.bundling targets).Succeeds cfg f session := by
  refine Pass.succeeds_of_leads (leads_edit distinct checked ?_) cfg session
  cases on : targets.branches with
  | true => exact opening on
  | false => exact opening_of_loops on checked

open Sample in
/-- Carries three names through a loop, two of which meet in a branch that opens them and in another loop. -/
def carrying : Func :=
  func ["x", "ys"] [] [
    set 10 "a" (int 11 0),
    set 12 "b" (int 13 1),
    set 14 "s" (int 15 0),
    .loop (node 16) (less 17 (var 18 "s") (var 19 "x")) ⟨⟨20⟩, [
      .when (node 21) (less 22 (var 23 "a") (var 24 "b")) ⟨⟨25⟩, [
        set 26 "a" (add 27 (var 28 "s") (int 29 1)),
        set 30 "b" (add 31 (var 32 "a") (var 33 "x"))]⟩,
      .each (node 34) (.name (name "y")) (var 35 "ys") ⟨⟨36⟩, [
        set 37 "b" (add 38 (var 39 "b") (var 40 "y")),
        set 41 "s" (add 42 (var 43 "s") (var 44 "b"))]⟩,
      set 45 "s" (add 46 (var 47 "s") (int 48 1))]⟩,
    .ret (node 49) (add 50 (var 51 "a") (var 52 "b"))]

theorem succeeds_bundling_carrying : carrying.ids.Nodup ∧ carrying.check = .ok () ∧ Opening {} carrying ∧
    (Reaching.ofFunc carrying).toOption.map (fun r => (carrying.body.all.map fun s =>
      (met {} (Flow.inForce r s.id) s).length).filter (0 < ·)) = some [3, 2, 2] ∧
    (Pass.bundling {}).Succeeds {} carrying { next := 60 } := by
  have distinct : carrying.ids.Nodup := by decide
  have checked : carrying.check = .ok () := by decide +kernel
  have opening : Opening {} carrying := by decide +kernel
  exact ⟨distinct, checked, opening, by decide +kernel,
    succeeds_bundling {} {} carrying { next := 60 } distinct checked fun _ => opening⟩

open Sample in
/-- Changes two names where a test holds, one of them by its own value. -/
def updating : Func :=
  func ["c", "a", "b"] [] [
    .when (node 10) (var 11 "c") ⟨⟨12⟩, [set 13 "a" (add 14 (var 15 "a") (int 16 1)), set 17 "b" (int 18 2)]⟩,
    .ret (node 19) (add 20 (var 21 "a") (var 22 "b"))]

/-- Where an arm reads a name that meets behind it before it gives it a value, bundling may fail: under its new name the
name has none. -/
theorem run_bundling_updating : updating.ids.Nodup ∧ updating.check = .ok () ∧ ¬ Opening {} updating ∧
    (((Pass.bundling {}).run {} updating).run { next := 30 }).1.toOption.isNone = true := by
  decide +kernel

end Bundling

end NumLang
