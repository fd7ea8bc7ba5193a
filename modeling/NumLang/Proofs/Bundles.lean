import NumLang.Pass.Bundling
import NumLang.Proofs.Refitting

/-!
Bundles: how names are packed into a tuple and taken from it again, which names meet in a statement, and what must be
defined before it when those are packed.
-/

namespace NumLang

/-! ### What must be defined -/

mutual

/-- The names that must be defined before a statement if some more are packed before it and before those in it. -/
def Stmt.demands (packed : Stmt → NameSet) : Stmt → NameSet
  | .when node test body => packed (.when node test body) ∪ (test.uses ∪ body.demands packed)
  | .loop node test body => packed (.loop node test body) ∪ (test.uses ∪ body.demands packed)
  | .branch node test ift iff =>
    packed (.branch node test ift iff) ∪ (test.uses ∪ ift.demands packed ∪ iff.demands packed)
  | .each node target iterable body =>
    packed (.each node target iterable body) ∪ (iterable.uses ∪ (body.demands packed \ OrdSet.ofList target.names))
  | .scope node name ctx body =>
    packed (.scope node name ctx body) ∪ (ctx.uses ∪ (body.demands packed \ OrdSet.ofList name.toList))
  | s@(.assign ..) | s@(.store ..) | s@(.assert ..) | s@(.effect ..) | s@(.ret ..) | s@(.skip ..) => packed s ∪ s.needs

def Block.demands (packed : Stmt → NameSet) : Block → NameSet
  | ⟨_, stmts⟩ => Stmt.demandsAll packed stmts

def Stmt.demandsAll (packed : Stmt → NameSet) : List Stmt → NameSet
  | [] => ∅
  | s :: rest => s.demands packed ∪ (Stmt.demandsAll packed rest \ s.defines)

end

theorem Block.demands_eq (b : Block) : b.demands packed = Stmt.demandsAll packed b.stmts := by
  cases b
  rfl

namespace Stmt

variable {s : Stmt}

theorem demands_eq : s.demands packed = packed s ∪ s.asks (Block.demands packed) := by
  cases s <;> rfl

theorem mem_demandsAll_cons : n ∈ demandsAll packed (s :: rest) ↔
    n ∈ demandsAll packed [s] ∨ n ∈ demandsAll packed rest ∧ n ∉ s.defines := by
  simp [demandsAll]

@[simp] theorem mem_demandsAll_single : n ∈ demandsAll packed [s] ↔ n ∈ s.demands packed := by simp [demandsAll]

theorem demands_covers : (∀ n ∈ packed s, n ∈ s.demands packed) ∧ (∀ n ∈ s.reads, n ∈ s.demands packed) ∧
    (∀ e ∈ s.exprs, ∀ n ∈ e.uses, n ∈ s.demands packed) ∧
    ∀ b ∈ s.blocks, ∀ n ∈ demandsAll packed b.stmts, s.inside (· ∈ s.demands packed) n := by
  have own := (@asks_iff (· ∈ s.demands packed) s (Block.demands packed)).mp fun n asked => by
    rw [demands_eq]
    exact mem_union.mpr (.inr asked)
  simp only [Block.demands_eq] at own
  refine ⟨fun n here => ?_, own⟩
  rw [demands_eq]
  exact mem_union.mpr (.inl here)

end Stmt

/-! ### Renaming -/

mutual

theorem Stmt.copy_rename (ρ : Name → Name) : (s : Stmt) → s.Copy ρ (s.rename ρ)
  | .assign _ _ _ value | .effect _ value | .ret _ value => ⟨_, _, rfl, value.copy_rename ρ⟩
  | .store _ _ path value => ⟨_, _, _, rfl, Expr.copyAll_rename ρ path, value.copy_rename ρ⟩
  | .when _ test body | .loop _ test body | .each _ _ test body | .scope _ _ test body =>
    ⟨_, _, _, rfl, test.copy_rename ρ, Block.copy_rename ρ body⟩
  | .branch _ test ift iff => ⟨_, _, _, _, rfl, test.copy_rename ρ, Block.copy_rename ρ ift, Block.copy_rename ρ iff⟩
  | .assert _ test msg => ⟨_, _, _, rfl, test.copy_rename ρ, Expr.copyOption_rename ρ msg⟩
  | .skip _ => ⟨_, rfl⟩

theorem Block.copy_rename (ρ : Name → Name) : (b : Block) → b.Copy ρ (b.rename ρ)
  | ⟨_, stmts⟩ => Stmt.copyAll_rename ρ stmts

theorem Stmt.copyAll_rename (ρ : Name → Name) : (stmts : List Stmt) → Stmt.CopyAll ρ stmts (Stmt.renameAll ρ stmts)
  | [] => rfl
  | s :: rest => ⟨_, _, rfl, Stmt.copy_rename ρ s, Stmt.copyAll_rename ρ rest⟩

end

theorem Stmt.mem_bindsAll_copy (copy : CopyAll ρ stmts stmts') :
    x ∈ bindsAll stmts' ↔ ∃ n ∈ bindsAll stmts, ρ n = x := by
  induction stmts using byBlocks generalizing stmts' with
  | nil =>
    cases copy
    simp [bindsAll, allOf]
  | cons s rest first others =>
    obtain ⟨s', rest', rfl, head, tail⟩ := copyAll_cons.mp copy
    have single := first (copyAll_single.mpr ⟨s', rfl, head⟩)
    rw [← singleton_append, bindsAll_append, ← @singleton_append _ s, bindsAll_append]
    simp only [mem_append, single, others tail, or_and_right, exists_or]
  | step s inner =>
    obtain ⟨s', rfl, head⟩ := copyAll_single.mp copy
    simp only [mem_bindsAll_single, head.alike.binds, mem_map, or_and_right, exists_or]
    refine or_congr Iff.rfl ⟨?_, ?_⟩
    · rintro ⟨b', listed, bound⟩
      obtain ⟨b, mem, block⟩ := exists_of_forall₂ head.alike.blocks b' listed
      obtain ⟨n, here, same⟩ := (inner b mem (copyAll_block block)).mp bound
      exact ⟨n, ⟨b, mem, here⟩, same⟩
    · rintro ⟨n, ⟨b, mem, here⟩, same⟩
      obtain ⟨b', listed, block⟩ := exists_of_forall₂ head.alike.blocks.flip b mem
      exact ⟨b', listed, (inner b mem (copyAll_block block)).mpr ⟨n, here, same⟩⟩

namespace Bundling

open Edit Stmt

/-! ### Which names meet -/

/-- The names that meet in a statement, if it is one that may be changed. -/
def meeting (targets : BundleTargets) (before : NameSet) : Stmt → List Name
  | .loop _ _ body => if targets.loops then carried body before else []
  | .each _ target _ body => if targets.each && !target.names.any (· ∈ before) then carried body before else []
  | .when _ _ body => if targets.branches then carried body before else []
  | .branch _ _ ift iff => if targets.branches then merged ift iff before else []
  | _ => []

/-- The names that are bundled in a statement: those that meet there, if they are more than one. -/
def met (targets : BundleTargets) (before : NameSet) (s : Stmt) : List Name :=
  if (meeting targets before s).length < 2 then [] else meeting targets before s

/-- The names that are packed before a statement, or in an arm of a branch that leaves them as they are. -/
def packed (targets : BundleTargets) (before : NameSet) (s : Stmt) : NameSet :=
  match s with
  | .branch _ _ ift iff =>
    OrdSet.ofList ((met targets before s).filter fun n => !(n ∈ ift.assigned && n ∈ iff.assigned))
  | _ => OrdSet.ofList (met targets before s)

def Opens (asked : Block → NameSet) (names : List Name) (arm : Block) : Prop :=
  ∀ n ∈ names, n ∈ arm.assigned → n ∈ arm.defines ∧ n ∉ asked arm

instance (asked : Block → NameSet) (names : List Name) (arm : Block) : Decidable (Opens asked names arm) :=
  inferInstanceAs (Decidable (∀ n ∈ names, n ∈ arm.assigned → n ∈ arm.defines ∧ n ∉ asked arm))

def arms : Stmt → List Block
  | .when _ _ body => [body]
  | .branch _ _ ift iff => [ift, iff]
  | _ => []

def Opened (targets : BundleTargets) (before : NameSet) (asked : Block → NameSet) (s : Stmt) : Prop :=
  ∀ arm ∈ arms s, Opens asked (met targets before s) arm

instance (targets : BundleTargets) (before : NameSet) (asked : Block → NameSet) (s : Stmt) :
    Decidable (Opened targets before asked s) :=
  inferInstanceAs (Decidable (∀ arm ∈ arms s, Opens asked (met targets before s) arm))

section Met

variable {body ift iff : Block}

theorem nodup_meeting (s : Stmt) : (meeting targets before s).Nodup := by
  cases s with
  | loop | each | when =>
    rw [meeting]
    split
    · exact OrdSet.nodup_toList _
    · exact List.nodup_nil
  | branch =>
    rw [meeting]
    split
    · exact (OrdSet.nodup_toList _).filter _
    · exact List.nodup_nil
  | _ => exact List.nodup_nil

theorem nodup_met (s : Stmt) : (met targets before s).Nodup := by
  unfold met
  split
  · exact List.nodup_nil
  · exact nodup_meeting s

theorem met_eq (some : met targets before s ≠ []) : met targets before s = meeting targets before s ∧
    2 ≤ (meeting targets before s).length := by
  unfold met at some ⊢
  split at some
  · exact absurd rfl some
  · rename_i several
    exact ⟨if_neg several, Nat.le_of_not_lt several⟩

theorem mem_carried : n ∈ carried body before ↔ n ∈ body.assigned ∧ n ∈ before := mem_inter

theorem mem_merged : n ∈ merged ift iff before ↔ (n ∈ ift.assigned ∨ n ∈ iff.assigned) ∧
    (n ∈ before ∨ n ∈ ift.assigned ∧ n ∈ iff.assigned) := by
  rw [merged, mem_filter, ← OrdSet.mem_def, mem_union]
  simp

theorem short_of_met (none : met targets before s = []) : (meeting targets before s).length < 2 := by
  unfold met at none
  split at none
  · assumption
  · rw [none]
    decide

theorem bundle_of_met (none : met targets before s = []) : bundle targets before s = pure [s] := by
  have short := short_of_met none
  cases s with
  | loop | each | when | branch =>
    rw [meeting] at short
    rw [bundle]
    refine if_pos ?_
    grind
  | _ => rfl

theorem met_of_meeting {ns : List Name} (same : meeting targets before s = if on then ns else [])
    (some : met targets before s ≠ []) : on = true ∧ met targets before s = ns ∧ 2 ≤ ns.length := by
  obtain ⟨found, several⟩ := met_eq some
  rw [found]
  rw [same] at several ⊢
  split at several
  · rename_i targeted
    exact ⟨targeted, if_pos targeted, several⟩
  · cases several

end Met

/-! ### Packing -/

variable {names : NameSupply} {bundle : Name} {ns : List Name} {st : Stmt}

/-- An assignment of the values of names to the bundle. -/
inductive Packs (bundle : Name) (ns : List Name) : Stmt → Prop where
  | intro {node node' elts} (each : Forall₂ (fun n e => ∃ node, e = .var node n) ns elts) :
    Packs bundle ns (.assign node (.name bundle) none (.tuple node' elts))

/-- An assignment from the bundle to names. -/
inductive Unpacks (ns : List Name) (bundle : Name) : Stmt → Prop where
  | intro {node node'} : Unpacks ns bundle (.assign node (.tuple (ns.map .name)) none (.var node' bundle))

variable {test test' : Expr} {b : Block} {more : NameSupply}

theorem leads_vars {post : List Expr → NameSupply → Prop}
    (here : ∀ elts, Forall₂ (fun n e => ∃ node, e = .var node n) ns elts → post elts names) :
    Leads names (ns.mapM Edit.var) post := by
  induction ns generalizing post with
  | nil => exact leads_pure (here [] .nil)
  | cons n rest ih =>
    rw [mapM_cons]
    refine leads_bind (leads_var fun node => leads_bind (ih fun elts each => ?_))
    exact leads_pure (here _ (.cons ⟨node, rfl⟩ each))

theorem leads_pack (here : ∀ st, Packs bundle ns st → post st names) : Leads names (pack bundle ns) post :=
  leads_bind (leads_vars fun _ each => leads_bind (leads_node fun _ => leads_assign fun _ => here _ (.intro each)))

theorem leads_unpack (here : ∀ st, Unpacks ns bundle st → post st names) : Leads names (unpack ns bundle) post :=
  leads_bind (leads_var fun _ => leads_assign fun _ => here _ .intro)

theorem namesAll_map_name (ns : List Name) : Binder.namesAll (ns.map .name) = ns := by
  induction ns with
  | nil => rfl
  | cons n rest ih => rw [map_cons, Binder.namesAll, ih, Binder.names, singleton_append]

namespace Packs

variable (packs : Packs bundle ns st)

include packs

theorem stands (plain : bundle.IsPlain) (known : bundle ∈ used) (held : ∀ n ∈ ns, n ∈ used ∧ defined n) :
    Stands used defined [st] := by
  obtain ⟨each⟩ := packs
  refine stands_set plain known (Expr.stands_of_children rfl trivial fun part listed => ?_)
  obtain ⟨n, mem, node, rfl⟩ := exists_of_forall₂ each part listed
  exact Expr.stands_var (held n mem).2 (held n mem).1

theorem defines : n ∈ st.defines ↔ n = bundle := by
  obtain ⟨each⟩ := packs
  exact mem_ofList.trans mem_singleton

theorem binds : n ∈ bindsAll [st] ↔ n = bundle := by
  obtain ⟨each⟩ := packs
  simp [mem_bindsAll_single, Stmt.binds, Stmt.blocks, Binder.names]

end Packs

namespace Unpacks

variable (unpacks : Unpacks ns bundle st)

include unpacks

variable {n : Name}

theorem stands (bound : ∀ n ∈ ns, n.IsPlain ∧ n ∈ used) (distinct : ns.Nodup) (known : bundle ∈ used)
    (held : defined bundle) : Stands used defined [st] := by
  obtain ⟨⟩ := unpacks
  refine stands_assign ?_ ?_ (Binder.fits_wildcard _) (Expr.stands_var held known)
  · rwa [Binder.names, namesAll_map_name]
  · rwa [Binder.names, namesAll_map_name]

theorem defines : n ∈ st.defines ↔ n ∈ ns := by
  obtain ⟨⟩ := unpacks
  rw [Stmt.defines, mem_ofList, Binder.names, namesAll_map_name]

theorem binds : n ∈ bindsAll [st] ↔ n ∈ ns := by
  obtain ⟨⟩ := unpacks
  simp [mem_bindsAll_single, Stmt.binds, Stmt.blocks, Binder.names, namesAll_map_name]

end Unpacks

/-! ### Projecting -/

theorem refits_project : Rebuild.Refits Edit.logic (project bundle ns) (fun names more => more = names) (fun _ => True)
    (fun _ e e' => e.Draws (· = bundle) (· = bundle) e' ∧ ∀ n ∈ e'.vars, n ∈ e.vars ∨ n = bundle) where
  refl _ := rfl
  trans first second := second.trans first
  mono _ projected := projected
  name _ := rfl
  expr := by
    intro names e usual _ inner
    have stays : Edit.logic.leads names usual fun e' more => more = names ∧
        e.Draws (· = bundle) (· = bundle) e' ∧ ∀ n ∈ e'.vars, n ∈ e.vars ∨ n = bundle :=
      Edit.logic.imp (inner fun _ _ => trivial) fun e' more ⟨same, refit⟩ =>
        ⟨same, (refit.imp fun _ _ part => part.1).draws, refit.vars fun _ _ part => part.2⟩
    simp only [project]
    split
    · split
      · rename_i i _
        refine leads_logic.mpr (leads_bind (leads_var fun node => leads_bind (leads_lit fun node' => ?_)))
        refine leads_bind (leads_node fun node'' => ?_)
        have reads : (Expr.index node'' (.var node bundle) (.lit node' (.integer i))).Stands (OrdSet.singleton bundle)
            (· = bundle) := by
          refine Expr.stands_of_children rfl trivial (forall_mem_cons.mpr ⟨?_, forall_mem_singleton.mpr ?_⟩)
          · exact Expr.stands_var rfl (OrdSet.mem_singleton.mpr rfl)
          · exact Expr.stands_lit
        refine leads_pure ⟨rfl, ⟨⟨fun _ => reads.made, fun n used => .inr (reads.uses n used), rfl⟩, fun n here => .inr ?_⟩,
          fun n read => .inr (mem_singleton.mp read)⟩
        exact OrdSet.mem_singleton.mp (reads.known n here)
      · exact stays
    · exact stays

def Projected (bundle : Name) (ns : List Name) (test test' : Expr) : Prop :=
  ∃ s t, Makes ((project bundle ns).onExpr test) s test' t

theorem leads_project {post : Expr → NameSupply → Prop}
    (here : ∀ test', Projected bundle ns test test' → post test' names) :
    Leads names ((project bundle ns).onExpr test) post := by
  rintro s rfl
  obtain ⟨test', t, made, same, _⟩ := Rebuild.leads_onExpr (@refits_project bundle ns) test trivial s rfl
  exact ⟨test', t, made, same ▸ here test' ⟨s, t, made⟩⟩

theorem Projected.stands (projected : Projected bundle ns test test')
    (stands : test.Stands used defined) (known : bundle ∈ used) : test'.Stands used fun n => defined n ∨ n = bundle := by
  obtain ⟨s, t, made⟩ := projected
  obtain ⟨_, _, made', _, draws, _⟩ := Rebuild.leads_onExpr (@refits_project bundle ns) test trivial s rfl
  cases made.symm.trans made'
  exact draws.stands stands (fun _ used => used) fun _ same => same ▸ known

theorem Projected.vars (projected : Projected bundle ns test test') : ∀ n ∈ test'.vars, n ∈ test.vars ∨ n = bundle := by
  obtain ⟨s, t, made⟩ := projected
  obtain ⟨_, _, made', _, _, reads⟩ := Rebuild.leads_onExpr (@refits_project bundle ns) test trivial s rfl
  cases made.symm.trans made'
  exact reads

/-! ### Renaming arms -/

/-- A renaming that gives new names to those of some names that a block assigns. -/
structure Renamed (old new : NameSet) (ns : List Name) (b : Block) (ρ : Name → Name) : Prop where
  renames : Renames (· ∈ old) ρ
  taken : ∀ n ∈ old, ρ n ∈ new
  fresh : ∀ n ∈ ns, n ∈ b.assigned → ρ n ∉ old
  others : ∀ n, ¬ (n ∈ ns ∧ n ∈ b.assigned) → ρ n = n

theorem leads_renameArm {post : List Name × Block → NameSupply → Prop}
    (here : ∀ ρ more, Retains names more → Renamed names.used more.used ns b ρ → post (ns.map ρ, b.rename ρ) more) :
    Leads names (renameArm ns b) post := by
  refine leads_bind (leads_refreshNames (.empty _ _) NameMap.spelled_empty (fun _ here => here) ?_)
  intro table more fresh spelled kept drawn others
  refine leads_pure (here _ more kept ⟨fresh.renames spelled, fun n known => fresh.toRenaming_mem kept known, ?_, ?_⟩)
  · intro n listed assigned
    obtain ⟨x, found, new⟩ := drawn n (mem_filter.mpr ⟨listed, decide_eq_true assigned⟩)
    rwa [NameMap.toRenaming, found]
  · intro n apart
    rw [NameMap.toRenaming, others n fun mem => apart ?_]
    · rfl
    · obtain ⟨listed, assigned⟩ := mem_filter.mp mem
      exact ⟨listed, of_decide_eq_true assigned⟩

/-! ### Bundling -/

/-- A bundle that is drawn while some names are in use. -/
structure Drawn (names more : NameSupply) (bundle : Name) : Prop where
  plain : bundle.IsPlain
  new : bundle ∉ names.used
  there : bundle ∈ more.used
  kept : Retains names more

theorem leads_bundleName {post : Name → NameSupply → Prop}
    (here : ∀ bundle more, Drawn names more bundle → post bundle more) : Leads names (freshName "b") post := by
  refine leads_freshName fun bundle more spelled new grows => here bundle more ⟨?_, new, ?_, fun n known => ?_⟩
  · simp [Name.IsPlain, spelled]
  · exact (grows bundle).mpr (.inl rfl)
  · exact (grows n).mpr (.inr known)

/-- An arm of a branch with new names, which are packed at its end. -/
inductive Arm (names more : NameSupply) (bundle : Name) (ns : List Name) (b : Block) : Block → Prop where
  | intro {ρ last} (kept : Retains names more) (renamed : Renamed names.used more.used ns b ρ)
    (packs : Packs bundle (ns.map ρ) last) : Arm names more bundle ns b (append (b.rename ρ) last)

/-- The body of a loop with new names, which are taken from the bundle at its start and packed at its end. -/
inductive Turn (names more : NameSupply) (bundle : Name) (ns : List Name) (b : Block) : Block → Prop where
  | intro {ρ first last} (kept : Retains names more) (renamed : Renamed names.used more.used ns b ρ)
    (unpacks : Unpacks (ns.map ρ) bundle first) (packs : Packs bundle (ns.map ρ) last) :
    Turn names more bundle ns b { b.rename ρ with stmts := first :: (b.rename ρ).stmts ++ [last] }

theorem Turn.kept (turn : Turn names more bundle ns b b') : Retains names more := by
  obtain ⟨kept, _, _, _⟩ := turn
  exact kept

theorem Arm.kept (arm : Arm names more bundle ns b b') : Retains names more := by
  obtain ⟨kept, _, _⟩ := arm
  exact kept

theorem leads_loopBody {inner : List Name} {post : Block → NameSupply → Prop}
    (here : ∀ first last, Unpacks inner bundle first → Packs bundle inner last →
      post { b with stmts := first :: b.stmts ++ [last] } names) : Leads names (loopBody bundle inner b) post :=
  leads_bind (leads_unpack fun _ unpacks => leads_bind (leads_pack fun _ packs => leads_pure (here _ _ unpacks packs)))

theorem leads_enclose {post : List Stmt → NameSupply → Prop}
    (here : ∀ front back, Packs bundle ns front → Unpacks ns bundle back → post [front, s, back] names) :
    Leads names (enclose ns bundle s) post :=
  leads_bind (leads_note (leads_bind (leads_pack fun _ packs => leads_bind (leads_unpack fun _ unpacks =>
    leads_pure (here _ _ packs unpacks)))))

/-- What a statement becomes when the names that meet in it are bundled. -/
inductive Bundled (targets : BundleTargets) (before : NameSet) (names : NameSupply) :
    NameSupply → Stmt → List Stmt → Prop where
  | stays {s} (none : met targets before s = []) : Bundled targets before names names s [s]
  | loop {more mid bundle node test test' body body' front back}
    (some : met targets before (.loop node test body) ≠ []) (drawn : Drawn names mid bundle)
    (turn : Turn mid more bundle (carried body before) body body')
    (projected : Projected bundle (carried body before) test test') (packs : Packs bundle (carried body before) front)
    (unpacks : Unpacks (carried body before) bundle back) :
    Bundled targets before names more (.loop node test body) [front, .loop node test' body', back]
  | each {more mid bundle node target iterable body body' front back}
    (some : met targets before (.each node target iterable body) ≠ []) (drawn : Drawn names mid bundle)
    (turn : Turn mid more bundle (carried body before) body body') (packs : Packs bundle (carried body before) front)
    (unpacks : Unpacks (carried body before) bundle back) :
    Bundled targets before names more (.each node target iterable body) [front, .each node target iterable body', back]
  | when {more mid bundle node test body body' front back}
    (some : met targets before (.when node test body) ≠ []) (drawn : Drawn names mid bundle)
    (arm : Arm mid more bundle (carried body before) body body') (packs : Packs bundle (carried body before) front)
    (unpacks : Unpacks (carried body before) bundle back) :
    Bundled targets before names more (.when node test body) [front, .when node test body', back]
  | branch {more mid next bundle node test ift ift' iff iff' back}
    (some : met targets before (.branch node test ift iff) ≠ []) (drawn : Drawn names mid bundle)
    (left : Arm mid next bundle (merged ift iff before) ift ift')
    (right : Arm next more bundle (merged ift iff before) iff iff') (unpacks : Unpacks (merged ift iff before) bundle back) :
    Bundled targets before names more (.branch node test ift iff) [.branch node test ift' iff', back]

theorem leads_bundle (targets : BundleTargets) (before : NameSet) (s : Stmt) :
    Leads names (Bundling.bundle targets before s) fun out more => Bundled targets before names more s out := by
  by_cases some : met targets before s = []
  · rw [bundle_of_met some]
    exact leads_pure (.stays some)
  · cases s with
    | loop node test body =>
      obtain ⟨on, _, several⟩ := met_of_meeting rfl some
      rw [Bundling.bundle, if_neg (by simp [on]; omega)]
      refine leads_bind (leads_bundleName fun bundle mid drawn => ?_)
      refine leads_bind (leads_renameArm fun ρ more kept renamed => ?_)
      refine leads_bind (leads_project fun test' projected => ?_)
      refine leads_bind (leads_loopBody fun first last unpacks packs => ?_)
      refine leads_enclose fun front back packs' unpacks' => ?_
      exact .loop some drawn (.intro kept renamed unpacks packs) projected packs' unpacks'
    | each node target iterable body =>
      obtain ⟨on, _, several⟩ := met_of_meeting rfl some
      rw [Bundling.bundle, if_neg (by simp only [Bool.and_eq_true, Bool.not_eq_true'] at on; simp [on]; omega)]
      refine leads_bind (leads_bundleName fun bundle mid drawn => ?_)
      refine leads_bind (leads_renameArm fun ρ more kept renamed => ?_)
      refine leads_bind (leads_loopBody fun first last unpacks packs => ?_)
      refine leads_enclose fun front back packs' unpacks' => ?_
      exact .each some drawn (.intro kept renamed unpacks packs) packs' unpacks'
    | when node test body =>
      obtain ⟨on, _, several⟩ := met_of_meeting rfl some
      rw [Bundling.bundle, if_neg (by simp [on]; omega)]
      refine leads_bind (leads_bundleName fun bundle mid drawn => ?_)
      refine leads_bind (leads_renameArm fun ρ more kept renamed => leads_bind (leads_pack fun last packs => ?_))
      refine leads_enclose fun front back packs' unpacks' => ?_
      exact .when some drawn (.intro kept renamed packs) packs' unpacks'
    | branch node test ift iff =>
      obtain ⟨on, _, several⟩ := met_of_meeting rfl some
      rw [Bundling.bundle, if_neg (by simp [on]; omega)]
      refine leads_bind (leads_bundleName fun bundle mid drawn => ?_)
      refine leads_bind (leads_renameArm fun ρ next kept renamed => ?_)
      refine leads_bind (leads_renameArm fun ρ' more kept' renamed' => ?_)
      refine leads_bind (leads_pack fun last packs => leads_bind (leads_pack fun last' packs' => ?_))
      refine leads_bind (leads_note (leads_bind (leads_unpack fun back unpacks => leads_pure ?_)))
      exact .branch some drawn (.intro kept renamed packs) (.intro kept' renamed' packs') unpacks
    | _ => exact absurd rfl some

theorem rewrites_hooks (targets : BundleTargets) (r : Reaching) :
    (hooks targets r).Rewrites fun s => Bundling.bundle targets (Flow.inForce r s.id) s where
  name _ := rfl
  expr _ _ := rfl
  block _ _ := rfl
  stmt _ _ := rfl

end Bundling

end NumLang
