import NumLang.Proofs.UnrollingSound
import NumLang.Proofs.Upkeep

/-!
Unrolling does not fail.
-/

namespace NumLang

namespace Unrolling

open Edit Stmt

variable {names : NameSupply} {defined wider : Name → Prop} {list index length : Name}

/-- An expression that may stand wherever some names are defined, and is not written as a tuple. -/
structure Reads (read : List Name) (e : Expr) : Prop where
  stands : ∀ {used : NameSet} {defined : Name → Prop}, (∀ n ∈ read, n ∈ used ∧ defined n) → e.Stands used defined
  layout : e.layout = .wildcard

theorem leads_element (here : ∀ e, Reads [list, index] e → post e names) :
    Leads names (element list index offset) post := by
  rw [element_eq]
  refine leads_bind (leads_var fun node => ?_)
  have position : Leads names (if offset = 0 then pure (Expr.var node index) else do
      let offset ← Edit.nat offset
      pure (Expr.binary (← Edit.node) .add none (Expr.var node index) offset) : Edit Expr)
      fun e more => more = names ∧ ∀ {used : NameSet} {defined : Name → Prop}, index ∈ used → defined index →
        e.Stands used defined := by
    split
    · exact leads_pure ⟨rfl, fun known held => Expr.stands_var held known⟩
    · refine leads_bind (leads_lit fun _ => leads_bind (leads_node fun _ => leads_pure ⟨rfl, fun known held => ?_⟩))
      refine Expr.stands_of_children rfl trivial fun part mem => ?_
      rcases mem_cons.mp mem with rfl | mem
      · exact Expr.stands_var held known
      · cases mem_singleton.mp mem
        exact Expr.stands_lit
  refine leads_bind (position.imp ?_)
  rintro position _ ⟨rfl, stands⟩
  refine leads_bind (leads_var fun _ => leads_bind (leads_node fun _ => leads_pure (here _ ⟨fun held => ?_, rfl⟩)))
  obtain ⟨listed, indexed⟩ := forall_mem_cons.mp held
  obtain ⟨indexed, _⟩ := forall_mem_cons.mp indexed
  refine Expr.stands_of_children rfl trivial fun part mem => ?_
  rcases mem_cons.mp mem with rfl | mem
  · exact Expr.stands_var listed.2 listed.1
  · cases mem_singleton.mp mem
    exact stands indexed.1 indexed.2

/-- A body that may be gone through for the elements of a list. -/
structure Repeatable (used : NameSet) (defined : Name → Prop) (target : Binder) (body : Block) : Prop where
  names : ∀ n ∈ target.names, n.IsPlain ∧ n ∈ used
  distinct : target.names.Nodup
  stands : Stands used (fun n => n ∈ target.names ∨ defined n) body.stmts

/-- A copy of the body for one element stands where the list and the index are defined. -/
theorem leads_copy {r : Reaching} {site : NodeId} {target : Binder} {body : Block} {offset : Nat}
    (repeats : Repeatable names.used defined target body) (more : ∀ n, defined n → wider n)
    (held : ∀ n ∈ [list, index], n ∈ names.used ∧ wider n) : Leads names (copy r site target body list index offset) fun
    out less => Retains names less ∧ out ≠ [] ∧ Stands less.used wider out := by
  rw [copy_eq]
  have tabled : Leads names (if target.names.any fun n => (r.reaching? site n).isSome then pure ∅
      else refreshNames ∅ target.names : Edit (NameMap Name)) fun table less => Retains names less ∧
        table.Fresh (· ∈ names.used) less.state ∧ table.Spelled ∧ ∀ n ∉ target.names, table.get? n = none := by
    split
    · exact leads_pure ⟨.refl names, .empty _ _, NameMap.spelled_empty, fun _ _ => rfl⟩
    · refine leads_refreshNames (.empty _ _) NameMap.spelled_empty (fun _ here => here) ?_
      exact fun table less fresh spelled kept _ others => ⟨kept, fresh, spelled, others⟩
  refine leads_bind (tabled.imp ?_)
  rintro table less ⟨kept, fresh, spelled, others⟩
  have renames := fresh.renames spelled
  have taken : ∀ n ∈ names.used, table.toRenaming n ∈ less.used := fun n here => fresh.toRenaming_mem kept here
  refine leads_bind (leads_element fun e reads => leads_bind (leads_assign fun node => ?_))
  refine leads_bind (leads_supplied fun next => leads_pure ⟨kept, cons_ne_nil _ _, stands_cons.mpr ⟨?_, ?_⟩⟩)
  · refine stands_assign ?_ ?_ ?_ (reads.stands fun n mem => ⟨kept n (held n mem).1, (held n mem).2⟩)
    · rw [Binder.names_rename]
      intro n mem
      obtain ⟨m, bound, rfl⟩ := mem_map.mp mem
      obtain ⟨plain, known⟩ := repeats.names m bound
      exact ⟨renames.plain m known plain, taken m known⟩
    · rw [Binder.names_rename]
      exact renames.nodup (fun n bound => (repeats.names n bound).2) repeats.distinct
    · rw [reads.layout]
      exact Binder.fits_wildcard _
  · have copied := copyAll_block (Block.copy_refresh table.toRenaming body next)
    refine stands_copy copied repeats.stands renames taken fun n here => ?_
    by_cases bound : n ∈ target.names
    · refine .inr (mem_ofList.mpr ?_)
      rw [Binder.names_rename]
      exact mem_map_of_mem bound
    · rw [NameMap.toRenaming, others n bound, Option.getD_none]
      exact .inl (more n (here.resolve_left bound))

theorem Repeatable.mono {used more : NameSet} {target : Binder} {body : Block}
    (repeats : Repeatable used defined target body) (grows : ∀ n ∈ used, n ∈ more) :
    Repeatable more defined target body :=
  ⟨fun n bound => ⟨(repeats.names n bound).1, grows n (repeats.names n bound).2⟩, repeats.distinct,
    repeats.stands.mono grows⟩

theorem leads_copies {r : Reaching} {site : NodeId} {target : Binder} {body : Block} {offsets : List Nat}
    (repeats : Repeatable names.used defined target body) (more : ∀ n, defined n → wider n)
    (held : ∀ n ∈ [list, index], n ∈ names.used ∧ wider n) : Leads names
    (offsets.mapM fun offset => copy r site target body list index offset) fun copies less => Retains names less ∧
    (offsets ≠ [] → copies.flatten ≠ []) ∧ Stands less.used wider copies.flatten := by
  induction offsets generalizing names with
  | nil => exact leads_pure ⟨.refl names, fun filled => absurd rfl filled, stands_nil _ _⟩
  | cons offset rest ih =>
    rw [mapM_cons]
    refine leads_bind ((leads_copy repeats more held).imp ?_)
    rintro out less ⟨kept, filled, stands⟩
    have later := ih (repeats.mono kept) fun n mem => ⟨kept n (held n mem).1, (held n mem).2⟩
    refine leads_bind (later.imp ?_)
    rintro copies least ⟨kept', _, others⟩
    refine leads_pure ⟨kept.trans kept', fun _ empty => filled (List.append_eq_nil_iff.mp empty).1, ?_⟩
    exact stands_append.mpr ⟨stands.mono kept', others.wider fun _ => .inl⟩

theorem leads_remainder (here : ∀ e, Reads [length] e → post e names) : Leads names (remainder length factor) post := by
  refine leads_bind (leads_var fun _ => leads_bind (leads_lit fun _ => leads_bind (leads_node fun _ => ?_)))
  refine leads_pure (here _ ⟨fun held => Expr.stands_of_children rfl trivial fun part mem => ?_, rfl⟩)
  obtain ⟨known, defined⟩ := held length mem_cons_self
  rcases mem_cons.mp mem with rfl | mem
  · exact Expr.stands_var defined known
  · cases mem_singleton.mp mem
    exact Expr.stands_lit

/-- How far the main loop goes is settled by one statement, and is in a name that is defined after it. -/
theorem leads_bound {k : Unroll} (known : length ∈ names.used) (held : defined length) : Leads names (bound k length)
    fun made less => Retains names less ∧ Stands less.used defined [made.2] ∧ ∃ node limit, made.1 = .var node limit ∧
    limit ∈ less.used ∧ (defined limit ∨ limit ∈ made.2.defines) := by
  unfold bound
  cases k.leftover with
  | strict =>
    refine leads_bind (leads_remainder fun rest reads => leads_bind (leads_lit fun _ => ?_))
    refine leads_bind (leads_node fun _ => leads_bind (leads_node fun _ => leads_bind (leads_var fun node => ?_)))
    refine leads_pure ⟨.refl names, ?_, node, length, rfl, known, .inl held⟩
    refine stands_single.mpr ⟨nofun, nofun,
      forall_mem_singleton.mpr ?_, trivial, nofun⟩
    refine Expr.stands_of_children rfl rfl (forall_mem_cons.mpr ⟨?_, forall_mem_singleton.mpr Expr.stands_lit⟩)
    exact reads.stands (forall_mem_singleton.mpr ⟨known, held⟩)
  | epilogue =>
    refine leads_bind (leads_freshName fun main less spelled _ grows => ?_)
    have kept : Retains names less := fun n here => (grows n).mpr (.inr here)
    have drawn : main ∈ less.used := (grows main).mpr (.inl rfl)
    refine leads_bind (leads_var fun _ => leads_bind (leads_remainder fun rest reads => ?_))
    refine leads_bind (leads_node fun _ => leads_bind (leads_assign fun _ => leads_bind (leads_var fun node => ?_)))
    refine leads_pure ⟨kept, ?_, node, main, rfl, drawn, .inr (mem_ofList.mpr (mem_singleton.mpr rfl))⟩
    refine stands_set (by simp [Name.IsPlain, spelled]) drawn ?_
    refine Expr.stands_of_children rfl trivial (forall_mem_cons.mpr ⟨?_, forall_mem_singleton.mpr ?_⟩)
    · exact Expr.stands_var held (kept length known)
    · exact reads.stands (forall_mem_singleton.mpr ⟨kept length known, held⟩)

theorem stands_positions {used : NameSet} {node : Node} {range : Expr} {b : Block} (plain : index.IsPlain)
    (known : index ∈ used) (range_ : range.Stands used defined) (filled : b.stmts ≠ [])
    (body : Stands used (fun n => n = index ∨ defined n) b.stmts) :
    Stands used defined [.each node (.name index) range b] := by
  refine stands_single.mpr ⟨forall_mem_singleton.mpr ⟨plain, known⟩, nofun,
    forall_mem_singleton.mpr range_, List.nodup_singleton index, forall_mem_singleton.mpr ⟨filled, ?_⟩⟩
  exact body.wider fun n => Or.imp_left mem_singleton.mpr

theorem leads_leftovers {k : Unroll} {r : Reaching} {l : Loop} {limit : Name} {node : Node}
    (repeats : Repeatable names.used defined l.target l.body) (more : ∀ n, defined n → wider n)
    (held : ∀ n ∈ [list, length, limit], n ∈ names.used ∧ wider n) : Leads names
    (leftovers k r l list length (.var node limit)) fun rest less => Retains names less ∧ Stands less.used wider rest :=
    by
  unfold leftovers
  cases k.leftover with
  | strict => exact leads_pure ⟨.refl names, stands_nil _ _⟩
  | epilogue =>
    refine leads_bind (leads_bind (leads_freshName fun index less spelled _ grows => ?_))
    have kept : Retains names less := fun n here => (grows n).mpr (.inr here)
    have drawn : index ∈ less.used := (grows index).mpr (.inl rfl)
    obtain ⟨listed, others⟩ := forall_mem_cons.mp held
    obtain ⟨counted, others⟩ := forall_mem_cons.mp others
    obtain ⟨limited, _⟩ := forall_mem_cons.mp others
    have copied := @leads_copy less defined (fun n => n = index ∨ wider n) list index r l.node.id l.target l.body 0
      (repeats.mono kept) (fun n here => .inr (more n here))
      (forall_mem_cons.mpr ⟨⟨kept list listed.1, .inr listed.2⟩, forall_mem_singleton.mpr ⟨drawn, .inl rfl⟩⟩)
    refine leads_bind (copied.imp ?_)
    rintro stmts least ⟨kept', filled, stands⟩
    refine leads_bind (leads_var fun _ => leads_bind (leads_node fun _ => leads_bind (leads_block fun _ => ?_)))
    refine leads_bind (leads_node fun _ => leads_pure (leads_pure ⟨kept.trans kept', ?_⟩))
    refine stands_positions (by simp [Name.IsPlain, spelled]) (kept' index drawn) ?_ filled stands
    refine Expr.stands_of_children rfl trivial (forall_mem_cons.mpr ⟨?_, forall_mem_singleton.mpr ?_⟩)
    · exact Expr.stands_var limited.2 (kept' _ (kept _ limited.1))
    · exact Expr.stands_var counted.2 (kept' _ (kept _ counted.1))

variable {k : Unroll}

theorem leads_unroll (positive : 0 < k.factor) {r : Reaching} {node : Node} {target : Binder} {iterable : Expr}
    {body : Block} (stands : Stands names.used defined [.each node target iterable body]) :
    Leads names (unroll k r node target iterable body) fun out more => Retains names more ∧
    Serves more.used defined [.each node target iterable body] out := by
  obtain ⟨bound, _, exprs, distinct, inner⟩ := stands_single.mp stands
  have value : iterable.Stands names.used defined := exprs iterable mem_cons_self
  have repeats : Repeatable names.used defined target body := ⟨bound, distinct, (inner body mem_cons_self).2⟩
  rw [unroll_eq k r ⟨node, target, body, []⟩ iterable]
  refine leads_bind (leads_freshName fun list s₁ listSpelled _ grows₁ => ?_)
  refine leads_bind (leads_freshName fun length s₂ lengthSpelled _ grows₂ => ?_)
  refine leads_bind (leads_freshName fun index s₃ indexSpelled _ grows₃ => ?_)
  have kept : Retains names s₃ := fun n here =>
    (grows₃ n).mpr (.inr ((grows₂ n).mpr (.inr ((grows₁ n).mpr (.inr here)))))
  have listKnown : list ∈ s₃.used := (grows₃ list).mpr (.inr ((grows₂ list).mpr (.inr ((grows₁ list).mpr (.inl rfl)))))
  have lengthKnown : length ∈ s₃.used := (grows₃ length).mpr (.inr ((grows₂ length).mpr (.inl rfl)))
  have indexKnown : index ∈ s₃.used := (grows₃ index).mpr (.inl rfl)
  refine leads_bind (leads_assign fun keepNode => leads_bind (leads_node fun _ => leads_bind (leads_var fun _ => ?_)))
  refine leads_bind (leads_assign fun measureNode => ?_)
  -- what is defined after the list and its length have names
  let named : Name → Prop := fun n => (defined n ∨ n ∈ OrdSet.ofList [list]) ∨ n ∈ OrdSet.ofList [length]
  have listNamed : named list := .inl (.inr (mem_ofList.mpr (mem_singleton.mpr rfl)))
  have lengthNamed : named length := .inr (mem_ofList.mpr (mem_singleton.mpr rfl))
  refine leads_bind ((@leads_bound s₃ named length k lengthKnown lengthNamed).imp ?_)
  rintro ⟨stop, check⟩ s₄ ⟨kept₄, checks, limitNode, limit, rfl, limitKnown, limitNamed⟩
  let bounded : Name → Prop := fun n => named n ∨ n ∈ check.defines
  have widens : ∀ n, defined n → bounded n := fun n here => .inl (.inl (.inl here))
  have copied := @leads_copies s₄ defined (fun n => n = index ∨ bounded n) list index r node.id target body
    (List.range k.factor) (repeats.mono (kept.trans kept₄)) (fun n here => .inr (widens n here))
    (forall_mem_cons.mpr ⟨⟨kept₄ list listKnown, .inr (.inl listNamed)⟩,
      forall_mem_singleton.mpr ⟨kept₄ index indexKnown, .inl rfl⟩⟩)
  refine leads_bind (copied.imp ?_)
  rintro copies s₅ ⟨kept₅, filled, rounds⟩
  refine leads_bind (leads_lit fun _ => leads_bind (leads_lit fun _ => leads_bind (leads_node fun _ => ?_)))
  refine leads_bind (leads_node fun _ => leads_bind (leads_block fun _ => ?_))
  have kept' : Retains names s₅ := (kept.trans kept₄).trans kept₅
  have finishes := @leads_leftovers s₅ defined bounded list length k r ⟨node, target, body, []⟩ limit limitNode
    (repeats.mono kept') widens (forall_mem_cons.mpr ⟨⟨kept₅ _ (kept₄ _ listKnown), .inl listNamed⟩,
      forall_mem_cons.mpr ⟨⟨kept₅ _ (kept₄ _ lengthKnown), .inl lengthNamed⟩,
        forall_mem_singleton.mpr ⟨kept₅ _ limitKnown, limitNamed⟩⟩⟩)
  refine leads_bind (finishes.imp ?_)
  rintro rest s₆ ⟨kept₆, leftover⟩
  refine leads_bind (leads_note (leads_pure ⟨kept'.trans kept₆, ⟨?_, nofun, fun _ => ?_⟩⟩))
  · refine stands_cons.mpr ⟨?_, stands_cons.mpr ⟨?_, stands_cons.mpr ⟨?_, stands_cons.mpr ⟨?_, ?_⟩⟩⟩⟩
    · exact stands_set (by simp [Name.IsPlain, listSpelled]) (kept₆ _ (kept₅ _ (kept₄ _ listKnown)))
        (value.mono (kept'.trans kept₆))
    · refine stands_set (by simp [Name.IsPlain, lengthSpelled]) (kept₆ _ (kept₅ _ (kept₄ _ lengthKnown))) ?_
      refine Expr.stands_of_children rfl trivial (forall_mem_singleton.mpr ?_)
      exact Expr.stands_var (.inr (mem_ofList.mpr (mem_singleton.mpr rfl))) (kept₆ _ (kept₅ _ (kept₄ _ listKnown)))
    · exact checks.mono (kept₅.trans kept₆)
    · refine (stands_positions (by simp [Name.IsPlain, indexSpelled]) (kept₅ _ (kept₄ _ indexKnown)) ?_ ?_
        rounds).mono kept₆
      · refine Expr.stands_of_children rfl trivial (forall_mem_cons.mpr ⟨Expr.stands_lit,
          forall_mem_cons.mpr ⟨Expr.stands_var limitNamed (kept₅ _ limitKnown),
            forall_mem_singleton.mpr Expr.stands_lit⟩⟩)
      · exact filled (by simp; omega)
    · exact leftover.wider fun _ => .inl
  · exact cons_ne_nil _ _

theorem leads_rewrite (positive : 0 < k.factor) (selected : List NodeId) (r : Reaching) {s : Stmt}
    (stands : Stands names.used defined [s]) : Leads names (rewrite k selected r s) fun out more => Retains names more ∧
    Serves more.used defined [s] out := by
  rcases rewrite_cases k selected r s with ⟨node, target, iterable, body, rfl, _, unrolls⟩ | stays
  · rw [unrolls]
    exact leads_unroll positive stands
  · rw [stays]
    exact leads_pure ⟨.refl names, stands, fun _ here => here, fun filled => filled⟩

theorem leads_edit (positive : 0 < k.factor) {f : Func} (chosen : select k f = .ok selected) (distinct : f.ids.Nodup)
    (checked : f.check = .ok ()) : Leads (.ofFunc f) (edit k f) fun g _ => g.check = .ok () :=
    by
  obtain ⟨_, _, r, analysed⟩ := WellFormed.check_ok.mp checked
  have rebuilt : Leads (.ofFunc f) ((hooks k selected r).onFunc f) fun g _ => g.check = .ok () := by
    refine Rebuild.leads_check (rewrites_hooks k selected r) ?_ distinct checked analysed
    intro names more defined s s' settled _ kept shape
    have serves := serves_of_reshaped (settled.mono kept) shape
    refine (leads_rewrite positive selected r serves.toStands).imp ?_
    exact fun out most ⟨later, done⟩ => ⟨later, serves.trans done⟩
  unfold edit
  rw [if_neg (by omega)]
  refine leads_bind (leads_lift chosen ?_)
  split
  · exact leads_pure checked
  · exact leads_bind (leads_lift analysed rebuilt)

end Unrolling

end NumLang
