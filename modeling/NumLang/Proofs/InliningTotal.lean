import NumLang.Proofs.InliningSound

/-!
Inlining does not fail where every function that is called reads no name before it gives it a value, its parameters
apart.
-/

namespace NumLang

variable {defined : Name → Prop} {params : List Param} {ρ : Name → Name} {n : Name}

/-! ### Names that are bound nowhere -/

/-- A name that an expression mentions but no comprehension in it binds is read from outside. -/
theorem Expr.mem_uses_of_mentions : (e : Expr) → n ∈ e.mentions → (∀ part ∈ e.all, n ∉ part.binds) → n ∈ e.uses := by
  refine Expr.byChildren fun e ih mentioned unbound => ?_
  rw [all_eq, forall_mem_cons] at unbound
  have inner : ∀ part ∈ e.children, n ∈ part.mentions → n ∈ part.uses := fun part mem mentioned =>
    ih part mem mentioned fun below here => unbound.2 below (mem_allOf_iff.mpr ⟨part, mem, here⟩)
  cases parts : e.onlyParts with
  | true =>
    obtain ⟨part, mem, mentioned⟩ := (mem_mentions_of_onlyParts parts).mp mentioned
    exact (mem_uses_of_onlyParts parts).mpr ⟨part, mem, inner part mem mentioned⟩
  | false =>
    rcases mem_mentions.mp mentioned with read | bound | ⟨part, mem, mentioned⟩
    · cases e with
      | var => exact OrdSet.mem_singleton.mpr (mem_singleton.mp read)
      | _ => cases read
    · exact absurd bound unbound.1
    · have used := inner part mem mentioned
      cases e with
      | comprehension node targets iterables elt =>
        have outside : n ∉ Binder.nameSet targets := fun bound => unbound.1 (mem_ofList.mp bound)
        refine mem_uses_comprehension.mpr ?_
        rcases mem_append.mp mem with row | element
        · exact .inl ⟨part, row, used⟩
        · cases mem_singleton.mp element
          exact .inr ⟨used, outside⟩
      | var => cases mem
      | _ => cases parts

namespace Stmt

theorem mem_needsAll_of_mentioned :
    (stmts : List Stmt) → n ∈ mentioned stmts →
      (∀ s ∈ allOf stmts, n ∉ s.binds ∧ ∀ part ∈ Expr.allOf s.exprs, n ∉ part.binds) → n ∈ needsAll stmts := by
  refine byBlocks nofun (fun s rest first later here unbound => ?_) fun s inner here unbound => ?_
  · rw [← singleton_append, allOf_append, forall_mem_append] at unbound
    rw [mentioned_cons, mem_append] at here
    rw [← singleton_append, mem_needsAll_append]
    by_cases need : n ∈ needsAll [s]
    · exact .inl need
    · have below : n ∈ mentioned rest := here.resolve_left fun here => need (first here unbound.1)
      refine .inr ⟨later below unbound.2, fun defined => ?_⟩
      obtain ⟨t, mem, bound⟩ := mem_flatMap.mp (bindsAll_of_definesAll defined)
      exact (unbound.1 t mem).1 bound
  · obtain ⟨own, deeper⟩ := forall_allOf_single.mp unbound
    obtain ⟨reads, exprs, blocks⟩ := (needs_iff (s := s)).mp fun n need => need
    rw [mem_needsAll_single]
    rcases mem_mentioned_single.mp here with here | ⟨b, mem, here⟩
    · simp only [Stmt.mentions, mem_append, mem_flatMap] at here
      rcases here with (bound | read) | ⟨e, mem, here⟩
      · exact absurd bound own.1
      · exact reads n read
      · exact exprs e mem n (Expr.mem_uses_of_mentions e here fun part below =>
          own.2 part (Expr.mem_allOf_iff.mpr ⟨e, mem, below⟩))
    · have need := blocks b mem n (inner b mem here (deeper b mem))
      cases s with
      | each | scope => exact need.resolve_left own.1
      | _ => exact need

end Stmt

theorem WellFormed.isPlain_of_checkParams (checked : checkParams func seen params = .ok ()) :
    ∀ n ∈ params.filterMap (·.name), n.IsPlain := by
  induction params generalizing seen with
  | nil => exact nofun
  | cons p rest ih =>
    rw [checkParams] at checked
    cases named : p.name with
    | none =>
      rw [List.filterMap_cons_none named]
      rw [named] at checked
      exact ih checked
    | some n =>
      rw [List.filterMap_cons_some named, forall_mem_cons]
      rw [named] at checked
      obtain ⟨_, plain, checked⟩ := bind_ok.mp checked
      split at checked
      · cases checked
      · refine ⟨fun wildcard => ?_, ih checked⟩
        rw [checkName, if_pos wildcard] at plain
        cases plain

namespace Inlining

open Stmt

/-- A function needs none of the names that it gives values to, its parameters apart. -/
def Separate (g : Func) : Prop := ∀ n ∈ g.body.needs, n ∈ g.body.bound → n ∈ g.paramNames

instance (g : Func) : Decidable (Separate g) := by
  unfold Separate
  infer_instance

variable {g : Func}

/-- The body of a function stands where its parameters are defined, and those of its free names that it gives no values
to. -/
theorem stands_body (checked : g.check = .ok ()) (separate : Separate g) :
    Stands (ownNames g ∪ g.freeVars) (fun n => n ∈ g.paramNames ∨ n ∈ g.freeVars ∧ n ∉ ownNames g) g.body.stmts := by
  obtain ⟨_, _, made, needs⟩ := WellFormed.check_iff.mp checked
  have apart : ∀ n ∈ g.body.needs, n ∈ g.paramNames ∨ n ∈ g.freeVars ∧ n ∉ ownNames g := by
    intro n need
    rcases needs n need with param | free
    · exact .inl param
    · by_cases own : n ∈ ownNames g
      · rcases mem_union.mp own with param | bound
        · exact .inl (mem_ofList.mp param)
        · exact .inl (separate n need bound)
      · exact .inr ⟨free, own⟩
  refine ⟨made, fun n need => apart n (by rwa [Block.needs_eq]), fun n here => ?_⟩
  rw [mem_union]
  by_cases bound : n ∈ g.body.bound
  · exact .inl (mem_union.mpr (.inr bound))
  · have need : n ∈ g.body.needs := by
      rw [Block.needs_eq]
      rw [Block.bound, mem_union, not_or, mem_bindsAll_assigned, Block.locals, mem_ofList] at bound
      refine mem_needsAll_of_mentioned _ here fun s mem => ⟨fun binds => ?_, fun part below binds => ?_⟩
      · exact bound.1 (mem_flatMap.mpr ⟨s, mem, binds⟩)
      · refine bound.2 (mem_flatMap.mpr ⟨part, mem_flatMap.mpr ⟨s, ?_, below⟩, binds⟩)
        rwa [Block.all_eq]
    rcases apart n need with param | ⟨free, _⟩
    · exact .inl (mem_ownNames_of_param param)
    · exact .inr free

theorem stands_copied (checked : g.check = .ok ()) (separate : Separate g) (renews : Renews (ownNames g) old new ρ)
    (grown : ∀ n ∈ old, n ∈ new) (known : ∀ n ∈ g.freeVars, n ∈ old) (copy : CopyAll ρ g.body.stmts stmts')
    (params : ∀ n ∈ g.paramNames, defined (ρ n)) (free : ∀ n ∈ g.freeVars, defined n) : Stands new defined stmts' := by
  refine stands_copy copy (stands_body checked separate) (renews.renames known) (fun n listed => ?_) fun n here => ?_
  · by_cases own : n ∈ ownNames g
    · exact (renews.fresh n own).2
    · rw [renews.others n own]
      exact grown n (known n ((mem_union.mp listed).resolve_left own))
  · rcases here with param | ⟨outside, others⟩
    · exact params n param
    · rw [renews.others n others]
      exact free n outside

/-! ### The call that is replaced -/

section Splice

variable {s t : Stage} {callee : Func} {site : NodeId} {args : List Expr} {e : Expr} {next : Nat} {stmts : List Stmt}

/-- The arguments stand where they are assigned, and the parameters are defined then. -/
theorem stands_passes (passes : Forall₂ (Passes next ρ) (params.zip args) stmts) (fits : args.length = params.length)
    (named : ∀ n ∈ params.filterMap (·.name), (ρ n).IsPlain ∧ ρ n ∈ used) (each : ∀ arg ∈ args, arg.Stands used defined)
    : Stands used defined stmts ∧ ∀ n ∈ params.filterMap (·.name), ρ n ∈ definesAll stmts := by
  induction params generalizing args stmts defined with
  | nil =>
    cases passes
    exact ⟨stands_nil _ _, by rintro _ ⟨⟩⟩
  | cons p params ih =>
    obtain ⟨arg, args, rfl⟩ := List.exists_cons_of_length_eq_add_one fits
    obtain ⟨first, rest⟩ := forall_mem_cons.mp each
    cases passes with
    | cons passed passes =>
      obtain ⟨node, rfl, _⟩ := passed
      have wider : ∀ other ∈ args, other.Stands used fun n => defined n ∨
          n ∈ (Stmt.assign node (paramTarget ρ p) none arg).defines :=
        fun other mem => (rest other mem).wider fun _ => .inl
      cases target : p.name with
      | none =>
        rw [List.filterMap_cons_none target] at named ⊢
        obtain ⟨stands, defines⟩ := ih passes (Nat.succ.inj fits) named wider
        refine ⟨stands_cons.mpr ⟨?_, stands⟩, fun n mem => ?_⟩
        · simp only [paramTarget, target]
          exact stands_assign (by rintro _ ⟨⟩) .nil trivial first
        · rw [← singleton_append]
          exact mem_definesAll_append.mpr (.inr (defines n mem))
      | some n =>
        rw [List.filterMap_cons_some target, forall_mem_cons] at named
        rw [List.filterMap_cons_some target, forall_mem_cons]
        obtain ⟨stands, defines⟩ := ih passes (Nat.succ.inj fits) named.2 wider
        refine ⟨stands_cons.mpr ⟨?_, stands⟩, ?_, fun m mem => ?_⟩
        · simp only [paramTarget, target]
          exact stands_set named.1.1 named.1.2 first
        · rw [← singleton_append, mem_definesAll_append, mem_definesAll_single]
          simp only [paramTarget, target]
          exact .inl (mem_ofList.mpr (mem_singleton.mpr rfl))
        · rw [← singleton_append]
          exact mem_definesAll_append.mpr (.inr (defines m mem))

theorem Placed.stands (places : Placed next stmts placed) (filled : stmts ≠ []) :
    (∀ used defined, Stands used defined stmts → Stands used defined placed) ∧ ∀ n ∈ definesAll stmts, n ∈ definesAll
    placed := by
  cases places with
  | bare => exact ⟨fun _ _ stands => stands, fun _ defined => defined⟩
  | under =>
    refine ⟨fun used defined stands => ?_, fun n defined => ?_⟩
    · refine stands_single.mpr ⟨nofun, nofun, ?_, trivial, ?_⟩
      · exact forall_mem_singleton.mpr Expr.stands_lit
      · exact forall_mem_singleton.mpr ⟨filled, stands.wider fun _ => .inr⟩
    · rw [mem_definesAll_single, Stmt.defines, mem_union]
      exact .inr defined

/-- The name of the result is defined by what is put before the statement, which stands where the arguments do and the
free names of the function are defined. -/
theorem Splice.stands (splice : Splice callee site args s t e) (checked : callee.check = .ok ())
    (separate : Separate callee) : splice.result ∈ definesAll (splice.assigns ++ splice.placed) ∧ ∀ defined,
    (∀ arg ∈ args, arg.Stands s.used defined) → Stands t.used (fun n => defined n ∨ n ∈ callee.freeVars)
    (splice.assigns ++ splice.placed) := by
  have plain := WellFormed.isPlain_of_checkParams (WellFormed.check_iff.mp checked).1
  have some : splice.init ++ [Stmt.assign splice.last (.name splice.result) none splice.value] ≠ [] := by simp
  obtain ⟨stands, defines⟩ := splice.places.stands some
  refine ⟨?_, fun defined each => ?_⟩
  · refine mem_definesAll_append.mpr (.inr (defines _ (mem_definesAll_append.mpr (.inr ?_))))
    exact mem_definesAll_single.mpr (mem_ofList.mpr (mem_singleton.mpr rfl))
  -- The parameters are defined before the body, which stands there as it does in the function.
  · have named : ∀ n ∈ callee.params.filterMap (·.name), (splice.ρ n).IsPlain ∧ splice.ρ n ∈ t.used := by
      intro n param
      refine ⟨?_, (splice.renews.fresh n (mem_ownNames_of_param param)).2⟩
      rw [Name.IsPlain, splice.renews.spelled]
      exact plain n param
    obtain ⟨first, params⟩ := stands_passes splice.passes splice.fits named fun arg mem =>
      (each arg mem).mono splice.grows
    have grown : ∀ n ∈ s.used ∪ callee.freeVars, n ∈ t.used := fun n here =>
      (mem_union.mp here).elim (splice.grows n) (splice.reserved n)
    have body : Stands t.used (fun n => (defined n ∨ n ∈ callee.freeVars) ∨ n ∈ definesAll splice.assigns)
        splice.body.stmts :=
      stands_copied checked separate splice.renews grown (fun n free => mem_union.mpr (.inr free))
        (copyAll_block splice.copy) (fun n param => .inr (params n param)) fun n free => .inl (.inr free)
    rw [splice.ends] at body
    obtain ⟨before, last⟩ := stands_append.mp body
    obtain ⟨_, _, returned, _⟩ := stands_single.mp last
    refine stands_append.mpr ⟨first.wider fun _ => .inl, stands _ _ (stands_append.mpr ⟨before, ?_⟩)⟩
    exact stands_set (by simp [Name.IsPlain, splice.spelled]) splice.taken (returned splice.value mem_cons_self)

end Splice

/-! ### No step fails -/

section Sure

variable {α β : Type} {callee caller : Func} {threshold : Nat}

def Sure (x : Inline α) : Prop := ∀ s, ∃ a t, Makes x s a t

theorem sure_pure (a : α) : Sure (pure a) := fun s => ⟨a, s, rfl⟩

theorem sure_modify (f : State → State) : Sure (modify f) := fun s => ⟨⟨⟩, (s.1, f s.2), rfl⟩

theorem sure_lift (total : Edit.Total x) : Sure (liftM x) := by
  intro s
  obtain ⟨a, t, made⟩ := total s.1
  exact ⟨a, (t, s.2), Edit.makes_bind.mpr ⟨a, t, made, rfl⟩⟩

theorem Sure.bind (first : Sure x) (rest : ∀ s a t, Makes x s a t → Sure (k a)) : Sure (x >>= k) := by
  intro s
  obtain ⟨a, t, made⟩ := first s
  obtain ⟨b, u, later⟩ := rest s a t made t
  exact ⟨b, u, made.bind later⟩

theorem total_node (loc : Option Loc) : Edit.Total (Edit.node loc) :=
  (Edit.total_supplied _).bind fun _ => Edit.total_pure _

theorem sure_assign (target : Binder) (value : Expr) : Sure (liftM (Edit.assign target value)) :=
  sure_lift ((total_node none).bind fun _ => Edit.total_pure _)

theorem sure_bindParams (table : NameMap Name) (params : List Param) (args : List Expr) :
    Sure (bindParams table params args) := by
  induction params generalizing args with
  | nil => exact sure_pure _
  | cons p params ih =>
    cases args with
    | nil => exact sure_pure _
    | cons arg args => exact (sure_assign _ _).bind fun _ _ _ _ => (sure_modify _).bind fun _ _ _ _ => ih args

theorem sure_reserve (free : List Name) :
    Sure (forIn free PUnit.unit fun n _ => do
      Edit.reserveName n
      pure (ForInStep.yield PUnit.unit)) := by
  induction free with
  | nil => exact sure_pure _
  | cons n rest ih =>
    rw [List.forIn_cons]
    refine Sure.bind ((sure_lift fun s => ⟨(), _, rfl⟩).bind fun _ _ _ _ => sure_pure _) fun s step t made => ?_
    obtain ⟨_, _, _, yielded⟩ := makes_bind made
    obtain ⟨rfl, _⟩ := makes_pure yielded
    exact ih

theorem sure_place (callee : Func) (stmts : List Stmt) : Sure (place callee stmts) := by
  unfold place
  split
  · refine Sure.bind (sure_lift ((total_node none).bind fun _ => Edit.total_pure _)) fun _ _ _ _ => ?_
    refine Sure.bind (sure_lift ((Edit.total_supplied _).bind fun _ => Edit.total_pure _)) fun _ _ _ _ => ?_
    exact Sure.bind (sure_lift (total_node none)) fun _ _ _ _ => sure_modify _
  · exact sure_modify _

theorem sure_finish (site : NodeId) (callee : Func) (stmts : List Stmt) (value : Expr) :
    Sure (finish site callee stmts value) := by
  refine Sure.bind (sure_lift (Edit.total_freshName _)) fun _ _ _ _ => (sure_modify _).bind fun _ _ _ _ => ?_
  refine (sure_assign _ _).bind fun _ _ _ _ => (sure_place _ _).bind fun _ _ _ _ => ?_
  refine (sure_modify _).bind fun _ _ _ _ => (sure_lift (Edit.total_note _ _ _)).bind fun _ _ _ _ => ?_
  exact sure_lift ((total_node none).bind fun _ => Edit.total_pure _)

theorem sure_inline (site : NodeId) {args : List Expr} (fits : args.length = callee.params.length)
    (ends : (splitReturn? callee.body.stmts).isSome = true) : Sure (inline site callee args) := by
  rw [inline_eq site fits]
  refine (sure_reserve _).bind fun _ _ _ _ => ?_
  refine Sure.bind (sure_lift (Edit.total_refreshNames _ _)) fun _ table _ _ => (sure_modify _).bind fun _ _ _ _ => ?_
  refine (sure_bindParams _ _ _).bind fun _ _ _ _ => ?_
  refine Sure.bind (sure_lift (Edit.total_supplied _)) fun s body t made => ?_
  obtain ⟨rfl, _⟩ := Edit.makes_supplied (makes_lift made).1
  have copy := copyAll_block (Block.copy_refresh table.toRenaming callee.body s.1.session.next)
  obtain ⟨⟨init, value⟩, split⟩ := isSome_iff_exists.mp (splitReturn?_copy copy ends)
  rw [split]
  exact sure_finish site callee init value

theorem sure_isInlinable (caller : Func) (threshold : Nat) (callee : Func) :
    Sure (isInlinable caller threshold callee) := by
  unfold isInlinable
  split
  · exact sure_pure _
  · refine Sure.bind (fun s => ⟨s.2, s, rfl⟩) fun _ now _ _ => ?_
    split
    · exact sure_pure _
    · exact Sure.bind (sure_lift fun s => ⟨(), _, rfl⟩) fun _ _ _ _ => sure_pure _

end Sure

/-! ### Expressions -/

/-- What is asked of a function that may be put in place of its calls. -/
structure Callable (g : Func) (count : Nat) : Prop where
  fits : count = g.params.length
  checked : g.check = .ok ()
  separate : Separate g

instance (g : Func) (count : Nat) : Decidable (Callable g count) :=
  decidable_of_iff (count = g.params.length ∧ g.check = .ok () ∧ Separate g)
    ⟨fun ⟨fits, checked, separate⟩ => ⟨fits, checked, separate⟩, fun called => ⟨called.fits, called.checked, called.separate⟩⟩

def Calling (e : Expr) : Prop := ∀ part ∈ e.all, ∀ call ∈ part.callee?, Callable call.1 call.2

theorem Calling.child {e part : Expr} (calling : Calling e) (mem : part ∈ e.children) : Calling part := by
  intro below here
  refine calling below ?_
  rw [Expr.all_eq]
  exact mem_cons_of_mem _ (Expr.mem_allOf_iff.mpr ⟨part, mem, here⟩)

section Treatment

variable {caller : Func} {threshold : Nat} {s t u : Stage} {used : NameSet} {e e' : Expr} {es es' : List Expr}
  {rows rows' : List (List Stmt)}

theorem sure_onExpr (calling : Calling e) (parts : ∀ s, makes.leads s usual fun e' _ => e.Rebuilt e') :
    Sure (onExpr caller threshold e usual) := by
  unfold onExpr
  split
  · exact sure_pure e
  refine Sure.bind (fun s => ⟨s.2, s, rfl⟩) fun _ _ _ _ s => ?_
  obtain ⟨e', t, made, rebuilt⟩ := parts s
  suffices rest : Sure _ by
    obtain ⟨e'', u, later⟩ := rest t
    exact ⟨e'', u, made.bind later⟩
  split
  · rename_i node name callee args
    refine (sure_isInlinable _ _ _).bind fun s b t asked => ?_
    split
    · rename_i chosen
      have called := calling e (by simp [Expr.all_eq]) (callee, args.length) rebuilt.callee.symm
      have free := (moves_isInlinable asked).2 (Bool.and_eq_true_iff.mp chosen).1
      refine sure_inline node.id called.fits ?_
      by_contra missing
      simp only [Bool.not_eq_true, Option.isSome_eq_false_iff] at missing
      simp [obstacle?, missing] at free
    · exact sure_pure _
  · exact sure_pure _

theorem threads_makes : (hooks caller threshold).Threads makes Calling (Treats caller threshold) where
  name _ := rfl
  nil := .nil
  append := .append
  length := Treats.length
  expr {e usual} calling parts s := by
    have parts := parts fun part mem => calling.child mem
    have sure : Sure (onExpr caller threshold e usual) :=
      sure_onExpr calling fun s => makes.imp (parts s) fun _ _ => And.left
    obtain ⟨e', t, made⟩ := sure s
    refine ⟨e', t, made, treats_hook (fun inner u treated => ?_) made⟩
    obtain ⟨inner', u', treated', facts⟩ := parts s
    obtain ⟨rfl, rfl⟩ := makes_unique treated' treated
    exact facts

theorem follows_makes : Follows makes caller threshold Calling where
  threads := threads_makes
  prelude := by
    rintro s root action post ⟨st, u, acted, here⟩
    exact ⟨_, _, makes_withPrelude acted, here⟩

def Brought (s : Stage) (n : Name) : Prop := n ∈ s.2.freeVars ∨ n ∈ definesAll s.2.prelude

/-- The statements that go before the current one stand where names are defined, with the free names of what was put
in. -/
structure Supported (used : NameSet) (defined : Name → Prop) (s : Stage) : Prop where
  known : ∀ n ∈ used, n ∈ s.used
  stands : Stands s.used (fun n => defined n ∨ n ∈ s.2.freeVars) s.2.prelude

/-- Statements and free names are added. -/
structure Further (used : NameSet) (defined : Name → Prop) (s t : Stage) : Prop where
  kept : ∀ n ∈ s.used, n ∈ t.used
  free : ∀ n ∈ s.2.freeVars, n ∈ t.2.freeVars
  prelude : ∀ n ∈ definesAll s.2.prelude, n ∈ definesAll t.2.prelude
  supported : Supported used defined s → Supported used defined t

theorem Further.refl (s : Stage) : Further used defined s s :=
  ⟨fun _ here => here, fun _ here => here, fun _ here => here, fun supported => supported⟩

theorem Further.trans (first : Further used defined s t) (second : Further used defined t u) : Further used defined s u :=
  ⟨fun n here => second.kept n (first.kept n here), fun n here => second.free n (first.free n here),
    fun n here => second.prelude n (first.prelude n here), fun supported => second.supported (first.supported supported)⟩

theorem Further.brought (went : Further used defined s t) (n : Name) : Brought s n → Brought t n :=
  Or.imp (went.free n) (went.prelude n)

theorem Further.draws (went : Further used defined s t) (draws : e.Draws (Brought s) (· ∈ s.used) e') :
    e.Draws (Brought t) (· ∈ t.used) e' := draws.mono went.brought went.kept

/-- Free names are added, and no statements before the current one. -/
structure Grown (s t : Stage) : Prop where
  kept : ∀ n ∈ s.used, n ∈ t.used
  free : ∀ n ∈ s.2.freeVars, n ∈ t.2.freeVars
  prelude : t.2.prelude = s.2.prelude

theorem Grown.trans (first : Grown s t) (second : Grown t u) : Grown s u :=
  ⟨fun n here => second.kept n (first.kept n here), fun n here => second.free n (first.free n here),
    second.prelude.trans first.prelude⟩

theorem Grown.further (grown : Grown s t) (used : NameSet) (defined : Name → Prop) : Further used defined s t := by
  refine ⟨grown.kept, grown.free, fun n here => grown.prelude ▸ here, fun supported => ⟨fun n here => ?_, ?_⟩⟩
  · exact grown.kept n (supported.known n here)
  · rw [grown.prelude]
    exact (supported.stands.mono grown.kept).wider fun n => Or.imp_right (grown.free n)

theorem Moves.grown (moves : Moves s t []) : Grown s t :=
  ⟨moves.draws.grows, fun n here => by rwa [moves.freeVars], by rw [moves.prelude, append_nil]⟩

section Splice

variable {callee : Func} {site : NodeId} {args : List Expr}

theorem Splice.further (splice : Splice callee site args s t e) (called : Callable callee args.length)
    (each : Supported used defined s → ∀ arg ∈ args, arg.Stands s.used fun n => defined n ∨ Brought s n) :
    Further used defined s t := by
  obtain ⟨_, stands⟩ := splice.stands called.checked called.separate
  refine ⟨splice.grows, fun n here => ?_, fun n here => ?_, fun supported => ⟨fun n here => ?_, ?_⟩⟩
  · rw [splice.freeVars]
    exact mem_union.mpr (.inl here)
  · rw [splice.prelude]
    exact mem_definesAll_append.mpr (.inl here)
  · exact splice.grows n (supported.known n here)
  · rw [splice.prelude, splice.freeVars]
    refine stands_append.mpr ⟨(supported.stands.mono splice.grows).wider ?_, (stands _ (each supported)).wider ?_⟩
    · exact fun n => Or.imp_right fun free => mem_union.mpr (.inl free)
    · simp only [Brought, mem_union]
      grind

theorem Splice.draws (splice : Splice callee site args s t e') (called : Callable callee args.length)
    (layout : e.layout = .wildcard) : e.Draws (Brought t) (· ∈ t.used) e' := by
  obtain ⟨defines, _⟩ := splice.stands called.checked called.separate
  have brought : Brought t splice.result := by
    rw [Brought, splice.prelude]
    exact .inr (mem_definesAll_append.mpr (.inr defines))
  have reads : e'.Stands t.used (Brought t) := by
    have shown : (Expr.var splice.node splice.result).Stands t.used (Brought t) := Expr.stands_var brought splice.taken
    rwa [← splice.shown] at shown
  have plain : e'.layout = .wildcard := congrArg Expr.layout splice.shown
  exact ⟨⟨fun _ => reads.made, fun n here => .inr (reads.uses n here), plain.trans layout.symm⟩,
    fun n here => .inr (reads.known n here)⟩

end Splice

theorem stands_of_clear (clear : isOpaque e = false) (stands : e.Stands used defined) :
    ∀ part ∈ e.children, part.Stands used defined := by
  intro part mem
  cases e with
  | var => cases mem
  | comprehension => cases clear
  | _ => exact stands.child rfl mem

theorem draws_of_treats (treats : Treats caller threshold s t es es')
    (ready : ∀ e ∈ es, e.Stands used defined ∧ Calling e) :
    Further used defined s t ∧ Forall₂ (Expr.Draws (Brought t) (· ∈ t.used)) es es' := by
  induction treats with
  | nil => exact ⟨.refl _, .nil⟩
  | append _ _ first second =>
    obtain ⟨left, right⟩ := forall_mem_append.mp ready
    obtain ⟨went, made⟩ := first left
    obtain ⟨later, others⟩ := second right
    exact ⟨went.trans later, rel_append (made.imp fun _ _ => later.draws) others⟩
  | keep => exact ⟨.refl _, .cons (.refl _) .nil⟩
  | rebuild clear _ rebuilt moves parts =>
    obtain ⟨⟨stands, calling⟩, _⟩ := forall_mem_cons.mp ready
    obtain ⟨went, made⟩ := parts fun part mem => ⟨stands_of_clear clear stands part mem, calling.child mem⟩
    have later := moves.grown.further used defined
    exact ⟨went.trans later, .cons (rebuilt.refit (made.imp fun _ _ => later.draws)).draws .nil⟩
  | @replace _ _ _ _ e _ callee args clear _ called moves _ splice parts =>
    obtain ⟨⟨stands, calling⟩, _⟩ := forall_mem_cons.mp ready
    have below := stands_of_clear clear stands
    obtain ⟨went, made⟩ := parts fun part mem => ⟨below part mem, calling.child mem⟩
    have ready := calling e (by simp [Expr.all_eq]) _ called
    have later := moves.grown.further used defined
    have last := splice.further ready fun supported arg mem => by
      obtain ⟨part, mem, draws⟩ := exists_of_forall₂ made arg mem
      exact (later.draws draws).stands (below part mem) supported.known fun _ known => known
    refine ⟨(went.trans later).trans last, .cons (splice.draws ready ?_) .nil⟩
    obtain ⟨node, name, args', rfl, _⟩ := Expr.callee?_eq_some called
    rfl

/-! ### Statements -/

variable {st st' : Stmt}

/-- A statement with what goes before it stands in its place, where the free names of what was put in are defined. -/
theorem serves_of_refit (supported : Supported used defined t) (stands : Stands used defined [st])
    (refit : st.Refit (Expr.Draws (Brought t) (· ∈ t.used))
      (fun b b' => Serves t.used (fun n => st.inside defined n ∨ n ∈ t.2.freeVars) b.stmts b'.stmts) st') :
    Serves t.used (fun n => defined n ∨ n ∈ t.2.freeVars) [st] (t.2.prelude ++ [st']) := by
  obtain ⟨names, reads, exprs, bound, blocks⟩ := stands_single.mp stands
  obtain ⟨_, binds', reads', inside'⟩ := refit.same
  refine ⟨stands_append.mpr ⟨supported.stands, stands_single.mpr ⟨?_, ?_, ?_, ?_, ?_⟩⟩, fun n here => ?_, by simp⟩
  · rw [binds']
    exact fun n here => ⟨(names n here).1, supported.known n (names n here).2⟩
  · rw [reads']
    exact fun n here => .inl (.inl (reads n here))
  · intro e' mem
    obtain ⟨e, below, draws⟩ := exists_of_forall₂ refit.exprs e' mem
    refine (draws.stands (exprs e below) supported.known fun _ known => known).wider fun n here => ?_
    simp only [Brought] at here
    grind
  · exact refit.bound (fun _ _ draws => draws.layout) bound
  · intro b' mem
    obtain ⟨b, below, serves⟩ := exists_of_forall₂ refit.blocks b' mem
    refine ⟨serves.filled (blocks b below).1, serves.toStands.wider fun n here => ?_⟩
    rw [inside']
    rcases here with inside | free
    · exact st.inside_mono (fun _ here => .inl (.inl here)) inside
    · exact st.inside_of (.inl (.inr free))
  · refine mem_definesAll_append.mpr (.inr (mem_definesAll_single.mpr ?_))
    exact refit.defines (fun _ _ serves => serves.defines) n (mem_definesAll_single.mp here)

theorem grown_of_treats (treats : Treats caller threshold s t es es') :
    (∀ n ∈ s.used, n ∈ t.used) ∧ ∀ n ∈ s.2.freeVars, n ∈ t.2.freeVars := by
  induction treats with
  | nil | keep => exact ⟨fun _ => id, fun _ => id⟩
  | append _ _ first second =>
    exact ⟨fun n here => second.1 n (first.1 n here), fun n here => second.2 n (first.2 n here)⟩
  | rebuild _ _ _ moves parts =>
    have later := moves.grown
    exact ⟨fun n here => later.kept n (parts.1 n here), fun n here => later.free n (parts.2 n here)⟩
  | replace _ _ _ moves _ splice parts =>
    have later := moves.grown
    refine ⟨fun n here => splice.grows n (later.kept n (parts.1 n here)), fun n here => ?_⟩
    rw [splice.freeVars]
    exact mem_union.mpr (.inl (later.free n (parts.2 n here)))

theorem grown_of_treatsAll (treats : TreatsAll caller threshold s t rows rows') : Grown s t := by
  induction treats with
  | nil => exact ⟨fun _ => id, fun _ => id, rfl⟩
  | row _ ih => exact ih
  | @stmt s _ u _ _ _ _ _ _ _ _ _ exprs _ _ _ _ _ inner rest =>
    obtain ⟨kept, free⟩ := grown_of_treats exprs
    have closes : Grown s (closed s u) :=
      ⟨fun n here => inner.kept n (kept n here), fun n here => inner.free n (free n here), rfl⟩
    exact closes.trans rest

def CallingAll (stmts : List Stmt) : Prop := ∀ part ∈ allOf stmts, ∀ e ∈ part.exprs, Calling e

def Continues (used : NameSet) (t : Stage) (row out : List Stmt) : Prop :=
  ∀ defined, Stands used defined row → Serves t.used (fun n => defined n ∨ n ∈ t.2.freeVars) row out

theorem Continues.later (continues : Continues used s row out) (kept : ∀ n ∈ s.used, n ∈ t.used)
    (free : ∀ n ∈ s.2.freeVars, n ∈ t.2.freeVars) : Continues used t row out := fun defined stands =>
  ((continues defined stands).mono kept).wider fun n => Or.imp_right (free n)

/-- A statement with what goes before it, from what becomes of its expressions and blocks. -/
theorem continues_stmt (exprs : Treats caller threshold (opened root s) t (treated st) own) (grown : Grown t u)
    (rebuilt : st.Rebuilt st') (joined : st'.exprs = untouched st ++ own)
    (inner : Forall₂ (Continues used u) (rowsIn st) (rowsIn st')) (calling : ∀ e ∈ st.exprs, Calling e)
    (known : ∀ n ∈ used, n ∈ s.used) : Continues used u [st] (u.2.prelude ++ [st']) := by
  intro defined stands
  obtain ⟨_, _, standing, _, blocks⟩ := stands_single.mp stands
  have whole := exprs_eq st
  have ready : ∀ e ∈ treated st, e.Stands used defined ∧ Calling e := by
    intro e mem
    have here : e ∈ st.exprs := whole ▸ mem_append_right _ mem
    exact ⟨standing e here, calling e here⟩
  obtain ⟨went, made⟩ := draws_of_treats exprs ready
  have later := grown.further used defined
  have supported := (went.trans later).supported ⟨known, stands_nil _ _⟩
  refine serves_of_refit supported stands (rebuilt.refit ?_ ?_)
  · rw [whole, joined]
    exact rel_append (List.forall₂_same.mpr fun _ _ => .refl _) (made.imp fun _ _ => later.draws)
  · rw [rowsIn, rowsIn, List.forall₂_map_left_iff, List.forall₂_map_right_iff] at inner
    refine (List.forall₂_and_left _ _ |>.mpr ⟨fun b mem => (blocks b mem).2, inner⟩).imp ?_
    exact fun b b' ⟨ready, continues⟩ => continues _ ready

theorem continues_of_treats (treats : TreatsAll caller threshold s t rows rows') (calling : CallingAll rows.flatten)
    (known : ∀ n ∈ used, n ∈ s.used) : Forall₂ (Continues used t) rows rows' := by
  induction treats with
  | nil => exact .nil
  | row _ ih => exact .cons (fun _ _ => .nil _ _) (ih calling known)
  | @stmt s t u v _ st _ _ _ _ _ _ exprs inside rebuilt joined _ others inner rest =>
    rw [List.flatten_cons, cons_append, CallingAll, allOf, forall_mem_append, st.all_eq, forall_mem_cons] at calling
    obtain ⟨⟨own, below⟩, later⟩ := calling
    rw [← allOf_rowsIn] at below
    have grown := grown_of_treatsAll inside
    have kept := fun n here => (grown_of_treats exprs).1 n (known n here)
    have first := continues_stmt exprs grown rebuilt joined (inner below kept) own known
    obtain ⟨second, rows⟩ := forall₂_cons.mp (rest later fun n here => grown.kept n (kept n here))
    have beyond := grown_of_treatsAll others
    have last := first.later beyond.kept beyond.free
    refine .cons (fun defined stands => ?_) rows
    obtain ⟨here, after⟩ := stands_cons.mp stands
    rw [List.append_cons]
    exact .cons (last defined here) ((second _ after).wider fun n => or_right_comm.mp)

end Treatment

theorem leads_edit {f : Func} (checked : f.check = .ok ()) (calling : CallingAll f.body.stmts) :
    Edit.Leads (.ofFunc f) (edit threshold f) fun g _ => g.check = .ok () := by
  obtain ⟨params, filled, _, _⟩ := WellFormed.check_iff.mp checked
  intro s same
  have ready : ∀ part ∈ f.body.all, ∀ e ∈ part.exprs, Calling e := by
    rw [Block.all_eq]
    exact calling
  have follows : Follows makes f threshold Calling := follows_makes
  obtain ⟨body, t, made, _, treats⟩ := follows.onBlock f.body ready (s, { bound := ownNames f })
  refine ⟨_, t.1, Edit.makes_bind.mpr ⟨(body, t.2), t.1, made, rfl⟩, ?_⟩
  have known : ∀ n ∈ f.allNames, n ∈ s.names.used := by
    rw [same]
    exact fun _ known => known
  have rows := continues_of_treats treats (by simpa using calling) known
  have serves := (forall₂_cons.mp rows).1 f.Inputs (Func.stands_body checked)
  refine WellFormed.check_iff.mpr ⟨params, serves.filled filled, serves.made, fun n need => ?_⟩
  rw [Block.needs_eq] at need
  rcases serves.needs n need with (param | free) | brought
  · exact .inl param
  · exact .inr (mem_union.mpr (.inl free))
  · exact .inr (mem_union.mpr (.inr brought))

/-- Inlining succeeds on a well-formed function if every function that it calls with arguments by position is well
formed, has as many parameters, and needs none of the names that it gives values to, its parameters apart. -/
theorem succeeds_inlining (cfg : Config) (threshold : Option Nat) (f : Func) (session : Session)
    (checked : f.check = .ok ()) (callees : ∀ e ∈ f.body.allExprs, ∀ call ∈ e.callee?, Callable call.1 call.2) :
    (Pass.inlining threshold).Succeeds cfg f session := by
  have calling : CallingAll f.body.stmts := by
    intro s member e own part below
    refine callees part (List.mem_flatMap.mpr ⟨s, ?_, Expr.mem_allOf_iff.mpr ⟨e, own, below⟩⟩)
    rwa [Block.all_eq]
  have made : (Pass.ofEdit "func-inline" "" (edit (threshold.getD cfg.inlineThreshold))).Succeeds cfg f session :=
    Pass.succeeds_of_leads (leads_edit checked calling) cfg session
  exact made

open Sample in
/-- Doubles a free name until it reaches the parameter, which is then given the result. -/
def reaching : Func :=
  { func ["y"] ["k"] [
      set 10 "s" (var 11 "k"),
      .loop (node 12) (less 13 (var 14 "s") (var 15 "y")) ⟨⟨16⟩, [set 17 "s" (add 18 (var 19 "s") (var 20 "s"))]⟩,
      set 21 "y" (var 22 "s"),
      .ret (node 23) (var 24 "y")] with name := "reach", ctx := some .real }

open Sample Calls in
/-- Calls in an argument of a call, in a test and where a name is bound that the function called gives a value to. -/
def stepping : Func :=
  func ["y"] [] [
    set 30 "s" (callOf 31 reaching [add 32 (callOf 33 reaching [var 34 "y"]) (int 35 1)]),
    .when (node 36) (less 37 (callOf 38 doubling [var 39 "s"]) (callOf 40 reaching [var 41 "s"])) ⟨⟨42⟩, [
      set 43 "s" (callOf 44 doubling [var 45 "y"])]⟩,
    .ret (node 46) (add 47 (var 48 "s") (var 49 "y"))]

theorem succeeds_inlining_stepping : stepping.ids.Nodup ∧ stepping.check = .ok () ∧
    (∀ e ∈ stepping.body.allExprs, ∀ call ∈ e.callee?, Callable call.1 call.2) ∧
    (stepping.body.allExprs.filterMap Expr.callee?).length = 5 ∧
    (Pass.inlining).Succeeds {} stepping { next := 60 } := by
  have checked : stepping.check = .ok () := by decide +kernel
  have callees : ∀ e ∈ stepping.body.allExprs, ∀ call ∈ e.callee?, Callable call.1 call.2 := by decide +kernel
  exact ⟨by decide, checked, callees, by decide, succeeds_inlining {} none stepping { next := 60 } checked callees⟩

open Sample in
/-- Keeps a free name before it gives it a value of its own. -/
def keeping : Func :=
  { func [] ["a"] [set 10 "b" (var 11 "a"), set 12 "a" (int 13 1), .ret (node 14) (var 15 "b")] with name := "keep" }

open Sample Calls in
def delegating : Func := func [] [] [.ret (node 20) (callOf 21 keeping [])]

/-- Where a function reads a free name that it gives a value to afterwards, inlining may fail: both get the new name, which
has no value where it is read. -/
theorem run_inlining_delegating : delegating.ids.Nodup ∧ delegating.check = .ok () ∧ keeping.ids.Nodup ∧
    keeping.check = .ok () ∧ keeping.params.length = 0 ∧ ¬ Separate keeping ∧
    (((Pass.inlining).run {} delegating).run { next := 30 }).1.toOption.isNone = true := by
  decide +kernel

end Inlining

end NumLang
