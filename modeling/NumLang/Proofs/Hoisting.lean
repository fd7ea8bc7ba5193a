import NumLang.Pass.Inlining
import NumLang.Proofs.EvaluationOrder

/-!
What inlining does, step by step.
-/

namespace NumLang

namespace Edit

variable {α β : Type} {s t u : State} {a : α} {n : Name}

/-- Between two states names and identities are drawn, and nothing is noted. -/
structure Draws (s t : State) : Prop where
  later : s.session.next ≤ t.session.next
  grows : Grows s t
  changes : t.changes = s.changes

theorem Draws.refl (s : State) : Draws s s := ⟨Nat.le_refl _, .refl s, rfl⟩

theorem Draws.trans (first : Draws s t) (second : Draws t u) : Draws s u :=
  ⟨Nat.le_trans first.later second.later, first.grows.trans second.grows, second.changes.trans first.changes⟩

theorem draws_freshName (made : Makes (freshName base) s n t) : Draws s t := by
  have grows := (makes_freshName made).2.2
  cases made
  exact ⟨Nat.le_refl _, grows, rfl⟩

theorem spelled_freshName (made : Makes (freshName base) s n t) : n.base = base := by
  cases made
  rfl

theorem draws_reserveName (made : Makes (reserveName n) s v t) : Draws s t ∧ n ∈ t.names.used := by
  have grows := grows_reserveName made
  cases made
  exact ⟨⟨Nat.le_refl _, grows, rfl⟩, OrdSet.mem_insert.mpr (.inl rfl)⟩

theorem draws_refreshNames (made : Makes (refreshNames table names) s table' t) : Draws s t := by
  induction names generalizing s table with
  | nil =>
    obtain ⟨rfl, rfl⟩ := makes_pure.mp made
    exact .refl _
  | cons n rest ih =>
    rw [refreshNames, List.foldlM_cons] at made
    obtain ⟨_, _, first, made⟩ := makes_bind.mp made
    obtain ⟨_, drawn, rfl⟩ := makes_bind_pure first
    exact (draws_freshName drawn).trans (ih made)

theorem draws_trace (made : Makes (trace message) s v t) : Draws s t := by
  cases made
  exact ⟨Nat.le_refl _, fun _ => id, rfl⟩

theorem makes_noteAt (made : Makes (noteAt kind site message) s v t) :
    t = { s with changes := s.changes ++ [⟨kind, some site, message⟩] } := by
  cases made
  rfl

theorem draws_supplied {ids : α → List NodeId} (drawn : ∀ next, Drawn next (make next).2 (ids (make next).1))
    (made : Makes (supplied make) s a t) : Draws s t ∧ ∀ id ∈ ids a, s.session.next ≤ id.val := by
  have new := drawn s.session.next
  cases made
  exact ⟨⟨new.later, fun _ => id, rfl⟩, new.above⟩

theorem draws_node {node : Node} (made : Makes (Edit.node loc) s node t) :
    Draws s t ∧ s.session.next ≤ node.id.val := by
  cases made
  exact ⟨⟨Nat.le_succ _, fun _ => id, rfl⟩, Nat.le_refl _⟩

theorem draws_made {make : Node → α} (made : Makes (do return make (← Edit.node none)) s a t) :
    Draws s t ∧ ∃ node, a = make node ∧ s.session.next ≤ node.id.val := by
  obtain ⟨node, drawn, rfl⟩ := makes_bind_pure made
  exact ⟨(draws_node drawn).1, node, rfl, (draws_node drawn).2⟩

theorem draws_block {b : Block} (made : Makes (block stmts) s b t) :
    Draws s t ∧ b.stmts = stmts ∧ s.session.next ≤ b.id.val := by
  obtain ⟨id, drawn, rfl⟩ := makes_bind_pure made
  cases drawn
  exact ⟨⟨Nat.le_succ _, fun _ used => used, rfl⟩, rfl, Nat.le_refl _⟩

end Edit

namespace Inlining

open Edit (Draws)

/-- The states that inlining goes through: the names in use, and what is known of the function. -/
abbrev Stage := Edit.State × State

def Stage.used (s : Stage) : NameSet := s.1.names.used

def Makes {α : Type} (x : Inline α) (s : Stage) (a : α) (s' : Stage) : Prop := Edit.Makes (x.run s.2) s.1 (a, s'.2) s'.1


variable {α β : Type} {s s' t u v : Stage}

section Splices

variable {a : α} {w : Unit} {site : NodeId} {e : Expr} {args : List Expr} {stmts : List Stmt} {callee : Func}

theorem makes_pure (made : Makes (pure a) s b s') : b = a ∧ s' = s := by
  obtain ⟨same, rest⟩ := Edit.makes_pure.mp made
  exact ⟨congrArg Prod.fst same, Prod.ext rest (Prod.mk.inj same).2⟩

theorem makes_bind (made : Makes (x >>= k) s b s') : ∃ a t, Makes x s a t ∧ Makes (k a) t b s' := by
  unfold Makes at made
  rw [StateT.run_bind] at made
  obtain ⟨⟨a, later⟩, t, first, rest⟩ := Edit.makes_bind.mp made
  exact ⟨a, (t, later), first, rest⟩

theorem makes_lift (made : Makes (liftM x) s a s') : Edit.Makes x s.1 a s'.1 ∧ s'.2 = s.2 := by
  obtain ⟨b, first, same⟩ := Edit.makes_bind_pure made
  obtain ⟨rfl, later⟩ := Prod.mk.inj same
  exact ⟨first, later⟩

theorem makes_get (made : Makes get s now s') : now = s.2 ∧ s' = s := by
  obtain ⟨same, rest⟩ := Edit.makes_pure.mp made
  obtain ⟨rfl, later⟩ := Prod.mk.inj same
  exact ⟨rfl, Prod.ext rest later⟩

theorem makes_set {u : PUnit} (made : Makes (set now) s u s') : s' = (s.1, now) := by
  obtain ⟨same, rest⟩ := Edit.makes_pure.mp made
  exact Prod.ext rest (Prod.mk.inj same).2

theorem makes_modify {u : PUnit} (made : Makes (modify f) s u s') : s' = (s.1, f s.2) := by
  obtain ⟨same, rest⟩ := Edit.makes_pure.mp made
  exact Prod.ext rest (Prod.mk.inj same).2

theorem Makes.bind (first : Makes x s a t) (rest : Makes (k a) t b u) : Makes (x >>= k) s b u :=
  Edit.makes_bind.mpr ⟨(a, t.2), t.1, first, rest⟩

def ifMade : Logic Inline Stage where
  leads s x post := ∀ a t, Makes x s a t → post a t
  pure here a t made := by
    obtain ⟨rfl, rfl⟩ := makes_pure made
    exact here
  bind first b t made := by
    obtain ⟨a, u, head, tail⟩ := makes_bind made
    exact first a u head b t tail
  imp weak wider a t made := wider a t (weak a t made)

/-- What holds after a run that does not fail, and there is one. -/
def makes : Logic Inline Stage where
  leads s x post := ∃ a t, Makes x s a t ∧ post a t
  pure here := ⟨_, _, rfl, here⟩
  bind := by
    rintro α β s x k post ⟨a, t, head, b, u, tail, here⟩
    exact ⟨b, u, head.bind tail, here⟩
  imp := by
    rintro α s x post better ⟨a, t, made, here⟩ stronger
    exact ⟨a, t, made, stronger a t here⟩

theorem makes_unique (made : Makes x s a t) (also : Makes x s b u) : b = a ∧ u = t := by
  have same := also.symm.trans made
  cases t
  cases u
  cases same
  exact ⟨rfl, rfl⟩

/-- Between two stages names and identities are drawn, names are bound, and statements are added before the current
one. -/
structure Moves (s t : Stage) (stmts : List Stmt) : Prop where
  draws : Draws s.1 t.1
  bound : ∀ n ∈ s.2.bound, n ∈ t.2.bound
  prelude : t.2.prelude = s.2.prelude ++ stmts
  root : t.2.root = s.2.root
  freeVars : t.2.freeVars = s.2.freeVars
  env : t.2.env = s.2.env

theorem Moves.refl (s : Stage) : Moves s s [] := ⟨.refl _, fun _ => id, (append_nil _).symm, rfl, rfl, rfl⟩

theorem Moves.trans (first : Moves s t stmts) (second : Moves t u others) : Moves s u (stmts ++ others) :=
  ⟨first.draws.trans second.draws, fun n here => second.bound n (first.bound n here),
    by rw [second.prelude, first.prelude, append_assoc], second.root.trans first.root,
    second.freeVars.trans first.freeVars, second.env.trans first.env⟩

theorem moves_lift {x : Edit α} (made : Makes (liftM x) s a t) (draws : Draws s.1 t.1) : Moves s t [] := by
  rw [show t = (t.1, s.2) from Prod.ext rfl (makes_lift made).2]
  exact ⟨draws, fun _ => id, (append_nil _).symm, rfl, rfl, rfl⟩

theorem moves_bindNames (made : Makes (bindNames names) s w t) : Moves s t [] := by
  rw [makes_modify made]
  exact ⟨.refl _, fun n here => OrdSet.mem_insertAll.mpr (.inr here), (append_nil _).symm, rfl, rfl, rfl⟩

theorem moves_emit (made : Makes (emit stmts) s w t) : Moves s t stmts := by
  rw [makes_modify made]
  exact ⟨.refl _, fun _ => id, rfl, rfl, rfl, rfl⟩

theorem moves_reserve {free : List Name}
    (made : Makes (forIn free PUnit.unit fun n _ => do
      Edit.reserveName n
      pure (ForInStep.yield PUnit.unit) : Inline PUnit) s w t) : Moves s t [] ∧ ∀ n ∈ free, n ∈ t.used := by
  induction free generalizing s with
  | nil =>
    obtain ⟨_, rfl⟩ := makes_pure made
    exact ⟨.refl _, nofun⟩
  | cons n rest ih =>
    rw [List.forIn_cons] at made
    obtain ⟨step, _, first, made⟩ := makes_bind made
    obtain ⟨_, _, lifted, first⟩ := makes_bind first
    obtain ⟨rfl, rfl⟩ := makes_pure first
    obtain ⟨draws, reserved⟩ := Edit.draws_reserveName (makes_lift lifted).1
    obtain ⟨moves, known⟩ := ih made
    refine ⟨(moves_lift lifted draws).trans moves, forall_mem_cons.mpr ⟨?_, known⟩⟩
    exact moves.draws.grows n reserved

/-! ### The call that is replaced -/

def ownNames (f : Func) : NameSet := OrdSet.ofList f.paramNames ∪ f.body.bound

theorem mem_ownNames_of_param {f : Func} (named : n ∈ f.params.filterMap (·.name)) : n ∈ ownNames f := by
  simp [ownNames, Func.paramNames, named]

theorem mem_ownNames_of_binds {f : Func} (bound : n ∈ f.body.all.flatMap Stmt.binds) : n ∈ ownNames f := by
  have assigned : n ∈ f.body.assigned := Flow.mem_assigned.mpr bound
  simp [ownNames, Block.bound, assigned]

theorem splitReturn?_eq_some (split : splitReturn? stmts = some (init, value)) :
    ∃ node, stmts = init ++ [Stmt.ret node value] := by
  unfold splitReturn? at split
  split at split
  · rename_i node value' last
    cases split
    exact ⟨node, (List.dropLast_append_getLast? _ last).symm⟩
  · cases split

theorem splitReturn?_copy (copy : Stmt.CopyAll ρ stmts stmts') (ends : (splitReturn? stmts).isSome = true) :
    (splitReturn? stmts').isSome = true := by
  obtain ⟨⟨init, value⟩, split⟩ := isSome_iff_exists.mp ends
  obtain ⟨node, rfl⟩ := splitReturn?_eq_some split
  suffices found : ∃ init' node' value', stmts' = init' ++ [Stmt.ret node' value'] by
    obtain ⟨init', node', value', rfl⟩ := found
    simp [splitReturn?]
  clear split ends
  induction init generalizing stmts' with
  | nil =>
    obtain ⟨_, _, rfl, ⟨node', value', rfl, _⟩, rfl⟩ := copy
    exact ⟨[], node', value', rfl⟩
  | cons first rest ih =>
    obtain ⟨first', rest', rfl, _, later⟩ := copy
    obtain ⟨init', node', value', rfl⟩ := ih later
    exact ⟨first' :: init', node', value', rfl⟩

/-- New names for those of a set, which were not in use; all other names stay. -/
structure Renews (own old new : NameSet) (ρ : Name → Name) : Prop where
  fresh : ∀ n ∈ own, ρ n ∉ old ∧ ρ n ∈ new
  distinct : ∀ m ∈ own, ∀ n ∈ own, ρ m = ρ n → m = n
  others : ∀ n ∉ own, ρ n = n
  spelled : ∀ n, (ρ n).base = n.base

theorem Renews.renames (renews : Renews own old new ρ) (known : ∀ n ∈ free, n ∈ old) : Renames (· ∈ own ∪ free) ρ := by
  have clash : ∀ m ∈ own, ∀ n ∉ own, n ∈ own ∪ free → ρ m ≠ ρ n := by
    intro m here n outside listed same
    rw [renews.others n outside] at same
    exact (renews.fresh m here).1 (same ▸ known n ((mem_union.mp listed).resolve_left outside))
  refine ⟨fun m n left right same => ?_, fun n _ plain => ?_⟩
  · by_cases here : m ∈ own
    · by_cases there : n ∈ own
      · exact renews.distinct m here n there same
      · exact absurd same (clash m here n there right)
    · by_cases there : n ∈ own
      · exact absurd same.symm (clash n there m here left)
      · rwa [renews.others m here, renews.others n there] at same
  · rwa [Name.IsPlain, renews.spelled n]

theorem renews_refreshNames {own : NameSet} {table : NameMap Name} {s t : Edit.State}
    (made : Edit.Makes (Edit.refreshNames ∅ own.toList) s table t) :
    Renews own s.names.used t.names.used table.toRenaming := by
  obtain ⟨fresh, _, covered, others⟩ := Edit.makes_refreshNames (.empty (· ∈ s.names.used) _) (fun _ known => known) made
  have spelled := Edit.spelled_refreshNames NameMap.spelled_empty made
  refine ⟨fun n mem => ?_, fun m left n right same => ?_, fun n outside => ?_, fun n => ?_⟩
  · obtain ⟨x, found, _⟩ := covered n mem
    simp only [NameMap.toRenaming, found, getD_some]
    exact fresh.drawn n x found
  · obtain ⟨x, found, _⟩ := covered m left
    obtain ⟨y, found', _⟩ := covered n right
    simp only [NameMap.toRenaming, found, found', getD_some] at same
    exact fresh.distinct m n x found (same ▸ found')
  · rw [NameMap.toRenaming, others n outside]
    rfl
  · cases found : table.get? n with
    | none => rw [NameMap.toRenaming, found]; rfl
    | some x =>
      rw [NameMap.toRenaming, found]
      exact spelled n x found

def place (callee : Func) (stmts : List Stmt) : Inline Unit :=
  match callee.ctx with
  | some c => do
    let ctx ← Edit.lit (.host (.context c))
    let body ← Edit.block stmts
    emit [.scope (← Edit.node) none ctx body]
  | none => emit stmts

def finish (site : NodeId) (callee : Func) (stmts : List Stmt) (value : Expr) : Inline Expr := do
  let result ← Edit.freshName "tmp"
  bindNames [result]
  let last ← Edit.assign (.name result) value
  place callee (stmts ++ [last])
  modify fun s => { s with
    freeVars := s.freeVars ∪ callee.freeVars
    env := callee.env.insertAll s.env.entries }
  Edit.noteAt .callInlined site ("`" ++ callee.name ++ "` into `" ++ result.text ++ "`")
  Edit.var result

theorem inline_eq (site : NodeId) (fits : args.length = callee.params.length) :
    inline site callee args = (do
      for n in callee.freeVars.toList do Edit.reserveName n
      let table ← Edit.refreshNames ∅ (OrdSet.ofList callee.paramNames ∪ callee.body.bound).toList
      bindNames table.values
      bindParams table callee.params args
      let body ← Edit.supplied callee.body.refresh
      match splitReturn? (body.rename table.toRenaming).stmts with
      | none => throw (.malformed (.missingReturn callee.name))
      | some (stmts, value) => finish site callee stmts value) := by
  unfold inline
  rw [if_neg (not_not.mpr fits)]
  refine bind_congr fun _ => bind_congr fun table => bind_congr fun _ => bind_congr fun _ => bind_congr fun body => ?_
  cases splitReturn? (body.rename table.toRenaming).stmts with
  | none => rfl
  | some split =>
    obtain ⟨stmts, value⟩ := split
    cases asked : callee.ctx <;> simp only [finish, place, asked, bind_assoc]

theorem length_of_inline (made : Makes (inline site callee args) s e s') : args.length = callee.params.length := by
  by_contra differ
  unfold inline at made
  rw [if_pos differ] at made
  obtain ⟨_, _, thrown, _⟩ := makes_bind made
  cases thrown

def paramTarget (ρ : Name → Name) (p : Param) : Binder :=
  match p.name with
  | some n => .name (ρ n)
  | none => .wildcard

def Passes (next : Nat) (ρ : Name → Name) (pair : Param × Expr) (st : Stmt) : Prop :=
  ∃ node : Node, st = .assign node (paramTarget ρ pair.1) none pair.2 ∧ next ≤ node.id.val

theorem moves_bindParams {table : NameMap Name} {params : List Param}
    (made : Makes (bindParams table params args) s w t) (fits : args.length = params.length) :
    ∃ stmts, Moves s t stmts ∧ Forall₂ (Passes s.1.session.next table.toRenaming) (params.zip args) stmts := by
  induction params generalizing args s with
  | nil =>
    cases List.eq_nil_of_length_eq_zero fits
    obtain ⟨_, rfl⟩ := makes_pure made
    exact ⟨[], .refl _, .nil⟩
  | cons p params ih =>
    obtain ⟨arg, args, rfl⟩ := List.exists_cons_of_length_eq_add_one fits
    obtain ⟨_, _, lifted, made⟩ := makes_bind made
    obtain ⟨draws, node, rfl, new⟩ := Edit.draws_made (makes_lift lifted).1
    obtain ⟨_, _, emitted, made⟩ := makes_bind made
    obtain ⟨stmts, moves, assigned⟩ := ih made (Nat.succ.inj fits)
    have before := (moves_lift lifted draws).trans (moves_emit emitted)
    refine ⟨_, before.trans moves, .cons ⟨node, rfl, new⟩ (assigned.imp ?_)⟩
    rintro pair st ⟨node, rfl, later⟩
    exact ⟨node, rfl, Nat.le_trans before.draws.later later⟩

/-- Statements by themselves, or under a context. All that is added was drawn from some number on. -/
inductive Placed (next : Nat) (stmts : List Stmt) : List Stmt → Prop where
  | bare : Placed next stmts stmts
  | under {node literal : Node} {value : Literal} {id : NodeId} (new : next ≤ node.id.val) (new' : next ≤ literal.id.val)
    (new'' : next ≤ id.val) : Placed next stmts [.scope node none (.lit literal value) ⟨id, stmts⟩]

theorem Placed.mono (places : Placed next stmts placed) (earlier : first ≤ next) : Placed first stmts placed := by
  cases places with
  | bare => exact .bare
  | under new new' new'' =>
    exact .under (Nat.le_trans earlier new) (Nat.le_trans earlier new') (Nat.le_trans earlier new'')

theorem Placed.drawn (places : Placed next stmts placed) (own : ∀ id ∈ Stmt.idsAll stmts, next ≤ id.val) :
    ∀ id ∈ Stmt.idsAll placed, next ≤ id.val := by
  cases places with
  | bare => exact own
  | @under node literal value block new new' new'' =>
    intro id here
    have whole : Stmt.idsAll [.scope node none (.lit literal value) ⟨block, stmts⟩] =
      node.id :: literal.id :: block :: Stmt.idsAll stmts := append_nil _
    simp only [whole, mem_cons] at here
    rcases here with rfl | rfl | rfl | inside
    · exact new
    · exact new'
    · exact new''
    · exact own id inside

theorem moves_place (made : Makes (place callee stmts) s w t) :
    ∃ placed, Moves s t placed ∧ Placed s.1.session.next stmts placed := by
  unfold place at made
  split at made
  · obtain ⟨ctx, t₁, drawn₁, rest₁⟩ := makes_bind made
    obtain ⟨draws₁, node, rfl, new₁⟩ := Edit.draws_made (makes_lift drawn₁).1
    obtain ⟨⟨id, inner⟩, t₂, drawn₂, rest₂⟩ := makes_bind rest₁
    obtain ⟨draws₂, rfl, new₂⟩ := Edit.draws_block (makes_lift drawn₂).1
    obtain ⟨node', t₃, drawn₃, rest₃⟩ := makes_bind rest₂
    obtain ⟨draws₃, new₃⟩ := Edit.draws_node (makes_lift drawn₃).1
    have before := (moves_lift drawn₁ draws₁).trans (moves_lift drawn₂ draws₂)
    refine ⟨_, before.trans ((moves_lift drawn₃ draws₃).trans (moves_emit rest₃)), ?_⟩
    exact .under (Nat.le_trans before.draws.later new₃) new₁ (Nat.le_trans draws₁.later new₂)
  · exact ⟨stmts, moves_emit made, .bare⟩

/-- What is put in place of a call, and before the statement that holds it: the arguments are assigned to the parameters,
and what the body of the function returns is kept in a new name. -/
structure Splice (callee : Func) (site : NodeId) (args : List Expr) (s t : Stage) (e : Expr) where
  ρ : Name → Name
  assigns : List Stmt
  /-- The copy of the body, and what is before its last statement, a return. -/
  body : Block
  init : List Stmt
  back : Node
  value : Expr
  placed : List Stmt
  last : Node
  node : Node
  result : Name
  made : Makes (inline site callee args) s e t
  later : s.1.session.next ≤ t.1.session.next
  grows : ∀ n ∈ s.used, n ∈ t.used
  bound : ∀ n ∈ s.2.bound, n ∈ t.2.bound
  prelude : t.2.prelude = s.2.prelude ++ (assigns ++ placed)
  root : t.2.root = s.2.root
  freeVars : t.2.freeVars = s.2.freeVars ∪ callee.freeVars
  env : t.2.env = callee.env.insertAll s.2.env.entries
  changes : ∃ message, t.1.changes = s.1.changes ++ [⟨.callInlined, some site, message⟩]
  fits : args.length = callee.params.length
  reserved : ∀ n ∈ callee.freeVars, n ∈ t.used
  renews : Renews (ownNames callee) (s.used ∪ callee.freeVars) t.used ρ
  passes : Forall₂ (Passes s.1.session.next ρ) (callee.params.zip args) assigns
  copy : callee.body.Copy ρ body
  ends : body.stmts = init ++ [.ret back value]
  places : Placed s.1.session.next (init ++ [.assign last (.name result) none value]) placed
  new : ∀ id ∈ node.id :: last.id :: body.ids, s.1.session.next ≤ id.val
  spelled : result.base = "tmp"
  fresh : result ∉ s.used
  taken : result ∈ t.used
  shown : e = .var node result

theorem spliced_inline (made : Makes (inline site callee args) s e t) : Nonempty (Splice callee site args s t e) := by
  have fits := length_of_inline made
  have steps := made
  rw [inline_eq site fits] at steps
  obtain ⟨_, t₁, reserved, rest₁⟩ := makes_bind steps
  obtain ⟨moves₁, known⟩ := moves_reserve reserved
  obtain ⟨table, t₂, drawn₂, rest₂⟩ := makes_bind rest₁
  have moves₂ := moves₁.trans (moves_lift drawn₂ (Edit.draws_refreshNames (makes_lift drawn₂).1))
  have renews := renews_refreshNames (makes_lift drawn₂).1
  obtain ⟨_, t₃, bound, rest₃⟩ := makes_bind rest₂
  have moves₃ := moves₂.trans (moves_bindNames bound)
  obtain ⟨_, t₄, passed, rest₄⟩ := makes_bind rest₃
  obtain ⟨assigns, moved, passes⟩ := moves_bindParams passed fits
  have moves₄ := moves₃.trans moved
  obtain ⟨body, t₅, drawn₅, rest₅⟩ := makes_bind rest₄
  obtain ⟨draws₅, new₅⟩ := Edit.draws_supplied callee.body.drawn_refresh (makes_lift drawn₅).1
  have moves₅ := moves₄.trans (moves_lift drawn₅ draws₅)
  obtain ⟨supplied, _⟩ := Edit.makes_supplied (makes_lift drawn₅).1
  split at rest₅
  · cases rest₅
  rename_i init value split
  obtain ⟨back, ends⟩ := splitReturn?_eq_some split
  obtain ⟨result, t₆, drawn₆, rest₆⟩ := makes_bind rest₅
  obtain ⟨fresh, taken, _⟩ := Edit.makes_freshName (makes_lift drawn₆).1
  have moves₆ := moves₅.trans (moves_lift drawn₆ (Edit.draws_freshName (makes_lift drawn₆).1))
  obtain ⟨_, t₇, bound₇, rest₇⟩ := makes_bind rest₆
  have moves₇ := moves₆.trans (moves_bindNames bound₇)
  obtain ⟨_, t₈, drawn₈, rest₈⟩ := makes_bind rest₇
  obtain ⟨draws₈, last, rfl, new₈⟩ := Edit.draws_made (makes_lift drawn₈).1
  have moves₈ := moves₇.trans (moves_lift drawn₈ draws₈)
  obtain ⟨_, t₉, put, rest₉⟩ := makes_bind rest₈
  obtain ⟨placed, moves₉, places⟩ := moves_place put
  have moves := moves₈.trans moves₉
  obtain ⟨_, _, modified, rest⟩ := makes_bind rest₉
  obtain rfl := makes_modify modified
  obtain ⟨_, _, noted, rest⟩ := makes_bind rest
  obtain ⟨note, still⟩ := makes_lift noted
  obtain ⟨shown, kept⟩ := makes_lift rest
  obtain ⟨draws, node, rfl, new⟩ := Edit.draws_made shown
  rw [Edit.makes_noteAt note] at draws new
  have ends' := kept.trans still
  have grown : ∀ n ∈ t₂.used, n ∈ t.used := fun n here => draws.grows n <| moves₉.draws.grows n <| draws₈.grows n <|
    (moves_bindNames bound₇).draws.grows n <| (Edit.draws_freshName (makes_lift drawn₆).1).grows n <| draws₅.grows n <|
      moved.draws.grows n <| (moves_bindNames bound).draws.grows n here
  refine ⟨{
    ρ := table.toRenaming, assigns, body := body.rename table.toRenaming, init, back, value, placed, last, node, result, made
    later := Nat.le_trans moves.draws.later draws.later
    grows := fun n here => draws.grows n (moves.draws.grows n here)
    bound := by rw [ends']; exact moves.bound
    prelude := by rw [ends']; exact moves.prelude.trans (by simp)
    root := by rw [ends']; exact moves.root
    freeVars := by rw [ends', ← moves.freeVars]
    env := by rw [ends', ← moves.env]
    changes := ⟨_, draws.changes.trans (by rw [moves.draws.changes])⟩
    fits
    reserved := fun n free => grown n ((moves_lift drawn₂ (Edit.draws_refreshNames (makes_lift drawn₂).1)).draws.grows n
      (known n free))
    renews := ⟨fun n own => ⟨fun here => ?_, grown _ (renews.fresh n own).2⟩, renews.distinct, renews.others,
      renews.spelled⟩
    passes := passes.imp ?_
    copy := supplied ▸ Block.copy_refresh _ _ _
    ends
    places := places.mono moves₈.draws.later
    new := ?_
    spelled := Edit.spelled_freshName (makes_lift drawn₆).1
    fresh := fun used => fresh (moves₅.draws.grows _ used)
    taken := draws.grows _ <| moves₉.draws.grows _ <| draws₈.grows _ <| (moves_bindNames bound₇).draws.grows _ taken
    shown := rfl }⟩
  · refine (renews.fresh n own).1 ((mem_union.mp here).elim (moves₁.draws.grows _) fun free => ?_)
    exact known _ free
  · rintro pair st ⟨node, rfl, later⟩
    exact ⟨node, rfl, Nat.le_trans moves₃.draws.later later⟩
  · rw [Block.ids_rename]
    refine forall_mem_cons.mpr ⟨Nat.le_trans moves.draws.later new, forall_mem_cons.mpr ⟨?_, fun id here => ?_⟩⟩
    · exact Nat.le_trans moves₇.draws.later new₈
    · exact Nat.le_trans moves₄.draws.later (new₅ id here)

theorem Splice.drawn (splice : Splice callee site args s t e) :
    ∀ id ∈ Stmt.idsAll splice.placed, s.1.session.next ≤ id.val := by
  obtain ⟨_, rest⟩ := forall_mem_cons.mp splice.new
  obtain ⟨last, body⟩ := forall_mem_cons.mp rest
  rw [Block.ids_eq, splice.ends, Stmt.idsAll_append] at body
  obtain ⟨init, back⟩ := forall_mem_append.mp (forall_mem_cons.mp body).2
  refine splice.places.drawn ?_
  rw [Stmt.idsAll_append]
  refine forall_mem_append.mpr ⟨init, forall_mem_cons.mpr ⟨last, fun id here => back id ?_⟩⟩
  exact mem_cons_of_mem _ here

/-! ### Expressions -/

variable {caller : Func} {threshold : Nat}

end Splices

def hooks (caller : Func) (threshold : Nat) : Rebuild Inline := { expr := onExpr caller threshold }

theorem moves_isInlinable (made : Makes (isInlinable caller threshold callee) s b t) :
    Moves s t [] ∧ (b = true → obstacle? caller threshold callee s.2 = none) := by
  unfold isInlinable at made
  split at made
  · obtain ⟨rfl, rfl⟩ := makes_pure made
    exact ⟨.refl _, nofun⟩
  obtain ⟨now, _, asked, made⟩ := makes_bind made
  obtain ⟨rfl, rfl⟩ := makes_get asked
  split at made
  · rename_i clear
    obtain ⟨rfl, rfl⟩ := makes_pure made
    exact ⟨.refl _, fun _ => clear⟩
  · obtain ⟨_, _, traced, made⟩ := makes_bind made
    obtain ⟨rfl, rfl⟩ := makes_pure made
    exact ⟨moves_lift traced (Edit.draws_trace (makes_lift traced).1), nofun⟩

/-- What becomes of expressions between two stages: each is kept as a whole, put together again from what becomes of its
parts, or a call that is replaced after its arguments were treated. -/
inductive Treats (caller : Func) (threshold : Nat) : Stage → Stage → List Expr → List Expr → Prop where
  | nil (s : Stage) : Treats caller threshold s s [] []
  | append {s t u es es' fs fs'} (first : Treats caller threshold s t es es') (second : Treats caller threshold t u fs fs') :
    Treats caller threshold s u (es ++ fs) (es' ++ fs')
  | keep {s e} (whole : isOpaque e = true) : Treats caller threshold s s [e] [e]
  | rebuild {s t u e e'} (clear : isOpaque e = false) (parts : Treats caller threshold s t e.children e'.children)
    (rebuilt : e.Rebuilt e') (moves : Moves t u []) : Treats caller threshold s u [e] [e']
  | replace {s t u v e e' callee args} (clear : isOpaque e = false)
    (parts : Treats caller threshold s t e.children args) (called : e.callee? = some (callee, args.length))
    (moves : Moves t u []) (free : obstacle? caller threshold callee t.2 = none)
    (splice : Splice callee e.id args u v e') : Treats caller threshold s v [e] [e']

theorem Treats.length {es es' : List Expr} (treats : Treats caller threshold s t es es') : es.length = es'.length := by
  induction treats with
  | nil => rfl
  | append _ _ first second => rw [length_append, length_append, first, second]
  | keep | rebuild | replace => rfl

/-- What becomes of a row of expressions comes from what becomes of its first ones and then of the others. -/
theorem Treats.split (treats : Treats caller threshold s t (es ++ fs) own) :
    ∃ u first rest, own = first ++ rest ∧ Treats caller threshold s u es first ∧ Treats caller threshold u t fs rest :=
    by
  have single : ∀ {s t es fs e own}, es ++ fs = [e] → Treats caller threshold s t [e] own →
      ∃ u first rest, own = first ++ rest ∧ Treats caller threshold s u es first ∧ Treats caller threshold u t fs rest := by
    intro s t es fs e own whole treats
    rcases List.append_eq_singleton_iff.mp whole with ⟨rfl, rfl⟩ | ⟨rfl, rfl⟩
    · exact ⟨s, [], own, rfl, .nil s, treats⟩
    · exact ⟨t, own, [], (append_nil own).symm, treats, .nil t⟩
  generalize whole : es ++ fs = gs at treats
  induction treats generalizing es fs with
  | nil s =>
    obtain ⟨rfl, rfl⟩ := List.append_eq_nil_iff.mp whole
    exact ⟨s, [], [], rfl, .nil s, .nil s⟩
  | append first second ih ih' =>
    rcases List.append_eq_append_iff.mp whole with ⟨middle, rfl, rfl⟩ | ⟨middle, rfl, rfl⟩
    · obtain ⟨u, left, right, rfl, before, after⟩ := ih rfl
      exact ⟨u, left, right ++ _, append_assoc _ _ _, before, after.append second⟩
    · obtain ⟨u, left, right, rfl, before, after⟩ := ih' rfl
      exact ⟨u, _ ++ left, right, (append_assoc _ _ _).symm, first.append before, after⟩
  | keep whole' => exact single whole (.keep whole')
  | rebuild clear parts rebuilt moves => exact single whole (.rebuild clear parts rebuilt moves)
  | replace clear parts called moves free splice => exact single whole (.replace clear parts called moves free splice)

theorem treats_hook {e e' : Expr}
    (parts : ifMade.leads s usual fun e' t => e.Rebuilt e' ∧ Treats caller threshold s t e.children e'.children)
    (made : Makes (onExpr caller threshold e usual) s e' t) : Treats caller threshold s t [e] [e'] := by
  unfold onExpr at made
  split at made
  · rename_i whole
    obtain ⟨rfl, rfl⟩ := makes_pure made
    exact .keep whole
  rename_i clear
  have clear := Bool.not_eq_true _ |>.mp clear
  obtain ⟨now, _, asked, made⟩ := makes_bind made
  obtain ⟨rfl, rfl⟩ := makes_get asked
  obtain ⟨inner, t, treated, made⟩ := makes_bind made
  obtain ⟨rebuilt, parts⟩ := parts inner t treated
  split at made
  · rename_i node name callee args
    obtain ⟨b, u, asked, made⟩ := makes_bind made
    obtain ⟨moves, free⟩ := moves_isInlinable asked
    split at made
    · rename_i chosen
      rw [Bool.and_eq_true] at chosen
      obtain ⟨splice⟩ := spliced_inline made
      rw [show node.id = e.id from rebuilt.id] at splice
      simp only [Expr.children, map_nil, append_nil] at parts
      exact .replace clear parts rebuilt.callee.symm moves (free chosen.1) splice
    · obtain ⟨rfl, rfl⟩ := makes_pure made
      exact .rebuild clear parts rebuilt moves
  · obtain ⟨rfl, rfl⟩ := makes_pure made
    exact .rebuild clear parts rebuilt (.refl _)

theorem threads_ifMade : (hooks caller threshold).Threads ifMade (fun _ => True) (Treats caller threshold) where
  name _ := rfl
  nil := .nil
  append := .append
  length := Treats.length
  expr _ parts s _ _ made := treats_hook (parts (fun _ _ => trivial) s) made

def Notes (s t : Stage) (sites : List NodeId) : Prop :=
  ∃ made : List Change, t.1.changes = s.1.changes ++ made ∧
    made.map (fun c => (c.kind, c.site)) = sites.map fun id => (EventKind.callInlined, some id)

theorem Notes.trans (first : Notes s t sites) (second : Notes t u others) : Notes s u (sites ++ others) := by
  obtain ⟨made, changes, noted⟩ := first
  obtain ⟨more, changes', noted'⟩ := second
  exact ⟨made ++ more, by rw [changes', changes, append_assoc], by rw [map_append, map_append, noted, noted']⟩

theorem Notes.of_eq (same : t.1.changes = s.1.changes) : Notes s t [] := ⟨[], by rw [same, append_nil], rfl⟩

theorem Moves.notes (moves : Moves s t stmts) : Notes s t [] := .of_eq moves.draws.changes

theorem Splice.notes (splice : Splice callee site args s t e) : Notes s t [site] := by
  obtain ⟨message, changes⟩ := splice.changes
  exact ⟨_, changes, rfl⟩

/-! ### Statements -/

def treated : Stmt → List Expr
  | .loop .. => []
  | st => st.exprs

def untouched : Stmt → List Expr
  | .loop _ test _ => [test]
  | _ => []

theorem exprs_eq (st : Stmt) : st.exprs = untouched st ++ treated st := by
  cases st <;> rfl

def opened (root : Option NodeId) (s : Stage) : Stage := (s.1, { s.2 with prelude := [], root := root })

def closed (s t : Stage) : Stage := (t.1, { t.2 with prelude := s.2.prelude, root := s.2.root })

theorem closes_withPrelude (made : Makes (withPrelude root action) s out s') :
    ∃ st t, Makes action (opened root s) st t ∧ out = t.2.prelude ++ [st] ∧ s' = closed s t := by
  obtain ⟨outer, _, asked, made⟩ := makes_bind made
  obtain ⟨rfl, rfl⟩ := makes_get asked
  obtain ⟨_, _, started, made⟩ := makes_bind made
  obtain rfl := makes_set started
  obtain ⟨st, _, treated, made⟩ := makes_bind made
  obtain ⟨inner, t, asked, made⟩ := makes_bind made
  obtain ⟨rfl, rfl⟩ := makes_get asked
  obtain ⟨_, _, ended, made⟩ := makes_bind made
  obtain rfl := makes_set ended
  obtain ⟨rfl, rfl⟩ := makes_pure made
  exact ⟨st, t, treated, rfl, rfl⟩

theorem makes_withPrelude (made : Makes action (opened root s) st t) :
    Makes (withPrelude root action) s (t.2.prelude ++ [st]) (closed s t) := by
  have outer : Makes (get : Inline State) s s.2 s := rfl
  have begun : Makes (set (opened root s).2 : Inline PUnit) s ⟨⟩ (opened root s) := rfl
  have inner : Makes (get : Inline State) t t.2 t := rfl
  have ended : Makes (set (closed s t).2 : Inline PUnit) t ⟨⟩ (closed s t) := rfl
  exact outer.bind (begun.bind (made.bind (inner.bind (ended.bind rfl))))

def rowsIn (st : Stmt) : List (List Stmt) := st.blocks.map Block.stmts

theorem allOf_rowsIn (st : Stmt) : Stmt.allOf (rowsIn st).flatten = st.blocks.flatMap Block.all := by
  have rows : ∀ blocks : List Block, Stmt.allOf (blocks.map Block.stmts).flatten = blocks.flatMap Block.all := by
    intro blocks
    induction blocks with
    | nil => rfl
    | cons b rest ih => rw [map_cons, List.flatten_cons, Stmt.allOf_append, ih, flatMap_cons, Block.all_eq]
  exact rows st.blocks

/-- What becomes of rows of statements between two stages. In each statement the expressions are treated and then the
rows in it; what is to go before it does. -/
inductive TreatsAll (caller : Func) (threshold : Nat) :
    Stage → Stage → List (List Stmt) → List (List Stmt) → Prop where
  | nil (s : Stage) : TreatsAll caller threshold s s [] []
  | row {s t rows rows'} (rest : TreatsAll caller threshold s t rows rows') :
    TreatsAll caller threshold s t ([] :: rows) ([] :: rows')
  | stmt {s t u v root st st' own stmts out rows rows'} (exprs : Treats caller threshold (opened root s) t (treated st) own)
    (inner : TreatsAll caller threshold t u (rowsIn st) (rowsIn st')) (rebuilt : st.Rebuilt st')
    (joined : st'.exprs = untouched st ++ own) (ids : st'.blocks.map Block.id = st.blocks.map Block.id)
    (rest : TreatsAll caller threshold (closed s u) v (stmts :: rows) (out :: rows')) :
    TreatsAll caller threshold s v ((st :: stmts) :: rows) ((u.2.prelude ++ st' :: out) :: rows')

theorem TreatsAll.append (first : TreatsAll caller threshold s t rows rows')
    (second : TreatsAll caller threshold t u more more') :
    TreatsAll caller threshold s u (rows ++ more) (rows' ++ more') := by
  induction first with
  | nil => exact second
  | row _ ih => exact .row (ih second)
  | stmt exprs inner rebuilt joined ids _ _ ih => exact .stmt exprs inner rebuilt joined ids (ih second)

theorem TreatsAll.prelude (treats : TreatsAll caller threshold s t rows rows') : t.2.prelude = s.2.prelude := by
  induction treats with
  | nil => rfl
  | row _ ih => exact ih
  | stmt _ _ _ _ _ _ _ rest => exact rest

def TreatsStmt (caller : Func) (threshold : Nat) (s s' : Stage) (st : Stmt) (out : List Stmt) : Prop :=
  ∃ root t u own st', out = u.2.prelude ++ [st'] ∧ s' = closed s u ∧
    Treats caller threshold (opened root s) t (treated st) own ∧
    TreatsAll caller threshold t u (rowsIn st) (rowsIn st') ∧ st.Rebuilt st' ∧ st'.exprs = untouched st ++ own ∧
    st'.blocks.map Block.id = st.blocks.map Block.id

/-- Expressions are treated as they are by the hooks, and statements with what is to go before them. -/
structure Follows (logic : Logic Inline Stage) (caller : Func) (threshold : Nat) (P : Expr → Prop) : Prop where
  threads : (hooks caller threshold).Threads logic P (Treats caller threshold)
  prelude : ∀ {s root action} {post : List Stmt → Stage → Prop},
    (logic.leads (opened root s) action fun st u => post (u.2.prelude ++ [st]) (closed s u)) →
    logic.leads s (withPrelude root action) post

namespace Follows

variable {logic : Logic Inline Stage} {P : Expr → Prop}

theorem own {st : Stmt} (ready : ∀ part ∈ st.all, ∀ e ∈ part.exprs, P e) : ∀ e ∈ st.exprs, P e := ready st st.mem_all

theorem inside {st : Stmt} (ready : ∀ part ∈ st.all, ∀ e ∈ part.exprs, P e) {b : Block} (here : b ∈ st.blocks) :
    ∀ part ∈ b.all, ∀ e ∈ part.exprs, P e := by
  intro part mem
  refine ready part ?_
  rw [st.all_eq]
  exact mem_cons_of_mem _ (mem_flatMap.mpr ⟨b, here, mem⟩)

theorem onExpr (follows : Follows logic caller threshold P) {st : Stmt} (ready : ∀ part ∈ st.all, ∀ e ∈ part.exprs, P e)
    (here : e ∈ st.exprs) (s : Stage) :
    logic.leads s ((hooks caller threshold).onExpr e) fun e' t => Treats caller threshold s t [e] [e'] :=
  Rebuild.threads_onExpr follows.threads e (own ready e here) s

mutual

theorem onStmt (follows : Follows logic caller threshold P) : (st : Stmt) → (∀ part ∈ st.all, ∀ e ∈ part.exprs, P e) →
    (s : Stage) → logic.leads s (onStmt (hooks caller threshold) st) fun out t => TreatsStmt caller threshold s t st out
  | .assign _ _ _ value, ready, s | .effect _ value, ready, s | .ret _ value, ready, s => by
    refine follows.prelude (logic.andThen (follows.onExpr ready mem_cons_self _) fun value' t made => ?_)
    exact logic.pure ⟨_, t, t, _, _, rfl, rfl, made, .nil t, by constructor, rfl, rfl⟩
  | .store _ _ path value, ready, s => by
    obtain ⟨places, _⟩ := forall_mem_append.mp (own ready)
    refine follows.prelude (logic.andThen (Rebuild.threads_onExprs follows.threads path places _) fun path' t row => ?_)
    refine logic.andThen (follows.onExpr ready (mem_append_right _ mem_cons_self) t) fun value' u made => ?_
    exact logic.pure ⟨_, u, u, _, _, rfl, rfl, row.append made, .nil u, .store row.length, rfl, rfl⟩
  | .assert _ test message, ready, s => by
    obtain ⟨_, told⟩ := forall_mem_cons.mp (own ready)
    refine follows.prelude (logic.andThen (follows.onExpr ready mem_cons_self _) fun test' t made => ?_)
    refine logic.andThen (Rebuild.threads_onOption follows.threads message told t) fun message' u row => ?_
    exact logic.pure ⟨_, u, u, _, _, rfl, rfl, made.append row, .nil u, .assert (follows.threads.isSome row), rfl, rfl⟩
  | .when _ e body, ready, s | .each _ _ e body, ready, s | .scope _ _ e body, ready, s => by
    refine follows.prelude (logic.andThen (follows.onExpr ready mem_cons_self _) fun e' t made => ?_)
    refine logic.andThen (follows.onBlock body (inside ready mem_cons_self) t) fun body' u ⟨same, inner⟩ => ?_
    exact logic.pure ⟨_, t, u, _, _, rfl, rfl, made, inner, by constructor, rfl, congrArg (fun id => [id]) same⟩
  | .loop _ test body, ready, s => by
    refine follows.prelude (logic.andThen (follows.onBlock body (inside ready mem_cons_self) _) ?_)
    exact fun body' u ⟨same, inner⟩ =>
      logic.pure ⟨_, _, u, [], _, rfl, rfl, .nil _, inner, .loop, rfl, congrArg (fun id => [id]) same⟩
  | .branch _ test ift iff, ready, s => by
    refine follows.prelude (logic.andThen (follows.onExpr ready mem_cons_self _) fun test' t made => ?_)
    refine logic.andThen (follows.onBlock ift (inside ready mem_cons_self) t) fun ift' u ⟨same, left⟩ => ?_
    refine logic.andThen (follows.onBlock iff (inside ready (mem_cons_of_mem _ mem_cons_self)) u) ?_
    exact fun iff' v ⟨also, right⟩ => logic.pure
      ⟨_, t, v, _, _, rfl, rfl, made, left.append right, .branch, rfl, congrArg₂ (fun id other => [id, other]) same also⟩
  | .skip _, _, s => logic.pure ⟨none, _, opened none s, [], _, rfl, rfl, .nil _, .nil _, .skip, rfl, rfl⟩

theorem onBlock (follows : Follows logic caller threshold P) : (b : Block) → (∀ part ∈ b.all, ∀ e ∈ part.exprs, P e) →
    (s : Stage) → logic.leads s (onBlock (hooks caller threshold) b) fun b' t =>
      b'.id = b.id ∧ TreatsAll caller threshold s t [b.stmts] [b'.stmts]
  | ⟨_, stmts⟩, ready, s => logic.andThen (follows.onStmts stmts ready s) fun _ _ made => logic.pure ⟨rfl, made⟩

theorem onStmts (follows : Follows logic caller threshold P) : (stmts : List Stmt) →
    (∀ part ∈ Stmt.allOf stmts, ∀ e ∈ part.exprs, P e) →
    (s : Stage) → logic.leads s (onStmts (hooks caller threshold) stmts) fun out t =>
      TreatsAll caller threshold s t [stmts] [out]
  | [], _, s => logic.pure (.row (.nil s))
  | st :: rest, ready, s => by
    obtain ⟨first, later⟩ := forall_mem_append.mp ready
    refine logic.andThen (follows.onStmt st first s) ?_
    rintro _ _ ⟨root, t, u, own, st', rfl, rfl, exprs, inner, rebuilt, joined, ids⟩
    refine logic.andThen (follows.onStmts rest later _) fun others v second => logic.pure ?_
    rw [append_assoc]
    exact .stmt exprs inner rebuilt joined ids second

end

end Follows

theorem follows_ifMade : Follows ifMade caller threshold fun _ => True where
  threads := threads_ifMade
  prelude acts out t made := by
    obtain ⟨st, u, acted, rfl, rfl⟩ := closes_withPrelude made
    exact acts st u acted

def start (session : Session) (f : Func) : Stage :=
  ({ session := session, names := .ofFunc f }, { bound := ownNames f })

def isReplaced (events : EventLog) (id : NodeId) : Bool := events.any fun e => e.kind = .callInlined && e.node = some id

theorem isReplaced_iff {pass func : String} {sites : List NodeId} (notes : Notes s t sites) (none : s.1.changes = [])
    (id : NodeId) : isReplaced (t.1.changes.map (·.toEvent pass func)) id = true ↔ id ∈ sites := by
  obtain ⟨made, changes, noted⟩ := notes
  rw [changes, none, nil_append]
  have told : isReplaced (made.map (·.toEvent pass func)) id = true ↔
      (EventKind.callInlined, some id) ∈ made.map fun c => (c.kind, c.site) := by
    simp only [isReplaced, List.any_map, List.any_eq_true, mem_map, Function.comp, Bool.and_eq_true,
      decide_eq_true_eq, Change.toEvent, Prod.mk.injEq]
  rw [told, noted]
  simp

theorem treats_of_edit {f g : Func} {s s' : Edit.State} (made : Edit.Makes (edit threshold f) s g s') :
    ∃ body later, body.id = f.body.id ∧
      TreatsAll f threshold (s, { bound := ownNames f }) (s', later) [f.body.stmts] [body.stmts] ∧
      g = { f with body := body, freeVars := f.freeVars ∪ later.freeVars, env := later.env.insertAll f.env.entries } := by
  have follows : Follows ifMade f threshold _ := follows_ifMade
  obtain ⟨⟨body, later⟩, treated, rfl⟩ := Edit.makes_bind_pure made
  obtain ⟨same, treats⟩ := follows.onBlock f.body (fun _ _ _ _ => trivial) (s, { bound := ownNames f }) body (_, later) treated
  exact ⟨body, later, same, treats, rfl⟩

theorem treats_of_run {cfg : Config} {threshold : Option Nat} {f g : Func} {events : EventLog} {session after : Session}
    (applied : ((Pass.inlining threshold).run cfg f).run session = (.ok (g, events), after)) :
    ∃ t, TreatsAll f (threshold.getD cfg.inlineThreshold) (start session f) t [f.body.stmts] [g.body.stmts] ∧
      g.params = f.params ∧ g.freeVars = f.freeVars ∪ t.2.freeVars ∧ g.env = t.2.env.insertAll f.env.entries ∧
      events = t.1.changes.map (·.toEvent "func-inline" g.name) := by
  obtain ⟨s', made, told⟩ := Edit.makes_and_tells_of_perform applied
  obtain ⟨body, later, _, treats, rfl⟩ := treats_of_edit made
  exact ⟨(s', later), treats, rfl, rfl, rfl, told⟩

end Inlining

end NumLang
