import NumLang.Proofs.Inlined

/-!
Inlining preserves results. The calls that are taken out of the expressions of a statement are carried out before it.
-/

namespace NumLang

variable {others : List Stmt} {args fs : List Expr} {site : NodeId} {V : Type}

open Fueled

namespace Machine

variable {m : Machine V Unit} {σ τ : Store V} {cost : Nat} {es : List Expr} {vs : List V} {e : Expr}

theorem gives_computeAll_cons :
    (m.computeAll (e :: es) σ).Gives cost vs ↔ ∃ first rest v others, cost = first + rest ∧ vs = v :: others ∧
      (m.compute e σ).Gives first v ∧ (m.computeAll es σ).Gives rest others := by
  constructor
  · intro given
    obtain ⟨first, _, v, rfl, head, given⟩ := gives_bind.mp given
    obtain ⟨rest, _, others, rfl, tail, given⟩ := gives_bind.mp given
    obtain ⟨rfl, rfl⟩ := gives_pure.mp given
    exact ⟨first, rest, v, others, rfl, rfl, head, tail⟩
  · rintro ⟨first, rest, v, others, rfl, rfl, head, tail⟩
    refine gives_bind.mpr ⟨first, rest, v, rfl, head, ?_⟩
    exact gives_bind.mpr ⟨rest, 0, others, rfl, tail, gives_pure.mpr ⟨rfl, rfl⟩⟩

theorem gives_computeAll_append :
    (m.computeAll (es ++ fs) σ).Gives cost vs ↔ ∃ first rest some others, cost = first + rest ∧ vs = some ++ others ∧
      (m.computeAll es σ).Gives first some ∧ (m.computeAll fs σ).Gives rest others := by
  induction es generalizing cost vs with
  | nil =>
    constructor
    · intro given
      exact ⟨0, cost, [], vs, (Nat.zero_add cost).symm, rfl, gives_pure.mpr ⟨rfl, rfl⟩, given⟩
    · rintro ⟨_, rest, _, others, rfl, rfl, none, tail⟩
      obtain ⟨rfl, rfl⟩ := gives_pure.mp none
      rwa [Nat.zero_add]
  | cons e es ih =>
    constructor
    · intro given
      obtain ⟨first, _, v, _, rfl, rfl, head, given⟩ := gives_computeAll_cons.mp given
      obtain ⟨middle, rest, some, others, rfl, rfl, row, tail⟩ := ih.mp given
      refine ⟨first + middle, rest, v :: some, others, (Nat.add_assoc _ _ _).symm, rfl, ?_, tail⟩
      exact gives_computeAll_cons.mpr ⟨first, middle, v, some, rfl, rfl, head, row⟩
    · rintro ⟨_, rest, _, others, rfl, rfl, given, tail⟩
      obtain ⟨first, middle, v, some, rfl, rfl, head, row⟩ := gives_computeAll_cons.mp given
      refine gives_computeAll_cons.mpr ⟨first, middle + rest, v, some ++ others, Nat.add_assoc _ _ _, rfl, head, ?_⟩
      exact ih.mpr ⟨middle, rest, some, others, rfl, rfl, row, tail⟩

theorem computeAll_single (e : Expr) (σ : Store V) : m.computeAll [e] σ = (m.compute e σ >>= fun v => pure [v]) := by
  simp [computeAll]

theorem gives_single : (m.computeAll [e] σ).Gives cost [v] ↔ (m.compute e σ).Gives cost v := by
  rw [computeAll_single]
  constructor
  · intro given
    obtain ⟨first, _, w, rfl, head, given⟩ := gives_bind.mp given
    obtain ⟨rfl, same⟩ := gives_pure.mp given
    cases same
    exact head
  · intro given
    exact gives_bind.mpr ⟨cost, 0, v, rfl, given, gives_pure.mpr ⟨rfl, rfl⟩⟩

theorem gives_moreAll (given : (m.computeAll es σ).Gives cost vs)
    (more : ∀ n v, σ.value? n = some v → τ.value? n = some v) : (m.computeAll es τ).Gives cost vs := by
  obtain ⟨_, given, rfl⟩ := couples_computeAll more (List.forall₂_same.mpr fun e _ => e.copy_self) cost vs given
  exact given

end Machine

namespace Inlining

open Machine

/-! ### Expressions -/

section Expressions

variable {m : Machine V Unit} {s s' t : Stage} {e e' : Expr} {es es' es'' : List Expr} {stmts : List Stmt}
  {callee : Func}

theorem only_of_extends (more : Extends used σ τ) (grows : ∀ n ∈ used, n ∈ used') (n : Name) (v : V)
    (held : (only used σ).value? n = some v) : (only used' τ).value? n = some v := by
  obtain ⟨known, held⟩ := more.only held
  rwa [value?_only, if_pos (grows n known)]

/-- No name goes out of use, and statements are added before the current one. -/
structure Adds (s s' : Stage) (stmts : List Stmt) : Prop where
  grows : ∀ n ∈ s.used, n ∈ s'.used
  prelude : s'.2.prelude = s.2.prelude ++ stmts

theorem Adds.refl (s : Stage) : Adds s s [] := ⟨fun _ => id, (append_nil _).symm⟩

theorem Adds.trans (first : Adds s t stmts) (second : Adds t s' others) : Adds s s' (stmts ++ others) :=
  ⟨fun n known => second.grows n (first.grows n known), by rw [second.prelude, first.prelude, append_assoc]⟩

theorem Moves.adds (moves : Moves s t stmts) : Adds s t stmts := ⟨moves.draws.grows, moves.prelude⟩

theorem Splice.adds (splice : Splice callee site args s t e) : Adds s t (splice.assigns ++ splice.placed) := ⟨splice.grows, splice.prelude⟩

/-- Expressions have become others with statements before them. Together these take the fuel that the expressions
take, and they give the same values, without touching a name that was in use. -/
def Hoists (m : Machine V Unit) (s s' : Stage) (es es' : List Expr) : Prop :=
  ∃ stmts, Adds s s' stmts ∧ ∀ (τ : Store V) (cost : Nat) (vs : List V),
    (m.computeAll es (only s.used τ)).Gives cost vs →
    ∃ before after τ', cost = before + after ∧ (m.performAll stmts τ).Gives before (.next τ') ∧ Extends s.used τ τ' ∧
      (m.computeAll es' (only s'.used τ')).Gives after vs

namespace Hoists

theorem adds (hoists : Hoists m s s' es es') : ∃ stmts, Adds s s' stmts := by
  obtain ⟨stmts, added, _⟩ := hoists
  exact ⟨stmts, added⟩

theorem grows (hoists : Hoists m s s' es es') : ∀ n ∈ s.used, n ∈ s'.used := by
  obtain ⟨_, added, _⟩ := hoists
  exact added.grows

theorem keep (quiet : Adds s s' []) (es : List Expr) : Hoists m s s' es es := by
  refine ⟨[], quiet, fun τ cost vs given => ?_⟩
  refine ⟨0, cost, τ, (Nat.zero_add cost).symm, gives_pure.mpr ⟨rfl, rfl⟩, .refl _ _, ?_⟩
  exact gives_moreAll given (only_of_extends (.refl _ τ) quiet.grows)

theorem trans (first : Hoists m s t es es') (second : Hoists m t s' es' es'') : Hoists m s s' es es'' := by
  obtain ⟨stmts₁, added₁, runs₁⟩ := first
  obtain ⟨stmts₂, added₂, runs₂⟩ := second
  refine ⟨stmts₁ ++ stmts₂, added₁.trans added₂, fun τ cost vs given => ?_⟩
  obtain ⟨before₁, _, τ₁, rfl, ran₁, more₁, given⟩ := runs₁ τ cost vs given
  obtain ⟨before₂, after, τ₂, rfl, ran₂, more₂, given⟩ := runs₂ τ₁ _ vs given
  refine ⟨before₁ + before₂, after, τ₂, (Nat.add_assoc _ _ _).symm, gives_append ran₁ ran₂, ?_, given⟩
  exact more₁.trans more₂ added₁.grows

theorem append (first : Hoists m s t es es') (rest : Hoists m t s' fs fs') : Hoists m s s' (es ++ fs) (es' ++ fs') := by
  obtain ⟨stmts₁, added₁, runs₁⟩ := first
  obtain ⟨stmts₂, added₂, runs₂⟩ := rest
  refine ⟨stmts₁ ++ stmts₂, added₁.trans added₂, fun τ cost vs given => ?_⟩
  obtain ⟨_, _, some, others, rfl, rfl, head, tail⟩ := gives_computeAll_append.mp given
  obtain ⟨before₁, after₁, τ₁, rfl, ran₁, more₁, head⟩ := runs₁ τ _ some head
  have tail := gives_moreAll tail (only_of_extends more₁ added₁.grows)
  obtain ⟨before₂, after₂, τ₂, rfl, ran₂, more₂, tail⟩ := runs₂ τ₁ _ others tail
  have head := gives_moreAll head (only_of_extends more₂ added₂.grows)
  refine ⟨before₁ + before₂, after₁ + after₂, τ₂, by omega, gives_append ran₁ ran₂, ?_, ?_⟩
  · exact more₁.trans more₂ added₁.grows
  · exact gives_computeAll_append.mpr ⟨after₁, after₂, some, others, rfl, rfl, head, tail⟩

theorem form (parts : Hoists m s s' es es') (whole : ∀ σ, m.compute e σ = m.computeAll es σ >>= k)
    (whole' : ∀ σ, m.compute e' σ = m.computeAll es' σ >>= k) : Hoists m s s' [e] [e'] := by
  obtain ⟨stmts, added, runs⟩ := parts
  refine ⟨stmts, added, fun τ cost vs given => ?_⟩
  obtain ⟨cost, _, v, _, rfl, rfl, computed, none⟩ := gives_computeAll_cons.mp given
  obtain ⟨rfl, rfl⟩ := gives_pure.mp none
  rw [whole] at computed
  obtain ⟨_, last, values, rfl, row, result⟩ := gives_bind.mp computed
  obtain ⟨before, after, τ', rfl, ran, more, row'⟩ := runs τ _ values row
  refine ⟨before, after + last, τ', by omega, ran, more, gives_single.mpr ?_⟩
  rw [whole']
  exact gives_bind.mpr ⟨after, last, values, rfl, row', result⟩

theorem stuck (adds : ∃ stmts, Adds s s' stmts) (stuck : ∀ σ, m.compute e σ = .demand none) :
    Hoists m s s' [e] es' := by
  obtain ⟨stmts, added⟩ := adds
  refine ⟨stmts, added, fun τ cost vs given => ?_⟩
  obtain ⟨_, _, _, _, _, _, computed, _⟩ := gives_computeAll_cons.mp given
  rw [stuck] at computed
  nomatch (gives_demand.mp computed).2

theorem inline (shaped : m.Shaped) (splice : Splice callee site args s s' e') (single : returnsIn callee.body = 1) :
    Hoists m s s' [.call node name (some (.function callee)) args []] [e'] := by
  refine ⟨_, splice.adds, fun τ cost vs given => ?_⟩
  obtain ⟨_, _, v, _, rfl, rfl, whole, none⟩ := gives_computeAll_cons.mp given
  obtain ⟨rfl, rfl⟩ := gives_pure.mp none
  obtain ⟨first, later, values, rfl, computed, called⟩ := gives_bind.mp whole
  obtain ⟨τ', ran, more, result⟩ := splice.gives shaped single computed called
  exact ⟨first + later, 0, τ', rfl, ran, more, gives_single.mpr result⟩

/-- An expression whose parts are all computed, once each, has the same value from what has become of them. -/
theorem rebuild (clear : isOpaque e = false) (rebuilt : e.Rebuilt e') (parts : Hoists m s s' e.children e'.children) :
    Hoists m s s' [e] [e'] := by
  cases e.valued with
  | var | lit =>
    rw [← rebuilt.filled] at parts ⊢
    exact parts.append (.keep (.refl s') _)
  | cond => cases clear
  | form formed => exact parts.form (compute_form formed) (compute_form (rebuilt.valued.1.trans formed))
  | none valueless =>
    cases called : e.callee? with
    | none => exact .stuck parts.adds (compute_valueless valueless called)
    | some call => exact parts.form (compute_call called) (compute_call (rebuilt.callee.trans called))

end Hoists

variable {caller : Func} {threshold : Nat}

theorem returnsIn_of_obstacle? (free : obstacle? caller threshold callee now = none) : returnsIn callee.body = 1 := by
  by_contra several
  simp [obstacle?, several] at free

theorem hoists_of_treats (shaped : m.Shaped) (treats : Treats caller threshold s s' es es') : Hoists m s s' es es' := by
  induction treats with
  | nil => exact .keep (.refl _) _
  | append _ _ first second => exact first.append second
  | keep => exact .keep (.refl _) _
  | rebuild clear _ rebuilt moves parts => exact (parts.rebuild clear rebuilt).trans (.keep moves.adds _)
  | @replace _ _ _ _ e _ callee args _ _ called moves free splice parts =>
    obtain ⟨node, name, args', rfl, _⟩ := Expr.callee?_eq_some called
    simp only [Expr.children, map_nil, append_nil] at parts
    have treated : Hoists m _ _ [.call node name (some (.function callee)) args' []]
        [.call node name (some (.function callee)) args []] := parts.form (k := m.call callee) (fun _ => rfl) fun _ => rfl
    exact treated.trans ((Hoists.keep moves.adds _).trans (.inline shaped splice (returnsIn_of_obstacle? free)))

theorem stays_of_treats (treats : Treats caller threshold s s' es es') (silent : ∀ part ∈ Expr.allOf es, part.calls = []) :
    es' = es ∧ Adds s s' [] := by
  induction treats with
  | nil => exact ⟨rfl, .refl _⟩
  | append _ _ first second =>
    rw [Expr.allOf_append, forall_mem_append] at silent
    obtain ⟨rfl, quiet⟩ := first silent.1
    obtain ⟨rfl, quiet'⟩ := second silent.2
    exact ⟨rfl, quiet.trans quiet'⟩
  | keep => exact ⟨rfl, .refl _⟩
  | rebuild _ _ rebuilt moves parts =>
    rw [Expr.allOf, Expr.all_eq, forall_mem_append, forall_mem_cons] at silent
    obtain ⟨same, quiet⟩ := parts silent.1.2
    exact ⟨congrArg (fun e => [e]) (rebuilt.eq same), quiet.trans moves.adds⟩
  | replace _ _ called =>
    obtain ⟨node, name, args', rfl, _⟩ := Expr.callee?_eq_some called
    cases silent _ mem_cons_self

end Expressions

/-! ### Statements -/

section Statements

variable {m : Machine V Unit} {s s' t u : Stage} {known : NameSet} {es es' : List Expr} {st st' : Stmt}

/-- The second store holds what the first one holds, which is nothing but known names. -/
abbrev Shows (known : NameSet) : Store V → Store V → Prop := Mirrors (· ∈ known) (fun n => n) (fun _ => False) ∅

theorem hygienic_self (known : NameSet) : Hygienic (· ∈ known) (fun n => n) fun _ => False :=
  ⟨fun _ _ _ _ same => same, fun _ _ => id⟩

def Runs (m : Machine V Unit) (known : NameSet) (stmts out : List Stmt) : Prop :=
  ∀ σ τ, Shows known σ τ → Couples (Ending.Rel (Shows known)) (m.performAll stmts σ) (m.performAll out τ)

/-- A statement goes on from the values of its expressions. The statements before it compute them first. -/
theorem Hoists.stmt (hoists : Hoists m (opened root s) t es es') (quiet : Adds t u []) (used : ∀ n ∈ known, n ∈ s.used)
    {k l : List V → Store V → Fueled (Ending V)} (first : ∀ σ, m.perform st σ = m.computeAll es σ >>= (k · σ))
    (second : ∀ τ, m.perform st' τ = m.computeAll es' τ >>= (l · τ))
    (rest : ∀ vs σ τ, Shows known σ τ → Couples (Ending.Rel (Shows known)) (k vs σ) (l vs τ)) :
    Runs m known [st] (u.2.prelude ++ [st']) := by
  obtain ⟨stmts, added, runs⟩ := hoists
  have whole : u.2.prelude = stmts := by rw [quiet.prelude, added.prelude, append_nil]; rfl
  intro σ τ shows cost r given
  rw [performAll_single, first] at given
  obtain ⟨_, later, vs, rfl, row, result⟩ := gives_bind.mp given
  have seen : ∀ n v, σ.value? n = some v → (only s.used τ).value? n = some v := by
    intro n v held
    obtain ⟨here, held⟩ := shows.seen n v held
    rwa [value?_only, if_pos (used n here)]
  obtain ⟨before, after, τ', rfl, ran, more, row⟩ := runs τ _ vs (gives_moreAll row seen)
  have shows' : Shows known σ τ' := by
    refine ⟨fun n v held => ?_, fun _ _ never => never.elim⟩
    obtain ⟨here, held⟩ := shows.seen n v held
    exact ⟨here, more n v (used n here) held⟩
  obtain ⟨r', result, ends⟩ := rest vs σ τ' shows' later r result
  refine ⟨r', ?_, ends⟩
  rw [whole, Nat.add_assoc]
  refine gives_append ran ?_
  rw [performAll_single, second]
  refine gives_bind.mpr ⟨after, later, vs, rfl, gives_moreAll row fun n v held => ?_, result⟩
  exact ((Extends.refl t.used τ').only held).2

def single {α : Type} (k : V → Fueled α) : List V → Fueled α
  | [v] => k v
  | _ => .demand none

theorem bind_eq_single {α : Type} (e : Expr) (σ : Store V) (k : V → Fueled α) :
    m.compute e σ >>= k = m.computeAll [e] σ >>= single k := by
  simp [computeAll_single, single]

variable {root : Option NodeId} {σ τ : Store V}

theorem Hoists.stmt₁ (hoists : Hoists m (opened root s) t [e] [e']) (quiet : Adds t u [])
    (used : ∀ n ∈ known, n ∈ s.used) {k l : V → Store V → Fueled (Ending V)}
    (first : ∀ σ, m.perform st σ = m.compute e σ >>= (k · σ))
    (second : ∀ τ, m.perform st' τ = m.compute e' τ >>= (l · τ))
    (rest : ∀ v σ τ, Shows known σ τ → Couples (Ending.Rel (Shows known)) (k v σ) (l v τ)) :
    Runs m known [st] (u.2.prelude ++ [st']) := by
  refine hoists.stmt quiet used (k := fun vs σ => single (k · σ) vs) (l := fun vs τ => single (l · τ) vs)
    (fun σ => ?_) (fun τ => ?_) fun vs σ τ shows => ?_
  · rw [first, bind_eq_single]
  · rw [second, bind_eq_single]
  · match vs with
    | [v] => exact rest v σ τ shows
    | [] | _ :: _ :: _ => exact couples_stuck

theorem Runs.of_quiet (quiet : Adds (opened root s) u [])
    (runs : ∀ σ τ, Shows known σ τ → Couples (Ending.Rel (Shows known)) (m.perform st σ) (m.perform st' τ)) :
    Runs m known [st] (u.2.prelude ++ [st']) := by
  intro σ τ shows
  have none : u.2.prelude = [] := quiet.prelude
  rw [none, nil_append, performAll_single, performAll_single]
  exact runs σ τ shows

theorem Runs.append (head : Runs m known first first') (tail : Runs m known others others') :
    Runs m known (first ++ others) (first' ++ others') := by
  intro σ τ shows
  rw [performAll_append, performAll_append]
  exact (head σ τ shows).follow tail

theorem Runs.block {b b' : Block} (runs : Runs m known b.stmts b'.stmts) (shows : Shows known σ τ) :
    Couples (Ending.Rel (Shows known)) (m.performBlock b σ) (m.performBlock b' τ) := by
  obtain ⟨id, stmts⟩ := b
  obtain ⟨id', stmts'⟩ := b'
  exact runs σ τ shows

def passedOver : Stmt → List Expr
  | .scope _ _ ctx _ => [ctx]
  | .assert _ _ msg => msg.toList
  | _ => []

def Silent (s : Stmt) : Prop := ∀ e ∈ passedOver s, ∀ part ∈ e.all, part.calls = []

instance : DecidablePred Silent := fun _ => inferInstanceAs (Decidable (∀ _ ∈ _, ∀ _ ∈ _, _ = _))

/-- Replaces an element of a list, from the places and the new element, which comes last. -/
def replacing (m : Machine V Unit) (node : Node) (name : Name) (vs : List V) (σ : Store V) : Fueled (Ending V) := do
  let elt ← .demand vs.getLast?
  let list ← .demand (σ.value? name)
  return .next (σ.writeAll ⟨.stmt, node.id⟩ [(name, ← .demand (m.replace list vs.dropLast elt))])

theorem perform_store (node : Node) (name : Name) (path : List Expr) (value : Expr) (σ : Store V) :
    m.perform (.store node name path value) σ = m.computeAll (path ++ [value]) σ >>= (replacing m node name · σ) := by
  have row : m.computeAll (path ++ [value]) σ = do
      let steps ← m.computeAll path σ
      let elt ← m.compute value σ
      return steps ++ [elt] := by
    induction path with
    | nil => simp [computeAll]
    | cons e rest ih => simp [computeAll, ih]
  have certain : ∀ elt : V, Fueled.demand (some elt) = pure elt := fun _ => rfl
  simp only [row, bind_assoc, pure_bind, replacing, List.getLast?_concat, List.dropLast_concat, certain]
  rfl

variable {caller : Func} {threshold : Nat}

theorem Shows.reads (shows : Shows known σ τ) (n : Name) (v : V) (held : σ.value? n = some v) :
    τ.value? n = some v := (shows.seen n v held).2

theorem couples_put_self (shaped : m.Shaped) {target : Binder} (inside : ∀ n ∈ target.names, n ∈ known) (site : Site)
    (v : V) (shows : Shows known σ τ) : Couples (Shows known) (m.put target site v σ) (m.put target site v τ) := by
  have both := couples_put shaped (hygienic_self known) inside site site v shows
  rwa [Binder.rename_self] at both

theorem runs_stmt (shaped : m.Shaped) {own : List Expr}
    (exprs : Treats caller threshold (opened root s) t (treated st) own) (quiet : Adds t u [])
    (rebuilt : st.Rebuilt st') (joined : st'.exprs = untouched st ++ own)
    (inner : Forall₂ (Runs m known) (rowsIn st) (rowsIn st')) (silent : Silent st) (inside : ∀ n ∈ st.binds, n ∈ known)
    (used : ∀ n ∈ known, n ∈ s.used) : Runs m known [st] (u.2.prelude ++ [st']) := by
  cases rebuilt with
  | @assign _ _ _ value value' =>
    obtain rfl : [value'] = own := joined
    refine (hoists_of_treats shaped exprs).stmt₁ quiet used (fun _ => rfl) (fun _ => rfl) fun v σ τ shows => ?_
    exact (couples_put_self shaped inside _ v shows).bind fun _ _ shows => couples_pure shows
  | @store node name path path' value value' =>
    obtain rfl : path' ++ [value'] = own := joined
    refine (hoists_of_treats shaped exprs).stmt quiet used (k := fun vs σ => replacing m node name vs σ)
      (l := fun vs τ => replacing m node name vs τ) (fun σ => perform_store ..) (fun τ => perform_store ..)
      fun vs σ τ shows => ?_
    refine (couples_refl _).with fun elt => ?_
    refine (couples_demand fun list held => ⟨list, shows.reads name list held, rfl⟩ : Couples Eq _ _).with fun list => ?_
    refine (couples_refl _).with fun v => couples_pure ?_
    exact (shows.write (hygienic_self known) rfl inside _ _ :
      Shows known (σ.writeAll _ ([name].zip [v])) (τ.writeAll _ (([name].map fun n => n).zip [v])))
  | @«when» _ _ test' =>
    obtain rfl : [test'] = own := joined
    obtain ⟨body, _⟩ := forall₂_cons.mp inner
    refine (hoists_of_treats shaped exprs).stmt₁ quiet used (fun _ => bind_assoc _ _ _) (fun _ => bind_assoc _ _ _)
      fun v σ τ shows => (couples_refl _).with fun holds => ?_
    cases holds with
    | true => exact body.block shows
    | false => exact couples_pure shows
  | @branch _ _ test' =>
    obtain rfl : [test'] = own := joined
    obtain ⟨ift, rest⟩ := forall₂_cons.mp inner
    obtain ⟨iff, _⟩ := forall₂_cons.mp rest
    refine (hoists_of_treats shaped exprs).stmt₁ quiet used (fun _ => bind_assoc _ _ _) (fun _ => bind_assoc _ _ _)
      fun v σ τ shows => (couples_refl _).with fun holds => ?_
    cases holds with
    | true => exact ift.block shows
    | false => exact iff.block shows
  | @loop _ test test' =>
    obtain ⟨same, rfl⟩ : test' = test ∧ [] = own := List.cons_eq_cons.mp joined
    obtain ⟨body, _⟩ := forall₂_cons.mp inner
    obtain ⟨_, still⟩ := stays_of_treats exprs (forall_mem_nil _)
    refine .of_quiet (still.trans quiet) fun σ τ shows => ?_
    refine couples_repeatWhile (fun σ τ shows => ?_) (fun σ τ shows => body.block shows) shows
    rw [same]
    exact couples_decided (couples_more shows.reads test)
  | @each _ _ _ iterable' =>
    obtain rfl : [iterable'] = own := joined
    obtain ⟨body, _⟩ := forall₂_cons.mp inner
    refine (hoists_of_treats shaped exprs).stmt₁ quiet used (fun _ => rfl) (fun _ => rfl) fun v σ τ shows => ?_
    refine (couples_refl _).with fun elements => couples_forEach (fun v σ τ shows => ?_) elements shows
    exact (couples_put_self shaped inside _ v shows).bind fun _ _ shows => body.block shows
  | @scope _ name ctx ctx' =>
    obtain ⟨body, _⟩ := forall₂_cons.mp inner
    obtain ⟨_, still⟩ := stays_of_treats exprs fun part here => silent ctx mem_cons_self part (by simpa [treated, Stmt.exprs, Expr.allOf] using here)
    refine .of_quiet (still.trans quiet) fun σ τ shows => ?_
    cases name with
    | none => exact body.block shows
    | some n => exact couples_stuck
  | @assert _ test test' message message' =>
    have exprs : Treats caller threshold (opened root s) t ([test] ++ message.toList) own := exprs
    obtain ⟨w, first, rest, whole, tested, told⟩ := exprs.split
    obtain ⟨test'', rfl⟩ := List.length_eq_one_iff.mp tested.length.symm
    obtain ⟨rfl, _⟩ : test' = test'' ∧ message'.toList = rest := List.cons_eq_cons.mp (joined.trans whole)
    obtain ⟨_, still⟩ := stays_of_treats told fun part here => by
      obtain ⟨e, mem, inside⟩ := Expr.mem_allOf_iff.mp here
      exact silent e mem part inside
    refine (hoists_of_treats shaped tested).stmt₁ (still.trans quiet) used (fun _ => bind_assoc _ _ _)
      (fun _ => bind_assoc _ _ _) fun v σ τ shows => (couples_refl _).with fun holds => ?_
    cases holds with
    | true => exact couples_pure shows
    | false => exact couples_stuck
  | @effect _ _ value' =>
    obtain rfl : [value'] = own := joined
    exact (hoists_of_treats shaped exprs).stmt₁ quiet used (fun _ => rfl) (fun _ => rfl)
      fun _ _ _ shows => couples_pure shows
  | @ret _ _ value' =>
    obtain rfl : [value'] = own := joined
    exact (hoists_of_treats shaped exprs).stmt₁ quiet used (fun _ => rfl) (fun _ => rfl) fun _ _ _ _ => couples_pure rfl
  | skip =>
    obtain ⟨_, still⟩ := stays_of_treats exprs (forall_mem_nil _)
    exact .of_quiet (still.trans quiet) fun _ _ shows => couples_pure shows

theorem runs_of_treats (shaped : m.Shaped) {rows rows' : List (List Stmt)}
    (treats : TreatsAll caller threshold s t rows rows')
    (ready : ∀ part ∈ Stmt.allOf rows.flatten, Silent part ∧ ∀ n ∈ part.binds, n ∈ known)
    (used : ∀ n ∈ known, n ∈ s.used) : Adds s t [] ∧ Forall₂ (Runs m known) rows rows' := by
  induction treats with
  | nil => exact ⟨.refl _, .nil⟩
  | row _ ih =>
    obtain ⟨quiet, runs⟩ := ih ready used
    exact ⟨quiet, .cons (fun σ τ shows => couples_pure shows) runs⟩
  | @stmt s t u v _ st _ _ _ _ _ _ exprs _ rebuilt joined _ _ inner rest =>
    rw [List.flatten_cons, cons_append, Stmt.allOf, forall_mem_append, st.all_eq, forall_mem_cons] at ready
    obtain ⟨⟨⟨silent, bound⟩, below⟩, later⟩ := ready
    rw [← allOf_rowsIn] at below
    have grown := (hoists_of_treats (m := m) shaped exprs).grows
    obtain ⟨quiet, blocks⟩ := inner below fun n here => grown n (used n here)
    have first := runs_stmt shaped exprs quiet rebuilt joined blocks silent bound used
    have closes : Adds s (closed s u) [] := ⟨fun n here => quiet.grows n (grown n here), (append_nil _).symm⟩
    obtain ⟨quiet', runs⟩ := rest later fun n here => closes.grows n (used n here)
    obtain ⟨others, rows⟩ := forall₂_cons.mp runs
    refine ⟨closes.trans quiet', .cons ?_ rows⟩
    rw [List.append_cons]
    exact first.append others

end Statements

/-! ### Functions -/

section Functions

variable {m : Machine V Unit} {f : Func} {args : List V}

theorem shows_start (started : bindArgs f.params args ∅ = some σ) : Shows f.allNames σ σ := by
  refine ⟨fun n v held => ⟨?_, held⟩, fun _ _ never => never.elim⟩
  have named : n ∈ f.paramNames := by
    by_contra absent
    have unheld := get?_bindArgs started absent
    rw [Store.value?, unheld] at held
    cases held
  simp [Func.allNames, named]

theorem gives_of_treats (shaped : m.Shaped) {g : Func}
    (treats : TreatsAll f threshold (start session f) t [f.body.stmts] [g.body.stmts]) (params : g.params = f.params)
    (silent : ∀ s ∈ f.body.all, Silent s) (given : (m.call f args).Gives cost v) : (m.call g args).Gives cost v := by
  have ready : ∀ part ∈ Stmt.allOf [f.body.stmts].flatten, Silent part ∧ ∀ n ∈ part.binds, n ∈ f.allNames := by
    intro part mem
    have inside : part ∈ f.body.all := by simpa [Block.all_eq] using mem
    exact ⟨silent part inside, fun n bound => Func.mem_allNames_of_binds inside bound⟩
  obtain ⟨_, rows⟩ := runs_of_treats shaped treats ready fun _ known => known
  obtain ⟨runs, _⟩ := forall₂_cons.mp rows
  obtain ⟨σ, started, returned⟩ := gives_call.mp given
  obtain ⟨r, returned', ends⟩ := runs.block (shows_start started) cost _ returned
  match r, ends with
  | .ret _, rfl => exact gives_call.mpr ⟨σ, params ▸ started, returned'⟩

end Functions

end Inlining

namespace Calls

/-- Inlining preserves results, with any bound on the size of what is inlined: the function with its calls replaced
returns what the function returns. No call may stand where the evaluator does not come by: in what a `with` statement
enters or an assertion tells. -/
theorem run_inlining (cfg : Config) (threshold : Option Nat) (f g : Func) (events : EventLog) (session after : Session)
    (applied : ((Pass.inlining threshold).run cfg f).run session = (.ok (g, events), after))
    (silent : ∀ s ∈ f.body.all, Inlining.Silent s) (args : List Value) (v : Value) (returns : run f args = some v) :
    run g args = some v := by
  obtain ⟨t, treats, params, _⟩ := Inlining.treats_of_run applied
  obtain ⟨⟨_, rest⟩, ran, rfl⟩ := Option.map_eq_some_iff.mp returns
  obtain ⟨cost, whole, given⟩ := Fueled.gives_of_run ran
  have given' := Inlining.gives_of_treats Machine.shaped_reference treats params silent given
  rw [run, whole, given' rest]
  rfl

open Sample in
def doubling : Func :=
  { func ["y"] [] [set 10 "x" (add 11 (var 12 "y") (var 13 "y")), .ret (node 14) (var 15 "x")] with name := "double" }

def callOf (id : Nat) (f : Func) (args : List Expr) : Expr :=
  .call (Sample.node id) (Sample.name f.name) (some (.function f)) args []

open Sample in
/-- Grows by calls inside the arguments of calls, where the test of the loop calls too, and returns another call. -/
def growing : Func :=
  func ["x"] [] [
    set 10 "s" (int 11 0),
    .loop (node 12) (less 13 (callOf 14 doubling [var 15 "s"]) (var 16 "x")) ⟨⟨17⟩, [
      set 18 "s" (add 19 (var 20 "s") (callOf 21 doubling [add 22 (callOf 23 doubling [var 24 "s"]) (int 25 1)]))]⟩,
    .ret (node 26) (callOf 27 doubling [var 28 "s"])]

theorem run_inlining_growing :
    growing.ids.Nodup ∧ ∃ g events after,
      ((Pass.inlining).run {} growing).run { next := 40 } = (.ok (g, events), after) ∧ g.body.all.length = 13 ∧
        run growing [.number 5] = some (.number 24) ∧ run g [.number 5] = some (.number 24) := by
  have returns : run growing [.number 5] = some (.number 24) := by decide +kernel
  have size : (((Pass.inlining).run {} growing).run { next := 40 }).1.toOption.map
      (fun made => made.1.body.all.length) = some 13 := by
    decide +kernel
  rcases applied : ((Pass.inlining).run {} growing).run { next := 40 } with ⟨_ | ⟨g, events⟩, after⟩
  · rw [applied] at size
    cases size
  · rw [applied] at size
    refine ⟨by decide, g, events, after, rfl, Option.some.inj size, returns, ?_⟩
    exact run_inlining {} none growing g events _ after applied (by decide) _ _ returns

open Sample in
def exact : Func :=
  { func [] [] [.ret (node 10) (.lit (node 11) (.host (.context .real)))] with name := "exact" }

open Sample in
def entering : Func :=
  func ["x"] [] [.scope (node 10) none (callOf 11 exact []) ⟨⟨12⟩, [.ret (node 13) (var 14 "x")]⟩]

/-- A call of a function that the evaluator has no value for is passed over where a `with` statement enters what it
gives. Where the call is inlined, it is not. -/
theorem run_inlining_entering :
    entering.ids.Nodup ∧
      (∀ e ∈ entering.body.allExprs, e.calls = [] ∨ ∃ node name, e = .call node name (some (.function exact)) [] []) ∧
      exact.freeVars = ∅ ∧ (∀ e ∈ exact.body.allExprs, e.calls = []) ∧
      run entering [.number 1] = some (.number 1) ∧ ∃ g events after,
        ((Pass.inlining).run {} entering).run { next := 40 } = (.ok (g, events), after) ∧ run g [.number 1] = none := by
  have returns : run entering [.number 1] = some (.number 1) := by decide +kernel
  have fails : (((Pass.inlining).run {} entering).run { next := 40 }).1.toOption.map
      (fun made => run made.1 [.number 1]) = some none := by
    decide +kernel
  refine ⟨by decide, ?_, by decide, by decide, returns, ?_⟩
  · intro e member
    rcases List.mem_cons.mp member with rfl | member
    · exact .inr ⟨_, _, rfl⟩
    · exact .inl (List.mem_singleton.mp member ▸ rfl)
  rcases applied : ((Pass.inlining).run {} entering).run { next := 40 } with ⟨_ | ⟨g, events⟩, after⟩
  · rw [applied] at fails
    cases fails
  · rw [applied] at fails
    exact ⟨g, events, after, rfl, Option.some.inj fails⟩

end Calls

end NumLang
