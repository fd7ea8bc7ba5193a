import NumLang.Proofs.Unification
import NumLang.Typing.Infer

/-!
What inference makes true.
-/

namespace NumLang

namespace Infer

open Solution

variable {α β : Type}

/-- Nothing that was found is given up. -/
structure Grows (s s' : State) : Prop where
  suffix : s.solution <:+ s'.solution
  triangular : s.solution.Triangular → s'.solution.Triangular

namespace Grows

variable {s s' : State}

theorem of_eq (same : s'.solution = s.solution) : Grows s s' :=
  ⟨same ▸ List.suffix_rfl, fun triangular => same ▸ triangular⟩

theorem trans (first : Grows s middle) (second : Grows middle s') : Grows s s' :=
  ⟨first.suffix.trans second.suffix, second.triangular ∘ first.triangular⟩

theorem models (grows : Grows s s') (models : Models φ s'.solution) : Models φ s.solution :=
  fun binding mem => models binding (grows.suffix.subset mem)

end Grows

def Ensures (x : Infer α) (good : (Nat → Ty) → α → Prop) : Prop :=
  ∀ s a s', x.run s = .ok (a, s') → Grows s s' ∧ ∀ φ, Models φ s'.solution → good φ a

section Calculus

variable {x : Infer α} {k : α → Infer β} {good : (Nat → Ty) → α → Prop} {better : (Nat → Ty) → β → Prop}

theorem ensures_of_run (runs : ∀ s a s', x.run s = .ok (a, s') →
    s'.solution = s.solution ∧ ∀ φ, Models φ s.solution → good φ a) : Ensures x good := by
  intro s a s' ran
  obtain ⟨same, holds⟩ := runs s a s' ran
  exact ⟨.of_eq same, fun φ models => holds φ (same ▸ models)⟩

theorem ensures_pure (holds : ∀ φ, good φ a) : Ensures (pure a) good := by
  refine ensures_of_run fun s b s' ran => ?_
  cases ran
  exact ⟨rfl, fun φ _ => holds φ⟩

theorem ensures_throw : Ensures (throw e) good :=
  nofun

theorem Ensures.bind (first : Ensures x good) (rest : ∀ a, Ensures (k a) fun φ b => good φ a → better φ b) :
    Ensures (x >>= k) better := by
  intro s b s' ran
  obtain ⟨⟨a, middle⟩, ran, ran'⟩ := bind_ok.mp ran
  obtain ⟨grows, holds⟩ := first s a middle ran
  obtain ⟨grows', holds'⟩ := rest a middle b s' ran'
  exact ⟨grows.trans grows', fun φ models => holds' φ models (holds φ (grows'.models models))⟩

theorem Ensures.imp (ensured : Ensures x good) (stronger : ∀ φ a, good φ a → other φ a) : Ensures x other :=
  fun s a s' ran => ⟨(ensured s a s' ran).1, fun φ models => stronger φ a ((ensured s a s' ran).2 φ models)⟩

def Proceeds (x : Infer α) : Prop := Ensures x fun _ _ => True

theorem Ensures.proceeds (ensured : Ensures x good) : Proceeds x := ensured.imp fun _ _ _ => trivial

theorem Proceeds.bind (first : Proceeds x) (rest : ∀ a, Ensures (k a) better) : Ensures (x >>= k) better :=
  Ensures.bind first fun a => (rest a).imp fun _ _ holds _ => holds

end Calculus

section Steps

variable {good : (Nat → Ty) → α → Prop} {x : Infer Ty}

theorem proceeds_pure (a : α) : Proceeds (pure a : Infer α) := ensures_pure fun _ => trivial

theorem proceeds_modify (update : State → State) (same : ∀ s, (update s).solution = s.solution) :
    Proceeds (modify update : Infer PUnit) := by
  refine ensures_of_run fun s _ s' ran => ?_
  cases ran
  exact ⟨same s, fun _ _ => trivial⟩

theorem proceeds_get : Proceeds (get : Infer State) := by
  refine ensures_of_run fun s _ s' ran => ?_
  cases ran
  exact ⟨rfl, fun _ _ => trivial⟩

theorem proceeds_lift (x : Except Error α) : Proceeds (liftM x : Infer α) := by
  refine ensures_of_run fun s _ s' ran => ?_
  obtain ⟨_, _, result⟩ := bind_ok.mp ran
  cases result
  exact ⟨rfl, fun _ _ => trivial⟩

theorem proceeds_fresh : Proceeds fresh := by
  refine ensures_of_run fun s _ s' ran => ?_
  cases ran
  exact ⟨rfl, fun _ _ => trivial⟩

theorem proceeds_freshRange (n : Nat) : Proceeds (freshRange n) := by
  refine ensures_of_run fun s _ s' ran => ?_
  cases ran
  exact ⟨rfl, fun _ _ => trivial⟩

theorem ensures_unify (site : NodeId) (a b : Ty) : Ensures (unify site a b) fun φ _ => a.subst φ = b.subst φ := by
  intro s _ s' ran
  simp only [StateT.run, unify] at ran
  split at ran
  · rename_i solution unified
    cases ran
    exact ⟨⟨suffix_unify unified, triangular_unify unified⟩, fun φ models => subst_eq_of_unify unified models⟩
  · cases ran

theorem ensures_resolved (t : Ty) : Ensures (resolved t) fun φ r => r.subst φ = t.subst φ := by
  refine ensures_of_run fun s _ s' ran => ?_
  cases ran
  exact ⟨rfl, fun φ models => models.subst_resolve⟩

theorem Ensures.noted {good : (Nat → Ty) → Ty → Prop} (node : Node) (ensured : Ensures x good) :
    Ensures (noted node x) good :=
  ensured.bind fun _ => (proceeds_modify _ fun _ => by rfl).bind fun _ => ensures_pure fun _ holds => holds

theorem Ensures.expecting {good : (Nat → Ty) → Ty → Prop} (site : NodeId) (expected : Ty)
    (ensured : Ensures x good) : Ensures (expecting site expected x) fun φ _ => ∃ found, expected.subst φ = found.subst
    φ ∧ good φ found :=
  ensured.bind fun found => (ensures_unify site expected found).imp fun _ _ same holds => ⟨found, same, holds⟩

end Steps

mutual

theorem proceeds_ofAnn : (ann : Ann) → Proceeds (ofAnn ann)
  | .any => proceeds_fresh
  | .bool | .real _ | .context => proceeds_pure _
  | .tuple elts => (proceeds_ofAnns elts).bind fun _ => proceeds_pure _
  | .list elt => (proceeds_ofAnn elt).bind fun _ => proceeds_pure _
  | .var v => proceeds_get.bind fun s => by
    split
    · exact proceeds_pure _
    · exact proceeds_fresh.bind fun _ => (proceeds_modify _ fun _ => by rfl).bind fun _ => proceeds_pure _

theorem proceeds_ofAnns : (anns : List Ann) → Proceeds (ofAnns anns)
  | [] => proceeds_pure _
  | ann :: rest => (proceeds_ofAnn ann).bind fun _ => (proceeds_ofAnns rest).bind fun _ => proceeds_pure _

end

mutual

theorem proceeds_ofHost : (v : HostValue) → Proceeds (ofHost v)
  | .bool _ | .number _ | .context _ => proceeds_pure _
  | .tuple elts => (proceeds_ofHosts elts).bind fun _ => proceeds_pure _
  | .mode _ | .object _ => proceeds_fresh

theorem proceeds_ofHosts : (vs : List HostValue) → Proceeds (ofHosts vs)
  | [] => proceeds_pure _
  | v :: rest => (proceeds_ofHost v).bind fun _ => (proceeds_ofHosts rest).bind fun _ => proceeds_pure _

end

section Definitions

variable (u : Uses)

theorem ensures_ofDef (d : DefId) : Ensures (ofDef u d) fun φ t => t.subst φ = φ (d + 1) := by
  unfold ofDef
  split
  · exact ensures_pure fun _ => rfl
  · exact ensures_throw

theorem ensures_bindName (site : NodeId) (name : Name) (t : Ty) : Ensures (bindName u site name t) fun φ _ =>
    ∃ d, u.reach.defAt? site name = some d ∧ φ (d + 1) = t.subst φ := by
  unfold bindName
  split
  · rename_i d found
    refine (ensures_ofDef u d).bind fun own => (ensures_unify site own t).imp fun φ _ same given => ?_
    exact ⟨d, found, given.symm.trans same⟩
  · exact ensures_throw

theorem proceeds_freshList : (n : Nat) → Proceeds (freshList n)
  | 0 => proceeds_pure _
  | n + 1 => proceeds_fresh.bind fun _ => (proceeds_freshList n).bind fun _ => proceeds_pure _

theorem proceeds_tupleParts (site : NodeId) (n : Nat) (t : Ty) : Proceeds (tupleParts site n t) := by
  refine (ensures_resolved t).proceeds.bind fun r => ?_
  split
  · split
    · exact proceeds_pure _
    · exact ensures_throw
  · exact (proceeds_freshList n).bind fun types =>
      (ensures_unify site (.tuple types) r).proceeds.bind fun _ => proceeds_pure _

mutual

theorem ensures_bind (site : NodeId) : (target : Binder) → (t : Ty) → Ensures (Infer.bind u site target t) fun φ _ =>
    ∀ name, target = .name name → ∃ d, u.reach.defAt? site name = some d ∧ φ (d + 1) = t.subst φ
  | .wildcard, _ => ensures_pure nofun
  | .name n, t => (ensures_bindName u site n t).imp fun _ _ given name named => by
    cases named
    exact given
  | .tuple parts, t => (proceeds_tupleParts site parts.length t).bind fun types =>
    (proceeds_bindAll site parts types).imp nofun

theorem proceeds_bindAll (site : NodeId) : (parts : List Binder) → (types : List Ty) →
    Proceeds (bindAll u site parts types)
  | part :: parts, t :: types => (ensures_bind site part t).proceeds.bind fun _ => proceeds_bindAll site parts types
  | [], _ | _ :: _, [] => proceeds_pure _

end

def ParamTyped (φ : Nat → Ty) (p : Param) (t : Ty) : Prop :=
  ∀ d, p.name.bind (u.reach.defAt? p.id) = some d → t.subst φ = φ (d + 1)

theorem ensures_params : (ps : List Param) → Ensures (params u ps) fun φ types =>
    Forall₂ (ParamTyped u φ) ps types
  | [] => ensures_pure fun _ => .nil
  | p :: rest => by
    unfold params
    extract_lets named
    have others (t : Ty) : Ensures (named t) fun φ types => Forall₂ (ParamTyped u φ) (p :: rest) types := by
      have pushed : Ensures (do return t :: (← params u rest)) fun φ types =>
          ParamTyped u φ p t → Forall₂ (ParamTyped u φ) (p :: rest) types :=
        (ensures_params rest).bind fun types => ensures_pure fun φ others own => .cons own others
      simp only [named]
      split
      · rename_i d found
        refine (ensures_ofDef u d).bind fun own => (ensures_unify p.id t own).bind fun _ => ?_
        refine pushed.imp fun φ types listed same given => listed fun e found' => ?_
        cases found.symm.trans found'
        exact same.trans given
      · rename_i absent
        exact pushed.imp fun φ types listed => listed fun d found => nomatch absent.symm.trans found
    split
    · exact (proceeds_ofAnn _).bind others
    · exact proceeds_fresh.bind others

theorem proceeds_captured (site : NodeId) (env : OrdMap String HostValue) : (defs : List (DefId × Definition DefId)) →
    Proceeds (captured u site env defs)
  | [] => proceeds_pure _
  | (d, .assign name ⟨.free, _⟩ _) :: rest => by
    unfold captured
    split
    · exact (proceeds_ofHost _).bind fun t => (ensures_ofDef u d).proceeds.bind fun own =>
        (ensures_unify site t own).proceeds.bind fun _ => proceeds_captured site env rest
    · exact proceeds_captured site env rest
  | (_, .join ..) :: rest | (_, .assign _ ⟨.param, _⟩ _) :: rest | (_, .assign _ ⟨.stmt, _⟩ _) :: rest
  | (_, .assign _ ⟨.comprehension, _⟩ _) :: rest => proceeds_captured site env rest

def JoinsTyped (φ : Nat → Ty) (defs : List (DefId × Definition DefId)) : Prop :=
  ∀ d name site lhs rhs, (d, .join name site lhs rhs) ∈ defs → φ (lhs + 1) = φ (d + 1) ∧ φ (rhs + 1) = φ (d + 1)

theorem ensures_joins : (defs : List (DefId × Definition DefId)) → Ensures (joins u defs) fun φ _ => JoinsTyped φ defs
  | [] => ensures_pure nofun
  | (_, .assign ..) :: rest => (ensures_joins rest).imp fun φ _ typed d name site lhs rhs mem =>
    typed d name site lhs rhs ((mem_cons.mp mem).resolve_left nofun)
  | (d, .join name site lhs rhs) :: rest => by
    refine (ensures_ofDef u d).bind fun t => (ensures_ofDef u lhs).bind fun a => ?_
    refine (ensures_ofDef u rhs).bind fun b => ?_
    refine (ensures_unify site t a).bind fun _ => (ensures_unify site t b).bind fun _ => ?_
    refine (ensures_joins rest).imp fun φ _ typed right left third second first => ?_
    intro e name' site' lhs' rhs' mem
    rcases mem_cons.mp mem with same | mem
    · cases same
      exact ⟨by rw [← second, ← left, first], by rw [← third, ← right, first]⟩
    · exact typed e name' site' lhs' rhs' mem

end Definitions

theorem ensures_operator (site : NodeId) (op : Operator) (arity : Nat) : Ensures (operator site op arity) fun _ sig =>
    ∃ raw f, op.signature? arity = some raw ∧ raw.params.length = arity ∧ sig = raw.subst f := by
  unfold operator
  split
  · exact ensures_throw
  · rename_i raw found
    refine (proceeds_freshRange raw.vars).bind fun first => ?_
    split
    · exact ensures_pure fun _ => ⟨raw, _, found, ‹_›, rfl⟩
    · exact ensures_throw

theorem proceeds_copied (t : Ty) : Proceeds (copied t) :=
  (proceeds_freshRange _).bind fun _ => proceeds_pure _

theorem proceeds_ofExternal (params : List Ann) (ret : Ann) : Proceeds (ofExternal params ret) :=
  proceeds_get.bind fun _ => (proceeds_modify _ fun _ => by rfl).bind fun _ => (proceeds_ofAnns params).bind fun _ =>
    (proceeds_ofAnn ret).bind fun _ => (proceeds_modify _ fun _ => by rfl).bind fun _ => proceeds_pure _

theorem proceeds_applied (site : NodeId) (callee : Option Ty) (args : List Ty) :
    Proceeds (applied site callee args) := by
  refine proceeds_fresh.bind fun ret => ?_
  cases callee with
  | none => exact proceeds_pure _
  | some t =>
    refine (ensures_resolved t).proceeds.bind fun r => ?_
    have rest : Proceeds (do
        unify site t (.function args ret)
        return ret) := (ensures_unify site t _).proceeds.bind fun _ => proceeds_pure _
    dsimp only
    split
    · split
      · exact Proceeds.bind ensures_throw fun _ => rest
      · exact rest
    · exact rest

def Comparable (φ : Nat → Ty) : List Relation → List Ty → Prop
  | r :: ops, a :: b :: types =>
    (r.isEquality = false → a.subst φ = .real) ∧ a.subst φ = b.subst φ ∧ Comparable φ ops (b :: types)
  | _, _ => True

theorem ensures_comparison (site : NodeId) (tooFew : Error) : (ops : List Relation) → (types : List Ty) →
    Ensures (comparison site tooFew ops types) fun φ _ => Comparable φ ops types
  | [], _ => ensures_pure fun _ => trivial
  | r :: ops, a :: b :: types => by
    have rest : Ensures (do
        unify site a b
        comparison site tooFew ops (b :: types)) fun φ _ => a.subst φ = b.subst φ ∧ Comparable φ ops (b :: types) :=
      (ensures_unify site a b).bind fun _ =>
        (ensures_comparison site tooFew ops (b :: types)).imp fun _ _ others same => ⟨same, others⟩
    unfold comparison
    split
    · exact (ensures_unify site .real a).bind fun _ => rest.imp fun φ _ others real => ⟨fun _ => real.symm, others⟩
    · rename_i equality
      exact rest.imp fun φ _ others => ⟨fun ordering => absurd (by rw [ordering]; rfl) equality, others⟩
  | _ :: _, [] | _ :: _, [_] => ensures_throw

theorem proceeds_element (site : NodeId) (value : Ty) (position : Expr) : Proceeds (element site value position) := by
  refine (ensures_resolved value).proceeds.bind fun r => ?_
  split
  · split
    · exact proceeds_pure _
    · exact ensures_throw
  · exact proceeds_fresh.bind fun elt => (ensures_unify site (.list elt) value).proceeds.bind fun _ => proceeds_pure _

end Infer

end NumLang
