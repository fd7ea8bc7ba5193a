import NumLang.Pass.Specialization
import NumLang.Proofs.Reference
import NumLang.Proofs.Rewriting

/-!
Specialization replaces the variables of annotations by one substitution.
-/

namespace NumLang

theorem OrdMap.get?_insert_of_new {κ α : Type} [DecidableEq κ] [Ord κ] [Std.TransOrd κ] [Std.LawfulEqOrd κ]
    {m : OrdMap κ α} {new key : κ} {value other : α} (unbound : m.get? new = none) (found : m.get? key = some other) :
    (m.insert new value).get? key = some other := by
  have differ : key ≠ new := by
    rintro rfl
    cases unbound.symm.trans found
  rw [get?_insert, if_neg differ, found]

/-- Annotations that do not contradict each other. -/
inductive Ann.Compatible : Ann → Ann → Prop where
  | same (a : Ann) : Compatible a a
  | any_left (a : Ann) : Compatible .any a
  | any_right (a : Ann) : Compatible a .any
  /-- At most one of the rounding contexts is known. -/
  | real {r r' : Rounding} (unknown : ∀ c c', r = .known c → r' ≠ .known c') : Compatible (.real r) (.real r')
  | tuple {elts elts' : List Ann} (each : Forall₂ Compatible elts elts') : Compatible (.tuple elts) (.tuple elts')
  | list {elt elt' : Ann} (inner : Compatible elt elt') : Compatible (.list elt) (.list elt')

mutual

/-- The statement with a function applied to the annotations in it. -/
def Stmt.annotate (φ : Ann → Ann) : Stmt → Stmt
  | .assign node target ann value => .assign node target (ann.map φ) value
  | .when node test body => .when node test (body.annotate φ)
  | .branch node test ift iff => .branch node test (ift.annotate φ) (iff.annotate φ)
  | .loop node test body => .loop node test (body.annotate φ)
  | .each node target iterable body => .each node target iterable (body.annotate φ)
  | .scope node name ctx body => .scope node name ctx (body.annotate φ)
  | s => s

def Block.annotate (φ : Ann → Ann) : Block → Block
  | ⟨id, stmts⟩ => ⟨id, Stmt.annotateAll φ stmts⟩

def Stmt.annotateAll (φ : Ann → Ann) : List Stmt → List Stmt
  | [] => []
  | s :: rest => s.annotate φ :: Stmt.annotateAll φ rest

end

def Func.annotate (φ : Ann → Ann) (f : Func) : Func :=
  { f with params := f.params.map fun p => { p with ann := p.ann.map φ }, body := f.body.annotate φ }

namespace AnnSubst

open Ann

variable {s s' s'' : AnnSubst} {site : NodeId}

/-- Whatever has a value in the second substitution has it in the first. -/
structure Extends (s' s : AnnSubst) : Prop where
  types : ∀ v t, s.types.get? v = some t → s'.types.get? v = some t
  contexts : ∀ v c, s.contexts.get? v = some c → s'.contexts.get? v = some c

theorem Extends.refl (s : AnnSubst) : s.Extends s := ⟨fun _ _ => id, fun _ _ => id⟩

theorem Extends.trans (left : s''.Extends s') (right : s'.Extends s) : s''.Extends s :=
  ⟨fun v t found => left.types v t (right.types v t found), fun v c found => left.contexts v c (right.contexts v c found)⟩

theorem extends_bindType (bound : s.bindType site v t = .ok s') :
    s'.Extends s ∧ s'.types.get? v = some t := by
  unfold bindType at bound
  split at bound
  · rename_i known found
    split at bound <;> cases bound
    exact ⟨.refl s, ‹known = t› ▸ found⟩
  · rename_i unbound
    cases bound
    exact ⟨⟨fun _ _ => OrdMap.get?_insert_of_new unbound, fun _ _ => id⟩, by simp⟩

theorem extends_bindContext (bound : s.bindContext site v c = .ok s') :
    s'.Extends s ∧ s'.contexts.get? v = some c := by
  unfold bindContext at bound
  split at bound
  · rename_i known found
    split at bound <;> cases bound
    exact ⟨.refl s, ‹known = c› ▸ found⟩
  · rename_i unbound
    cases bound
    exact ⟨⟨fun _ _ => id, fun _ _ => OrdMap.get?_insert_of_new unbound⟩, by simp⟩

/-- What was bound to make an annotation fit is kept, and the annotation fits under whatever extends it. -/
def Fits (s s' : AnnSubst) (fits : AnnSubst → Prop) : Prop := s'.Extends s ∧ ∀ s'', s''.Extends s' → fits s''

theorem Fits.of_eq (same : (pure s : Except Error AnnSubst) = .ok s') (always : ∀ s, fits s) : Fits s s' fits := by
  cases same
  exact ⟨.refl s, fun s'' _ => always s''⟩

theorem fits_rounding (r r' : Rounding) (matched : matchRounding site r r' s = .ok s') :
    Fits s s' fun s'' => Compatible (s''.apply (.real r)) (.real r') := by
  have stays : ∀ s'' : AnnSubst, ∃ q, s''.apply (.real r) = .real q := by
    intro s''
    cases r with
    | var v => cases found : s''.contexts.get? v <;> exact ⟨_, by simp only [apply, found]; rfl⟩
    | _ => exact ⟨_, rfl⟩
  cases r' with
  | any | var =>
    refine .of_eq (by cases r <;> exact matched) fun s'' => ?_
    obtain ⟨q, applied⟩ := stays s''
    rw [applied]
    exact .real (by simp)
  | known c =>
    cases r with
    | any => exact .of_eq matched fun _ => .real (by simp)
    | var v =>
      obtain ⟨extended, found⟩ := extends_bindContext matched
      refine ⟨extended, fun s'' more => ?_⟩
      simp only [apply, more.contexts _ _ found]
      exact .same _
    | known a =>
      by_cases same : a = c
      · exact .of_eq (by simpa only [matchRounding, if_pos same] using matched) fun _ => same ▸ .same _
      · simp only [matchRounding, if_neg same] at matched
        cases matched

mutual

theorem fits_matchAnn : (d c : Ann) → {s s' : AnnSubst} → matchAnn site d c s = .ok s' →
    Fits s s' fun s'' => Compatible (s''.apply d) c
  | .any, c, s, s', matched => .of_eq (by cases c <;> exact matched) fun _ => .any_left c
  | .var v, c, s, s', matched => by
    cases c with
    | any => exact .of_eq matched fun _ => .any_right _
    | _ =>
      obtain ⟨extended, found⟩ := extends_bindType matched
      refine ⟨extended, fun s'' more => ?_⟩
      simp only [apply, more.types _ _ found, Option.getD_some]
      exact .same _
  | .real r, c, s, s', matched => by
    cases c with
    | any => exact .of_eq matched fun _ => .any_right _
    | real r' => exact fits_rounding r r' matched
    | _ => cases matched
  | .tuple elts, c, s, s', matched => by
    cases c with
    | any => exact .of_eq matched fun _ => .any_right _
    | tuple elts' =>
      unfold matchAnn at matched
      split at matched
      · rename_i same
        obtain ⟨extended, fits⟩ := fits_matchAnns elts elts' same matched
        exact ⟨extended, fun s'' more => .tuple (fits s'' more)⟩
      · cases matched
    | _ => cases matched
  | .list elt, c, s, s', matched => by
    cases c with
    | any => exact .of_eq matched fun _ => .any_right _
    | list elt' =>
      obtain ⟨extended, fits⟩ := fits_matchAnn elt elt' matched
      exact ⟨extended, fun s'' more => .list (fits s'' more)⟩
    | _ => cases matched
  | .bool, c, s, s', matched | .context, c, s, s', matched => by
    cases c <;> first
      | exact .of_eq matched fun _ => .any_right _
      | exact .of_eq matched fun _ => .same _
      | cases matched

theorem fits_matchAnns : (ds cs : List Ann) → {s s' : AnnSubst} → ds.length = cs.length →
    matchAnns site ds cs s = .ok s' → Fits s s' fun s'' => Forall₂ Compatible (s''.applyAll ds) cs
  | [], [], s, s', _, matched => .of_eq matched fun _ => .nil
  | d :: ds, c :: cs, s, s', same, matched => by
    obtain ⟨middle, first, rest⟩ := bind_ok.mp matched
    obtain ⟨early, head⟩ := fits_matchAnn d c first
    obtain ⟨late, tail⟩ := fits_matchAnns ds cs (Nat.succ.inj same) rest
    exact ⟨late.trans early, fun s'' more => .cons (head s'' (more.trans late)) (tail s'' more)⟩

end

end AnnSubst

namespace Specialization

open AnnSubst

variable {s s' : AnnSubst}

theorem fits_matchParams {params : List Param} {args : List Ann} (same : args.length = params.length)
    (matched : matchParams params args s = .ok s') : Fits s s' fun s'' =>
    Forall₂ (fun p t => ∀ declared ∈ p.ann, Ann.Compatible (s''.apply declared) t) params args := by
  induction params generalizing args s with
  | nil =>
    cases List.length_eq_zero_iff.mp same
    exact .of_eq matched fun _ => .nil
  | cons p params ih =>
    cases args with
    | nil => cases same
    | cons t args =>
      unfold matchParams at matched
      split at matched
      · rename_i declared given
        obtain ⟨middle, first, rest⟩ := bind_ok.mp matched
        obtain ⟨early, head⟩ := fits_matchAnn declared t first
        obtain ⟨late, tail⟩ := ih (Nat.succ.inj same) rest
        refine ⟨late.trans early, fun s'' more => .cons (fun other annotated => ?_) (tail s'' more)⟩
        cases given.symm.trans annotated
        exact head s'' (more.trans late)
      · rename_i missing
        obtain ⟨extended, tail⟩ := ih (Nat.succ.inj same) matched
        refine ⟨extended, fun s'' more => .cons (fun other annotated => ?_) (tail s'' more)⟩
        cases missing.symm.trans annotated

theorem extends_substFor {spec : Specialize} {f : Func} (found : substFor spec f = .ok s) :
    s.Extends ⟨spec.types, spec.contexts⟩ ∧ ∀ args, spec.args = some args →
      Forall₂ (fun p t => ∀ declared ∈ p.ann, Ann.Compatible (s.apply declared) t) f.params args := by
  unfold substFor at found
  split at found
  · rename_i none
    cases found
    exact ⟨.refl _, by simp [none]⟩
  · rename_i args given
    split at found
    · rename_i same
      obtain ⟨extended, fits⟩ := fits_matchParams same found
      refine ⟨extended, fun args' given' => ?_⟩
      cases given.symm.trans given'
      exact fits s (.refl s)
    · cases found

open Edit

variable {t t' : Edit.State}

theorem makes_applyAt (made : Makes (applyAt s site ann) t ann' t') :
    ann' = ann.map s.apply := by
  cases ann with
  | none => exact (makes_pure.mp made).1
  | some a =>
    by_cases same : s.apply a ≠ a
    · obtain ⟨_, _, _, made⟩ := makes_bind.mp (by simpa only [applyAt, if_pos same] using made)
      exact (makes_pure.mp made).1
    · simp only [applyAt, if_neg same] at made
      exact (makes_pure.mp made).1

theorem makes_onParams (made : Makes (onParams s params) t params' t') :
    params' = params.map fun p => { p with ann := p.ann.map s.apply } := by
  induction params generalizing params' t t' with
  | nil => exact (makes_pure.mp made).1
  | cons p rest ih =>
    obtain ⟨ann, _, first, made⟩ := makes_bind.mp made
    obtain ⟨others, _, later, made⟩ := makes_bind.mp made
    rw [(makes_pure.mp made).1, makes_applyAt first, ih later]
    rfl

/-- What becomes of a statement once the blocks in it are done. -/
def rewrite (s : AnnSubst) : Stmt → Edit (List Stmt)
  | .assign node target ann value => do return [.assign node target (← applyAt s node.id ann) value]
  | st => return [st]

theorem rewrites_hooks (s : AnnSubst) : (hooks s).Rewrites (rewrite s) :=
  ⟨⟨fun _ => rfl, fun _ _ => rfl⟩, fun _ _ => rfl, fun _ usual => bind_congr fun st => by cases st <;> rfl⟩

mutual

theorem makes_onStmt : (st : Stmt) → {t t' : Edit.State} → {out : List Stmt} →
    Makes ((hooks s).onStmt st) t out t' → out = [st.annotate s.apply] := by
  intro st t t' out made
  rw [(rewrites_hooks s).onStmt_eq] at made
  obtain ⟨st', u, remade, made⟩ := makes_bind.mp made
  cases st with
  | assign =>
    cases (makes_pure.mp remade).1
    obtain ⟨ann, _, applied, made⟩ := makes_bind.mp made
    rw [(makes_pure.mp made).1, makes_applyAt applied]
    rfl
  | when _ _ body | loop _ _ body | each _ _ _ body | scope _ _ _ body =>
    obtain ⟨_, _, inner, remade⟩ := makes_bind.mp remade
    cases makes_onBlock body inner
    cases (makes_pure.mp remade).1
    exact (makes_pure.mp made).1
  | branch _ _ ift iff =>
    obtain ⟨_, _, left, remade⟩ := makes_bind.mp remade
    obtain ⟨_, _, right, remade⟩ := makes_bind.mp remade
    cases makes_onBlock ift left
    cases makes_onBlock iff right
    cases (makes_pure.mp remade).1
    exact (makes_pure.mp made).1
  | _ =>
    cases (makes_pure.mp remade).1
    exact (makes_pure.mp made).1

theorem makes_onBlock : (b : Block) → {t t' : Edit.State} → {b' : Block} → Makes ((hooks s).onBlock b) t b' t' →
    b' = b.annotate s.apply := by
  rintro ⟨id, stmts⟩ t t' b' made
  obtain ⟨_, _, inner, made⟩ := makes_bind.mp made
  rw [(makes_pure.mp made).1, makes_onStmts stmts inner]
  rfl

theorem makes_onStmts : (stmts : List Stmt) → {t t' : Edit.State} → {out : List Stmt} →
    Makes ((hooks s).onStmts stmts) t out t' → out = Stmt.annotateAll s.apply stmts
  | [], _, _, _, made => (makes_pure.mp made).1
  | st :: rest, _, _, _, made => by
    obtain ⟨_, _, head, made⟩ := makes_bind.mp made
    obtain ⟨_, _, tail, made⟩ := makes_bind.mp made
    rw [(makes_pure.mp made).1, makes_onStmt st head, makes_onStmts rest tail]
    rfl

end

/-- Specialization puts one substitution, which keeps to the values that were given, into the annotations of a function
and changes nothing else; under it the annotations of the parameters go with the types of the arguments. -/
theorem run_specialization (spec : Specialize) (config : Config) (f g : Func) (session after : Session)
    (events : EventLog) (applied : ((Pass.specialization spec).run config f).run session = (.ok (g, events), after)) :
    ∃ s : AnnSubst, s.Extends ⟨spec.types, spec.contexts⟩ ∧ g = f.annotate s.apply ∧
      ∀ args, spec.args = some args →
        Forall₂ (fun p t => ∀ declared ∈ p.ann, Ann.Compatible (s.apply declared) t) f.params args := by
  obtain ⟨_, made⟩ := makes_of_perform applied
  obtain ⟨s, _, found, made⟩ := makes_bind.mp made
  obtain ⟨extended, fits⟩ := extends_substFor (makes_lift.mp found).1
  refine ⟨s, extended, ?_, fits⟩
  obtain ⟨params, _, annotated, made⟩ := makes_bind.mp made
  obtain ⟨h, _, rebuilt, made⟩ := makes_bind.mp made
  obtain ⟨body, _, inner, rebuilt⟩ := makes_bind.mp rebuilt
  cases (makes_pure.mp rebuilt).1
  obtain ⟨now, _, _, made⟩ := makes_bind.mp made
  have same : g = { f with params := params, body := body } := by
    split at made
    · obtain ⟨_, _, _, made⟩ := makes_bind.mp made
      exact (makes_pure.mp made).1
    · exact (makes_pure.mp made).1
  rw [same, makes_onParams annotated, makes_onBlock _ inner]
  rfl

open Sample in
/-- Annotated with a variable for a rounding context, which the argument decides, and one for a type, which is given. -/
def sharing : Func :=
  { func [] [] [
      .assign (node 10) (.name (name "z")) (some (.real (.var "R"))) (add 11 (var 12 "x") (int 13 1)),
      .ret (node 14) (var 15 "z")] with
    params := [⟨⟨1⟩, some (name "x"), some (.real (.var "R")), none⟩,
      ⟨⟨2⟩, some (name "ys"), some (.list (.var "T")), none⟩, ⟨⟨3⟩, some (name "n"), none, none⟩] }

def sharingWith : Specialize where
  types := OrdMap.ofList [("T", .bool)]
  args := some [.real (.known .real), .list .any, .bool]

theorem run_specialization_sharing : ∃ g events after s,
    ((Pass.specialization sharingWith).run {} sharing).run { next := 20 } = (.ok (g, events), after) ∧
    g.params.map (·.ann) = [some (.real (.known .real)), some (.list .bool), none] ∧
    AnnSubst.Extends s ⟨sharingWith.types, ∅⟩ ∧ g = sharing.annotate s.apply ∧
    Ann.Compatible (s.apply (.list (.var "T"))) (.list .any) := by
  have annotated : (((Pass.specialization sharingWith).run {} sharing).run { next := 20 }).1.toOption.map
      (fun made => made.1.params.map (·.ann)) = some [some (.real (.known .real)), some (.list .bool), none] := by
    decide +kernel
  rcases applied : ((Pass.specialization sharingWith).run {} sharing).run { next := 20 } with ⟨_ | ⟨g, events⟩, after⟩
  · rw [applied] at annotated
    cases annotated
  · rw [applied] at annotated
    obtain ⟨s, extended, same, fits⟩ := run_specialization sharingWith {} sharing g _ after events applied
    cases fits _ rfl with
    | cons _ rest =>
      cases rest with
      | cons second _ => exact ⟨g, events, after, s, rfl, Option.some.inj annotated, extended, same, second _ rfl⟩

end Specialization

end NumLang
