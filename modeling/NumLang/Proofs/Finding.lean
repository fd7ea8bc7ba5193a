import NumLang.Proofs.Captures
import NumLang.Proofs.Equivalence
import NumLang.Proofs.Walk

/-!
A walk of a pattern finds what is there.
-/

namespace NumLang

variable {e : Expr} {s : Stmt}

namespace Capture

/-- Whatever is captured on the left is captured on the right, expressions up to equivalence. -/
structure Below (c c' : Capture) : Prop where
  exprs : ∀ v e, c.exprs.get? v = some e → ∃ other, c'.exprs.get? v = some other ∧ other.equiv e = true
  names : ∀ n target, c.names.get? n = some target → c'.names.get? n = some target

/-- Whatever is captured on the right is captured on the left. -/
structure Extends (c' c : Capture) : Prop where
  exprs : ∀ v e, c.exprs.get? v = some e → c'.exprs.get? v = some e
  names : ∀ n target, c.names.get? n = some target → c'.names.get? n = some target

theorem Extends.refl (c : Capture) : c.Extends c := ⟨fun _ _ => id, fun _ _ => id⟩

theorem Extends.trans {c c' c'' : Capture} (left : c''.Extends c') (right : c'.Extends c) : c''.Extends c :=
  ⟨fun v e found => left.exprs v e (right.exprs v e found), fun n m found => left.names n m (right.names n m found)⟩

end Capture

namespace Pattern

variable {p : Pattern}

def Fits (p : Pattern) (c : Capture) : Prop := ∀ n, c.names.contains n = true → p.isFree n = true

/-- A step of the walk succeeds below a capture, and whatever extends what it gives has the property. -/
def Finds (p : Pattern) (c : Capture) (good : Capture → Prop) (step : Capture → Option Capture) : Prop :=
  ∀ small, small.Below c → ∃ found, step small = some found ∧ found.Below c ∧ found.Extends small ∧
    ∀ large, large.Extends found → p.Fits large → good large

section Finds

variable {c : Capture} {good other : Capture → Prop} {step next : Capture → Option Capture}

theorem finds_some (good : Capture → Prop) (always : ∀ large, p.Fits large → good large) : p.Finds c good some :=
  fun small below => ⟨small, rfl, below, .refl small, fun large _ fits => always large fits⟩

theorem Finds.bind (first : p.Finds c good step) (second : p.Finds c other next) :
    p.Finds c (fun large => good large ∧ other large) fun small => step small >>= next := by
  intro small below
  obtain ⟨middle, head, below, extended, holds⟩ := first small below
  obtain ⟨found, tail, below, further, holds'⟩ := second middle below
  refine ⟨found, bind_eq_some_iff.mpr ⟨middle, head, tail⟩, below, further.trans extended, ?_⟩
  exact fun large more fits => ⟨holds large (more.trans further) fits, holds' large more fits⟩

theorem Finds.imp (finds : p.Finds c good step) (weaker : ∀ large, good large → other large) :
    p.Finds c other step := by
  intro small below
  obtain ⟨found, walked, below, extended, holds⟩ := finds small below
  exact ⟨found, walked, below, extended, fun large more fits => weaker large (holds large more fits)⟩

theorem Finds.fits (finds : p.Finds c good step) : p.Finds c (fun large => p.Fits large ∧ good large) step := by
  intro small below
  obtain ⟨found, walked, below, extended, holds⟩ := finds small below
  exact ⟨found, walked, below, extended, fun large more fits => ⟨fits, holds large more fits⟩⟩

theorem Finds.when (finds : p.Finds c good step) [Decidable condition] (holds : condition) :
    p.Finds c good fun small => if condition then step small else none := by
  simpa only [if_pos holds] using finds

/-- Where a capture makes something good, the step succeeds below it, and whatever extends what it gives makes something
good too. -/
def Traces {α : Type} (p : Pattern) (c : Capture) (make : Capture → Except Error α) (good : α → Prop)
    (step : Capture → Option Capture) : Prop :=
  ∀ a, make c = .ok a → good a → p.Finds c (fun large => ∃ a, make large = .ok a ∧ good a) step

end Finds

section Traces

variable {α β γ δ : Type} {c : Capture} {q : Prop} [Decidable q] {f : α → β → γ → δ} {good : δ → Prop}
  {k : Capture → Except Error α} {l : Capture → Except Error β} {m : Capture → Except Error γ}
  {left : α → Prop} {middle : β → Prop} {right : γ → Prop} {u v w : Capture → Option Capture}

theorem traces_pure : p.Traces c (fun _ => pure a) left some := by
  intro _ made holds
  cases made
  exact finds_some _ fun _ _ => ⟨a, rfl, holds⟩

theorem traces_never (never : ¬ left a) : p.Traces c (fun _ => pure a) left u := by
  intro _ made holds
  cases made
  exact absurd holds never

theorem traces_nothing : p.Traces c (fun _ => pure ()) (fun _ => True) some := traces_pure

theorem Traces.three (begun : p.Traces c k left u) (ongoing : p.Traces c l middle v) (ended : p.Traces c m right w)
    (good_iff : ∀ a b d, good (f a b d) ↔ q ∧ left a ∧ middle b ∧ right d) : p.Traces c
    (fun c => k c >>= fun a => l c >>= fun b => m c >>= fun d => pure (f a b d)) good fun small => if q then u small >>=
    fun small => v small >>= w else none := by
  intro _ made same
  obtain ⟨a, first, made⟩ := bind_ok.mp made
  obtain ⟨b, second, made⟩ := bind_ok.mp made
  obtain ⟨d, third, made⟩ := bind_ok.mp made
  cases made
  obtain ⟨holds, left, middle, right⟩ := (good_iff a b d).mp same
  have found := (begun a first left).bind ((ongoing b second middle).bind (ended d third right))
  refine (found.when holds).imp ?_
  rintro large ⟨⟨a, first, left⟩, ⟨b, second, middle⟩, d, third, right⟩
  exact ⟨f a b d, bind_ok.mpr ⟨a, first, bind_ok.mpr ⟨b, second, bind_ok.mpr ⟨d, third, rfl⟩⟩⟩,
    (good_iff a b d).mpr ⟨holds, left, middle, right⟩⟩

theorem Traces.two {f : β → γ → δ} (begun : p.Traces c l middle v) (ended : p.Traces c m right w)
    (good_iff : ∀ b d, good (f b d) ↔ q ∧ middle b ∧ right d) : p.Traces c
    (fun c => l c >>= fun b => m c >>= fun d => pure (f b d)) good fun small => if q then v small >>= w else none :=
  traces_nothing.three (f := fun _ => f) begun ended fun _ b d => by simp [good_iff b d]

theorem Traces.one {f : γ → δ} (inner : p.Traces c m right w) (good_iff : ∀ d, good (f d) ↔ q ∧ right d) :
    p.Traces c (fun c => m c >>= fun d => pure (f d)) good fun small => if q then w small else none :=
  traces_nothing.two (f := fun _ => f) inner fun _ d => by simp [good_iff d]

theorem traces_never₃ (never : ∀ a b d, ¬ good (f a b d) := by rintro _ _ _ ⟨⟩) :
    p.Traces c (fun c => k c >>= fun a => l c >>= fun b => m c >>= fun d => pure (f a b d)) good u := by
  intro _ made same
  obtain ⟨a, _, made⟩ := bind_ok.mp made
  obtain ⟨b, _, made⟩ := bind_ok.mp made
  obtain ⟨d, _, made⟩ := bind_ok.mp made
  cases made
  exact absurd same (never a b d)

theorem traces_never₂ {f : β → γ → δ} (never : ∀ b d, ¬ good (f b d) := by rintro _ _ ⟨⟩) :
    p.Traces c (fun c => l c >>= fun b => m c >>= fun d => pure (f b d)) good u :=
  traces_never₃ (k := fun _ => pure ()) (f := fun _ => f) fun _ => never

theorem traces_never₁ {f : γ → δ} (never : ∀ d, ¬ good (f d) := by rintro _ ⟨⟩) :
    p.Traces c (fun c => m c >>= fun d => pure (f d)) good u :=
  traces_never₂ (l := fun _ => pure ()) (f := fun _ => f) fun _ => never

end Traces

/-- A capture for all free names of a pattern, different names for different ones. -/
structure Names (p : Pattern) (c : Capture) : Prop where
  named : ∀ n, c.names.contains n = true ↔ n ∈ p.free
  injective : c.Injective

theorem Names.fits (names : p.Names c) : p.Fits c :=
  fun n held => decide_eq_true ((names.named n).mp held)

section Steps

variable {c : Capture}

theorem finds_meet (held : c.exprs.get? v = some e) (same : e.equiv t = true) :
    p.Finds c (fun large => ∃ found, large.exprs.get? v = some found ∧ found.equiv t = true) (Capture.meet v t) := by
  intro small below
  cases known : small.exprs.get? v with
  | some bound =>
    obtain ⟨other, there, alike⟩ := below.exprs v bound known
    cases held.symm.trans there
    have again : bound.equiv t = true := Expr.equiv_joins alike same
    refine ⟨small, by simp [Capture.meet, known, again], below, .refl small, fun large more _ => ?_⟩
    exact ⟨bound, more.exprs v bound known, again⟩
  | none =>
    refine ⟨{ small with exprs := small.exprs.insert v t }, by simp [Capture.meet, known], ⟨?_, below.names⟩,
      ⟨?_, fun _ _ => id⟩, fun large more _ => ⟨t, more.exprs v t (by simp), Expr.equiv_joins same same⟩⟩
    · intro w d found
      rw [OrdMap.get?_insert] at found
      split at found
      · rename_i same
        cases found
        exact ⟨e, by rwa [same], ‹_›⟩
      · exact below.exprs w d found
    · intro w d found
      rw [OrdMap.get?_insert]
      split
      · rename_i same
        rw [same, known] at found
        cases found
      · exact found

variable {n target : Name}

theorem finds_meetName (injective : c.Injective) (held : c.names.get? n = some target) :
    p.Finds c (fun large => large.names.get? n = some target) (Capture.meetName n target) := by
  intro small below
  cases known : small.names.get? n with
  | some other =>
    cases held.symm.trans (below.names n other known)
    refine ⟨small, by simp [Capture.meetName, known], below, .refl small, fun large more _ => ?_⟩
    exact more.names n target known
  | none =>
    have unused : target ∉ small.names.values := by
      intro used
      obtain ⟨m, there⟩ := mem_values.mp used
      cases injective m n target (below.names m target there) held
      rw [known] at there
      cases there
    refine ⟨{ small with names := small.names.insert n target }, by simp [Capture.meetName, known, unused],
      ⟨below.exprs, ?_⟩, ⟨fun _ _ => id, ?_⟩, fun large more _ => more.names n target (by simp)⟩
    · intro m d found
      rw [OrdMap.get?_insert] at found
      split at found
      · rename_i same
        cases found
        rwa [same]
      · exact below.names m d found
    · intro m d found
      rw [OrdMap.get?_insert]
      split
      · rename_i same
        rw [same, known] at found
        cases found
      · exact found

theorem get?_of_fits {large : Capture} (fits : p.Fits large) (bound : ¬ p.isFree n = true) :
    large.names.get? n = none := by
  refine Option.not_isSome_iff_eq_none.mp fun held => bound (fits n held)

theorem asVar?_of_equiv (same : e.equiv (.ofName n) = true) : e.asVar? = some n := by
  cases e with
  | var _ m =>
    have same : m = n := of_decide_eq_true same
    rw [same]
    rfl
  | _ => cases same

theorem finds_name (names : p.Names c) (made : p.instanceName c n = .ok target) :
    p.Finds c (fun large => p.instanceName large n = .ok target) (p.onName n target) := by
  unfold onName
  unfold instanceName at made ⊢
  split at made
  · rename_i isVar
    simp only [isVar, if_true]
    split at made
    · rename_i found
      cases made
      obtain ⟨e, held, isName⟩ := bind_eq_some_iff.mp found
      have same : e.equiv (.ofName target) = true := by
        cases e with
        | var _ m =>
          cases isName
          exact decide_eq_true rfl
        | _ => cases isName
      refine (finds_meet held same).imp fun large known => ?_
      obtain ⟨other, held, same⟩ := known
      rw [held, bind_some, asVar?_of_equiv same]
      rfl
    · cases made
  · rename_i notVar
    simp only [notVar]
    by_cases isFree : p.isFree n = true
    · simp only [isFree, if_true]
      obtain ⟨m, held⟩ := isSome_iff_exists.mp ((names.named n).mpr (of_decide_eq_true isFree))
      rw [held] at made
      cases made
      refine (finds_meetName names.injective held).imp fun large found => ?_
      rw [found]
      rfl
    · simp only [isFree]
      rw [get?_of_fits names.fits isFree] at made
      cases made
      refine (finds_some _ fun large fits => ?_).when rfl
      rw [get?_of_fits fits isFree]
      rfl

theorem traces_name (names : p.Names c) (n : Name) : p.Traces c (fun c => p.instanceName c n) (· = target)
    (p.onName n target) := by
  rintro _ made rfl
  exact (finds_name names made).imp fun large named => ⟨_, named, rfl⟩

theorem traces_name? (names : p.Names c) : (n : Option Name) → {target : Option Name} →
    p.Traces c (fun c => (p.instantiate c).onName? n) (· = target) (p.onName? n target)
  | none, _ => by
    rintro _ made rfl
    cases made
    exact finds_some _ fun _ _ => ⟨_, rfl, rfl⟩
  | some n, none => traces_never₁
  | some n, some _ => (traces_name names n).one (q := True) fun _ => by simp

mutual

theorem traces_binder (names : p.Names c) : (b : Binder) → {t : Binder} →
    p.Traces c (fun c => (p.instantiate c).onBinder b) (· = t) (p.onBinder b t)
  | .wildcard, _ => by
    rintro _ made rfl
    cases made
    exact finds_some _ fun _ _ => ⟨_, rfl, rfl⟩
  | .name n, t => by
    cases t with
    | name => exact (traces_name names n).one (q := True) fun _ => by simp
    | _ => exact traces_never₁
  | .tuple parts, t => by
    cases t with
    | tuple => exact (traces_binders names parts).one (q := True) fun _ => by simp
    | _ => exact traces_never₁

theorem traces_binders (names : p.Names c) : (bs : List Binder) → {ts : List Binder} →
    p.Traces c (fun c => (p.instantiate c).onBinders bs) (· = ts) (p.onBinders bs ts)
  | [], _ => by
    rintro _ made rfl
    cases made
    exact finds_some _ fun _ _ => ⟨_, rfl, rfl⟩
  | b :: rest, [] => traces_never₂
  | b :: rest, _ :: _ => (traces_binder names b).two (traces_binders names rest) (q := True) fun _ _ => by simp

end

end Steps

def PlainCalls (p : Pattern) (e : Expr) : Prop :=
  ∀ part ∈ e.all, ∀ n ∈ part.calls, p.isVar n = false ∧ p.isFree n = false

theorem PlainCalls.child (plain : p.PlainCalls e) (mem : part ∈ e.children := by simp [Expr.children]) :
    p.PlainCalls part := by
  intro inner inside
  refine plain inner ?_
  rw [Expr.all_eq]
  exact mem_cons_of_mem _ (Expr.mem_allOf_iff.mpr ⟨part, mem, inside⟩)

theorem PlainCalls.name (plain : p.PlainCalls (.call node func callee args kwargs)) (fits : p.Fits c) :
    p.instanceName c func = .ok func := by
  obtain ⟨notVar, notFree⟩ := plain _ (by rw [Expr.all_eq]; exact mem_cons_self) func mem_cons_self
  rw [instanceName, notVar, get?_of_fits fits (by simp [notFree])]
  rfl

section Exprs

variable {c : Capture}

mutual

theorem traces_expr (names : p.Names c) : (e : Expr) → p.PlainCalls e → {t : Expr} →
    p.Traces c (fun c => (p.instantiate c).onExpr e) (·.equiv t = true) (p.onExpr e t)
  | .var node n, _, t => by
    by_cases isVar : p.isVar n = true
    · have instance_eq : ∀ large : Capture, (p.instantiate large).onExpr (.var node n) =
          match large.exprs.get? n with
          | some e => pure e
          | none => throw (.unboundVariable n) := fun _ => if_pos isVar
      have walk_eq : p.onExpr (.var node n) t = fun c => c.meet n t := funext fun _ => if_pos isVar
      intro _ made same
      rw [walk_eq]
      replace made := (instance_eq c).symm.trans made
      split at made
      · rename_i e held
        cases made
        refine (finds_meet held same).imp ?_
        rintro large ⟨found, held, alike⟩
        exact ⟨found, (instance_eq large).trans (by rw [held]; rfl), alike⟩
      · cases made
    · rw [show (fun c => (p.instantiate c).onExpr (.var node n)) =
        fun c => p.instanceName c n >>= fun target => pure (.var node target) from funext fun _ => if_neg isVar]
      cases t with
      | var =>
        rw [show p.onExpr (.var node n) (.var _ _) = p.onName n _ from funext fun _ => if_neg isVar]
        exact (traces_name names n).one (q := True) fun _ => by simp [Expr.equiv]
      | _ => exact traces_never₁
  | .lit .., _, t | .const .., _, t => by
    intro _ made same
    cases made
    cases t <;> first
      | cases same
      | exact (finds_some _ fun large _ => ⟨_, rfl, same⟩).when (of_decide_eq_true same)
  | .unary _ _ _ x, plain, t => by
    cases t with
    | unary => exact (traces_expr names x plain.child).one fun _ => by simp [Expr.equiv]
    | _ => exact traces_never₁
  | .binary _ _ _ x y, plain, t => by
    cases t with
    | binary =>
      exact (traces_expr names x plain.child).two
        (traces_expr names y plain.child) fun _ _ => by simp [Expr.equiv, and_assoc]
    | _ => exact traces_never₂
  | .ternary _ _ _ x y z, plain, t => by
    cases t with
    | ternary =>
      exact (traces_expr names x plain.child).three
        (traces_expr names y plain.child)
        (traces_expr names z plain.child) fun _ _ _ => by simp [Expr.equiv, and_assoc]
    | _ => exact traces_never₃
  | .nary _ _ _ args, plain, t | .compare _ _ args, plain, t => by
    cases t <;> first
      | exact traces_never₁
      | exact (traces_exprs names args fun _ mem => plain.child mem).one fun _ => by simp [Expr.equiv]
  | .call _ func _ args kwargs, plain, t => by
    cases t with
    | call =>
      intro _ made same
      obtain ⟨as, positional, made⟩ := bind_ok.mp made
      obtain ⟨ks, keyed, made⟩ := bind_ok.mp made
      obtain ⟨target, named, result⟩ := bind_ok.mp made
      cases result
      cases named.symm.trans (plain.name names.fits)
      simp only [Expr.equiv, Bool.and_eq_true, decide_eq_true_eq] at same
      obtain ⟨⟨⟨goal, callee⟩, left⟩, right⟩ := same
      have found := (traces_exprs names args (fun _ mem => plain.child (mem_append_left _ mem)) _
        positional left).bind
        (traces_keyed names kwargs (fun _ mem => plain.child (mem_append_right _ mem)) _ keyed right)
      refine (found.when goal).fits.imp ?_
      rintro large ⟨fits, ⟨as, positional, left⟩, ks, keyed, right⟩
      exact ⟨_, bind_ok.mpr ⟨as, positional, bind_ok.mpr ⟨ks, keyed, bind_ok.mpr ⟨func, plain.name fits, rfl⟩⟩⟩,
        by simp [Expr.equiv, goal, callee, left, right]⟩
    | _ => exact traces_never₃
  | .tuple _ args, plain, t | .list _ args, plain, t => by
    cases t <;> first
      | exact traces_never₁
      | exact (traces_exprs names args fun _ mem => plain.child mem).one (q := True) fun _ => by simp [Expr.equiv]
  | .comprehension _ targets iterables elt, plain, t => by
    cases t with
    | comprehension =>
      exact (traces_exprs names iterables fun _ mem => plain.child (mem_append_left _ mem)).three
        (traces_binders names targets) (traces_expr names elt plain.child) (q := True)
        fun _ _ _ => by simp [Expr.equiv, and_left_comm, and_assoc]
    | _ => exact traces_never₃
  | .index _ x y, plain, t => by
    cases t with
    | index =>
      exact (traces_expr names x plain.child).two (q := True)
        (traces_expr names y plain.child) fun _ _ => by simp [Expr.equiv]
    | _ => exact traces_never₂
  | .slice _ x start stop, plain, t => by
    cases t with
    | slice =>
      exact (traces_expr names x plain.child).three (q := True)
        (traces_option names start fun _ mem => plain.child (by simp_all [Expr.children]))
        (traces_option names stop fun _ mem => plain.child (by simp_all [Expr.children]))
        fun _ _ _ => by simp [Expr.equiv, and_assoc]
    | _ => exact traces_never₃
  | .update _ x path y, plain, t => by
    cases t with
    | update =>
      exact (traces_expr names x plain.child).three (q := True)
        (traces_exprs names path fun _ mem => plain.child (by simp [Expr.children, mem]))
        (traces_expr names y plain.child) fun _ _ _ => by simp [Expr.equiv, and_assoc]
    | _ => exact traces_never₃
  | .cond _ x y z, plain, t => by
    cases t with
    | cond =>
      exact (traces_expr names x plain.child).three (q := True)
        (traces_expr names y plain.child)
        (traces_expr names z plain.child) fun _ _ _ => by simp [Expr.equiv, and_assoc]
    | _ => exact traces_never₃
  | .context _ _ args kwargs, plain, t => by
    cases t with
    | context =>
      exact (traces_exprs names args fun _ mem => plain.child (mem_append_left _ mem)).two
        (traces_keyed names kwargs fun _ mem => plain.child (mem_append_right _ mem))
        fun _ _ => by simp [Expr.equiv, and_assoc]
    | _ => exact traces_never₂
termination_by structural e => e

theorem traces_exprs (names : p.Names c) : (es : List Expr) → (∀ e ∈ es, p.PlainCalls e) → {ts : List Expr} →
    p.Traces c (fun c => (p.instantiate c).onExprs es) (Expr.equivAll · ts = true) (p.onExprs es ts)
  | [], _, [] => traces_pure
  | [], _, _ :: _ => traces_never nofun
  | e :: rest, _, [] => traces_never₂
  | e :: rest, plain, _ :: _ =>
    (traces_expr names e (plain e mem_cons_self)).two (q := True)
      (traces_exprs names rest fun _ mem => plain _ (mem_cons_of_mem _ mem))
      fun _ _ => by simp [Expr.equivAll]

theorem traces_keyed (names : p.Names c) : (es : List (String × Expr)) → (∀ e ∈ es.map Prod.snd, p.PlainCalls e) →
    {ts : List (String × Expr)} →
    p.Traces c (fun c => (p.instantiate c).onKeyed es) (Expr.equivKeyed · ts = true) (p.onKeyed es ts)
  | [], _, [] => traces_pure
  | [], _, _ :: _ => traces_never nofun
  | (_, e) :: rest, _, [] => traces_never₂
  | (_, e) :: rest, plain, _ :: _ =>
    (traces_expr names e (plain e mem_cons_self)).two
      (traces_keyed names rest fun _ mem => plain _ (mem_cons_of_mem _ mem))
      fun _ _ => by simp [Expr.equivKeyed, and_assoc]

theorem traces_option (names : p.Names c) : (e : Option Expr) → (∀ part ∈ e.toList, p.PlainCalls part) →
    {t : Option Expr} →
    p.Traces c (fun c => (p.instantiate c).onOption e) (Expr.equivOption · t = true) (p.onOption e t)
  | none, _, none => traces_pure
  | none, _, some _ => traces_never nofun
  | some e, _, none => traces_never₁
  | some e, plain, some _ =>
    (traces_expr names e (plain e (by simp))).one (q := True) fun _ => by simp [Expr.equivOption]

end

end Exprs

def PlainIn (p : Pattern) (stmts : List Stmt) : Prop := ∀ s ∈ stmts, ∀ e ∈ s.exprs, p.PlainCalls e

theorem PlainIn.own (plain : p.PlainIn s.all) (mem : e ∈ s.exprs := by simp [Stmt.exprs]) : p.PlainCalls e :=
  plain s (Stmt.mem_all s) e mem

theorem PlainIn.mono (plain : p.PlainIn first) (sub : ∀ s ∈ others, s ∈ first) :
    p.PlainIn others := fun s mem => plain s (sub s mem)

section Stmts

variable {c : Capture}

theorem onStmt_single (rebuilt : (p.instantiate c).onStmt s = .ok made) : ∃ st, made = [st] := by
  have usual : ∃ usual, (p.instantiate c).onStmt s = usual >>= fun st => pure [st] := by cases s <;> exact ⟨_, rfl⟩
  obtain ⟨usual, eq⟩ := usual
  obtain ⟨st, _, result⟩ := bind_ok.mp (eq ▸ rebuilt)
  cases result
  exact ⟨st, rfl⟩

theorem Traces.single (traces : p.Traces c make (·.equiv t = true) step) :
    p.Traces c (fun c => make c >>= fun s => pure [s]) (Stmt.equivAll · [t] = true) step :=
  traces.one (q := True) fun _ => by simp [Stmt.equivAll]

mutual

theorem traces_stmt (names : p.Names c) : (s : Stmt) → p.PlainIn s.all → {t : Stmt} →
    p.Traces c (fun c => (p.instantiate c).onStmt s) (Stmt.equivAll · [t] = true) (p.onStmt s t)
  | .assign _ target _ value, plain, t => by
    refine Traces.single ?_
    cases t with
    | assign =>
      exact (traces_expr names value plain.own).two (traces_binder names target)
        fun _ _ => by simp [Stmt.equiv, and_comm, and_left_comm, and_assoc]
    | _ => exact traces_never₂
  | .store _ name path value, plain, t => by
    refine Traces.single ?_
    cases t with
    | store =>
      exact (traces_exprs names path fun _ mem => plain.own (mem_append_left _ mem)).three
        (traces_expr names value plain.own) (traces_name names name) (q := True)
        fun _ _ _ => by simp [Stmt.equiv, and_comm, and_left_comm, and_assoc]
    | _ => exact traces_never₃
  | .when _ test body, plain, t | .loop _ test body, plain, t => by
    refine Traces.single ?_
    cases t <;> first
      | exact traces_never₂
      | exact (traces_expr names test plain.own).two (q := True)
          (traces_block names body (plain.mono fun _ mem => mem_cons_of_mem _ mem))
          fun _ _ => by simp [Stmt.equiv]
  | .branch _ test ift iff, plain, t => by
    refine Traces.single ?_
    cases t with
    | branch =>
      exact (traces_expr names test plain.own).three (q := True)
        (traces_block names ift (plain.mono fun _ mem => mem_cons_of_mem _ (mem_append_left _ mem)))
        (traces_block names iff (plain.mono fun _ mem => mem_cons_of_mem _ (mem_append_right _ mem)))
        fun _ _ _ => by simp [Stmt.equiv, and_assoc]
    | _ => exact traces_never₃
  | .each _ target iterable body, plain, t => by
    refine Traces.single ?_
    cases t with
    | each =>
      exact (traces_expr names iterable plain.own).three (traces_binder names target)
        (traces_block names body (plain.mono fun _ mem => mem_cons_of_mem _ mem)) (q := True)
        fun _ _ _ => by simp [Stmt.equiv, and_left_comm, and_assoc]
    | _ => exact traces_never₃
  | .scope _ name ctx body, plain, t => by
    refine Traces.single ?_
    cases t with
    | scope =>
      exact (traces_expr names ctx plain.own).three (traces_name? names name)
        (traces_block names body (plain.mono fun _ mem => mem_cons_of_mem _ mem)) (q := True)
        fun _ _ _ => by simp [Stmt.equiv, and_left_comm, and_assoc]
    | _ => exact traces_never₃
  | .assert _ test msg, plain, t => by
    refine Traces.single ?_
    cases t with
    | assert =>
      exact (traces_expr names test plain.own).two (q := True)
        (traces_option names msg fun _ mem => plain.own (mem_cons_of_mem _ mem))
        fun _ _ => by simp [Stmt.equiv]
    | _ => exact traces_never₂
  | .effect _ value, plain, t | .ret _ value, plain, t => by
    refine Traces.single ?_
    cases t <;> first
      | exact traces_never₁
      | exact (traces_expr names value plain.own).one (q := True)
          fun _ => by simp [Stmt.equiv]
  | .skip _, _, t => by
    cases t with
    | skip => exact traces_pure
    | _ => exact traces_never nofun

theorem traces_block (names : p.Names c) : (b : Block) → p.PlainIn b.all → {t : Block} →
    p.Traces c (fun c => (p.instantiate c).onBlock b) (·.equiv t = true) (p.onBlock b t)
  | ⟨_, stmts⟩, plain, ⟨_, _⟩ => (traces_stmts names stmts plain).one (q := True) fun _ => by simp [Block.equiv]

theorem traces_stmts (names : p.Names c) : (ss : List Stmt) → p.PlainIn (Stmt.allOf ss) → {ts : List Stmt} →
    p.Traces c (fun c => (p.instantiate c).onStmts ss) (Stmt.equivAll · ts = true) (p.onStmts ss ts)
  | [], _, [] => traces_pure
  | [], _, _ :: _ => traces_never nofun
  | s :: rest, plain, ts => by
    intro _ made same
    obtain ⟨first, head, made⟩ := bind_ok.mp made
    obtain ⟨as, tail, result⟩ := bind_ok.mp made
    cases result
    obtain ⟨a, rfl⟩ := onStmt_single head
    cases ts with
    | nil => cases same
    | cons t targets =>
      simp only [singleton_append, Stmt.equivAll, Bool.and_eq_true] at same
      have found := (traces_stmt names s (plain.mono fun _ mem => mem_append_left _ mem) _ head
        (by simpa [Stmt.equivAll] using same.1)).bind
        (traces_stmts names rest (plain.mono fun _ mem => mem_append_right _ mem) _ tail same.2)
      refine found.imp ?_
      rintro large ⟨⟨_, head, left⟩, as, tail, right⟩
      obtain ⟨a, rfl⟩ := onStmt_single head
      exact ⟨_, bind_ok.mpr ⟨_, head, bind_ok.mpr ⟨as, tail, rfl⟩⟩, by simp_all [Stmt.equivAll]⟩

end

end Stmts

end Pattern

end NumLang
