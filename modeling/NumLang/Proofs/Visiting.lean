import NumLang.Proofs.Rewriting
import NumLang.Rule.Apply

/-!
The search for the occurrence of a rule that is to be replaced.
-/

namespace NumLang

namespace Region

def isExpr : Region → Bool
  | .expr _ => true
  | .window .. => false

def anchor : Region → NodeId
  | .expr id => id
  | .window block _ _ => block

/-- Puts a fragment in the place of a region; all else stays. -/
def hooks : Region → Fragment → Rebuild Id
  | .expr id, .expr made => { expr := fun e usual => if e.id = id then made else usual }
  | .window id start size, .stmts made => { block := fun b usual =>
    if b.id = id then ⟨b.id, b.stmts.take start ++ made ++ b.stmts.drop (start + size)⟩ else usual }
  | _, _ => {}

end Region

def Func.put (f : Func) (region : Region) (made : Fragment) : Func := Id.run ((region.hooks made).onFunc f)

namespace Rule

variable {α β : Type} {s : Progress}

theorem run_bind (x : Replacing α) (k : α → Replacing β) (s : Progress) : (x >>= k).run.run s =
    match x.run.run s with
    | (.ok a, t) => (k a).run.run t
    | (.error e, t) => (.error e, t) := by
  simp only [ExceptT.run_bind, StateT.run_bind]
  rcases x.run.run s with ⟨_ | _, _⟩ <;> rfl

theorem run_bind_of_ok {x : Replacing α} (given : x.run.run s = (.ok a, t)) :
    (x >>= k).run.run s = (k a).run.run t := by
  rw [run_bind, given]

theorem run_isDone (n : Nat) (s : Progress) : (isDone (some n)).run.run s = (.ok (decide (0 < s.replaced)), s) := rfl

theorem run_isWanted (n : Nat) (s : Progress) : (isWanted (some n)).run.run s =
    if s.passed = n then (.ok true, s) else (.ok false, { s with passed := s.passed + 1 }) := by
  have current : (get : Replacing Progress).run.run s = (.ok s, s) := rfl
  unfold isWanted
  dsimp only
  rw [run_bind_of_ok current]
  split <;> rfl

theorem run_instantiate (r : Rule) (c : Capture) (s : Progress) : (r.instantiate c).run.run s =
    match r.rhs.freshInstance c s.names with
    | (.ok made, names) =>
      (.ok (made.refresh.run s.next).1,
        { s with names := names, replaced := s.replaced + 1, next := (made.refresh.run s.next).2 })
    | (.error e, names) => (.error e, { s with names := names, replaced := s.replaced + 1 }) := by
  have started : (r.instantiate c).run.run s = (do
      modify fun t => { t with names := (r.rhs.freshInstance c s.names).2, replaced := t.replaced + 1 }
      let made ← (r.rhs.freshInstance c s.names).1
      modifyGet fun s => ((made.refresh.run s.next).1, { s with next := (made.refresh.run s.next).2 }) :
        Replacing Fragment).run.run s := rfl
  rw [started]
  generalize r.rhs.freshInstance c s.names = drawn
  rcases drawn with ⟨_ | made, names⟩
  · rfl
  · rfl

theorem replaced_of_instantiate {r : Rule} (drawn : (r.instantiate c).run.run s = (.ok made, t)) : 0 < t.replaced := by
  rw [run_instantiate] at drawn
  split at drawn
  · cases drawn
    exact Nat.succ_pos _
  · cases drawn

/-- What the search for an occurrence does. Behind the wanted occurrence it changes nothing; before it, it passes over
what is found; and it puts a new instance in the place of the wanted occurrence. Only the regions of its own matter. -/
structure Visits (r : Rule) (n : Nat) (x : Replacing α) (a : α) (found : List Occurrence)
    (put : Region → Fragment → α) (own : Region → Prop) : Prop where
  done : ∀ s, 0 < s.replaced → x.run.run s = (.ok a, s)
  passes : ∀ s, s.replaced = 0 → s.passed + found.length ≤ n →
    x.run.run s = (.ok a, { s with passed := s.passed + found.length })
  hits : ∀ s, s.replaced = 0 → ∀ i occ, found[i]? = some occ → s.passed + i = n → x.run.run s =
    Prod.map (Except.map (put occ.region)) id ((r.instantiate occ.capture).run.run { s with passed := n })
  inside : ∀ occ ∈ found, occ.region.isExpr = r.lhs.body.isExpr ∧ own occ.region
  outside : ∀ region made, region.isExpr = r.lhs.body.isExpr → ¬ own region → put region made = a

section Visits

variable {r : Rule} {x : Replacing α} {a : α} {put : Region → Fragment → α} {F : α → β}
  {then_ : α → Region → Fragment → β} {y : Replacing α}

theorem visits_pure (a : α) : r.Visits n (pure a) a [] (fun _ _ => a) own where
  done _ _ := rfl
  passes _ _ _ := rfl
  hits _ _ _ _ never := nomatch never
  inside _ never := nomatch never
  outside _ _ _ _ := rfl

theorem Visits.bind (first : r.Visits n x a found put own) (rest : ∀ u, r.Visits n (k u) (F u) others (then_ u) foreign)
    (apart : ∀ region, own region → ¬ foreign region) :
    r.Visits n (x >>= k) (F a) (found ++ others) (fun region made => then_ (put region made) region made) fun region =>
    own region ∨ foreign region where
  done s more := by rw [run_bind_of_ok (first.done s more), (rest a).done s more]
  passes s none few := by
    rw [length_append] at few ⊢
    have left := first.passes s none (by omega)
    have right := (rest a).passes { s with passed := s.passed + found.length } none (by dsimp only; omega)
    rw [run_bind_of_ok left, right, Nat.add_assoc]
  hits s none i occ mem here := by
    rw [List.getElem?_append] at mem
    split at mem
    · have inside := first.inside occ (mem_of_getElem? mem)
      rw [run_bind, first.hits s none i occ mem here]
      rcases drawn : (r.instantiate occ.capture).run.run { s with passed := n } with ⟨_ | made, t⟩
      · rfl
      · have unchanged := (rest (put occ.region made)).outside occ.region made inside.1 (apart _ inside.2)
        simp only [Prod.map, Except.map, unchanged]
        exact (rest _).done t (replaced_of_instantiate drawn)
    · have inside := (rest a).inside occ (mem_of_getElem? mem)
      have left := first.passes s none (by omega)
      have right := (rest a).hits { s with passed := s.passed + found.length } none _ occ mem (by dsimp only; omega)
      rw [run_bind_of_ok left, right]
      have unchanged : ∀ made, put occ.region made = a := fun made =>
        first.outside occ.region made inside.1 fun mine => apart _ mine inside.2
      simp only [unchanged]
  inside occ mem := by
    rcases mem_append.mp mem with mem | mem
    · exact (first.inside occ mem).imp_right .inl
    · exact ((rest a).inside occ mem).imp_right .inr
  outside region made kind foreigner := by
    obtain ⟨other, another⟩ := not_or.mp foreigner
    rw [first.outside region made kind other, (rest a).outside region made kind another]

variable {ids more : List NodeId}

section

variable (visits : r.Visits n x a found put own)

include visits

theorem Visits.recast
    (alike : ∀ region made, region.isExpr = r.lhs.body.isExpr → own region → put region made = put' region made)
    (more : ∀ region, own region → own' region)
    (outside : ∀ region made, region.isExpr = r.lhs.body.isExpr → ¬ own' region → put' region made = a) :
    r.Visits n x a found put' own' := by
  refine ⟨visits.done, visits.passes, fun s none i occ mem here => ?_, fun occ mem => ?_, outside⟩
  · have inside := visits.inside occ (mem_of_getElem? mem)
    rw [visits.hits s none i occ mem here, funext fun made => alike occ.region made inside.1 inside.2]
  · exact (visits.inside occ mem).imp_right (more _)

theorem Visits.congr (same : found = found')
    (alike : ∀ region made, region.isExpr = r.lhs.body.isExpr → put region made = put' region made)
    (more : ∀ region, own region → own' region) : r.Visits n x a found' put' own' := by
  subst same
  refine visits.recast (fun region made kind _ => alike region made kind) more fun region made kind foreign => ?_
  rw [← alike region made kind, visits.outside region made kind fun mine => foreign (more region mine)]

theorem Visits.of_run_eq (same : ∀ s, y.run.run s = x.run.run s) : r.Visits n y a found put own where
  done s more := (same s).trans (visits.done s more)
  passes s none few := (same s).trans (visits.passes s none few)
  hits s none i occ mem here := (same s).trans (visits.hits s none i occ mem here)
  inside := visits.inside
  outside := visits.outside

theorem Visits.map (F : α → β) :
    r.Visits n (x >>= fun u => pure (F u)) (F a) found (fun region made => F (put region made)) own := by
  have rest (u : α) : r.Visits n (pure (F u)) (F u) [] (fun _ _ => F u) fun _ => False := visits_pure (F u)
  have whole := visits.bind rest fun _ _ => id
  exact whole.congr (append_nil found) (fun _ _ _ => rfl) fun _ mine => mine.elim id False.elim

end

def Within (ids : List NodeId) (region : Region) : Prop := region.anchor ∈ ids

theorem Visits.both
    (first : r.Visits n x a found put (Within ids)) (rest : ∀ u, r.Visits n (k u) (F u) others (then_ u) (Within more))
    (distinct : (ids ++ more).Nodup) : r.Visits n (x >>= k) (F a) (found ++ others)
    (fun region made => then_ (put region made) region made) (Within (ids ++ more)) := by
  have whole := first.bind rest fun region mine other => (nodup_append.mp distinct).2.2 _ mine _ other rfl
  exact whole.congr rfl (fun _ _ _ => rfl) fun _ => mem_append.mpr

theorem visits_two {y : Replacing β} {put' : Region → Fragment → β} (F : α → β → γ)
    (first : ids.Nodup → r.Visits n x a found put (Within ids))
    (second : more.Nodup → r.Visits n y b found' put' (Within more)) (distinct : (ids ++ more).Nodup) :
    r.Visits n (x >>= fun a => y >>= fun b => pure (F a b)) (F a b) (found ++ found')
    (fun region made => F (put region made) (put' region made)) (Within (ids ++ more)) :=
  (first distinct.of_append_left).both (fun u => (second distinct.of_append_right).map (F u)) distinct

/-- A visit of an occurrence before all others: if it is the wanted one it is replaced, and if not it is passed over. -/
theorem Visits.after {occ : Occurrence}
    (visits : r.Visits n x a found put own) (done : ∀ s, 0 < s.replaced → y.run.run s = (.ok a, s))
    (here : ∀ s, s.replaced = 0 → s.passed = n → y.run.run s =
      Prod.map (Except.map (put' occ.region)) id ((r.instantiate occ.capture).run.run s))
    (later : ∀ s, s.replaced = 0 → s.passed ≠ n → y.run.run s = x.run.run { s with passed := s.passed + 1 })
    (kind : occ.region.isExpr = r.lhs.body.isExpr) (mine : own' occ.region) (more : ∀ region, own region → own' region)
    (alike : ∀ region made, region.isExpr = r.lhs.body.isExpr → own region → put region made = put' region made)
    (outside : ∀ region made, region.isExpr = r.lhs.body.isExpr → ¬ own' region → put' region made = a) :
    r.Visits n y a (occ :: found) put' own' where
  done := done
  passes s none few := by
    rw [length_cons] at few ⊢
    have others := visits.passes { s with passed := s.passed + 1 } none (by dsimp only; omega)
    rw [later s none (by omega), others, Nat.add_assoc, Nat.add_comm 1]
  hits s none i found mem position := by
    cases i with
    | zero =>
      cases mem
      subst position
      exact here s none rfl
    | succ i =>
      rw [List.getElem?_cons_succ] at mem
      have inside := visits.inside found (mem_of_getElem? mem)
      have others := visits.hits { s with passed := s.passed + 1 } none i found mem (by dsimp only; omega)
      rw [later s none (by omega), others, funext fun made => alike found.region made inside.1 inside.2]
  inside found mem := by
    rcases mem_cons.mp mem with rfl | mem
    · exact ⟨kind, mine⟩
    · exact (visits.inside found mem).imp_right (more _)
  outside := outside

end Visits

end Rule

end NumLang
