import NumLang.Proofs.Numbering
import NumLang.Proofs.Rebuilding

/-!
Edits and identities. A function whose identities are distinct and drawn already stays so when it is rebuilt
by an edit that takes no identity twice and draws the others.
-/

namespace NumLang

namespace Edit

variable {α β : Type} {s s' t : State}

def Makes (x : Edit α) (s : State) (a : α) (s' : State) : Prop := x.run.run s = (.ok a, s')

theorem makes_pure : Makes (pure a) s b s' ↔ b = a ∧ s' = s := by
  constructor
  · intro made
    cases made
    exact ⟨rfl, rfl⟩
  · rintro ⟨rfl, rfl⟩
    rfl

theorem run_bind (x : Edit α) (k : α → Edit β) (s : State) :
    (x >>= k).run.run s = match x.run.run s with
      | (.ok a, t) => (k a).run.run t
      | (.error e, t) => (.error e, t) := by
  have unfolded : (x >>= k).run.run s = (ExceptT.bindCont k (x.run.run s).1).run (x.run.run s).2 := rfl
  rw [unfolded]
  rcases x.run.run s with ⟨_ | _, _⟩ <;> rfl

theorem makes_bind : Makes (x >>= k) s b s' ↔ ∃ a t, Makes x s a t ∧ Makes (k a) t b s' := by
  unfold Makes
  rw [run_bind]
  constructor
  · intro made
    split at made
    · rename_i a t first
      exact ⟨a, t, first, made⟩
    · cases made
  · rintro ⟨a, t, first, rest⟩
    rw [first]
    exact rest

theorem makes_bind_pure {g : α → β} (made : Makes (x >>= fun a => pure (g a)) s b s') :
    ∃ a, Makes x s a s' ∧ b = g a := by
  obtain ⟨a, t, first, rest⟩ := makes_bind.mp made
  obtain ⟨same, rfl⟩ := makes_pure.mp rest
  exact ⟨a, first, same⟩

theorem makes_lift {x : Except Error α} : Makes (liftM x) s a s' ↔ x = .ok a ∧ s' = s := by
  constructor
  · intro made
    cases x with
    | ok b =>
      cases made
      exact ⟨rfl, rfl⟩
    | error e => cases made
  · rintro ⟨rfl, rfl⟩
    rfl

theorem makes_get : Makes get s now s' ↔ now = s ∧ s' = s := by
  constructor
  · intro made
    cases made
    exact ⟨rfl, rfl⟩
  · rintro ⟨rfl, rfl⟩
    rfl

theorem makes_skip (made : Makes skip s st s') : st = .skip ⟨⟨s.session.next⟩, none⟩ := by
  cases made
  rfl

def results : Results Edit Unit where
  gives _ x a := ∃ s s', Makes x s a s'
  of_pure := by
    rintro α i a b ⟨s, s', made⟩
    exact (makes_pure.mp made).1
  of_bind := by
    rintro α β i x k b ⟨s, s', made⟩
    obtain ⟨a, t, first, rest⟩ := makes_bind.mp made
    exact ⟨a, ⟨s, t, first⟩, ⟨t, s', rest⟩⟩

theorem makes_filled (b : Block) (kept : List Stmt) {b' : Block}
    (made : Makes (if kept.isEmpty then do return { b with stmts := [← skip] }
      else return { b with stmts := kept }) s b' s') :
    b'.id = b.id ∧ Stmt.active b'.stmts = Stmt.active kept := by
  split at made
  · rename_i empty
    cases List.isEmpty_iff.mp empty
    obtain ⟨filler, filled, rfl⟩ := makes_bind_pure made
    rw [makes_skip filled]
    exact ⟨rfl, rfl⟩
  · obtain ⟨rfl, rfl⟩ := makes_pure.mp made
    exact ⟨rfl, rfl⟩

variable {after session : Session} {edit : Func → Edit Func} {events : EventLog} {f g : Func} {pass : String}

section

variable (performed : (perform pass edit f).run session = (.ok (g, events), after))

include performed

theorem makes_and_tells_of_perform :
    ∃ s', Makes (edit f) { session := session, names := .ofFunc f } g s' ∧ events = s'.changes.map
      (·.toEvent pass g.name) :=
    by
  have ends : perform pass edit f session = (.ok (g, events), after) := performed
  rw [perform] at ends
  split at ends
  · cases ends
  · rename_i made s' ran
    unfold finish at ends
    split at ends
    · cases ends
    · cases ends
      exact ⟨s', ran, rfl⟩

theorem makes_of_perform : ∃ s', Makes (edit f) { session := session, names := .ofFunc f } g s' := by
  obtain ⟨s', made, _⟩ := makes_and_tells_of_perform performed
  exact ⟨s', made⟩

theorem checks_of_perform : g.check = .ok () := by
  have ends : perform pass edit f session = (.ok (g, events), after) := performed
  rw [perform] at ends
  split at ends
  · cases ends
  · rename_i made _ _
    unfold finish Func.verify at ends
    cases checked : made.check <;> rw [checked] at ends <;> cases ends
    exact checked

end

def ifMade : Logic Edit State where
  leads s x post := ∀ a s', Makes x s a s' → post a s'
  pure here a s' made := by
    obtain ⟨rfl, rfl⟩ := makes_pure.mp made
    exact here
  bind first b s' made := by
    obtain ⟨a, t, head, rest⟩ := makes_bind.mp made
    exact first a t head b s' rest
  imp leads stronger a s' made := stronger a s' (leads a s' made)

end Edit

theorem Stmt.idsAll_append (first others : List Stmt) :
    Stmt.idsAll (first ++ others) = Stmt.idsAll first ++ Stmt.idsAll others := by
  induction first with
  | nil => rfl
  | cons st rest ih => rw [cons_append, Stmt.idsAll, ih, Stmt.idsAll, append_assoc]

theorem Stmt.idsAll_sublist_of_sublist {stmts others : List Stmt} (part : stmts.Sublist others) :
    (Stmt.idsAll stmts).Sublist (Stmt.idsAll others) := by
  induction part with
  | slnil => exact .slnil
  | cons st _ ih => exact ih.trans (sublist_append_right ..)
  | cons_cons st _ ih => exact List.Sublist.append (.refl _) ih

end NumLang
