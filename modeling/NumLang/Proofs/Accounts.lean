import NumLang.Proofs.Editing

/-!
Rebuilding keeps account of identities and of changes.
-/

namespace NumLang

/-- Identities took the place of others: all that are not from the others were drawn, from one number on up to another,
and none is there more often than that. -/
structure Renews (next last : Nat) (new old : List NodeId) : Prop where
  later : next ≤ last
  count : ∀ id, new.count id ≤ old.count id + if next ≤ id.val ∧ id.val < last then 1 else 0

abbrev Drawn (next last : Nat) (ids : List NodeId) : Prop := Renews next last ids []

variable {next middle last : Nat} {new old others more less greater : List NodeId}

namespace Renews

theorem refl (next : Nat) (ids : List NodeId) : Renews next next ids ids := ⟨Nat.le_refl _, fun _ => Nat.le_add_right _ _⟩

theorem trans (first : Renews next middle new old) (second : Renews middle last others (new ++ more)) :
    Renews next last others (old ++ more) := by
  have := first.later
  have := second.later
  refine ⟨by omega, fun id => ?_⟩
  have left := first.count id
  have right := second.count id
  simp only [count_append] at *
  split at left <;> split at right <;> split <;> omega

theorem imp (renews : Renews next last new old)
    (fewer : ∀ id, less.count id + old.count id ≤ greater.count id + new.count id) : Renews next last less greater := by
  refine ⟨renews.later, fun id => ?_⟩
  have := renews.count id
  have := fewer id
  omega

theorem distinct (renews : Renews next last new old) (once : old.Nodup) (known : ∀ id ∈ old, id.val < next) :
    new.Nodup ∧ ∀ id ∈ new, id.val < last := by
  have bounds (id : NodeId) : new.count id ≤ 1 ∧ (0 < new.count id → id.val < last) := by
    have bound := renews.count id
    have := renews.later
    by_cases mem : id ∈ old
    · have := known id mem
      have := nodup_iff_count.mp once id
      split at bound <;> omega
    · rw [count_eq_zero.mpr mem] at bound
      split at bound <;> omega
  exact ⟨nodup_iff_count.mpr fun id => (bounds id).1, fun id mem => (bounds id).2 (List.count_pos_iff.mpr mem)⟩

end Renews

namespace Drawn

theorem above (drawn : Drawn next last new) : ∀ id ∈ new, next ≤ id.val := by
  intro id mem
  have once := drawn.count id
  have := List.count_pos_iff.mpr mem
  rw [count_nil] at once
  split at once <;> omega

theorem nil (next : Nat) : Drawn next next [] := .refl next []

theorem append (first : Drawn next middle new) (rest : Drawn middle last others) : Drawn next last (new ++ others) :=
  show Renews next last (new ++ others) ([] ++ []) from first.trans (rest.imp fun id => by simp)

theorem single (next : Nat) : Drawn next (next + 1) [⟨next⟩] := by
  refine ⟨Nat.le_succ _, fun id => ?_⟩
  by_cases same : id = ⟨next⟩
  · simp [same]
  · rw [count_eq_zero.mpr (by simpa using same)]
    exact Nat.zero_le _

theorem cons (rest : Drawn (next + 1) last new) : Drawn next last (⟨next⟩ :: new) := (single next).append rest

end Drawn

/-- What is kept account of while a program is rebuilt. -/
structure Books (S A : Type) where
  next : S → Nat
  /-- How many changes were told. -/
  told : S → Nat
  /-- What is set aside, and the identities in it. -/
  aside : S → A
  held : A → List NodeId
  /-- Whether account is kept of identities. -/
  tracked : Prop
  /-- Whether account is kept of changes. -/
  honest : Prop

namespace Books

variable {S A : Type} {books : Books S A} {s t u : S} {n k : Nat} {p q : Prop}

/-- Between two states identities took the place of others, and at least so many changes were told. -/
structure Entry (books : Books S A) (n : Nat) (s t : S) (new old : List NodeId) : Prop where
  told : books.told s + n ≤ books.told t
  renews : books.tracked →
    Renews (books.next s) (books.next t) (new ++ books.held (books.aside t)) (old ++ books.held (books.aside s))

theorem Entry.refl (books : Books S A) (s : S) (ids : List NodeId) : books.Entry 0 s s ids ids :=
  ⟨Nat.le_refl _, fun _ => .refl _ _⟩

theorem Entry.imp (entry : books.Entry n s t new old)
    (fewer : books.tracked → ∀ id, less.count id + old.count id ≤ greater.count id + new.count id) :
    books.Entry n s t less greater :=
  ⟨entry.told, fun tracked => (entry.renews tracked).imp fun id => by
    have := fewer tracked id
    simp only [count_append]
    omega⟩

theorem Entry.trans (first : books.Entry n s t new old) (second : books.Entry k t u others (new ++ more)) :
    books.Entry (n + k) s u others (old ++ more) := by
  refine ⟨by have := first.told; have := second.told; omega, fun tracked => ?_⟩
  have later : Renews (books.next t) (books.next u) (others ++ books.held (books.aside u))
      ((new ++ books.held (books.aside t)) ++ more) :=
    (second.renews tracked).imp fun id => by simp only [count_append]; omega
  exact ((first.renews tracked).trans later).imp fun id => by simp only [count_append]; omega

/-- Between two states things took the place of others, and they are the same unless a change was told. -/
structure Balanced (books : Books S A) (s t : S) (new old : List NodeId) (same : Prop) : Prop
    extends books.Entry 0 s t new old where
  same : books.honest → books.told t = books.told s → same ∧ books.aside t = books.aside s

theorem Entry.balanced (entry : books.Entry 1 s t new old) (same : Prop) : books.Balanced s t new old same := by
  have := entry.told
  exact ⟨⟨by omega, entry.renews⟩, fun _ still => by omega⟩

namespace Balanced

theorem refl (books : Books S A) (s : S) (ids : List NodeId) (same : p) : books.Balanced s s ids ids p :=
  ⟨.refl books s ids, fun _ _ => ⟨same, rfl⟩⟩

theorem imp (balanced : books.Balanced s t new old p) (weaker : p → q) : books.Balanced s t new old q :=
  ⟨balanced.toEntry, fun honest still => (balanced.same honest still).imp_left weaker⟩

theorem trans (first : books.Balanced s t new old p) (second : books.Balanced t u others new q) :
    books.Balanced s u others old (p ∧ q) := by
  have later : books.Entry 0 t u others (new ++ []) := by simpa using second.toEntry
  refine ⟨by simpa using first.toEntry.trans later, fun honest still => ?_⟩
  have early := first.told
  have late := second.told
  obtain ⟨here, held⟩ := first.same honest (by omega)
  obtain ⟨there, kept⟩ := second.same honest (by omega)
  exact ⟨⟨here, there⟩, kept.trans held⟩

theorem frame (balanced : books.Balanced s t new old p) (before after : List NodeId) :
    books.Balanced s t (before ++ (new ++ after)) (before ++ (old ++ after)) p :=
  ⟨balanced.toEntry.imp fun _ id => by simp only [count_append]; omega, balanced.same⟩

theorem append (first : books.Balanced s t new old p) (second : books.Balanced t u others more q) :
    books.Balanced s u (new ++ others) (old ++ more) (p ∧ q) :=
  (first.frame [] more).trans (by simpa using second.frame new [])

theorem cons (balanced : books.Balanced s t new old p) (id : NodeId) : books.Balanced s t (id :: new) (id :: old) p := by
  simpa using balanced.frame [id] []

end Balanced

end Books

/-! ### Computations -/

namespace Logic

open Books

variable {m : Type → Type} [Monad m] {S A : Type} {logic : Logic m S} {books : Books S A} {α β : Type} {n l : Nat}
  {ids : α → List NodeId} {ids' : β → List NodeId} {p : Prop} {x : m α} {k : α → m β} {a : α} {f : α → β}

def Works (logic : Logic m S) (books : Books S A) (n : Nat) (x : m α) (ids : α → List NodeId) (old : List NodeId) : Prop :=
  ∀ s, logic.leads s x fun a t => books.Entry n s t (ids a) old

theorem works_pure (fits : books.tracked → ∀ id, (ids a).count id ≤ old.count id) :
    logic.Works books 0 (Pure.pure a) ids old := fun s =>
  logic.pure ((Entry.refl books s old).imp fun tracked id => by have := fits tracked id; omega)

namespace Works

theorem fewer (works : logic.Works books n x ids others) (fits : books.tracked → ∀ id, others.count id ≤ old.count id) :
    logic.Works books n x ids old := fun s =>
  logic.imp (works s) fun _ _ entry => entry.imp fun tracked id => by have := fits tracked id; omega

theorem least (works : logic.Works books n x ids old) (less : l ≤ n) : logic.Works books l x ids old := fun s =>
  logic.imp (works s) fun _ _ entry => ⟨by have := entry.told; omega, entry.renews⟩

theorem both (first : logic.Works books n x ids old) (rest : ∀ a, logic.Works books l (k a) ids' (ids a ++ more)) :
    logic.Works books (n + l) (x >>= k) ids' (old ++ more) := fun s =>
  logic.andThen (first s) fun a t entry => logic.imp (rest a t) fun _ _ => entry.trans

theorem use (more : List NodeId) (first : logic.Works books 0 x ids others)
    (rest : ∀ a, logic.Works books n (k a) ids' (ids a ++ more))
    (fits : books.tracked → ∀ id, others.count id + more.count id ≤ old.count id) : logic.Works books n (x >>= k) ids' old :=
  ((first.both rest).least (Nat.le_add_left _ _)).fewer fun tracked id => by simpa using fits tracked id

theorem draw (first : logic.Works books 0 x ids []) (rest : ∀ a, logic.Works books n (k a) ids' (ids a ++ more)) :
    logic.Works books n (x >>= k) ids' more := first.use more rest fun _ _ => by simp

theorem tell (first : logic.Works books n x ids []) (rest : ∀ a, logic.Works books 0 (k a) ids' (ids a ++ more)) :
    logic.Works books n (x >>= k) ids' more := first.both rest

end Works

def Keeps (logic : Logic m S) (books : Books S A) (p : Prop) (x : m α) (ids : α → List NodeId) (a : α) : Prop :=
  ∀ s, logic.leads s x fun b t => books.Balanced s t (ids b) (ids a) (p → b = a)

theorem keeps_pure (a : α) : logic.Keeps books p (Pure.pure a) ids a := fun s =>
  logic.pure (.refl books s (ids a) fun _ => rfl)

theorem Works.keeps (works : logic.Works books 1 x ids (ids a)) : logic.Keeps books p x ids a := fun s =>
  logic.imp (works s) fun _ _ entry => entry.balanced _

theorem Works.keeps_of (works : logic.Works books 0 x ids (ids a)) (dishonest : ¬ books.honest) :
    logic.Keeps books p x ids a := fun s =>
  logic.imp (works s) fun _ _ entry => ⟨entry, fun honest => absurd honest dishonest⟩

namespace Keeps

variable {st : Stmt}

theorem works (keeps : logic.Keeps books p x ids a) : logic.Works books 0 x ids (ids a) := fun s =>
  logic.imp (keeps s) fun _ _ balanced => balanced.toEntry

theorem cons (keeps : logic.Keeps books p x ids a) (id : NodeId) : logic.Keeps books p x (fun b => id :: ids b) a :=
  fun s => logic.imp (keeps s) fun _ _ balanced => balanced.cons id

theorem bindOf {q : α → Prop} (first : logic.Keeps books p x ids a) (rest : ∀ a, logic.Keeps books (q a) (k a) ids' (f a))
    (alike : ∀ a, ids' (f a) = ids a) (holds : p → q a) : logic.Keeps books p (x >>= k) ids' (f a) := by
  refine fun s => logic.andThen (first s) fun b t before => logic.imp (rest b t) fun d u after => ?_
  rw [alike] at after ⊢
  refine (before.trans after).imp fun same here => ?_
  cases same.1 here
  exact same.2 (holds here)

theorem bind (first : logic.Keeps books p x ids a) (rest : ∀ a, logic.Keeps books p (k a) ids' (f a))
    (alike : ∀ a, ids' (f a) = ids a) : logic.Keeps books p (x >>= k) ids' (f a) := first.bindOf rest alike id

theorem row {x : m Stmt} {k : Stmt → m (List Stmt)} (parts : logic.Keeps books p x Stmt.ids st)
    (rest : ∀ st, logic.Keeps books p (k st) Stmt.idsAll [st]) : logic.Keeps books p (x >>= k) Stmt.idsAll [st] :=
  parts.bind rest fun _ => append_nil _

theorem alone (parts : logic.Keeps books p usual Stmt.ids st) :
    logic.Keeps books p (do return [← usual]) Stmt.idsAll [st] := parts.row fun _ => keeps_pure _

end Keeps

end Logic

/-! ### Programs -/

def Block.Filled (b : Block) : Prop := ∀ part ∈ b.allBlocks, part.stmts ≠ []

variable {b : Block} {st : Stmt}

theorem Block.Filled.ne_nil (filled : b.Filled) : b.stmts ≠ [] := by
  cases b
  exact filled _ mem_cons_self

theorem Block.Filled.inner (filled : b.Filled) (row : st ∈ b.stmts) {c : Block} (inside : c ∈ st.blocks) :
    c.Filled := by
  intro part mem
  refine filled part ?_
  rw [b.allBlocks_eq, Stmt.allBlocksOf_eq]
  exact mem_cons_of_mem _ (mem_flatMap.mpr ⟨st, row, st.allBlocks_eq ▸ mem_flatMap.mpr ⟨c, inside, mem⟩⟩)

theorem Stmt.Rebuilt.eq {st' : Stmt} (rebuilt : st.Rebuilt st') (exprs : st'.exprs = st.exprs)
    (blocks : st'.blocks = st.blocks) : st' = st := by
  cases rebuilt with
  | store lengths =>
    obtain ⟨rfl, last⟩ := append_inj exprs lengths.symm
    cases last
    rfl
  | assert same =>
    rename_i message message'
    cases message <;> cases message' <;> simp_all [Stmt.exprs]
  | _ =>
    cases exprs
    cases blocks
    rfl

namespace Rebuild

variable {m : Type → Type} [Monad m] {S A : Type} {logic : Logic m S} {books : Books S A} {hooks : Rebuild m}
  {filling : Prop}

/-- What is done at a node keeps what is there, if its parts were kept. Empty blocks may be filled. -/
structure Balances (hooks : Rebuild m) (logic : Logic m S) (books : Books S A) (filling : Prop) : Prop where
  name : ∀ n, hooks.name n = pure n
  expr : ∀ {e usual}, logic.Keeps books True usual Expr.ids e → logic.Keeps books True (hooks.expr e usual) Expr.ids e
  stmt : ∀ {st usual p}, logic.Keeps books p usual Stmt.ids st → logic.Keeps books p (hooks.stmt st usual) Stmt.idsAll [st]
  block : ∀ {b usual p}, (p → filling → b.stmts ≠ []) → logic.Keeps books p usual Block.ids b →
    logic.Keeps books p (hooks.block b usual) Block.ids b

variable (balances : hooks.Balances logic books filling)

include balances

theorem Balances.threads :
    Threads logic hooks (fun _ => True) fun s t es es' => es.length = es'.length ∧ books.Balanced s t (Expr.idsAll es')
      (Expr.idsAll es) (es' = es) where
  name := balances.name
  nil s := ⟨rfl, .refl books s _ rfl⟩
  append first second := by
    refine ⟨by simp [first.1, second.1], ?_⟩
    rw [Expr.idsAll_append, Expr.idsAll_append]
    exact (first.2.append second.2).imp fun same => congrArg₂ _ same.1 same.2
  length made := made.1
  expr {e usual} _ inside s := by
    have parts : logic.Keeps books True usual Expr.ids e := by
      refine fun s => logic.imp (inside (fun _ _ => trivial) s) fun e' t ⟨rebuilt, _, balanced⟩ => ?_
      rw [Expr.ids_eq, Expr.ids_eq e, rebuilt.id]
      exact (balanced.cons e.id).imp fun same _ => rebuilt.eq same
    refine logic.imp (balances.expr parts s) fun e' t balanced => ⟨rfl, ?_⟩
    simpa [Expr.idsAll] using balanced

theorem Balances.weaves [LawfulMonad m] : Weaves logic hooks
    (fun s t es es' => es.length = es'.length ∧ books.Balanced s t (Expr.idsAll es') (Expr.idsAll es) (es' = es))
    (fun s t bs bs' => books.Balanced s t (bs'.flatMap Block.ids) (bs.flatMap Block.ids)
      ((filling → ∀ b ∈ bs, b.Filled) → bs' = bs))
    (fun s t stmts out => books.Balanced s t (Stmt.idsAll out) (Stmt.idsAll stmts)
      ((filling → ∀ st ∈ stmts, ∀ b ∈ st.blocks, b.Filled) → out = stmts)) where
  toChains := balances.threads.toChains
  onExpr e := threads_onExpr balances.threads e trivial
  noBlocks s := .refl books s _ fun _ => rfl
  blocks first second := by
    rw [flatMap_append, flatMap_append]
    refine (first.append second).imp fun same filled => ?_
    rw [same.1 fun fills => (forall_mem_append.mp (filled fills)).1,
      same.2 fun fills => (forall_mem_append.mp (filled fills)).2]
  noStmts s := .refl books s _ fun _ => rfl
  stmts {_ _ _ st rest _ _} first second := by
    rw [Stmt.idsAll_append, ← singleton_append, Stmt.idsAll_append [st] rest]
    refine (first.append second).imp fun same filled => ?_
    rw [same.1 fun fills => (forall_mem_append.mp (filled fills)).1,
      same.2 fun fills => (forall_mem_append.mp (filled fills)).2]
  stmt {st usual} inside s := by
    have parts : logic.Keeps books (filling → ∀ b ∈ st.blocks, b.Filled) usual Stmt.ids st := by
      refine fun s => logic.imp (inside s) fun st' u ⟨rebuilt, t, own, inner⟩ => ?_
      rw [Stmt.ids_eq, Stmt.ids_eq st, rebuilt.id]
      exact ((own.2.append inner).cons st.id).imp fun same filled => rebuilt.eq same.1 (same.2 filled)
    refine logic.imp (balances.stmt parts s) fun out t balanced => ?_
    exact balanced.imp fun same filled => same fun fills => filled fills st mem_cons_self
  block {b usual} inside s := by
    have parts : logic.Keeps books (filling → b.Filled) usual Block.ids b := by
      refine fun s => logic.imp (inside s) fun b' t ⟨same, balanced⟩ => ?_
      rw [Block.ids_eq, Block.ids_eq b, same]
      refine (balanced.cons b.id).imp fun rows filled => ?_
      obtain ⟨id, stmts⟩ := b
      obtain ⟨id', stmts'⟩ := b'
      cases same
      rw [show stmts' = stmts from rows fun fills st row b => (filled fills).inner row]
    refine logic.imp (balances.block (fun filled fills => (filled fills).ne_nil) parts s) fun b' t balanced => ?_
    simpa using balanced

theorem keeps_onFunc [LawfulMonad m] (f : Func) (filled : p → filling → f.body.Filled) :
    logic.Keeps books p (hooks.onFunc f) Func.ids f := by
  refine fun s => logic.andThen (weaves_onBlock balances.weaves f.body s) fun body t balanced => logic.pure ?_
  have whole : books.Balanced s t (f.id :: (f.params.map (·.id) ++ body.ids)) f.ids
      ((filling → f.body.Filled) → body = f.body) := by
    simpa [Func.ids] using balanced.frame (f.id :: f.params.map (·.id)) []
  refine whole.imp fun same here => ?_
  cases f
  cases same (filled here)
  rfl

theorem works_onFunc [LawfulMonad m] (f : Func) : logic.Works books 0 (hooks.onFunc f) Func.ids f.ids := (keeps_onFunc balances f False.elim).works

end Rebuild

namespace Edit

open Logic (works_pure keeps_pure)

variable {α β : Type} {i c : Prop} {n : Nat} {ids : α → List NodeId} {ids' : β → List NodeId} {s t : State} {x : Edit α}

abbrev books (i c : Prop) : Books State Unit :=
  ⟨fun s => s.session.next, fun s => s.changes.length, fun _ => (), fun _ => [], i, c⟩

theorem works_supplied (drawn : ∀ next, Drawn next (make next).2 (ids (make next).1)) :
    ifMade.Works (books i c) 0 (supplied make) ids [] := fun s a t made => by
  cases made
  exact ⟨Nat.le_refl _, fun _ => by simpa using drawn s.session.next⟩

theorem works_freshId : ifMade.Works (books i c) 0 (supplied Supply.fresh) (fun id => [id]) [] := works_supplied fun next => .single next

theorem works_node (loc : Option Loc) : ifMade.Works (books i c) 0 (node loc) (fun node => [node.id]) [] :=
  works_freshId.draw fun _ => works_pure fun _ _ => Nat.le_refl _

theorem works_still (still : ∀ s a t, Makes x s a t →
      t.session.next = s.session.next ∧ s.changes.length + n ≤ t.changes.length) :
    ifMade.Works (books i c) n x (fun _ => []) [] := fun s a t made => by
  obtain ⟨next, told⟩ := still s a t made
  refine ⟨told, fun _ => ?_⟩
  rw [show (books i c).next t = (books i c).next s from next]
  exact .refl _ _

theorem works_note (kind : EventKind) (site : Option NodeId) (message : String) :
    ifMade.Works (books i c) 1 (note kind site message) (fun _ => []) [] := works_still fun s _ t made => by
  cases made
  exact ⟨rfl, by simp⟩

theorem works_notes {f : α → Edit Unit} (each : ∀ a, ifMade.Works (books i c) 1 (f a) (fun _ => []) []) (l : List α) :
    ifMade.Works (books i c) l.length (forIn l PUnit.unit fun a _ => do
      f a
      pure (ForInStep.yield PUnit.unit)) (fun _ => []) [] := by
  induction l with
  | nil => exact works_pure fun _ _ => Nat.le_refl _
  | cons a rest ih =>
    rw [List.forIn_cons, bind_assoc, length_cons, Nat.add_comm]
    simp only [pure_bind]
    exact (each a).both fun _ => ih

theorem works_skip : ifMade.Works (books i c) 0 skip Stmt.ids [] :=
  (works_node none).draw fun _ => works_pure fun _ _ => Nat.le_refl _

theorem keeps_filled (b : Block) (kept : List Stmt) :
    ifMade.Keeps (books i c) (kept ≠ []) (if kept.isEmpty then do return { b with stmts := [← skip] }
      else return { b with stmts := kept }) Block.ids ⟨b.id, kept⟩ := by
  split
  · rename_i empty
    have filled : ifMade.Works (books i c) 0 (do return { b with stmts := [← skip] }) Block.ids [b.id] :=
      works_skip.draw fun _ => works_pure fun _ id => by simp [Block.ids, Stmt.idsAll, count_cons]
    cases List.isEmpty_iff.mp empty
    exact fun s => ifMade.imp (filled s) fun _ _ entry => ⟨entry, fun _ _ => ⟨fun some => absurd rfl some, rfl⟩⟩
  · exact keeps_pure _

/-- Identities that are distinct, and all of them drawn already. -/
structure Fresh (s : State) (ids : List NodeId) : Prop where
  distinct : ids.Nodup
  drawn : ∀ id ∈ ids, id.val < s.session.next

theorem fresh_of_works (works : ifMade.Works (books True False) n x ids old) (made : Makes x s a t)
    (fresh : Fresh s old) : Fresh t (ids a) := by
  have renews := (works s a t made).renews trivial
  rw [append_nil, append_nil] at renews
  obtain ⟨distinct, drawn⟩ := renews.distinct fresh.distinct fresh.drawn
  exact ⟨distinct, drawn⟩

end Edit

end NumLang
