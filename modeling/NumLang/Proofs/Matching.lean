import NumLang.Proofs.Finding
import NumLang.Proofs.Reference

/-!
Matching is the inverse of instantiation: a pattern matches a fragment of a program if and only if an instance of the
pattern is equivalent to the fragment, and what the match captures is all that such an instance can be made of.
-/

namespace NumLang

/-- The names that a fragment mentions other than to call them. -/
def Fragment.mentions : Fragment → List Name
  | .expr e => e.mentions
  | .stmts l => (Stmt.allOf l).flatMap Stmt.mentions

theorem Block.mem_mentioned {b : Block} : n ∈ b.bound ∪ b.referenced ↔ ∃ s ∈ b.all, n ∈ s.mentions := by
  simp only [bound, assigned, locals, referenced, mem_union, mem_ofList, allExprs, mem_append,
    mem_flatMap, Expr.mem_allOf_iff, Stmt.mentions, Expr.mentions]
  constructor
  · rintro ((⟨s, mem, binds⟩ | ⟨part, ⟨s, mem, e, own, inside⟩, binds⟩) |
      (⟨part, ⟨s, mem, e, own, inside⟩, reads⟩ | ⟨s, mem, reads⟩))
    · exact ⟨s, mem, .inl (.inl binds)⟩
    · exact ⟨s, mem, .inr ⟨e, own, part, inside, .inr binds⟩⟩
    · exact ⟨s, mem, .inr ⟨e, own, part, inside, .inl reads⟩⟩
    · exact ⟨s, mem, .inl (.inr reads)⟩
  · rintro ⟨s, mem, ((binds | reads) | ⟨e, own, part, inside, reads | binds⟩)⟩
    · exact .inl (.inl ⟨s, mem, binds⟩)
    · exact .inr (.inr ⟨s, mem, reads⟩)
    · exact .inr (.inl ⟨part, ⟨s, mem, e, own, inside⟩, reads⟩)
    · exact .inl (.inr ⟨part, ⟨s, mem, e, own, inside⟩, binds⟩)

namespace Pattern

variable {p : Pattern}

/-- An instance of a pattern, with names for all its free names, is equivalent to a fragment. -/
structure Solves (p : Pattern) (c : Capture) (t : Fragment) : Prop extends p.Names c where
  yields : ∃ made, p.instance? c = .ok made ∧ made.equiv t = true

def PlainBody (p : Pattern) : Prop :=
  match p.body with
  | .expr e => p.PlainCalls e
  | .stmts l => p.PlainIn (Stmt.allOf l)

section Sources

variable {f : Func}

/-- A pattern is read from a function, as an expression or as statements. -/
def ReadFrom (p : Pattern) (f : Func) : Prop := ofExprFunc f = .ok p ∨ ofStmtFunc f = .ok p

theorem readFrom_of_ofFunc (read : ofFunc f = .ok p) : p.ReadFrom f := by
  unfold ofFunc at read
  split at read
  · exact .inl read
  · exact .inr read

theorem ReadFrom.body (read : p.ReadFrom f) : p = build f p.vars p.body ∧ p.body ≠ .stmts [] ∧
    ((∃ node e, f.body.stmts = [.effect node e] ∧ p.body = .expr e) ∨ p.body = .stmts f.body.stmts) := by
  rcases read with read | read
  · obtain ⟨vars, _, read⟩ := bind_ok.mp read
    split at read
    · rename_i node e only
      cases read
      exact ⟨rfl, Fragment.noConfusion, .inl ⟨node, e, only, rfl⟩⟩
    · cases read
  · obtain ⟨vars, _, read⟩ := bind_ok.mp read
    dsimp only at read
    split at read
    · cases read
    · rename_i some_
      cases read
      exact ⟨rfl, fun empty => some_ (by rw [Fragment.stmts.inj empty]; rfl), .inr rfl⟩

theorem ReadFrom.mem_free (read : p.ReadFrom f) (n : Name) : n ∈ p.free ↔ n ∈ p.body.mentions ∧ n ∉ p.vars := by
  obtain ⟨built, _, source⟩ := read.body
  have free : n ∈ p.free ↔ (∃ s ∈ f.body.all, n ∈ s.mentions) ∧ n ∉ p.vars := by
    rw [← Block.mem_mentioned, congrArg Pattern.free built, build, OrdSet.mem_filter, decide_eq_true_eq]
  have body : (∃ s ∈ f.body.all, n ∈ s.mentions) ↔ n ∈ p.body.mentions := by
    rcases source with ⟨node, e, only, body⟩ | body
    · simp [Block.all_eq, only, body, Fragment.mentions, Stmt.allOf, Stmt.all, Stmt.mentions, Stmt.binds, Stmt.reads,
        Stmt.exprs]
    · simp [Block.all_eq, body, Fragment.mentions]
  rw [free, body]

theorem ReadFrom.plainBody (read : p.ReadFrom f)
    (plain : ∀ n ∈ f.body.called, n ∉ p.vars ∧ n ∉ p.free) : p.PlainBody := by
  have stmts : p.PlainIn f.body.all := by
    intro s mem e own part inside n calls
    obtain ⟨notVar, notFree⟩ := plain n (mem_ofList.mpr (mem_flatMap.mpr
      ⟨part, mem_flatMap.mpr ⟨s, mem, Expr.mem_allOf_iff.mpr ⟨e, own, inside⟩⟩, calls⟩))
    exact ⟨decide_eq_false notVar, decide_eq_false notFree⟩
  obtain ⟨_, _, source⟩ := read.body
  rw [Block.all_eq] at stmts
  unfold PlainBody
  rcases source with ⟨node, e, only, body⟩ | body
  · rw [only] at stmts
    rw [body]
    exact stmts (.effect node e) mem_cons_self e mem_cons_self
  · rwa [body]

end Sources

section Instances

variable {c : Capture}

theorem instance?_congr {names : NameMap Name} (same : ∀ n, names.get? n = c.names.get? n) :
    p.instance? { c with names := names } = p.instance? c := by
  have hooks : p.instantiate { c with names := names } = p.instantiate c := by
    simp only [instantiate, instanceName, same]
  simp only [instance?, hooks]

theorem get?_nameFree (supply : NameSupply) (named : ∀ n ∈ names, c.names.contains n = true) (n : Name) :
    (nameFree c names supply).1.get? n = if n ∈ names then c.names.get? n else none := by
  induction names with
  | nil => rfl
  | cons m rest ih =>
    obtain ⟨here, others⟩ := forall_mem_cons.mp named
    obtain ⟨target, held⟩ := isSome_iff_exists.mp here
    simp only [nameFree, held, OrdMap.get?_insert, ih others, mem_cons]
    by_cases same : n = m
    · simp [same, held]
    · simp [same]

theorem Names.freshInstance_eq (names : p.Names c) (supply : NameSupply) :
    (p.freshInstance c supply).1 = p.instance? c := by
  refine instance?_congr fun n => ?_
  rw [get?_nameFree supply fun m mem => (names.named m).mpr mem]
  split
  · rfl
  · rename_i outside
    exact (get?_of_fits names.fits fun isFree => outside (of_decide_eq_true isFree)).symm

end Instances

def walkFrom (p : Pattern) (t : Fragment) (c : Capture) : Option Capture :=
  match p.body, t with
  | .expr e, .expr t => p.onExpr e t c
  | .stmts ss, .stmts ts => p.onStmts ss ts c
  | _, _ => none

variable {f : Func}

theorem walk_eq (t : Fragment) : p.walk t = p.walkFrom t {} := by
  unfold walk walkFrom
  cases t <;> cases p.body <;> rfl

theorem takes_walkFrom (t : Fragment) : p.Takes (· ∈ p.body.mentions) (p.walkFrom t) := by
  unfold walkFrom
  cases p.body with
  | expr e =>
    cases t with
    | expr t => exact takes_expr e t
    | stmts => exact takes_none _
  | stmts ss =>
    cases t with
    | expr => exact takes_none _
    | stmts ts => exact (takes_stmts ss ts).congr fun n => by simp [Fragment.mentions]

variable {c : Capture} {t : Fragment}

theorem meets_of_walk (walked : p.walk t = some c) : p.Meets (· ∈ p.body.mentions) {} c :=
  takes_walkFrom t _ _ (walk_eq t ▸ walked)

theorem Solves.finds (solves : p.Solves c t) (plain : p.PlainBody) : p.Finds c
    (fun large => ∃ made, p.instance? large = .ok made ∧ made.equiv t = true) (p.walkFrom t) := by
  obtain ⟨names, made, instantiated, same⟩ := solves
  unfold walkFrom
  cases body : p.body with
  | expr e =>
    simp only [instance?, body, PlainBody] at instantiated plain ⊢
    obtain ⟨a, inner, result⟩ := bind_ok.mp instantiated
    cases result
    cases t with
    | stmts => cases same
    | expr t =>
      refine (traces_expr names e plain _ inner same).imp fun large => ?_
      rintro ⟨a, inner, alike⟩
      exact ⟨.expr a, bind_ok.mpr ⟨a, inner, rfl⟩, alike⟩
  | stmts ss =>
    simp only [instance?, body, PlainBody] at instantiated plain ⊢
    obtain ⟨as, inner, result⟩ := bind_ok.mp instantiated
    cases result
    cases t with
    | expr => cases same
    | stmts ts =>
      refine (traces_stmts names ss plain _ inner same).imp fun large => ?_
      rintro ⟨as, inner, alike⟩
      exact ⟨.stmts as, bind_ok.mpr ⟨as, inner, rfl⟩, alike⟩

theorem names_of_walk (read : p.ReadFrom f) (walked : p.walk t = some c) : p.Names c := by
  have meets := meets_of_walk walked
  refine ⟨fun n => ?_, meets.injective nofun⟩
  have free := read.mem_free n
  rw [meets.free, isVar, isFree, decide_eq_false_iff_not, decide_eq_true_eq]
  constructor
  · rintro (never | ⟨_, _, mem⟩)
    · cases never
    · exact mem
  · exact fun mem => .inr ⟨(free.mp mem).1, (free.mp mem).2, mem⟩

theorem match?_eq_some_iff : p.match? t = some c ↔ p.walk t = some c ∧ ∃ made,
    (p.freshInstance c {}).1 = .ok made ∧ made.equiv t = true := by
  simp only [match?, Option.bind_eq_bind, bind_eq_some_iff]
  constructor
  · rintro ⟨found, walked, checked⟩
    split at checked
    · rename_i made instantiated
      split at checked
      · cases checked
        exact ⟨walked, made, instantiated, ‹_›⟩
      · cases checked
    · cases checked
  · rintro ⟨walked, made, instantiated, same⟩
    exact ⟨c, walked, by simp [instantiated, same]⟩

theorem solves_of_match? (read : p.ReadFrom f) (found : p.match? t = some c) : p.Solves c t := by
  obtain ⟨walked, made, instantiated, same⟩ := match?_eq_some_iff.mp found
  have names := names_of_walk read walked
  rw [names.freshInstance_eq] at instantiated
  exact ⟨names, made, instantiated, same⟩

theorem Solves.match? (read : p.ReadFrom f) (plain : p.PlainBody)
    (solves : p.Solves c t) : ∃ found, p.match? t = some found ∧ found.Below c := by
  have least : ({} : Capture).Below c := ⟨nofun, nofun⟩
  obtain ⟨found, walked, below, _, holds⟩ := solves.finds plain {} least
  rw [← walk_eq] at walked
  have names := names_of_walk read walked
  obtain ⟨made, instantiated, same⟩ := holds found (.refl found) names.fits
  refine ⟨found, match?_eq_some_iff.mpr ⟨walked, made, ?_, same⟩, below⟩
  rw [names.freshInstance_eq, instantiated]

theorem Names.get?_eq {c' : Capture} (names : p.Names c) (names' : p.Names c') (below : c.Below c') (n : Name) :
    c.names.get? n = c'.names.get? n := by
  cases held : c.names.get? n with
  | some target => rw [below.names n target held]
  | none =>
    have outside : ¬ p.isFree n = true := by
      intro isFree
      have held' := (names.named n).mpr (of_decide_eq_true isFree)
      rw [OrdMap.contains, held] at held'
      cases held'
    rw [get?_of_fits names'.fits outside]

/-- A pattern matches a fragment if and only if an instance of the pattern is equivalent to the fragment. The match
captures exactly the variables that the pattern mentions and gives an instance itself, and it agrees with whatever else
gives one, exactly on the names and up to equivalence on the expressions. -/
theorem match?_iff_solves (f : Func) (p : Pattern) (read : ofFunc f = .ok p)
    (plain : ∀ n ∈ f.body.called, n ∉ p.vars ∧ n ∉ p.free) (t : Fragment) :
    ((p.match? t).isSome = true ↔ ∃ c, p.Solves c t) ∧
    ∀ s, p.match? t = some s → p.Solves s t ∧
      (∀ v, s.exprs.contains v = true ↔ v ∈ p.vars ∧ v ∈ p.body.mentions) ∧
      ∀ c, p.Solves c t → (∀ n, s.names.get? n = c.names.get? n) ∧
        ∀ v e, s.exprs.get? v = some e → ∃ other, c.exprs.get? v = some other ∧ other.equiv e = true := by
  replace read := readFrom_of_ofFunc read
  have calls := read.plainBody plain
  refine ⟨⟨fun matched => ?_, fun ⟨c, solves⟩ => ?_⟩, fun s found => ⟨solves_of_match? read found, fun v => ?_, ?_⟩⟩
  · obtain ⟨s, found⟩ := Option.isSome_iff_exists.mp matched
    exact ⟨s, solves_of_match? read found⟩
  · obtain ⟨s, found, _⟩ := solves.match? read calls
    exact Option.isSome_iff_exists.mpr ⟨s, found⟩
  · have met := (meets_of_walk (match?_eq_some_iff.mp found).1).exprs v
    rw [met, isVar, decide_eq_true_eq, and_comm]
    exact or_iff_right fun never => nomatch never
  · intro c solves
    obtain ⟨s', found', below⟩ := solves.match? read calls
    cases found.symm.trans found'
    exact ⟨(solves_of_match? read found).toNames.get?_eq solves.toNames below, below.exprs⟩

open Sample in
/-- A pattern of two statements: a call whose result is added to its argument. -/
def calling : Func :=
  func ["x"] [] [
    set 10 "t" (.call (node 11) (Sample.name "g") none [var 12 "x"] []),
    set 13 "u" (add 14 (var 15 "t") (var 16 "x"))]

open Sample in
def sumOfCall : Fragment :=
  .stmts [
    set 20 "a" (.call (node 21) (Sample.name "g") none [add 22 (var 23 "b") (int 24 1)] []),
    set 25 "b" (add 26 (var 27 "a") (add 28 (var 29 "b") (int 30 1)))]

theorem match?_iff_solves_calling : ∃ p, ofFunc calling = .ok p ∧ (∀ n ∈ calling.body.called, n ∉ p.vars ∧ n ∉ p.free) ∧
    (p.match? sumOfCall).isSome = true ∧ ∃ c, p.Solves c sumOfCall := by
  let p := build calling [Sample.name "x"] (.stmts calling.body.stmts)
  have read : ofFunc calling = .ok p := rfl
  have plain : ∀ n ∈ calling.body.called, n ∉ p.vars ∧ n ∉ p.free := by decide
  have found : (p.match? sumOfCall).isSome = true := by decide +kernel
  exact ⟨p, read, plain, found, (match?_iff_solves calling p read plain sumOfCall).1.mp found⟩

end Pattern

end NumLang
