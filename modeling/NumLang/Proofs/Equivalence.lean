import NumLang.Tree.Equivalence

/-!
Equivalence is equality of what is left of expressions without identities, locations and spellings.
-/

namespace NumLang

def Callee.erase : Callee → Callee
  | .function f => .function
    { id := f.id, name := "", params := [], body := ⟨⟨0⟩, []⟩, freeVars := ∅, ctx := none, metadata := ∅, env := ∅, loc := none }
  | .external f => .external f

theorem Callee.sameOption_iff {c d : Option Callee} : sameOption c d = true ↔ c.map erase = d.map erase := by
  rcases c with _ | (f | f) <;> rcases d with _ | (g | g) <;> simp [sameOption, same, erase]

namespace Expr

abbrev blank : Node := ⟨⟨0⟩, none⟩

mutual

/-- An expression without identities, locations and spellings. -/
def erase : Expr → Expr
  | .var _ name => .var blank name
  | .lit _ value => .lit blank value
  | .const _ op _ => .const blank op none
  | .unary _ op _ arg => .unary blank op none arg.erase
  | .binary _ op _ lhs rhs => .binary blank op none lhs.erase rhs.erase
  | .ternary _ op _ first second third => .ternary blank op none first.erase second.erase third.erase
  | .nary _ op _ args => .nary blank op none (eraseAll args)
  | .compare _ ops args => .compare blank ops (eraseAll args)
  | .call _ func callee args kwargs => .call blank func (callee.map Callee.erase) (eraseAll args) (eraseKeyed kwargs)
  | .tuple _ elts => .tuple blank (eraseAll elts)
  | .list _ elts => .list blank (eraseAll elts)
  | .comprehension _ targets iterables elt => .comprehension blank targets (eraseAll iterables) elt.erase
  | .index _ value position => .index blank value.erase position.erase
  | .slice _ value start stop => .slice blank value.erase (eraseOption start) (eraseOption stop)
  | .update _ value path elt => .update blank value.erase (eraseAll path) elt.erase
  | .cond _ test ift iff => .cond blank test.erase ift.erase iff.erase
  | .context _ ctor args kwargs => .context blank ctor (eraseAll args) (eraseKeyed kwargs)

def eraseAll : List Expr → List Expr
  | [] => []
  | e :: rest => e.erase :: eraseAll rest

def eraseKeyed : List (String × Expr) → List (String × Expr)
  | [] => []
  | (key, e) :: rest => (key, e.erase) :: eraseKeyed rest

def eraseOption : Option Expr → Option Expr
  | none => none
  | some e => some e.erase

end

mutual

theorem equiv_iff (a b : Expr) : a.equiv b = true ↔ a.erase = b.erase := by
  cases a <;> cases b <;> first
    | exact iff_of_false Bool.false_ne_true Expr.noConfusion
    | simp [equiv, erase, equiv_iff, equivAll_iff, equivKeyed_iff, equivOption_iff, Callee.sameOption_iff, and_assoc]
termination_by structural a

theorem equivAll_iff (as bs : List Expr) : equivAll as bs = true ↔ eraseAll as = eraseAll bs := by
  cases as <;> cases bs <;> simp [equivAll, eraseAll, equiv_iff, equivAll_iff]

theorem equivKeyed_iff (as bs : List (String × Expr)) : equivKeyed as bs = true ↔ eraseKeyed as = eraseKeyed bs := by
  rcases as with _ | ⟨⟨k, a⟩, as⟩ <;> rcases bs with _ | ⟨⟨l, b⟩, bs⟩ <;>
    simp [equivKeyed, eraseKeyed, equiv_iff, equivKeyed_iff, and_assoc]

theorem equivOption_iff (a b : Option Expr) : equivOption a b = true ↔ eraseOption a = eraseOption b := by
  cases a <;> cases b <;> simp [equivOption, eraseOption, equiv_iff]

end

theorem equiv_joins {a b c : Expr} (left : a.equiv b = true) (right : a.equiv c = true) : b.equiv c = true :=
  (equiv_iff b c).mpr (((equiv_iff a b).mp left).symm.trans ((equiv_iff a c).mp right))

end Expr

end NumLang
