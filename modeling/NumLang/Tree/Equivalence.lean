import NumLang.Tree.Basic

/-!
Equivalence of programs: the same tree but for identities, locations and the spelling of operators.
-/

namespace NumLang

namespace Expr

mutual

def equiv : Expr → Expr → Bool
  | .var _ m, .var _ n => m = n
  | .lit _ v, .lit _ w => v = w
  | .const _ o _, .const _ p _ => o = p
  | .unary _ o _ a, .unary _ p _ b => o = p && a.equiv b
  | .binary _ o _ a₁ a₂, .binary _ p _ b₁ b₂ => o = p && a₁.equiv b₁ && a₂.equiv b₂
  | .ternary _ o _ a₁ a₂ a₃, .ternary _ p _ b₁ b₂ b₃ =>
    o = p && a₁.equiv b₁ && a₂.equiv b₂ && a₃.equiv b₃
  | .nary _ o _ as, .nary _ p _ bs => o = p && equivAll as bs
  | .compare _ o as, .compare _ p bs => o = p && equivAll as bs
  | .call _ f c as ks, .call _ g d bs ls =>
    f = g && Callee.sameOption c d && equivAll as bs && equivKeyed ks ls
  | .tuple _ as, .tuple _ bs => equivAll as bs
  | .list _ as, .list _ bs => equivAll as bs
  | .comprehension _ ts as a, .comprehension _ us bs b => ts = us && equivAll as bs && a.equiv b
  | .index _ a₁ a₂, .index _ b₁ b₂ => a₁.equiv b₁ && a₂.equiv b₂
  | .slice _ a s t, .slice _ b u v => a.equiv b && equivOption s u && equivOption t v
  | .update _ a₁ as a₂, .update _ b₁ bs b₂ => a₁.equiv b₁ && equivAll as bs && a₂.equiv b₂
  | .cond _ a₁ a₂ a₃, .cond _ b₁ b₂ b₃ => a₁.equiv b₁ && a₂.equiv b₂ && a₃.equiv b₃
  | .context _ c as ks, .context _ d bs ls => c = d && equivAll as bs && equivKeyed ks ls
  | _, _ => false
termination_by structural a => a

def equivAll : List Expr → List Expr → Bool
  | [], [] => true
  | a :: as, b :: bs => a.equiv b && equivAll as bs
  | _, _ => false

def equivKeyed : List (String × Expr) → List (String × Expr) → Bool
  | [], [] => true
  | (k, a) :: as, (l, b) :: bs => k = l && a.equiv b && equivKeyed as bs
  | _, _ => false

def equivOption : Option Expr → Option Expr → Bool
  | none, none => true
  | some a, some b => a.equiv b
  | _, _ => false

end

end Expr

mutual

def Stmt.equiv : Stmt → Stmt → Bool
  | .assign _ t a x, .assign _ u b y => t = u && a = b && x.equiv y
  | .store _ m is x, .store _ n js y => m = n && Expr.equivAll is js && x.equiv y
  | .when _ x a, .when _ y b => x.equiv y && a.equiv b
  | .branch _ x a₁ a₂, .branch _ y b₁ b₂ => x.equiv y && a₁.equiv b₁ && a₂.equiv b₂
  | .loop _ x a, .loop _ y b => x.equiv y && a.equiv b
  | .each _ t x a, .each _ u y b => t = u && x.equiv y && a.equiv b
  | .scope _ m x a, .scope _ n y b => m = n && x.equiv y && a.equiv b
  | .assert _ x m, .assert _ y n => x.equiv y && Expr.equivOption m n
  | .effect _ x, .effect _ y => x.equiv y
  | .ret _ x, .ret _ y => x.equiv y
  | .skip _, .skip _ => true
  | _, _ => false
termination_by structural s => s

def Block.equiv : Block → Block → Bool
  | ⟨_, ss⟩, ⟨_, ts⟩ => Stmt.equivAll ss ts

def Stmt.equivAll : List Stmt → List Stmt → Bool
  | [], [] => true
  | s :: ss, t :: ts => s.equiv t && Stmt.equivAll ss ts
  | _, _ => false

end

def Param.equiv (p q : Param) : Bool := p.name = q.name && p.ann = q.ann

def Param.equivAll : List Param → List Param → Bool
  | [], [] => true
  | p :: ps, q :: qs => p.equiv q && Param.equivAll ps qs
  | _, _ => false

/-- Whether two functions have the same name, parameters, free names, context and body. -/
def Func.equiv (f g : Func) : Bool :=
  f.name = g.name && Param.equivAll f.params g.params && f.freeVars = g.freeVars && f.ctx = g.ctx
    && f.body.equiv g.body

end NumLang
