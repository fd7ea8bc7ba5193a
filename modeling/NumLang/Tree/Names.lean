import NumLang.Tree.Basic

/-!
The names that occur in a program: those it assigns, those it binds, those it reads, those it calls, and those it
takes from outside.
-/

namespace NumLang

namespace Expr

def reads : Expr → List Name
  | .var _ name => [name]
  | _ => []

def calls : Expr → List Name
  | .call _ func _ _ _ => [func]
  | _ => []

def binds : Expr → List Name
  | .comprehension _ targets _ _ => Binder.namesAll targets
  | _ => []

end Expr

def Stmt.reads : Stmt → List Name
  | .store _ name _ _ => [name]
  | _ => []

namespace Block

/-- The names given a value anywhere in a block. Targets of comprehensions are local to them and do not
count. -/
def assigned (b : Block) : NameSet := OrdSet.ofList (b.all.flatMap Stmt.binds)

def locals (b : Block) : NameSet := OrdSet.ofList (b.allExprs.flatMap Expr.binds)

def bound (b : Block) : NameSet := b.assigned ∪ b.locals

def referenced (b : Block) : NameSet :=
  OrdSet.ofList (b.allExprs.flatMap Expr.reads ++ b.all.flatMap Stmt.reads)

def called (b : Block) : NameSet := OrdSet.ofList (b.allExprs.flatMap Expr.calls)

end Block

namespace Func

def freeNames (f : Func) : NameSet := f.body.referenced \ (OrdSet.ofList f.paramNames ∪ f.body.bound)

def allNames (f : Func) : NameSet :=
  OrdSet.ofList f.paramNames ∪ f.freeVars ∪ f.body.bound ∪ f.body.referenced ∪ f.body.called

end Func

end NumLang
