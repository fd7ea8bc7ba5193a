import NumLang.Tree.Names

/-!
A supply of names that do not clash with any name in use.
-/

namespace NumLang

structure NameSupply where
  /-- The names that are taken. -/
  used : NameSet := ∅
  /-- For each spelling, where the search for the next counter starts. -/
  counters : OrdMap String Nat := ∅
deriving Inhabited

namespace NameSupply

/-- The first of the names `base_k`, `base_(k+1)`, … that is not in `used`, where at most `tries` of them
are. -/
def firstFree (used : NameSet) (base : String) : (tries k : Nat) → Nat
  | 0, k => k
  | tries + 1, k => if ⟨base, some k⟩ ∈ used then firstFree used base tries (k + 1) else k

def reserve (n : Name) (supply : NameSupply) : NameSupply := { supply with used := supply.used.insert n }

def ofFunc (f : Func) : NameSupply := { used := f.allNames }

def fresh (base : String) (supply : NameSupply) : Name × NameSupply :=
  let start := (supply.counters.get? base).getD 0
  let k := firstFree supply.used base supply.used.size start
  let n : Name := ⟨base, some k⟩
  (n, { used := supply.used.insert n, counters := supply.counters.insert base (k + 1) })

def refresh (n : Name) (supply : NameSupply) : Name × NameSupply := supply.fresh n.base

end NameSupply

end NumLang
