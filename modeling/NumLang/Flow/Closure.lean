import NumLang.Flow.Reaching

/-!
Everything that is reached from some definitions by a step relation between definitions.
-/

namespace NumLang

def saturate (next : DefId → List DefId) : (rounds : Nat) → OrdSet DefId → OrdSet DefId
  | 0, seen => seen
  | rounds + 1, seen =>
    let grown := OrdSet.insertAll (seen.toList.flatMap next) seen
    if grown.size = seen.size then seen else saturate next rounds grown

namespace Reaching

/-- The definitions that are reached from `start` in any number of steps. Each round but the last adds one,
so there are never more rounds than definitions. -/
def closure (r : Reaching) (next : DefId → List DefId) (start : List DefId) : OrdSet DefId :=
  saturate next (r.size + start.length) (OrdSet.ofList start)

def sources (r : Reaching) (d : DefId) : List DefId := ((r.def? d).map Definition.sources).getD []

end Reaching

end NumLang
