import NumLang.Pipeline
import NumLang.Proofs.Editing

/-!
The passes that there are. Each of them makes an edit of a function that keeps its name, and gives what it has made only
if that is well formed.
-/

namespace NumLang

/-- The passes that there are. -/
inductive Pass.BuiltIn : Pass → Prop
  | constantFolding (ev : Evaluator) : BuiltIn (.constantFolding ev)
  | copyPropagation : BuiltIn .copyPropagation
  | deadCode : BuiltIn .deadCode
  | branchMerging : BuiltIn .branchMerging
  | contextLifting : BuiltIn .contextLifting
  | inlining (threshold : Option Nat) : BuiltIn (.inlining threshold)
  | bundling (targets : BundleTargets) : BuiltIn (.bundling targets)
  | specialization (spec : Specialize) : BuiltIn (.specialization spec)
  | unrolling (u : Unroll) : BuiltIn (.unrolling u)

namespace Edit

def Names (name : String) (x : Edit Func) : Prop := ∀ s, ifMade.leads s x fun g _ => g.name = name

variable {name : String} {f : Func}

theorem names_onFunc {hooks : Rebuild Edit} (same : f.name = name) : (hooks.onFunc f).Names name := fun _ =>
  ifMade.bind fun _ _ _ => ifMade.pure same

theorem names_copying (fuel : Nat) (same : f.name = name) : (CopyPropagation.rounds fuel f).Names name := by
  induction fuel generalizing f with
  | zero => exact fun _ => ifMade.pure same
  | succ fuel ih =>
    refine fun _ => ifMade.bind fun u t _ => ?_
    dsimp only
    split
    · exact ifMade.pure same
    · exact ifMade.bind fun _ t _ => ifMade.andThen (names_onFunc same t) fun g t same => ih same t

theorem names_clearing (fuel : Nat) (same : f.name = name) : (DeadCode.rounds fuel f).Names name := by
  induction fuel generalizing f with
  | zero => exact fun _ => ifMade.pure same
  | succ fuel ih =>
    refine fun _ => ifMade.bind fun before _ _ => ifMade.bind fun plan t _ => ?_
    refine ifMade.andThen (names_onFunc same t) fun g t same => ifMade.bind fun after t _ => ?_
    dsimp only
    split
    · exact ifMade.pure same
    · exact ih same t

end Edit

open Edit

variable {p : Pass}

theorem Pass.BuiltIn.names (builtIn : p.BuiltIn) (cfg : Config) :
    ∃ edit, p.run cfg = perform p.name edit ∧ ∀ f : Func, (edit f).Names f.name := by
  cases builtIn with
  | constantFolding => exact ⟨_, rfl, fun f _ => ifMade.bind fun _ _ _ => ifMade.bind fun _ _ _ => ifMade.pure rfl⟩
  | inlining => exact ⟨_, rfl, fun f _ => ifMade.bind fun _ _ _ => ifMade.pure rfl⟩
  | copyPropagation => exact ⟨_, rfl, fun f => names_copying _ rfl⟩
  | deadCode =>
    refine ⟨_, rfl, fun f s => ifMade.andThen (names_clearing _ rfl s) fun g t same => ?_⟩
    exact ifMade.bind fun _ _ _ => ifMade.pure same
  | branchMerging | bundling => exact ⟨_, rfl, fun f _ => ifMade.bind fun _ t _ => names_onFunc rfl t⟩
  | contextLifting =>
    refine ⟨_, rfl, fun f _ => ifMade.bind fun _ _ _ => ifMade.bind ?_⟩
    exact ifMade.bind fun _ _ _ => ifMade.pure (ifMade.pure rfl)
  | specialization spec =>
    refine ⟨_, rfl, fun f _ => ifMade.bind fun _ _ _ => ifMade.bind fun params t _ => ?_⟩
    refine ifMade.andThen (names_onFunc rfl t) fun g t same => ifMade.bind fun s _ _ => ?_
    dsimp only
    split
    · exact ifMade.bind fun _ _ _ => ifMade.pure same
    · exact ifMade.pure same
  | unrolling u =>
    refine ⟨_, rfl, fun f _ => ?_⟩
    show ifMade.leads _ (Unrolling.edit u f) _
    unfold Unrolling.edit
    split
    · nofun
    · refine ifMade.bind fun _ _ _ => ?_
      dsimp only
      split
      · exact ifMade.pure rfl
      · exact ifMade.bind fun _ t _ => names_onFunc rfl t

theorem Pass.BuiltIn.gives (builtIn : p.BuiltIn) {cfg : Config} {f g : Func} {events : EventLog}
    {session after : Session} (ran : (p.run cfg f).run session = (.ok (g, events), after)) :
    g.name = f.name ∧ g.check = .ok () := by
  obtain ⟨edit, performs, names⟩ := builtIn.names cfg
  rw [performs] at ran
  obtain ⟨s', made⟩ := makes_of_perform ran
  exact ⟨names f _ g s' made, checks_of_perform ran⟩

end NumLang
