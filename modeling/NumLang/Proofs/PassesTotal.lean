import NumLang.Proofs.BranchMergingTotal
import NumLang.Proofs.ContextLiftingTotal
import NumLang.Proofs.CopyTotal
import NumLang.Proofs.UnrollingTotal

/-!
Passes that rework the structure of a function and never fail: copy propagation, the merging of branches, the lifting
of contexts and the unrolling of loops succeed on every well-formed function, and what they make of it is well formed.
-/

namespace NumLang

namespace CopyPropagation

open Edit

theorem succeeds (cfg : Config) {f : Func} {session : Session} (distinct : f.ids.Nodup)
    (drawn : ∀ id ∈ f.ids, id.val < session.next) (checked : f.check = .ok ()) :
    Pass.copyPropagation.Succeeds cfg f session := by
  have fresh : Edit.Fresh { session := session, names := .ofFunc f } f.ids := ⟨distinct, drawn⟩
  obtain ⟨g, s', made, well⟩ := makes_rounds maxRounds fresh checked
  obtain ⟨events, after, performed⟩ : ∃ events after,
      (perform Pass.copyPropagation.name (rounds maxRounds) f).run session = (.ok (g, events), after) :=
    perform_of_makes made well
  exact ⟨g, events, after, performed, well⟩

end CopyPropagation

namespace Pass

/-- Copy propagation, the merging of branches, the lifting of contexts and the unrolling of all loops by any factor, with
either treatment of what is left over, succeed on a well-formed function with distinct identities that are all drawn
before the pass, and make a well-formed function of it. -/
theorem structural_succeed (cfg : Config) (f : Func) (session : Session) (distinct : f.ids.Nodup)
    (drawn : ∀ id ∈ f.ids, id.val < session.next) (checked : f.check = .ok ()) :
    copyPropagation.Succeeds cfg f session ∧ branchMerging.Succeeds cfg f session ∧
      contextLifting.Succeeds cfg f session ∧
      ∀ (factor : Nat) (leftover : Leftover), 0 < factor →
        (unrolling { factor := factor, leftover := leftover }).Succeeds cfg f session := by
  refine ⟨CopyPropagation.succeeds cfg distinct drawn checked, ?_, ?_, fun factor leftover positive => ?_⟩
  · exact succeeds_of_leads (BranchMerging.leads_edit distinct checked) cfg session
  · exact succeeds_of_leads (ContextLifting.leads_edit distinct checked) cfg session
  · have every : Unrolling.select { factor := factor, leftover := leftover } f = .ok (Unrolling.loops f.body) := rfl
    exact succeeds_of_leads (Unrolling.leads_edit positive every distinct checked) cfg session

open Sample in
/-- Copies a copy, adds up a list in a context that is known beforehand, and gives a name a value in one arm of a
branch and another in the other. -/
def ranging : Func :=
  func ["x", "xs"] [] [
    set 10 "a" (var 11 "x"),
    set 12 "b" (var 13 "a"),
    set 14 "s" (int 15 0),
    .scope (node 16) (some (Sample.name "c")) (.context (node 17) "MPFloatContext" [int 18 53] []) ⟨⟨19⟩, [
      .each (node 20) (.name (Sample.name "y")) (var 21 "xs") ⟨⟨22⟩, [set 23 "s" (add 24 (var 25 "s") (var 26 "y"))]⟩]⟩,
    .branch (node 27) (less 28 (var 29 "s") (var 30 "b"))
      ⟨⟨31⟩, [set 32 "t" (var 33 "b")]⟩ ⟨⟨34⟩, [set 35 "t" (add 36 (var 37 "s") (var 38 "x"))]⟩,
    .ret (node 39) (var 40 "t")]

theorem structural_succeed_ranging : ranging.ids.Nodup ∧ (∀ id ∈ ranging.ids, id.val < 50) ∧ ranging.check = .ok () ∧
    copyPropagation.Succeeds {} ranging { next := 50 } ∧ branchMerging.Succeeds {} ranging { next := 50 } ∧
    contextLifting.Succeeds {} ranging { next := 50 } ∧
    (unrolling { factor := 3, leftover := .epilogue }).Succeeds {} ranging { next := 50 } := by
  have distinct : ranging.ids.Nodup := by decide
  have drawn : ∀ id ∈ ranging.ids, id.val < 50 := by decide
  have checked : ranging.check = .ok () := by decide +kernel
  obtain ⟨copies, branches, contexts, loops⟩ := structural_succeed {} ranging { next := 50 } distinct drawn checked
  exact ⟨distinct, drawn, checked, copies, branches, contexts, loops 3 .epilogue (by decide)⟩

end Pass

end NumLang
