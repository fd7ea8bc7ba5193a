import NumLang.Data.Passes
import NumLang.Tree.Walk
import NumLang.Proofs.FoldingSound
import NumLang.Proofs.Matching
import NumLang.Proofs.Replacing
import NumLang.Proofs.PassesTotal
import NumLang.Proofs.InliningTotal
import NumLang.Proofs.EffectOrder
import NumLang.Proofs.EvaluatedOnce
import NumLang.Proofs.LastGood
import NumLang.Proofs.MostGeneral
import NumLang.Proofs.Labels
import NumLang.Proofs.WalkedUses
import NumLang.Proofs.Refusals
import NumLang.Proofs.BundlingSound
import NumLang.Proofs.ContextOrigins
import NumLang.Proofs.ExactValues
import NumLang.Proofs.Executions
import NumLang.Proofs.Meeting
import NumLang.Proofs.JoinTags
import NumLang.Proofs.Noninterference
import NumLang.Proofs.RenamedNames
import NumLang.Proofs.Congruence
import NumLang.Proofs.Decimals
import NumLang.Proofs.Specialized
