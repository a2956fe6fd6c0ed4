import Verdict.Terminal
import Verdict.Main
import Verdict.Proofs.Halting
import Verdict.Proofs.Reports
import Verdict.Proofs.Completeness
import Verdict.Proofs.Definedness
import Verdict.Proofs.Hygiene
import Verdict.Proofs.SelfContained
import Verdict.Proofs.Spans
import Verdict.Proofs.Responses
import Verdict.Proofs.EncodedTexts
import Verdict.Proofs.SubstitutionLemma
import Verdict.Proofs.CheckTerms
import Verdict.Proofs.Merging
import Verdict.Proofs.TerminationModes
import Verdict.Proofs.ContractFacts
import Verdict.Proofs.Freshness
import Verdict.Proofs.Resolution
import Verdict.Proofs.SortedSets
import Verdict.Proofs.Lines
