import ScoreScript.Cache.Store
import ScoreScript.Catalog.Registry
import ScoreScript.Declaration.Reader
import ScoreScript.Generator
import ScoreScript.Grammar.Declared
import ScoreScript.Random.Listed
import ScoreScript.Tree.Printout
import ScoreScript.Proofs.Grammar.Reachability
import ScoreScript.Proofs.Grammar.Derivation
import ScoreScript.Proofs.Grammar.Scripts
import ScoreScript.Proofs.Evaluation.Soundness
import ScoreScript.Proofs.Cache.Fields
import ScoreScript.Proofs.Cache.Listing
import ScoreScript.Proofs.Cache.Payload
import ScoreScript.Proofs.Cache.RoundTrip
import ScoreScript.Proofs.Script.Display
import ScoreScript.Proofs.Evaluation.Meaning
import ScoreScript.Proofs.Cache.Acceptance
import ScoreScript.Proofs.Script.Unambiguous
import ScoreScript.Proofs.Declaration.Parsing
import ScoreScript.Proofs.Declaration.Viability
import ScoreScript.Proofs.Script.Legality
import ScoreScript.Proofs.Cache.Corruption
import ScoreScript.Proofs.Cache.Spending
import ScoreScript.Proofs.Cache.Normalization
import ScoreScript.Proofs.Cache.Signatures
import ScoreScript.Proofs.Cache.Fingerprint
import ScoreScript.Proofs.Grammar.Conformance
import ScoreScript.Proofs.Grammar.Occurrence
import ScoreScript.Proofs.Grammar.Construction
import ScoreScript.Proofs.Grammar.Cutting
import ScoreScript.Proofs.Catalog.Steps
import ScoreScript.Proofs.Catalog.Confinement
import ScoreScript.Proofs.Catalog.Agreement
import ScoreScript.Proofs.Evaluation.CallLogs
import ScoreScript.Proofs.Evaluation.Equivariance
import ScoreScript.Proofs.Evaluation.Choice
import ScoreScript.Proofs.Script.Stability
import ScoreScript.Proofs.Tree.Subtrees
import ScoreScript.Proofs.Script.Attempts
import ScoreScript.Proofs.Cache.Preorder
import ScoreScript.Proofs.Catalog.Building
import ScoreScript.Evaluation.Logging
import ScoreScript.Proofs.Evaluation.Reached
import ScoreScript.Proofs.Evaluation.Traces
import ScoreScript.Proofs.Numeric.Nearest
import ScoreScript.Proofs.Value.Comparison
import ScoreScript.Proofs.Cache.Canonical
import ScoreScript.Proofs.Tree.Positions
import ScoreScript.Proofs.Grammar.Distance
import ScoreScript.Proofs.Script.Layout
import ScoreScript.Proofs.Tree.Printout
