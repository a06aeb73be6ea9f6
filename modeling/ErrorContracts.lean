import ErrorContracts.Collection.SortedSet
import ErrorContracts.Collection.Bindings
import ErrorContracts.Collection.SortedMap
import ErrorContracts.Collection.OrderBy
import ErrorContracts.Collection.Trail
import ErrorContracts.Text.Printable
import ErrorContracts.Text.Quoted
import ErrorContracts.Word32
import ErrorContracts.Diagnostic
import ErrorContracts.Formula.Basic
import ErrorContracts.Formula.Connectives
import ErrorContracts.Formula.Text
import ErrorContracts.Formula.Decision
import ErrorContracts.Oracle.Basic
import ErrorContracts.Oracle.Exact
import ErrorContracts.Oracle.Recall
import ErrorContracts.Program.Value
import ErrorContracts.Program.Module
import ErrorContracts.Program.Build
import ErrorContracts.Program.Casts
import ErrorContracts.Program.Describe
import ErrorContracts.Flow.Graph
import ErrorContracts.Flow.Dominators
import ErrorContracts.Flow.ControlDependence
import ErrorContracts.Routine.Basic
import ErrorContracts.Routine.Returns
import ErrorContracts.PathCondition
import ErrorContracts.Contract.Action
import ErrorContracts.Contract.Returns
import ErrorContracts.Contract.Descriptor
import ErrorContracts.Contract.Clause
import ErrorContracts.Environment.IndirectCalls
import ErrorContracts.Environment.Dependencies
import ErrorContracts.Environment.Options
import ErrorContracts.CallGraph.Basic
import ErrorContracts.CallGraph.Components
import ErrorContracts.Inference.State
import ErrorContracts.Inference.Evidence
import ErrorContracts.Inference.Rules
import ErrorContracts.Inference.Features
import ErrorContracts.Inference.Fixpoint
import ErrorContracts.About
import ErrorContracts.Proofs.Decision
import ErrorContracts.Proofs.Guards
import ErrorContracts.Proofs.Verdicts
import ErrorContracts.Proofs.Agreement
import ErrorContracts.Proofs.Steps
import ErrorContracts.Proofs.Settling
import ErrorContracts.Proofs.Questions
import ErrorContracts.Proofs.Moves
import ErrorContracts.Proofs.Vocabulary
import ErrorContracts.Proofs.Termination
import ErrorContracts.Proofs.Growth
import ErrorContracts.Proofs.Changes
import ErrorContracts.Proofs.Exactness
import ErrorContracts.Proofs.Suppression
import ErrorContracts.Proofs.Listings
import ErrorContracts.Proofs.Filing
import ErrorContracts.Proofs.Upkeep
import ErrorContracts.Proofs.Building
import ErrorContracts.Proofs.Commitment
import ErrorContracts.Proofs.Controllers
import ErrorContracts.Proofs.Expansion
import ErrorContracts.Proofs.Admission
import ErrorContracts.Proofs.Components
import ErrorContracts.Proofs.Locality
import ErrorContracts.Proofs.Convergence
import ErrorContracts.Proofs.VisitOrder
import ErrorContracts.Proofs.Provenance
import ErrorContracts.Proofs.Forwarding
import ErrorContracts.Proofs.Postorder
import ErrorContracts.Proofs.ParentTrees
import ErrorContracts.Proofs.Dominance
import ErrorContracts.Proofs.Dependence
import ErrorContracts.Proofs.ControlChains
import ErrorContracts.Proofs.Defects
import ErrorContracts.Proofs.Lookups
import ErrorContracts.Proofs.Safety
import ErrorContracts.Proofs.ReturnedValues
import ErrorContracts.Proofs.BlockFacts
import ErrorContracts.Proofs.Consistency
import ErrorContracts.Proofs.DeadCode
import ErrorContracts.Proofs.Polarity
import ErrorContracts.Proofs.DominatorLoop
import ErrorContracts.Proofs.Choices
import ErrorContracts.Proofs.ReturnPaths
import ErrorContracts.Proofs.Presence
import ErrorContracts.Proofs.Sharing
import ErrorContracts.Proofs.Condensation
import ErrorContracts.Proofs.Execution
import ErrorContracts.Proofs.Comparisons
import ErrorContracts.Proofs.Filtering
import ErrorContracts.Proofs.Merging
import ErrorContracts.Proofs.Absorption
import ErrorContracts.Proofs.Candidates
import ErrorContracts.Proofs.Retraction
import ErrorContracts.Proofs.ReturnSearch
import ErrorContracts.Proofs.Recollection
import ErrorContracts.Proofs.CallCounting
import ErrorContracts.Proofs.CastChains
import ErrorContracts.Proofs.Reporting
import ErrorContracts.Proofs.TransitiveControl
import ErrorContracts.Proofs.Residues
