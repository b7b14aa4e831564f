import Backslice.Arena
import Backslice.Main
import Backslice.Proofs.DeadAssignmentRemoval
import Backslice.Proofs.Noninterference
import Backslice.Proofs.PreImage
import Backslice.Proofs.FlatRun
import Backslice.Proofs.SliceCompleteness
import Backslice.Proofs.Convergence
import Backslice.Proofs.SubtermAgreement
import Backslice.Proofs.Recomputation
import Backslice.BuildOrder
import Backslice.Manager
import Backslice.Proofs.StoredTerms
import Backslice.Proofs.HashConsing
import Backslice.Proofs.ParsedTerms
import Backslice.Proofs.RoundTrip
import Backslice.Proofs.AbsorbedArrows
import Backslice.Proofs.OverApproximation
import Backslice.Proofs.QueueDiscipline
import Backslice.Proofs.ComputedArrivals
import Backslice.Proofs.ContextGrowth
import Backslice.Proofs.HandleIndependence
import Backslice.Proofs.ElementwiseEffect
import Backslice.Proofs.ForwardUses
import Backslice.Proofs.PartialRegisters
import Backslice.Proofs.SliceUnion
import Backslice.Proofs.StepBound
import Backslice.Proofs.FoldedTerms
import Backslice.Proofs.SplitReads
import Backslice.Proofs.SymbolReplacement
import Backslice.Proofs.FirstSteps
import Backslice.Proofs.SetUnions
import Backslice.Proofs.DistinctValues
import Backslice.Proofs.NormalArenas
import Backslice.Proofs.QuantifiedNodes
import Backslice.Proofs.PerfectPairing
import Backslice.Proofs.RegisterReads
