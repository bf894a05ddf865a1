import Condensation.Schedule
import Condensation.Pairing
import Condensation.Algebra.Factorization
import Condensation.Algebra.BlockTable
import Condensation.Algebra.Sparse
import Condensation.Algebra.Sparse.Triplets
import Condensation.Algebra.Sparse.Columns
import Condensation.Algebra.Sparse.Symmetry
import Condensation.Ranks.Run
import Condensation.Ranks.RowBlock
import Condensation.Mesh
import Condensation.Mesh.Adjacency
import Condensation.Discretization
import Condensation.Coupling
import Condensation.Dofs.Essential
import Condensation.Dofs.FirstCopies
import Condensation.ElementStore
import Condensation.Interface.Assembly
import Condensation.Interface.Congruence
import Condensation.Reduction
import Condensation.Session
import Condensation.Proofs.Scheduling
import Condensation.Proofs.Operators
import Condensation.Proofs.Elimination
import Condensation.Proofs.FaceSlots
import Condensation.Proofs.Grouping
import Condensation.Proofs.LinkedFaces
import Condensation.Proofs.SparseEntries
import Condensation.Proofs.ElementSolves
import Condensation.Proofs.JumpOperator
import Condensation.Proofs.RowLayout
import Condensation.Proofs.Composition
import Condensation.Proofs.Positivity
import Condensation.Proofs.Preparation
import Condensation.Proofs.SaddlePoint
import Condensation.Proofs.CondensedSession
import Condensation.Proofs.Collective
import Condensation.Proofs.Tiling
import Condensation.Proofs.Delivery
import Condensation.Proofs.TripletSums
import Condensation.Proofs.SharedProducts
import Condensation.Proofs.CongruenceSum
import Condensation.Proofs.ConformingLinks
import Condensation.Proofs.EmptyCopies
import Condensation.History
import Condensation.Proofs.HeldMatrix
import Condensation.Proofs.InterfaceForm
import Condensation.Proofs.Classification
import Condensation.Proofs.ChosenCopies
import Condensation.Proofs.PreparedRanks
import Condensation.Proofs.KeptValues
import Condensation.Proofs.FaceRows
import Condensation.Proofs.EssentialData
import Condensation.Proofs.RefusedRequests
import Condensation.Proofs.OrphanRows
import Condensation.Proofs.Endings
import Condensation.Proofs.AcceptedInputs
import Condensation.Proofs.GlobalProlongation
import Condensation.Proofs.FaithfulPulls
import Condensation.Proofs.SharedMarks
import Condensation.Proofs.TurnedCopies
import Condensation.Proofs.OrientationChoice
import Condensation.Proofs.ArbitraryReplies
import Condensation.Proofs.FaithfulSums
import Condensation.Proofs.RoutedTriplets
import Condensation.Proofs.TransposedOperators
import Condensation.Proofs.AlikeEndings
import Condensation.Proofs.ConformingTables
import Condensation.Proofs.PatchedSolves
import Condensation.Proofs.Representations
import Condensation.Proofs.LastMatrices
import Condensation.Proofs.SingleSolves
import Condensation.Proofs.CoupledFaces
import Condensation.Proofs.StoredRows
import Condensation.Proofs.StackedProducts
import Condensation.Proofs.ScatteredBlocks
import Condensation.Proofs.AcceptedFaces
import Condensation.Proofs.GatherTables
import Condensation.Proofs.ClaimedSlots
import Condensation.Proofs.MirroredEntries
import Condensation.Proofs.SparseViews
import Condensation.Proofs.ExactLookup
import Condensation.Proofs.FaceNumbering
