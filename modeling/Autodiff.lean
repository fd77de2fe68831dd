import Autodiff.Scenario
import Autodiff.Session
import Autodiff.Proofs.Argument
import Autodiff.Proofs.ProductReplay
import Autodiff.Proofs.History
import Autodiff.Proofs.SweepSteps
import Autodiff.Proofs.SweepRuns
import Autodiff.Proofs.ExactScalar
import Autodiff.Proofs.Block
import Autodiff.Proofs.ProductBlock
import Autodiff.Proofs.Transposition
import Autodiff.Proofs.ProductRecording
import Autodiff.Proofs.Ownership
import Autodiff.Proofs.Reachable
import Autodiff.Proofs.Duality
import Autodiff.Proofs.Following
import Autodiff.Proofs.ProductTracking
import Autodiff.Proofs.Runs
import Autodiff.Proofs.Agreement
import Autodiff.Proofs.Decomposition
import Autodiff.Proofs.Contents
import Autodiff.Proofs.Replays
import Autodiff.Proofs.RangeSweeps
import Autodiff.Proofs.Growth
import Autodiff.Proofs.Splitting
import Autodiff.Proofs.Advances
import Autodiff.Proofs.Leaves
import Autodiff.Proofs.Deletion
import Autodiff.Proofs.Discarding
import Autodiff.Proofs.Rewinding
import Autodiff.Proofs.Retracing
import Autodiff.Proofs.Calls
import Autodiff.Proofs.Moves
import Autodiff.Proofs.Rollback
import Autodiff.Proofs.Repetition
import Autodiff.Proofs.Acts
import Autodiff.Proofs.Books
import Autodiff.Proofs.RoundTrip
import Autodiff.Proofs.PassiveSlot
import Autodiff.Proofs.Likeness
import Autodiff.Proofs.Statelessness
import Autodiff.Proofs.Custody
import Autodiff.Proofs.Transfers
import Autodiff.Proofs.Usage
import Autodiff.Proofs.CopySweeps
import Autodiff.Proofs.Exclusivity
import Autodiff.Proofs.UniqueOutputs
import Autodiff.Proofs.Reservations
import Autodiff.Proofs.Blindness
import Autodiff.Proofs.ProductSweeps
import Autodiff.Proofs.Tokens
import Autodiff.Proofs.Bounds
import Autodiff.Proofs.Registrations
import Autodiff.Proofs.ClosingOrder
import Autodiff.Proofs.PassiveSeeds
import Autodiff.Proofs.Undoing
import Autodiff.Proofs.StalePositions
import Autodiff.Proofs.SharedHandles
import Autodiff.Proofs.Passages
import Autodiff.Proofs.InPlace
import Autodiff.Proofs.DerivativeCommands
import Autodiff.Proofs.SweepFootprints
import Autodiff.Proofs.SettledOutputs
import Autodiff.Proofs.ProductOrders
import Autodiff.Proofs.PeakUse
import Autodiff.Proofs.Cursors
import Autodiff.Proofs.ScratchBalance
