import Scriptlet.Command
import Scriptlet.Main
import Scriptlet.Proofs.Evaluation
import Scriptlet.Proofs.RoundTrip
import Scriptlet.Sampler
import Scriptlet.Session
import Scriptlet.Syntax.Outline
import Scriptlet.Proofs.Bookkeeping
import Scriptlet.Proofs.CallDepth
import Scriptlet.Proofs.WithinLimits
import Scriptlet.Proofs.Holding
import Scriptlet.Proofs.HoldingSteps
import Scriptlet.Proofs.Halting
import Scriptlet.Proofs.HaltingSteps
import Scriptlet.Proofs.StepLimit
import Scriptlet.Proofs.Placed
import Scriptlet.Proofs.Blurred
import Scriptlet.Proofs.OneNode
import Scriptlet.Proofs.SingleExpression
import Scriptlet.Proofs.Joining
import Scriptlet.Proofs.Sampling
import Scriptlet.Proofs.Attempts
import Scriptlet.Proofs.Precedence
import Scriptlet.Proofs.BlockNesting
import Scriptlet.Proofs.Interleaving
import Scriptlet.Proofs.Equality
import Scriptlet.Proofs.Showing
import Scriptlet.Proofs.RangeSums
import Scriptlet.Proofs.Repetition
import Scriptlet.Proofs.Pieces
import Scriptlet.Proofs.Sharing
import Scriptlet.Proofs.Respelling
import Scriptlet.Proofs.Descent
import Scriptlet.Proofs.HostIntegers
import Scriptlet.Proofs.Marshalling
import Scriptlet.Proofs.FailurePlaces
import Scriptlet.Proofs.TokenPlaces
import Scriptlet.Proofs.Lookahead
