import Ltl.Runs
import Ltl.Counts
import Ltl.Slots
import Ltl.FutureState
import Ltl.Futures
import Ltl.FutureMoves
import Ltl.FutureLaws
import Ltl.SingleAssignment
import Ltl.Weights
import Ltl.Ownership
import Ltl.ExactlyOnce
import Ltl.Unwrap
import Ltl.TaskQueue
import Ltl.TaskMoves
import Ltl.Accounting
import Ltl.Handshake
import Ltl.Links
import Ltl.Scheduler
import Ltl.WorkerLoop
import Ltl.Await
import Ltl.Stranded
import Ltl.Mirror
import Ltl.EventLoop
import Ltl.SocketRead
import Ltl.SocketBuffer
import Ltl.Joining
import Ltl.Wakeup
import Ltl.PromiseOwner
import Ltl.AwaitGet
import Ltl.Edges
import Ltl.Forest
import Ltl.Tokens
import Ltl.TupleMeta
import Ltl.Waiters
import Ltl.WhenAll
import Ltl.WhenAny
import Ltl.CloseOnce
import Ltl.Connect
import Ltl.Manager
import Ltl.ServerClose
import Ltl.Setters
import Ltl.StreamEnd
import Ltl.WriteFate
import Ltl.ContextRuns
import Ltl.KeepAlive
import Ltl.Progress
import Ltl.Sections
import Ltl.Statements
import Ltl.Block
import Ltl.Frames
import Ltl.Handles
import Ltl.Messages
import Ltl.SetterForest
import Ltl.Promise
import Ltl.FutureCost
import Ltl.FutureProgress
