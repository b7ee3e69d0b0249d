import ForkLog.Bytes.Numbers
import ForkLog.Main
import ForkLog.Proofs.Action.Retrying
import ForkLog.Proofs.Checksum
import ForkLog.Proofs.Cursor.Codec
import ForkLog.Proofs.Event.Independence
import ForkLog.Proofs.Event.RoundTrip
import ForkLog.Proofs.Follower.BadLine
import ForkLog.Proofs.Follower.CleanRun
import ForkLog.Proofs.Follower.Crash
import ForkLog.Proofs.Follower.Forks
import ForkLog.Proofs.Follower.IdleStart
import ForkLog.Proofs.Follower.Rejected
import ForkLog.Proofs.Follower.Restart
import ForkLog.Proofs.Follower.RetriedFork
import ForkLog.Proofs.Follower.Retry
import ForkLog.Proofs.Follower.Transient
import ForkLog.Proofs.Follower.Window
import ForkLog.Proofs.Http.QueryString
import ForkLog.Proofs.OperationLog.Checkpoint
import ForkLog.Proofs.OperationLog.Convergence
import ForkLog.Proofs.OperationLog.KeySpace
import ForkLog.Proofs.OperationLog.Rollback
import ForkLog.Proofs.OperationLog.UndoHistory
import ForkLog.Proofs.Query.Contention
import ForkLog.Proofs.Query.Matching
import ForkLog.Proofs.Query.Paging
import ForkLog.Proofs.Query.Visibility
import ForkLog.Proofs.Store.Damage
import ForkLog.Proofs.Store.Reopening
