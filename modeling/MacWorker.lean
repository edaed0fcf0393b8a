import MacWorker.Agent.AuthFailureScan
import MacWorker.Controller.Frames
import MacWorker.Controller.StoreIndex
import MacWorker.Controller.StoreOutcomes
import MacWorker.Dag.Exclusive
import MacWorker.Dag.Pending
import MacWorker.Drain
import MacWorker.Gc.LiveWork
import MacWorker.Integration.Epochs
import MacWorker.Integration.Fence
import MacWorker.Integration.JointRuns
import MacWorker.Integration.Reservations
import MacWorker.Integration.Verified
import MacWorker.Job.Supervise
import MacWorker.Journal.Roles
import MacWorker.Liveness
import MacWorker.Outbox
import MacWorker.Queue.ActiveTasks
import MacWorker.Queue.Clock
import MacWorker.Queue.Conservation
import MacWorker.Queue.PermitSafety
import MacWorker.Queue.RunCap
import MacWorker.Queue.Undo
import MacWorker.Redaction.Leaks
import MacWorker.Redaction.Stored
import MacWorker.RunnerLog.Paging
import MacWorker.Session.RolloutDate
import MacWorker.Session.Tokens
import MacWorker.Session.VersionGate
import MacWorker.Turn.Publish
