import Drover.Memdriver.Unique
import Drover.Memdriver.Invariant
import Drover.Memdriver.History
import Drover.Memdriver.Fence
import Drover.Memdriver.Claims
import Drover.Go.Duration
import Drover.Go.Time
import Drover.Json.Encode
import Drover.Cron.Every
import Drover.Pool.Shutdown
import Drover.Pool.Dispatch
import Drover.Pool.Wakeup
import Drover.Client.Containment
import Drover.Client.Lifecycle
import Drover.Client.Fate
import Drover.Fleet.Ceiling
import Drover.Pgdriver.Order
import Drover.Pgdriver.Batch
import Drover.Scheduler.Distinct
import Drover.Migrate.Prefix
import Drover.Pgdriver.Leader
import Drover.Pgdriver.Operator
import Drover.Metrics.Refresh
import Drover.Client.Insert
import Drover.Scheduler.CatchUp
import Drover.Scheduler.Passes
import Drover.Queues.Fair
import Drover.Pool.ClaimRound
import Drover.Client.Rescue
import Drover.Metrics.Execution
import Drover.Go.Calendar
import Drover.Cron.Grammar
import Drover.Cron.Fires
import Drover.Cron.Gap
import Drover.Go.Format
import Drover.Scheduler.Keys
import Drover.Client.Winner
import Drover.Client.Address
import Drover.Client.Stopping
import Drover.Memdriver.Renewal
import Drover.Memdriver.Sweeps
import Drover.Pgdriver.Transaction
import Drover.Pgdriver.Reads
import Drover.Web.Status
import Drover.Pool.Listen
import Drover.Client.Heartbeat
import Drover.Client.Settings
import Drover.Pgdriver.Locks
