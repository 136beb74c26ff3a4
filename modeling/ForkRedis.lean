import ForkRedis.Reload
import ForkRedis.Persistence
import ForkRedis.Timers
import ForkRedis.Snapshot
import ForkRedis.Rewrite
import ForkRedis.Interest
import ForkRedis.Replies
import ForkRedis.Expiry
import ForkRedis.Refusals
import ForkRedis.TextbookRuns
import ForkRedis.Stops
import ForkRedis.Programs
import ForkRedis.Malformed
import ForkRedis.Positions
import ForkRedis.Removals
import ForkRedis.Tags
import ForkRedis.Increments
import ForkRedis.Documented
import ForkRedis.ZSetUpdates
import ForkRedis.Rejected
import ForkRedis.Residue
import ForkRedis.Compression
import ForkRedis.TimerQueue
import ForkRedis.UpgradeLock
import ForkRedis.Lru
import ForkRedis.Conf
import ForkRedis.Draining
import ForkRedis.Remaining
import ForkRedis.Header
import ForkRedis.Client
import ForkRedis.Latches
import ForkRedis.Wakeups
import ForkRedis.Queues
import ForkRedis.Loading
import ForkRedis.Cuts
import ForkRedis.Recall
import ForkRedis.Lives
import ForkRedis.Copying
import ForkRedis.Flushing
import ForkRedis.Restarts
