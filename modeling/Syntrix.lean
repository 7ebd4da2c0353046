import Syntrix.Query.Pagination
import Syntrix.Puller.RetentionRuns
import Syntrix.Puller.Checkpoint
import Syntrix.Storage.Versions
import Syntrix.Puller.AdmissionRuns
import Syntrix.Replica.Freshness
import Syntrix.Console.Ownership
import Syntrix.Trigger.Publication
import Syntrix.Streamer.Reconnection
import Syntrix.Realtime.Ownership
import Syntrix.Realtime.Selection
import Syntrix.Index.Reconstruction
import Syntrix.Query.Push
import Syntrix.Authorization.Determinism
import Syntrix.Query.Patch
import Syntrix.Streamer.MatchExact
import Syntrix.Gateway.DatabaseAdmin
import Syntrix.Gateway.WrittenNumbers
import Syntrix.Puller.Resumption
import Syntrix.Puller.EventCodec
import Syntrix.Trigger.Retry
import Syntrix.Realtime.Payload
import Syntrix.Realtime.Legacy
import Syntrix.Pubsub.Memory
import Syntrix.Database.Lifecycle
import Syntrix.Identity.Accounts
import Syntrix.Trigger.EventTypes
