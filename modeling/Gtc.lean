import Gtc.Backfill.Chunking
import Gtc.Backfill.Consistency
import Gtc.Backfill.Granted
import Gtc.Backfill.Initial
import Gtc.Backfill.PoisonRow
import Gtc.Backfill.Resurrection
import Gtc.Backfill.RowKeys
import Gtc.Backfill.Status
import Gtc.Backfill.TableNames
import Gtc.Backfill.Takeover
import Gtc.Sink.Columns
import Gtc.Sink.Discard
import Gtc.Sink.Doctor
import Gtc.Sink.FailureRecords
import Gtc.Sink.MeiliTasks
import Gtc.Sink.Mirror
import Gtc.Sink.Outage
import Gtc.Sink.Poison
import Gtc.Sink.Routing
import Gtc.Sink.Shutdown
import Gtc.Sink.ToastMerge
import Gtc.Wal.Breaking
import Gtc.Wal.EventID
import Gtc.Wal.GapFree
import Gtc.Wal.Publication
import Gtc.Wal.Transactions
import Gtc.Sink.JSONReplay
import Gtc.Sink.StreamReplay
import Gtc.Sink.WebhookReplay
import Gtc.Sink.NatsReplay
import Gtc.Backfill.WatermarkText
import Gtc.Sink.CircuitBreaker
import Gtc.Sink.Triage
import Gtc.Pipeline
