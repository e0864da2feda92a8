import MinerWatch.Browser.Console
import MinerWatch.Browser.Page.Dashboard
import MinerWatch.Browser.Page.Time
import MinerWatch.PollLoop.Rehearsal
import MinerWatch.Proofs.Batch.Faults
import MinerWatch.Proofs.Browser.Knowledge
import MinerWatch.Proofs.Browser.Polling
import MinerWatch.Proofs.Device.Hashrate
import MinerWatch.Proofs.Device.RoundTrip
import MinerWatch.Proofs.Engine.Alignment
import MinerWatch.Proofs.Engine.Answer
import MinerWatch.Proofs.Engine.Clearing
import MinerWatch.Proofs.Engine.Finiteness
import MinerWatch.Proofs.Engine.Gapless
import MinerWatch.Proofs.Engine.Healing
import MinerWatch.Proofs.Engine.Reload
import MinerWatch.Proofs.Engine.ResumePoint
import MinerWatch.Proofs.PollLoop.Accounting
import MinerWatch.Proofs.Series.Accounting
import MinerWatch.Proofs.Series.Batching
import MinerWatch.Proofs.Series.Cursor
import MinerWatch.Proofs.Settings
import MinerWatch.Proofs.Text.Query
