import Yeto.Members.Table
import Yeto.Server.Proofs.Sharding
import Yeto.Server.Proofs.Pending
import Yeto.Server.Proofs.CatchUps
import Yeto.Server.Proofs.Fold
import Yeto.Server.Proofs.RecoveryRuns
import Yeto.Downlink.Proofs.Follow
import Yeto.Protocol.Proofs.Push
import Yeto.SampleRelay.Proofs.Producer
import Yeto.SampleRelay.Proofs.Pump
import Yeto.SampleBuffer.Proofs.Payloads
import Yeto.SampleBuffer.Proofs.Merge
import Yeto.Releases.Proofs.Depth
import Yeto.Dispense.Proofs.Resend
import Yeto.Dispense.Proofs.Persist
import Yeto.Dispense.Proofs.Passes
import Yeto.Dispense.Proofs.Expiry
import Yeto.Dispense.Proofs.Grants
import Yeto.Dispense.Proofs.Mix
import Yeto.Dispense.Proofs.TaskSource
import Yeto.Incarnation.Proofs.Fence
import Yeto.Lanes.Proofs.Takes
import Yeto.SampleIndex.Proofs.Appends
import Yeto.Checkpoint.Proofs.Restore
import Yeto.Mirror.Proofs.Commits
import Yeto.Batches.Proofs.Trained
import Yeto.LeadCap.Proofs.Lead
import Yeto.Overlap.Proofs.Progress
import Yeto.Trainer.Scheduler
import Yeto.Engines
import Yeto.RowRuns
