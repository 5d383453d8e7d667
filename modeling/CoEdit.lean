import CoEdit.Endpoint
import CoEdit.Main
import CoEdit.Mailbox.Drive
import CoEdit.Mailbox.Moves
import CoEdit.Transform.Marked
import CoEdit.Proofs.AlarmLogs
import CoEdit.Proofs.Alarms
import CoEdit.Proofs.Attention
import CoEdit.Proofs.Budget
import CoEdit.Proofs.Causality
import CoEdit.Proofs.CharContract
import CoEdit.Proofs.Completion
import CoEdit.Proofs.Composition
import CoEdit.Proofs.Conservation
import CoEdit.Proofs.Convergence
import CoEdit.Proofs.Costs
import CoEdit.Proofs.Dispatch
import CoEdit.Proofs.Driving
import CoEdit.Proofs.ExactlyOnce
import CoEdit.Proofs.Exhaustion
import CoEdit.Proofs.Faultless
import CoEdit.Proofs.Forms
import CoEdit.Proofs.Gapless
import CoEdit.Proofs.Handling
import CoEdit.Proofs.Intent
import CoEdit.Proofs.LastRevision
import CoEdit.Proofs.LateSubmits
import CoEdit.Proofs.Placement
import CoEdit.Proofs.Reconciliation
import CoEdit.Proofs.Requests
import CoEdit.Proofs.Settled
import CoEdit.Proofs.Sleepers
