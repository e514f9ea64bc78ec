import ObjectTransfer.Channel.Calls
import ObjectTransfer.Exchange.Report
import ObjectTransfer.Exchange.Run
import ObjectTransfer.Loopback.Plugin
import ObjectTransfer.Proofs.InOrder
import ObjectTransfer.Proofs.Matching
import ObjectTransfer.Proofs.Hosted
import ObjectTransfer.Scripted.Plugin
import ObjectTransfer.Text.Utf8
import ObjectTransfer.Proofs.Simulation
import ObjectTransfer.Proofs.Fates
import ObjectTransfer.Proofs.CallStages
import ObjectTransfer.Proofs.Openings
import ObjectTransfer.Proofs.Registry
import ObjectTransfer.Proofs.Roles
import ObjectTransfer.Proofs.Closures
import ObjectTransfer.Proofs.Deliveries
import ObjectTransfer.Proofs.Writers
import ObjectTransfer.Proofs.Quiet
import ObjectTransfer.Proofs.Readers
import ObjectTransfer.Proofs.Leaks
import ObjectTransfer.Proofs.Endings
import ObjectTransfer.Proofs.Receipts
import ObjectTransfer.Proofs.Failures
import ObjectTransfer.Proofs.Stores
import ObjectTransfer.Proofs.Intakes
import ObjectTransfer.Proofs.Outflows
import ObjectTransfer.Proofs.Snapshots
import ObjectTransfer.Proofs.Progress
import ObjectTransfer.Proofs.Entries
import ObjectTransfer.Proofs.Acknowledgements
import ObjectTransfer.Proofs.Activity
import ObjectTransfer.Proofs.Guards
import ObjectTransfer.Proofs.Agendas
import ObjectTransfer.Proofs.Shifts
import ObjectTransfer.Proofs.Accounts
import ObjectTransfer.Proofs.Terminations
import ObjectTransfer.Proofs.Wakings
import ObjectTransfer.Proofs.Conclusions
import ObjectTransfer.Proofs.Turns
import ObjectTransfer.Proofs.Verdicts
import ObjectTransfer.Proofs.Judgements
import ObjectTransfer.Proofs.Pulls
import ObjectTransfer.Proofs.Overtakings
import ObjectTransfer.Proofs.Playbacks
import ObjectTransfer.Proofs.Scripts
import ObjectTransfer.Proofs.Performances
import ObjectTransfer.Proofs.ProgramDownloads
import ObjectTransfer.Proofs.Drained
import ObjectTransfer.Proofs.Reads
import ObjectTransfer.Proofs.Refusals
import ObjectTransfer.Proofs.Clients
import ObjectTransfer.Proofs.Downloads
import ObjectTransfer.Proofs.WriterCalls
import ObjectTransfer.Proofs.Aborts
import ObjectTransfer.Proofs.Precedence
import ObjectTransfer.Proofs.Prevailing
import ObjectTransfer.Proofs.Pacing
import ObjectTransfer.Proofs.OnceListeners
import ObjectTransfer.Proofs.Countdowns
import ObjectTransfer.Proofs.Isolation
import ObjectTransfer.Proofs.Replies
import ObjectTransfer.Proofs.Complaints
import ObjectTransfer.Proofs.Dismissals
