import VerifiableLog.File.Tree
import VerifiableLog.Main
import VerifiableLog.Merkle.Proof
import VerifiableLog.Merkle.Verification
import VerifiableLog.Proofs.Log.Consistency
import VerifiableLog.Proofs.Merkle.Commitment
import VerifiableLog.Proofs.Merkle.Completeness
import VerifiableLog.Proofs.Merkle.Soundness
import VerifiableLog.Store.Faulty
import VerifiableLog.Proofs.Store.Ledger
import VerifiableLog.Proofs.Merkle.Rebuild
import VerifiableLog.Proofs.Merkle.Complete
import VerifiableLog.Proofs.Merkle.Peaks
import VerifiableLog.Proofs.Log.Opening
import VerifiableLog.Proofs.Log.Reading
import VerifiableLog.Proofs.Log.FailedAppend
import VerifiableLog.Proofs.Log.Recovery
import VerifiableLog.Proofs.Store.Leaves
import VerifiableLog.Proofs.Log.Snapshot
import VerifiableLog.Proofs.Log.ServedHead
import VerifiableLog.Proofs.Log.HeadSignature
import VerifiableLog.Proofs.Log.SigningFailure
import VerifiableLog.Proofs.Log.Expiry
import VerifiableLog.Proofs.Record.Packed
import VerifiableLog.Proofs.Record.Json
import VerifiableLog.Proofs.Http.Failure
import VerifiableLog.Proofs.Merkle.Shape
import VerifiableLog.Proofs.Merkle.Workbench
import VerifiableLog.Proofs.Http.Query
import VerifiableLog.Proofs.Log.Proving
import VerifiableLog.Proofs.Http.Paging
import VerifiableLog.Proofs.Http.Append
import VerifiableLog.Proofs.Merkle.Descent
import VerifiableLog.Proofs.Merkle.Acceptance
import VerifiableLog.Proofs.Merkle.Plan
import VerifiableLog.Proofs.Merkle.Staleness
