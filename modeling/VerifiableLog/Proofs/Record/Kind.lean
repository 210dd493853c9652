import VerifiableLog.Merkle.Address
import VerifiableLog.Record

/-!
The kinds of values that a log stores and exchanges.
-/

namespace VerifiableLog

inductive ValueKind where
  | digest
  | newLeaf
  | leafRecord
  | nodeAddress
  | treeState
  | treeHead
  | signedTreeHead
  | inclusionProof
  | consistencyProof
  | appendReceipt

abbrev ValueKind.Value : ValueKind → Type
  | .digest => Digest
  | .newLeaf => NewLeaf
  | .leafRecord => LeafRecord
  | .nodeAddress => Merkle.NodeAddress
  | .treeState => TreeState
  | .treeHead => TreeHead
  | .signedTreeHead => SignedTreeHead
  | .inclusionProof => InclusionProof
  | .consistencyProof => ConsistencyProof
  | .appendReceipt => AppendReceipt

end VerifiableLog
