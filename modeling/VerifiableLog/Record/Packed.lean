import VerifiableLog.Merkle.Address
import VerifiableLog.Packed.Codec
import VerifiableLog.Record

/-!
The packed form of the log's values: their fields, in the order of the JSON form.
-/

namespace VerifiableLog

open Packed (Codec)

def NewLeaf.packed : Codec NewLeaf :=
  (Codec.blob.pair (Codec.optional Codec.blob)).mapped
    (fun (leafValue, extraData) => ⟨leafValue, extraData⟩)
    (fun leaf => (leaf.leafValue, leaf.extraData))

def LeafRecord.packed : Codec LeafRecord :=
  (Codec.word.pair (Codec.digest.pair (Codec.blob.pair (Codec.optional Codec.blob)))).mapped
    (fun (sequence, leafHash, leafValue, extraData) => ⟨sequence, leafHash, leafValue, extraData⟩)
    (fun record => (record.sequence, record.leafHash, record.leafValue, record.extraData))

def Merkle.NodeAddress.packed : Codec Merkle.NodeAddress :=
  (Codec.byte.pair Codec.word).mapped
    (fun (level, index) => ⟨level, index⟩)
    (fun address => (address.level, address.index))

def TreeState.packed : Codec TreeState :=
  (Codec.word.pair Codec.digest).mapped
    (fun (size, rootHash) => ⟨size, rootHash⟩)
    (fun state => (state.size, state.rootHash))

def TreeHead.packed : Codec TreeHead :=
  (Codec.word.pair (Codec.word.pair Codec.digest)).mapped
    (fun (treeSize, timestamp, rootHash) => ⟨treeSize, timestamp, rootHash⟩)
    (fun head => (head.treeSize, head.timestamp, head.rootHash))

def SignedTreeHead.packed : Codec SignedTreeHead :=
  (Codec.word.pair (Codec.digest.pair (Codec.word.pair Codec.blob))).mapped
    (fun (treeSize, rootHash, timestamp, signature) => ⟨treeSize, rootHash, timestamp, signature⟩)
    (fun head => (head.treeSize, head.rootHash, head.timestamp, head.signature))

def InclusionProof.packed : Codec InclusionProof :=
  (Codec.word.pair (Codec.word.pair (Codec.list Codec.digest))).mapped
    (fun (leafIndex, treeSize, auditPath) => ⟨leafIndex, treeSize, auditPath⟩)
    (fun proof => (proof.leafIndex, proof.treeSize, proof.auditPath))

def ConsistencyProof.packed : Codec ConsistencyProof :=
  (Codec.word.pair (Codec.word.pair (Codec.list Codec.digest))).mapped
    (fun (firstSize, secondSize, path) => ⟨firstSize, secondSize, path⟩)
    (fun proof => (proof.firstSize, proof.secondSize, proof.path))

def AppendReceipt.packed : Codec AppendReceipt :=
  (Codec.word.pair ((Codec.list Codec.word).pair Codec.digest)).mapped
    (fun (treeSize, leafIndexes, rootHash) => ⟨treeSize, leafIndexes, rootHash⟩)
    (fun receipt => (receipt.treeSize, receipt.leafIndexes, receipt.rootHash))

end VerifiableLog
