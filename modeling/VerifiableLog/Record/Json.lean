import VerifiableLog.Json.Reader
import VerifiableLog.Json.Writer
import VerifiableLog.Merkle.Address
import VerifiableLog.Record

/-!
The JSON form of the log's values: an object for each record, with its fields in a fixed order when
it is written. Extra data that is left out is read as absent, and is written as `null`.
-/

namespace VerifiableLog

open Json

private def required {α : Type} (name : String) (read : Reader α) : FieldReader α :=
  ⟨Bytes.ofAscii name, read, none⟩

private def named (name : String) (value : Bytes) : Bytes × Bytes := (Bytes.ofAscii name, value)

private def extraDataField : FieldReader (Option Bytes) :=
  ⟨Bytes.ofAscii "extra_data", readOptional readBlob, some none⟩

def Digest.readJson : Reader Digest := readDigest

def Digest.writeJson (digest : Digest) : Bytes := writeDigest digest

namespace NewLeaf

def fields : Fields [Bytes, Option Bytes] :=
  .cons (required "leaf_value" readBlob) (.cons extraDataField .nil)

def readJson : Reader NewLeaf :=
  mapReader fields.readRecord fun (leafValue, extraData, ()) => some ⟨leafValue, extraData⟩

def writeJson (leaf : NewLeaf) : Bytes :=
  writeObject [named "leaf_value" (writeBlob leaf.leafValue),
    named "extra_data" (writeOptional writeBlob leaf.extraData)]

end NewLeaf

namespace LeafRecord

def fields : Fields [UInt64, Digest, Bytes, Option Bytes] :=
  .cons (required "sequence" readWord) (.cons (required "leaf_hash" readDigest)
    (.cons (required "leaf_value" readBlob) (.cons extraDataField .nil)))

def readJson : Reader LeafRecord :=
  mapReader fields.readRecord fun (sequence, leafHash, leafValue, extraData, ()) =>
    some ⟨sequence, leafHash, leafValue, extraData⟩

def writeJson (record : LeafRecord) : Bytes :=
  writeObject [named "sequence" (writeWord record.sequence),
    named "leaf_hash" (writeDigest record.leafHash),
    named "leaf_value" (writeBlob record.leafValue),
    named "extra_data" (writeOptional writeBlob record.extraData)]

end LeafRecord

namespace Merkle.NodeAddress

def fields : Fields [UInt8, UInt64] :=
  .cons (required "level" readByte) (.cons (required "index" readWord) .nil)

def readJson : Reader NodeAddress :=
  mapReader fields.readRecord fun (level, index, ()) => some ⟨level, index⟩

def writeJson (address : NodeAddress) : Bytes :=
  writeObject [named "level" (writeNatural address.level.toNat),
    named "index" (writeWord address.index)]

end Merkle.NodeAddress

namespace TreeState

def fields : Fields [UInt64, Digest] :=
  .cons (required "size" readWord) (.cons (required "root_hash" readDigest) .nil)

def readJson : Reader TreeState :=
  mapReader fields.readRecord fun (size, rootHash, ()) => some ⟨size, rootHash⟩

def writeJson (state : TreeState) : Bytes :=
  writeObject [named "size" (writeWord state.size), named "root_hash" (writeDigest state.rootHash)]

end TreeState

namespace TreeHead

def fields : Fields [UInt64, UInt64, Digest] :=
  .cons (required "tree_size" readWord) (.cons (required "timestamp" readWord)
    (.cons (required "root_hash" readDigest) .nil))

def readJson : Reader TreeHead :=
  mapReader fields.readRecord fun (treeSize, timestamp, rootHash, ()) =>
    some ⟨treeSize, timestamp, rootHash⟩

def writeJson (head : TreeHead) : Bytes :=
  writeObject [named "tree_size" (writeWord head.treeSize),
    named "timestamp" (writeWord head.timestamp), named "root_hash" (writeDigest head.rootHash)]

end TreeHead

namespace SignedTreeHead

def fields : Fields [UInt64, Digest, UInt64, Bytes] :=
  .cons (required "tree_size" readWord) (.cons (required "root_hash" readDigest)
    (.cons (required "timestamp" readWord) (.cons (required "signature" readBlob) .nil)))

def readJson : Reader SignedTreeHead :=
  mapReader fields.readRecord fun (treeSize, rootHash, timestamp, signature, ()) =>
    some ⟨treeSize, rootHash, timestamp, signature⟩

def members (head : SignedTreeHead) : Members :=
  [named "tree_size" (writeWord head.treeSize), named "root_hash" (writeDigest head.rootHash),
    named "timestamp" (writeWord head.timestamp), named "signature" (writeBlob head.signature)]

def writeJson (head : SignedTreeHead) : Bytes := writeObject head.members

end SignedTreeHead

namespace InclusionProof

def fields : Fields [UInt64, UInt64, List Digest] :=
  .cons (required "leaf_index" readWord) (.cons (required "tree_size" readWord)
    (.cons (required "audit_path" (readList readDigest)) .nil))

def readJson : Reader InclusionProof :=
  mapReader fields.readRecord fun (leafIndex, treeSize, auditPath, ()) =>
    some ⟨leafIndex, treeSize, auditPath⟩

def writeJson (proof : InclusionProof) : Bytes :=
  writeObject [named "leaf_index" (writeWord proof.leafIndex),
    named "tree_size" (writeWord proof.treeSize),
    named "audit_path" (writeList writeDigest proof.auditPath)]

end InclusionProof

namespace ConsistencyProof

def fields : Fields [UInt64, UInt64, List Digest] :=
  .cons (required "first_size" readWord) (.cons (required "second_size" readWord)
    (.cons (required "path" (readList readDigest)) .nil))

def readJson : Reader ConsistencyProof :=
  mapReader fields.readRecord fun (firstSize, secondSize, path, ()) =>
    some ⟨firstSize, secondSize, path⟩

def writeJson (proof : ConsistencyProof) : Bytes :=
  writeObject [named "first_size" (writeWord proof.firstSize),
    named "second_size" (writeWord proof.secondSize),
    named "path" (writeList writeDigest proof.path)]

end ConsistencyProof

namespace AppendReceipt

def fields : Fields [UInt64, List UInt64, Digest] :=
  .cons (required "tree_size" readWord) (.cons (required "leaf_indexes" (readList readWord))
    (.cons (required "root_hash" readDigest) .nil))

def readJson : Reader AppendReceipt :=
  mapReader fields.readRecord fun (treeSize, leafIndexes, rootHash, ()) =>
    some ⟨treeSize, leafIndexes, rootHash⟩

def writeJson (receipt : AppendReceipt) : Bytes :=
  writeObject [named "tree_size" (writeWord receipt.treeSize),
    named "leaf_indexes" (writeList writeWord receipt.leafIndexes),
    named "root_hash" (writeDigest receipt.rootHash)]

end AppendReceipt

end VerifiableLog
