import VerifiableLog.Digest

/-!
The values a log takes in and hands out: leaves, tree heads, proofs and receipts.
-/

namespace VerifiableLog

structure NewLeaf where
  leafValue : Bytes
  extraData : Option Bytes
  deriving DecidableEq

/-- A leaf of the log. Only `leafValue` is hashed; `extraData` is stored beside it. -/
structure LeafRecord where
  sequence : UInt64
  leafHash : Digest
  leafValue : Bytes
  extraData : Option Bytes
  deriving DecidableEq

structure TreeState where
  size : UInt64
  rootHash : Digest
  deriving DecidableEq

/-- The statement that a signer attests to; the timestamp is in milliseconds since 1970. -/
structure TreeHead where
  treeSize : UInt64
  timestamp : UInt64
  rootHash : Digest
  deriving DecidableEq

structure SignedTreeHead where
  treeSize : UInt64
  rootHash : Digest
  timestamp : UInt64
  signature : Bytes
  deriving DecidableEq

/-- Sibling hashes, deepest first, from one leaf to the root at `treeSize`. -/
structure InclusionProof where
  leafIndex : UInt64
  treeSize : UInt64
  auditPath : List Digest
  deriving DecidableEq

structure ConsistencyProof where
  firstSize : UInt64
  secondSize : UInt64
  path : List Digest
  deriving DecidableEq

structure AppendReceipt where
  treeSize : UInt64
  leafIndexes : List UInt64
  rootHash : Digest
  deriving DecidableEq

namespace TreeHead

/-- The message that is signed: size and timestamp, most significant byte first, then the root. -/
def signedMessage (head : TreeHead) : Bytes :=
  Bytes.ofWord head.treeSize ++ Bytes.ofWord head.timestamp ++ head.rootHash.bytes

def withSignature (head : TreeHead) (signature : Bytes) : SignedTreeHead :=
  ⟨head.treeSize, head.rootHash, head.timestamp, signature⟩

end TreeHead

def SignedTreeHead.head (signed : SignedTreeHead) : TreeHead :=
  ⟨signed.treeSize, signed.timestamp, signed.rootHash⟩

end VerifiableLog
