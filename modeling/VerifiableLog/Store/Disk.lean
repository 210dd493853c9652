import Std.Data.HashSet.Basic
import VerifiableLog.Record.Packed
import VerifiableLog.Store.Basic
import VerifiableLog.Store.Table

/-!
A store whose content is nothing but tables of bytes, as a database keeps them. Leaves are found
under their sequence and nodes under their address, each written so that the order of the keys is
the order of what they stand for; a hash leads to the sequence of its first leaf.
-/

namespace VerifiableLog

structure DiskStore where
  leaves : Table
  leafIndex : Table
  nodes : Table
  info : Table
  deriving DecidableEq

namespace DiskStore

def empty : DiskStore := ⟨.empty, .empty, .empty, .empty⟩

def sizeKey : Bytes := Bytes.ofAscii "size"
def treeHeadKey : Bytes := Bytes.ofAscii "sth"

def decodeWord (bytes : Bytes) : Except StoreError UInt64 :=
  match Bytes.toWord? bytes with
  | some word => .ok word
  | none => .error (.corrupt (.wordLength bytes.length))

def decodePacked {α : Type} (codec : Packed.Codec α) (bytes : Bytes) : Except StoreError α :=
  match codec.read bytes with
  | .ok (value, _) => .ok value
  | .error cause => .error (.encoding cause)

def decodeEntry {α : Type} (decode : Bytes → Except StoreError α) :
    Option Bytes → Except StoreError (Option α)
  | none => .ok none
  | some bytes => (decode bytes).map some

def size (store : DiskStore) : Except StoreError UInt64 := do
  let entry ← decodeEntry decodeWord (store.info.find? sizeKey)
  return entry.getD 0

/-! ### Batches -/

inductive Keyspace where
  | leaves
  | leafIndex
  | nodes
  | info
  deriving DecidableEq, Repr

structure Write where
  keyspace : Keyspace
  key : Bytes
  value : Bytes
  deriving DecidableEq, Repr

def write (store : DiskStore) (write : Write) : DiskStore :=
  match write.keyspace with
  | .leaves => { store with leaves := store.leaves.insert write.key write.value }
  | .leafIndex => { store with leafIndex := store.leafIndex.insert write.key write.value }
  | .nodes => { store with nodes := store.nodes.insert write.key write.value }
  | .info => { store with info := store.info.insert write.key write.value }

def leafWrite (leaf : LeafRecord) : Write :=
  ⟨.leaves, Bytes.ofWord leaf.sequence, LeafRecord.packed.write leaf⟩

def indexWrite (leaf : LeafRecord) : Write :=
  ⟨.leafIndex, leaf.leafHash.bytes, Bytes.ofWord leaf.sequence⟩

def nodeWrite (node : Merkle.NodeAddress × Digest) : Write :=
  ⟨.nodes, node.1.toKey, node.2.bytes⟩

def sizeWrite (batch : Batch) : Write := ⟨.info, sizeKey, Bytes.ofWord batch.newSize⟩

/-- What is written for the leaves of a batch. The index of the store does not change meanwhile, so
the hashes that the batch itself enters are remembered beside it. -/
def leafWrites (store : DiskStore) (indexed : Std.HashSet Digest) : List LeafRecord → List Write
  | [] => []
  | leaf :: leaves =>
    if !indexed.contains leaf.leafHash &&
        (store.leafIndex.find? leaf.leafHash.bytes).isNone then
      leafWrite leaf :: indexWrite leaf :: store.leafWrites (indexed.insert leaf.leafHash) leaves
    else leafWrite leaf :: store.leafWrites indexed leaves

def batchWrites (store : DiskStore) (batch : Batch) : List Write :=
  store.leafWrites ∅ batch.leaves ++ batch.nodes.map nodeWrite ++ [sizeWrite batch]

def commit (store : DiskStore) (batch : Batch) : Except StoreError DiskStore := do
  let size ← store.size
  batch.validate size
  return (store.batchWrites batch).foldl write store

/-! ### Reading -/

def decodeNode (entry : Bytes × Bytes) : Except StoreError (Merkle.NodeAddress × Digest) :=
  match Merkle.NodeAddress.ofKey? entry.1 with
  | none => .error (.corrupt (.nodeKeyLength entry.1.length))
  | some address =>
    match Digest.ofBytes entry.2 with
    | .ok hash => .ok (address, hash)
    | .error cause => .error (.corrupt (.nodeHash address cause))

def leafRange (store : DiskStore) (start stop : UInt64) : Except StoreError (List LeafRecord) :=
  (store.leaves.range (Bytes.ofWord start) (Bytes.ofWord stop)).mapM fun entry =>
    decodePacked LeafRecord.packed entry.2

instance : LeafStore DiskStore where
  commit store batch :=
    match store.commit batch with
    | .ok store => (.ok (), store)
    | .error cause => (.error cause, store)
  size := size
  leaf? store sequence :=
    decodeEntry (decodePacked LeafRecord.packed) (store.leaves.find? (Bytes.ofWord sequence))
  leaves := leafRange
  sequenceOf? store hash := decodeEntry decodeWord (store.leafIndex.find? hash.bytes)
  nodes store := store.nodes.entries.mapM decodeNode
  putTreeHead store head :=
    .ok { store with info := store.info.insert treeHeadKey (SignedTreeHead.packed.write head) }
  treeHead? store :=
    decodeEntry (decodePacked SignedTreeHead.packed) (store.info.find? treeHeadKey)

end DiskStore

end VerifiableLog
