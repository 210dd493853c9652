import Std.Data.HashMap.Basic
import VerifiableLog.Store.Basic

/-!
A store in memory: the leaves in order, an index from their hashes to their sequences, every node
ever committed, and the latest tree head.
-/

namespace VerifiableLog

structure MemoryStore where
  leaves : Array LeafRecord
  index : Std.HashMap Digest UInt64
  nodes : List (Merkle.NodeAddress × Digest)
  treeHead : Option SignedTreeHead

namespace MemoryStore

def empty : MemoryStore := ⟨#[], ∅, [], none⟩

def size (store : MemoryStore) : UInt64 := UInt64.ofNat store.leaves.size

/-- A hash that is in the index already keeps its sequence. -/
def addLeaf (store : MemoryStore) (leaf : LeafRecord) : MemoryStore :=
  { store with
    leaves := store.leaves.push leaf
    index := store.index.insertIfNew leaf.leafHash leaf.sequence }

def commit (store : MemoryStore) (batch : Batch) : Except StoreError MemoryStore := do
  batch.validate store.size
  let store := batch.leaves.foldl addLeaf store
  return { store with nodes := store.nodes ++ batch.nodes }

def sequenceOf? (store : MemoryStore) (hash : Digest) : Option UInt64 := store.index[hash]?

instance : LeafStore MemoryStore where
  commit store batch :=
    match store.commit batch with
    | .ok store => (.ok (), store)
    | .error cause => (.error cause, store)
  size store := .ok store.size
  leaf? store sequence := .ok store.leaves[sequence.toNat]?
  leaves store start stop := .ok (store.leaves.extract start.toNat stop.toNat).toList
  sequenceOf? store hash := .ok (store.sequenceOf? hash)
  nodes store := .ok store.nodes
  putTreeHead store head := .ok { store with treeHead := some head }
  treeHead? store := .ok store.treeHead

end MemoryStore

end VerifiableLog
