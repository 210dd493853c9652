import VerifiableLog.Store.Disk
import VerifiableLog.Store.Memory

/-!
The choice between the two kinds of store.
-/

namespace VerifiableLog

inductive Backend where
  | memory (store : MemoryStore)
  | disk (store : DiskStore)

namespace Backend

def disk? : Backend → Option DiskStore
  | .memory _ => none
  | .disk store => some store

instance : LeafStore Backend where
  commit
    | .memory store, batch => (LeafStore.commit store batch).map id .memory
    | .disk store, batch => (LeafStore.commit store batch).map id .disk
  size
    | .memory store => LeafStore.size store
    | .disk store => LeafStore.size store
  leaf?
    | .memory store => LeafStore.leaf? store
    | .disk store => LeafStore.leaf? store
  leaves
    | .memory store => LeafStore.leaves store
    | .disk store => LeafStore.leaves store
  sequenceOf?
    | .memory store => LeafStore.sequenceOf? store
    | .disk store => LeafStore.sequenceOf? store
  nodes
    | .memory store => LeafStore.nodes store
    | .disk store => LeafStore.nodes store
  putTreeHead
    | .memory store, head => (LeafStore.putTreeHead store head).map .memory
    | .disk store, head => (LeafStore.putTreeHead store head).map .disk
  treeHead?
    | .memory store => LeafStore.treeHead? store
    | .disk store => LeafStore.treeHead? store

end Backend

end VerifiableLog
