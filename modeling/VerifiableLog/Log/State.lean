import VerifiableLog.Log.Deadline
import VerifiableLog.Log.Error
import VerifiableLog.Merkle.Proof

/-!
A log over a store: the tree of all committed leaves, and the tree head that is served for it.

The tree is the authority on the size of the log. It takes a batch only after the store has, so
every leaf that the tree counts can be read from the store. A tree head is signed after each append;
if that fails, the append stands and the failure is reported to whoever asks for the head.
-/

namespace VerifiableLog

open Merkle (Accumulator AppendPlan)

/-- The latest signed head, and why the newest tree has none, if so. -/
structure HeadState where
  latest : Option SignedTreeHead
  failure : Option SignerError
  deriving DecidableEq

structure Log (σ : Type) where
  store : σ
  signer : Signer
  tree : Accumulator
  head : HeadState
  isClosed : Bool

namespace Log

variable {σ : Type}

def fromStore {α : Type} (result : Except StoreError α) : Except LogError α :=
  result.mapError .storage

def fromTree {α : Type} (result : Except Merkle.MerkleError α) : Except LogError α :=
  result.mapError fun cause => .corrupt (.tree cause)

def size (log : Log σ) : UInt64 := UInt64.ofNat log.tree.size

def treeState (tree : Accumulator) : Except LogError TreeState := do
  let root ← fromTree tree.currentRoot
  return ⟨UInt64.ofNat tree.size, root⟩

/-- Signs `state` and makes it the latest head. A head never has an earlier timestamp than the one
before it. A head that the store cannot take is served all the same. -/
def publishHead [LeafStore σ] (log : Log σ) (now : Moment) (state : TreeState) : Log σ :=
  let floor := (log.head.latest.map SignedTreeHead.timestamp).getD 0
  let head : TreeHead := ⟨state.size, max now.sinceEpoch floor, state.rootHash⟩
  match log.signer.sign head with
  | .error cause => { log with head := { log.head with failure := some cause } }
  | .ok signature =>
    let signed := head.withSignature signature
    let store :=
      match LeafStore.putTreeHead log.store signed with
      | .ok store => store
      | .error _ => log.store
    { log with store := store, head := ⟨some signed, none⟩ }

/-- A stored head has to be one of a tree that the stored leaves have grown through. -/
def checkStoredHead (tree : Accumulator) (size : UInt64) (head : SignedTreeHead) :
    Except LogError Unit :=
  if head.treeSize > size then .error (.corrupt (.headAhead head.treeSize size))
  else do
    let root ← fromTree (tree.root head.treeSize.toNat)
    if root ≠ head.rootHash then .error (.corrupt (.headRoot head.treeSize)) else .ok ()

/-- Opens a log over a store. The tree is rebuilt from the stored nodes and has to agree with the
stored size and head; a head older than the leaves is replaced. -/
def openStore [LeafStore σ] (store : σ) (signer : Signer) (now : Moment) :
    Except LogError (Log σ) := do
  let size ← fromStore (LeafStore.size store)
  let nodes ← fromStore (LeafStore.nodes store)
  let tree ← fromTree (Accumulator.ofNodes nodes)
  if tree.size ≠ size.toNat then .error (.corrupt (.uncovered size tree.size))
  else do
    let stored ← fromStore (LeafStore.treeHead? store)
    stored.forM (checkStoredHead tree size)
    let state ← treeState tree
    let log : Log σ := ⟨store, signer, tree, ⟨stored, none⟩, false⟩
    if stored.all fun head => head.treeSize < size then return log.publishHead now state
    else return log

/-! ### Appending -/

def number (sequence : UInt64) : List NewLeaf → List LeafRecord
  | [] => []
  | leaf :: leaves =>
    ⟨sequence, Merkle.hashLeaf leaf.leafValue, leaf.leafValue, leaf.extraData⟩ ::
      number (sequence + 1) leaves

def sequencesFrom (first : UInt64) : Nat → List UInt64
  | 0 => []
  | count + 1 => first :: sequencesFrom (first + 1) count

def commit [LeafStore σ] (log : Log σ) (now : Moment) (batch : Batch) (plan : AppendPlan) :
    Except LogError AppendReceipt × Log σ :=
  match LeafStore.commit log.store batch with
  | (.error cause, store) => (.error (.storage cause), { log with store := store })
  | (.ok (), store) =>
    let log := { log with store := store }
    let grown : Except LogError (Accumulator × TreeState) := do
      let tree ← fromTree (log.tree.apply plan)
      let state ← treeState tree
      return (tree, state)
    match grown with
    | .error cause => (.error cause, log)
    | .ok (tree, state) =>
      let receipt : AppendReceipt :=
        ⟨state.size,
          sequencesFrom batch.firstSequence (state.size.toNat - batch.firstSequence.toNat),
          state.rootHash⟩
      (.ok receipt, { log with tree := tree }.publishHead now state)

def append [LeafStore σ] (log : Log σ) (now : Moment) (leaves : List NewLeaf)
    (deadline : Deadline) : Except LogError AppendReceipt × Log σ :=
  if leaves.isEmpty then (.error .emptyBatch, log)
  else if log.isClosed then (.error .closed, log)
  else if deadline.isExpired now then (.error .timeout, log)
  else
    let records := number log.size leaves
    let plan := log.tree.planAppend (records.map LeafRecord.leafHash)
    log.commit now ⟨log.size, records, plan.nodes⟩ plan

/-! ### The tree head -/

def latestHead (log : Log σ) : Except LogError SignedTreeHead :=
  match log.head.failure, log.head.latest with
  | some cause, _ => .error (.signing (.signer cause))
  | none, none => .error (.signing .neverSigned)
  | none, some head => .ok head

/-- Signs the current tree anew, whether or not it has a head. A deadline limits the wait for
another writer, and here there is none to wait for. -/
def refresh [LeafStore σ] (log : Log σ) (now : Moment) (_deadline : Deadline) :
    Except LogError SignedTreeHead × Log σ :=
  match treeState log.tree with
  | .error cause => (.error cause, log)
  | .ok state =>
    let log := log.publishHead now state
    (log.latestHead, log)

def close (log : Log σ) : Log σ := { log with isClosed := true }

/-! ### Reading -/

def checkDeadline (deadline : Deadline) (now : Moment) : Except LogError Unit :=
  if deadline.isExpired now then .error .timeout else .ok ()

def sequenceOf [LeafStore σ] (log : Log σ) (hash : Digest) : Except LogError UInt64 := do
  match ← fromStore (LeafStore.sequenceOf? log.store hash) with
  | some sequence => if sequence < log.size then return sequence else .error (.notFound hash)
  | none => .error (.notFound hash)

def leafByHash [LeafStore σ] (log : Log σ) (now : Moment) (hash : Digest) (deadline : Deadline) :
    Except LogError LeafRecord := do
  checkDeadline deadline now
  let sequence ← log.sequenceOf hash
  match ← fromStore (LeafStore.leaf? log.store sequence) with
  | some leaf => return leaf
  | none => .error (.notFound hash)

def leavesByRange [LeafStore σ] (log : Log σ) (now : Moment) (start stop : UInt64)
    (deadline : Deadline) : Except LogError (List LeafRecord) := do
  checkDeadline deadline now
  if start > stop then .error (.invalidRange (.startAfterEnd start stop))
  else
    let limit := if stop < log.size then stop + 1 else log.size
    if start ≥ limit then return []
    else fromStore (LeafStore.leaves log.store start limit)

inductive Locator where
  | index (index : UInt64)
  | hash (hash : Digest)

def locate [LeafStore σ] (log : Log σ) : Locator → Except LogError UInt64
  | .index index => .ok index
  | .hash hash => log.sequenceOf hash

def inclusionProof [LeafStore σ] (log : Log σ) (now : Moment) (leaf : Locator)
    (treeSize : UInt64) (deadline : Deadline) : Except LogError InclusionProof := do
  checkDeadline deadline now
  let index ← log.locate leaf
  let treeSize := if treeSize = 0 then log.size else treeSize
  if treeSize > log.size then .error (.invalidTreeSize (.beyondSize treeSize log.size))
  else if treeSize ≤ index then .error (.invalidTreeSize (.leafOutside index treeSize))
  else do
    let path ← fromTree (log.tree.inclusionPath index.toNat treeSize.toNat)
    return ⟨index, treeSize, path⟩

def consistencyProof (log : Log σ) (now : Moment) (first second : UInt64) (deadline : Deadline) :
    Except LogError ConsistencyProof := do
  checkDeadline deadline now
  if first > second then .error (.invalidRange (.firstLarger first second))
  else if second > log.size then .error (.invalidRange (.beyondSize second log.size))
  else do
    let path ← fromTree (log.tree.consistencyPath first.toNat second.toNat)
    return ⟨first, second, path⟩

def rootHash (log : Log σ) (now : Moment) (treeSize : Option UInt64) (deadline : Deadline) :
    Except LogError TreeState := do
  checkDeadline deadline now
  let treeSize := treeSize.getD log.size
  if treeSize > log.size then .error (.invalidTreeSize (.beyondSize treeSize log.size))
  else do
    let root ← fromTree (log.tree.root treeSize.toNat)
    return ⟨treeSize, root⟩

def treeSize (log : Log σ) (now : Moment) (deadline : Deadline) : Except LogError UInt64 := do
  checkDeadline deadline now
  return log.size

def signedTreeHead (log : Log σ) (now : Moment) (deadline : Deadline) :
    Except LogError SignedTreeHead := do
  checkDeadline deadline now
  log.latestHead

end Log

end VerifiableLog
