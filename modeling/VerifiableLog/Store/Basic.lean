import VerifiableLog.Merkle.Address
import VerifiableLog.Packed.Codec
import VerifiableLog.Record

/-!
What a log asks of its storage. Leaves, the Merkle nodes they complete and the latest tree head are
kept; a batch is taken as a whole or not at all.
-/

namespace VerifiableLog

structure Batch where
  firstSequence : UInt64
  leaves : List LeafRecord
  nodes : List (Merkle.NodeAddress × Digest)
  deriving DecidableEq

inductive BadEntry where
  | wordLength (found : Nat)
  | nodeKeyLength (found : Nat)
  | nodeHash (address : Merkle.NodeAddress) (cause : Digest.ParseError)
  deriving DecidableEq, Repr

def BadEntry.message : BadEntry → String
  | .wordLength found => s!"expected 8-byte integer, got {found}"
  | .nodeKeyLength found => s!"bad node key of {found} bytes"
  | .nodeHash address cause =>
    s!"node ({address.level}, {address.index}): {cause.message}"

inductive Operation where
  | commit
  | treeHead
  deriving DecidableEq, Repr

def Operation.name : Operation → String
  | .commit => "commit"
  | .treeHead => "tree head"

inductive StoreError where
  | sequenceMismatch (expected found : UInt64)
  | encoding (cause : Packed.Error)
  | corrupt (entry : BadEntry)
  | injected (operation : Operation)
  deriving DecidableEq, Repr

def StoreError.message : StoreError → String
  | .sequenceMismatch expected found => s!"sequence mismatch: expected {expected}, got {found}"
  | .encoding cause => s!"serialization error: {cause.message}"
  | .corrupt entry => s!"corrupt store: {entry.message}"
  | .injected operation => s!"injected fault: {operation.name}"

namespace Batch

def newSize (batch : Batch) : UInt64 := batch.firstSequence + UInt64.ofNat batch.leaves.length

def checkSequences (expected : UInt64) : List LeafRecord → Except StoreError Unit
  | [] => .ok ()
  | leaf :: leaves =>
    if leaf.sequence ≠ expected then .error (.sequenceMismatch expected leaf.sequence)
    else checkSequences (expected + 1) leaves

def validate (batch : Batch) (size : UInt64) : Except StoreError Unit :=
  if batch.firstSequence ≠ size then .error (.sequenceMismatch size batch.firstSequence)
  else checkSequences size batch.leaves

end Batch

class LeafStore (σ : Type) where
  /-- Adds a batch; the store after a failure is given too. -/
  commit : σ → Batch → Except StoreError Unit × σ
  size : σ → Except StoreError UInt64
  leaf? : σ → UInt64 → Except StoreError (Option LeafRecord)
  leaves : σ → UInt64 → UInt64 → Except StoreError (List LeafRecord)
  sequenceOf? : σ → Digest → Except StoreError (Option UInt64)
  nodes : σ → Except StoreError (List (Merkle.NodeAddress × Digest))
  putTreeHead : σ → SignedTreeHead → Except StoreError σ
  treeHead? : σ → Except StoreError (Option SignedTreeHead)

end VerifiableLog
