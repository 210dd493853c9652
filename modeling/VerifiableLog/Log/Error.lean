import VerifiableLog.Log.Signer
import VerifiableLog.Merkle.Error
import VerifiableLog.Store.Basic

/-!
Why a log refuses a request, and the coarser kinds that callers act on.
-/

namespace VerifiableLog

inductive RangeFault where
  | startAfterEnd (start stop : UInt64)
  | firstLarger (first second : UInt64)
  | beyondSize (second size : UInt64)
  | negative (name : String) (value : Int)
  deriving DecidableEq, Repr

def RangeFault.message : RangeFault → String
  | .startAfterEnd start stop => s!"start {start} is after end {stop}"
  | .firstLarger first second => s!"first size {first} is larger than second size {second}"
  | .beyondSize second size => s!"second size {second} exceeds current size {size}"
  | .negative name value => s!"{name} must not be negative, got {value}"

inductive TreeSizeFault where
  | beyondSize (treeSize size : UInt64)
  | leafOutside (index treeSize : UInt64)
  | negative (value : Int)
  deriving DecidableEq, Repr

def TreeSizeFault.message : TreeSizeFault → String
  | .beyondSize treeSize size => s!"tree size {treeSize} exceeds current size {size}"
  | .leafOutside index treeSize => s!"leaf {index} is not inside a tree of size {treeSize}"
  | .negative value => s!"tree size must not be negative, got {value}"

inductive HeadFault where
  | signer (cause : SignerError)
  | neverSigned
  deriving DecidableEq, Repr

def HeadFault.message : HeadFault → String
  | .signer cause => cause.message
  | .neverSigned => "no tree head has been signed"

inductive Inconsistency where
  | tree (cause : Merkle.MerkleError)
  | uncovered (size : UInt64) (covered : Nat)
  | headAhead (headSize size : UInt64)
  | headRoot (headSize : UInt64)
  deriving DecidableEq, Repr

def Inconsistency.message : Inconsistency → String
  | .tree cause => cause.message
  | .uncovered size covered => s!"store holds {size} leaves but nodes cover {covered}"
  | .headAhead headSize size =>
    s!"tree head at size {headSize} is ahead of the {size} stored leaves"
  | .headRoot headSize => s!"tree head root at size {headSize} does not match the stored nodes"

inductive LogError where
  | emptyBatch
  | notFound (hash : Digest)
  | invalidRange (fault : RangeFault)
  | invalidTreeSize (fault : TreeSizeFault)
  | timeout
  | storage (cause : StoreError)
  | signing (fault : HeadFault)
  | corrupt (fault : Inconsistency)
  | closed
  deriving DecidableEq

def LogError.message : LogError → String
  | .emptyBatch => "append batch is empty"
  | .notFound hash => s!"leaf not found: {hash.toHex}"
  | .invalidRange fault => s!"invalid range: {fault.message}"
  | .invalidTreeSize fault => s!"invalid tree size: {fault.message}"
  | .timeout => "deadline exceeded"
  | .storage cause => s!"storage failure: {cause.message}"
  | .signing fault => s!"signing failure: {fault.message}"
  | .corrupt fault => s!"corrupt log state: {fault.message}"
  | .closed => "log is closed"

inductive ErrorKind where
  | emptyBatch
  | notFound
  | invalidRange
  | invalidTreeSize
  | timeout
  | storageFailure
  | signingFailure
  | closed
  deriving DecidableEq, Repr

def ErrorKind.name : ErrorKind → String
  | .emptyBatch => "empty_batch"
  | .notFound => "not_found"
  | .invalidRange => "invalid_range"
  | .invalidTreeSize => "invalid_tree_size"
  | .timeout => "timeout"
  | .storageFailure => "storage_failure"
  | .signingFailure => "signing_failure"
  | .closed => "closed"

def LogError.kind : LogError → ErrorKind
  | .emptyBatch => .emptyBatch
  | .notFound _ => .notFound
  | .invalidRange _ => .invalidRange
  | .invalidTreeSize _ => .invalidTreeSize
  | .timeout => .timeout
  | .storage _ => .storageFailure
  | .corrupt _ => .storageFailure
  | .signing _ => .signingFailure
  | .closed => .closed

end VerifiableLog
