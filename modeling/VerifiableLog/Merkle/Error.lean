import VerifiableLog.Merkle.Address

/-!
What can go wrong in building a tree and its proofs (`MerkleError`) and in checking a proof
(`ProofError`).
-/

namespace VerifiableLog.Merkle

inductive NodeSetFault where
  | levelWithoutChildren (level : Nat)
  | outOfPlace (level expected found : Nat)
  | countMismatch (level count countBelow : Nat)
  | unpairedTop (level count : Nat)
  deriving DecidableEq, Repr

def NodeSetFault.message : NodeSetFault → String
  | .levelWithoutChildren level => s!"level {level} present without level {level - 1}"
  | .outOfPlace level expected found =>
    s!"expected node ({level}, {expected}), found ({level}, {found})"
  | .countMismatch level count countBelow =>
    s!"level {level} has {count} nodes, level {level - 1} has {countBelow}"
  | .unpairedTop level count => s!"level {level} has {count} nodes but no parent level"

inductive MerkleError where
  | treeSizeOutOfRange (requested size : Nat)
  | leafIndexOutOfRange (index treeSize : Nat)
  | consistencyRange (first second : Nat)
  | stalePlan (planned actual : Nat)
  | corruptNodes (fault : NodeSetFault)
  | missingNode (level index : Nat)
  deriving DecidableEq, Repr

def MerkleError.message : MerkleError → String
  | .treeSizeOutOfRange requested size => s!"tree size {requested} exceeds current size {size}"
  | .leafIndexOutOfRange index treeSize =>
    s!"leaf index {index} is not inside a tree of size {treeSize}"
  | .consistencyRange first second =>
    s!"first size {first} is larger than second size {second}"
  | .stalePlan planned actual =>
    s!"append plan built at size {planned}, accumulator is at size {actual}"
  | .corruptNodes fault => s!"corrupt node set: {fault.message}"
  | .missingNode level index => s!"node ({level}, {index}) is missing"

inductive ProofError where
  | leafIndexOutOfRange (index treeSize : Nat)
  | sizesOutOfOrder (first second : Nat)
  | wrongPathLength
  | unexpectedPath
  | rootMismatch
  deriving DecidableEq, Repr

def ProofError.message : ProofError → String
  | .leafIndexOutOfRange index treeSize =>
    s!"leaf index {index} is not inside a tree of size {treeSize}"
  | .sizesOutOfOrder first second => s!"first size {first} is larger than second size {second}"
  | .wrongPathLength => "proof path has the wrong length"
  | .unexpectedPath => "expected an empty proof path"
  | .rootMismatch => "calculated root does not match"

end VerifiableLog.Merkle
