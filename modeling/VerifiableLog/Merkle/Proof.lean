import VerifiableLog.Merkle.Accumulator

/-!
Inclusion and consistency proofs (RFC 6962, sections 2.1.1 and 2.1.2), read off the stored nodes.
Both walk down the splits of the tree and list the hashes of the sides that the walk leaves out,
deepest first.
-/

namespace VerifiableLog.Merkle.Accumulator

def auditPath (tree : Accumulator) (index start stop : Nat) : Except MerkleError (List Digest) :=
  if _ : 2 ≤ stop - start then
    let middle := start + splitPoint (stop - start)
    if index < middle then do
      let path ← tree.auditPath index start middle
      let sibling ← tree.rangeHash middle stop
      return path ++ [sibling]
    else do
      let path ← tree.auditPath index middle stop
      let sibling ← tree.rangeHash start middle
      return path ++ [sibling]
  else .ok []
termination_by stop - start
decreasing_by
  · have bound := splitPoint_lt (show 2 ≤ stop - start by omega)
    omega
  · have bound := splitPoint_pos (stop - start)
    omega

/-- The hashes that rebuild, from the first `known` leaves after `start`, the root over `start` to
`stop`. The known part needs no hash of its own as long as it is the whole earlier tree. -/
def subproof (tree : Accumulator) (known start stop : Nat) (isEarlierTree : Bool) :
    Except MerkleError (List Digest) :=
  if known = stop - start then
    if isEarlierTree then .ok [] else do
      let hash ← tree.rangeHash start stop
      return [hash]
  else if _ : 2 ≤ stop - start then
    let split := splitPoint (stop - start)
    let middle := start + split
    if known ≤ split then do
      let path ← tree.subproof known start middle isEarlierTree
      let sibling ← tree.rangeHash middle stop
      return path ++ [sibling]
    else do
      let path ← tree.subproof (known - split) middle stop false
      let sibling ← tree.rangeHash start middle
      return path ++ [sibling]
  else .error (.missingNode 0 start)
termination_by stop - start
decreasing_by
  · have bound := splitPoint_lt (show 2 ≤ stop - start by omega)
    omega
  · have bound := splitPoint_pos (stop - start)
    omega

def inclusionPath (tree : Accumulator) (index treeSize : Nat) :
    Except MerkleError (List Digest) := do
  tree.checkSize treeSize
  if index ≥ treeSize then .error (.leafIndexOutOfRange index treeSize)
  else tree.auditPath index 0 treeSize

def consistencyPath (tree : Accumulator) (first second : Nat) :
    Except MerkleError (List Digest) := do
  tree.checkSize second
  if first > second then .error (.consistencyRange first second)
  else if first = 0 ∨ first = second then .ok []
  else tree.subproof first 0 second true

end VerifiableLog.Merkle.Accumulator
