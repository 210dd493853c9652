import VerifiableLog.Merkle.Error
import VerifiableLog.Merkle.Hash

/-!
Checking proofs with nothing but hashes (RFC 9162, sections 2.1.3.2 and 2.1.4.2). The walk climbs
from a node towards the root; `node` and `last` are the indices, at the current level, of that node
and of the last node of the tree.
-/

namespace VerifiableLog.Merkle

def skipLonely (node last : Nat) : Nat × Nat :=
  if _ : node % 2 = 0 ∧ node ≠ 0 then skipLonely (node / 2) (last / 2) else (node, last)
termination_by node
decreasing_by omega

def skipRightChildren (node last : Nat) : Nat × Nat :=
  if _ : node % 2 = 1 then skipRightChildren (node / 2) (last / 2) else (node, last)
termination_by node
decreasing_by omega

def climbFromRight (node last : Nat) : Nat × Nat :=
  let (node, last) := skipLonely node last
  (node / 2, last / 2)

def climbInclusion (node last : Nat) (hash : Digest) : List Digest → Except ProofError Digest
  | [] => if last = 0 then .ok hash else .error .wrongPathLength
  | sibling :: path =>
    if last = 0 then .error .wrongPathLength
    else if node % 2 = 1 ∨ node = last then
      let (node, last) := climbFromRight node last
      climbInclusion node last (hashChildren sibling hash) path
    else climbInclusion (node / 2) (last / 2) (hashChildren hash sibling) path

def rootFromInclusionProof (leaf : Digest) (index treeSize : Nat) (path : List Digest) :
    Except ProofError Digest :=
  if index ≥ treeSize then .error (.leafIndexOutOfRange index treeSize)
  else climbInclusion index (treeSize - 1) leaf path

def verifyInclusion (leaf : Digest) (index treeSize : Nat) (path : List Digest) (root : Digest) :
    Except ProofError Unit := do
  let calculated ← rootFromInclusionProof leaf index treeSize path
  if calculated = root then .ok () else .error .rootMismatch

/-- Folds the path into both roots at once: `earlier` takes the siblings on the left alone, as what
is on the right came later. -/
def climbConsistency (node last : Nat) (earlier later : Digest) :
    List Digest → Except ProofError (Digest × Digest)
  | [] => if last = 0 then .ok (earlier, later) else .error .wrongPathLength
  | sibling :: path =>
    if last = 0 then .error .wrongPathLength
    else if node % 2 = 1 ∨ node = last then
      let (node, last) := climbFromRight node last
      climbConsistency node last (hashChildren sibling earlier) (hashChildren sibling later) path
    else climbConsistency (node / 2) (last / 2) earlier (hashChildren later sibling) path

def isPowerOfTwo (count : Nat) : Bool := count ≠ 0 && 1 <<< Nat.log2 count == count

/-- Checks that the tree of `second` leaves extends the tree of `first` leaves. An earlier tree
whose size is a power of two is itself a node of the later one, and its path leaves that node
out. -/
def verifyConsistency (first second : Nat) (firstRoot secondRoot : Digest) (path : List Digest) :
    Except ProofError Unit :=
  if first > second then .error (.sizesOutOfOrder first second)
  else if first = 0 ∨ first = second then
    if path ≠ [] then .error .unexpectedPath
    else if first = second ∧ firstRoot ≠ secondRoot then .error .rootMismatch
    else .ok ()
  else
    match path with
    | [] => .error .wrongPathLength
    | head :: tail => do
      let (start, rest) := if isPowerOfTwo first then (firstRoot, path) else (head, tail)
      let (node, last) := skipRightChildren (first - 1) (second - 1)
      let (earlier, later) ← climbConsistency node last start start rest
      if earlier = firstRoot ∧ later = secondRoot then .ok () else .error .rootMismatch

end VerifiableLog.Merkle
