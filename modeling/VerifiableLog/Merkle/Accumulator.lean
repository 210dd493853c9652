import VerifiableLog.Merkle.Error
import VerifiableLog.Merkle.Hash
import VerifiableLog.Record

/-!
An append-only tree kept as the hashes of its complete subtrees. Level `l` holds, in order, the
nodes `(l, 0)`, `(l, 1)`, … whose leaves are all there. A node is stored once and never changes, so
the root at every earlier size can still be computed.

An append is first planned, then applied: the plan lists the nodes that the new leaves complete and
leaves the tree as it is.
-/

namespace VerifiableLog.Merkle

structure Accumulator where
  levels : Array (Array Digest)
  deriving DecidableEq

structure AppendPlan where
  baseSize : Nat
  leafCount : Nat
  nodes : List (NodeAddress × Digest)
  deriving DecidableEq

def AppendPlan.newSize (plan : AppendPlan) : Nat := plan.baseSize + plan.leafCount

/-- For each level the complete subtree on the right edge that still waits for its sibling. -/
abbrev Frontier := List (Option Digest)

namespace Frontier

/-- Adds a complete subtree and, as long as a left sibling waits at its level, the parents. -/
def carry (level index : Nat) (hash : Digest) : Frontier → List (NodeAddress × Digest) × Frontier
  | [] => ([(⟨UInt8.ofNat level, UInt64.ofNat index⟩, hash)], [some hash])
  | none :: above => ([(⟨UInt8.ofNat level, UInt64.ofNat index⟩, hash)], some hash :: above)
  | some left :: above =>
    let (nodes, above) := carry (level + 1) (index / 2) (hashChildren left hash) above
    ((⟨UInt8.ofNat level, UInt64.ofNat index⟩, hash) :: nodes, none :: above)

def extend (index : Nat) (frontier : Frontier) : List Digest → List (NodeAddress × Digest)
  | [] => []
  | leaf :: leaves =>
    let (nodes, frontier) := frontier.carry 0 index leaf
    nodes ++ extend (index + 1) frontier leaves

end Frontier

namespace Accumulator

def empty : Accumulator := ⟨#[]⟩

def size (tree : Accumulator) : Nat := (tree.levels[0]?.map Array.size).getD 0

def node? (tree : Accumulator) (level index : Nat) : Option Digest := do
  let nodes ← tree.levels[level]?
  nodes[index]?

def leafHash? (tree : Accumulator) (index : Nat) : Option Digest := tree.node? 0 index

def nodeCount (tree : Accumulator) : Nat :=
  tree.levels.foldl (fun count nodes => count + nodes.size) 0

def nodes (tree : Accumulator) : List (NodeAddress × Digest) :=
  tree.levels.toList.zipIdx.flatMap fun (hashes, level) =>
    hashes.toList.zipIdx.map fun (hash, index) =>
      (⟨UInt8.ofNat level, UInt64.ofNat index⟩, hash)

def frontier (tree : Accumulator) : Frontier :=
  tree.levels.toList.map fun nodes => if nodes.size % 2 = 1 then nodes.back? else none

def insertNode (levels : Array (Array Digest)) (entry : NodeAddress × Digest) :
    Array (Array Digest) :=
  let level := entry.1.level.toNat
  if level = levels.size then levels.push #[entry.2]
  else levels.modify level (·.push entry.2)

def insertNodes (tree : Accumulator) (nodes : List (NodeAddress × Digest)) : Accumulator :=
  ⟨nodes.foldl insertNode tree.levels⟩

def planAppend (tree : Accumulator) (leaves : List Digest) : AppendPlan :=
  ⟨tree.size, leaves.length, tree.frontier.extend tree.size leaves⟩

def apply (tree : Accumulator) (plan : AppendPlan) : Except MerkleError Accumulator :=
  if plan.baseSize = tree.size then .ok (tree.insertNodes plan.nodes)
  else .error (.stalePlan plan.baseSize tree.size)

def extend (tree : Accumulator) (leaves : List Digest) : Accumulator :=
  tree.insertNodes (tree.planAppend leaves).nodes

/-- Places one node of a sorted set: each level has to start above an existing one and to go on
without holes. -/
def placeSorted (levels : Array (Array Digest)) (entry : NodeAddress × Digest) :
    Except NodeSetFault (Array (Array Digest)) :=
  let level := entry.1.level.toNat
  let index := entry.1.index.toNat
  if level > levels.size then .error (.levelWithoutChildren level)
  else
    let expected := (levels[level]?.map Array.size).getD 0
    if index ≠ expected then .error (.outOfPlace level expected index)
    else .ok (insertNode levels entry)

def checkHalving (level countBelow : Nat) : List (Array Digest) → Except NodeSetFault Unit
  | [] => if countBelow ≥ 2 then .error (.unpairedTop (level - 1) countBelow) else .ok ()
  | nodes :: above =>
    if nodes.size ≠ countBelow / 2 then .error (.countMismatch level nodes.size countBelow)
    else checkHalving (level + 1) nodes.size above

def checkLevels : List (Array Digest) → Except NodeSetFault Unit
  | [] => .ok ()
  | leaves :: above => checkHalving 1 leaves.size above

def ofNodes (nodes : List (NodeAddress × Digest)) : Except MerkleError Accumulator :=
  let rebuilt : Except NodeSetFault Accumulator := do
    let levels ← (nodes.mergeSort fun left right => left.1.le right.1).foldlM placeSorted #[]
    checkLevels levels.toList
    return ⟨levels⟩
  rebuilt.mapError .corruptNodes

/-- The root over the leaves from `start` to, and not including, `stop`: a stored node if the range
is that of a complete subtree, otherwise made of the two sides of its split. -/
def rangeHash (tree : Accumulator) (start stop : Nat) : Except MerkleError Digest :=
  let count := stop - start
  if count = 0 then .ok emptyRoot
  else
    let level := Nat.log2 count
    if 1 <<< level = count ∧ start % count = 0 then
      match tree.node? level (start / count) with
      | some hash => .ok hash
      | none => .error (.missingNode level (start / count))
    else if _ : 2 ≤ count then do
      let left ← tree.rangeHash start (start + splitPoint count)
      let right ← tree.rangeHash (start + splitPoint count) stop
      return hashChildren left right
    else .error (.missingNode 0 start)
termination_by stop - start
decreasing_by
  · have bound := splitPoint_lt (show 2 ≤ stop - start by omega)
    omega
  · have bound := splitPoint_pos (stop - start)
    omega

def checkSize (tree : Accumulator) (treeSize : Nat) : Except MerkleError Unit :=
  if treeSize > tree.size then .error (.treeSizeOutOfRange treeSize tree.size) else .ok ()

def root (tree : Accumulator) (treeSize : Nat) : Except MerkleError Digest := do
  tree.checkSize treeSize
  tree.rangeHash 0 treeSize

def state (tree : Accumulator) (treeSize : UInt64) : Except MerkleError TreeState := do
  let root ← tree.root treeSize.toNat
  return ⟨treeSize, root⟩

def currentRoot (tree : Accumulator) : Except MerkleError Digest := tree.rangeHash 0 tree.size

end Accumulator

end VerifiableLog.Merkle
