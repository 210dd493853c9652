import VerifiableLog.Proofs.Merkle.Climb

/-!
Collisions. What a computation hashes is listed beside it, so that a statement can name the inputs
among which two would have to collide. A root is hashed once for each split of its tree, and the
climbs hash what their loops join.
-/

namespace VerifiableLog.Merkle

/-- Two different inputs of the list have the same hash. -/
def Collides {Input Output : Type} (hash : Input → Output) (inputs : List Input) : Prop :=
  ∃ first ∈ inputs, ∃ second ∈ inputs, first ≠ second ∧ hash first = hash second

theorem Collides.mono {Input Output : Type} {hash : Input → Output} {inputs more : List Input}
    (collision : Collides hash inputs) (within : inputs ⊆ more) : Collides hash more := by
  obtain ⟨first, firstIn, second, secondIn, different, same⟩ := collision
  exact ⟨first, within firstIn, second, within secondIn, different, same⟩

theorem eq_of_not_collides {Input Output : Type} {hash : Input → Output} {inputs : List Input}
    (apart : ¬Collides hash inputs) {first second : Input} (firstIn : first ∈ inputs)
    (secondIn : second ∈ inputs) (same : hash first = hash second) : first = second := by
  apply Classical.byContradiction
  intro different
  exact apart ⟨first, firstIn, second, secondIn, different, same⟩

def hashPair (pair : Digest × Digest) : Digest := hashChildren pair.1 pair.2

def rootPairs : List Digest → List (Digest × Digest)
  | [] => []
  | [_] => []
  | first :: second :: rest =>
    let leaves := first :: second :: rest
    let split := splitPoint leaves.length
    rootPairs (leaves.take split) ++ rootPairs (leaves.drop split) ++
      [(rootOf (leaves.take split), rootOf (leaves.drop split))]
termination_by leaves => leaves.length
decreasing_by
  · have bound := splitPoint_lt (show 2 ≤ (first :: second :: rest).length by simp)
    simp only [List.length_take]
    omega
  · have positive := splitPoint_pos (first :: second :: rest).length
    simp only [List.length_drop, List.length_cons] at positive ⊢
    omega

theorem rootPairs_split {leaves : List Digest} (several : 2 ≤ leaves.length) :
    rootPairs leaves =
      rootPairs (leaves.take (splitPoint leaves.length)) ++
        rootPairs (leaves.drop (splitPoint leaves.length)) ++
        [(rootOf (leaves.take (splitPoint leaves.length)),
          rootOf (leaves.drop (splitPoint leaves.length)))] := by
  match leaves, several with
  | first :: second :: rest, _ => rw [rootPairs]

def climbInclusionPairs (node last : Nat) (hash : Digest) : List Digest → List (Digest × Digest)
  | [] => []
  | sibling :: path =>
    if last = 0 then []
    else if node % 2 = 1 ∨ node = last then
      let (node, last) := climbFromRight node last
      (sibling, hash) :: climbInclusionPairs node last (hashChildren sibling hash) path
    else
      (hash, sibling) ::
        climbInclusionPairs (node / 2) (last / 2) (hashChildren hash sibling) path

def inclusionPairs (leaf : Digest) (index treeSize : Nat) (path : List Digest) :
    List (Digest × Digest) :=
  if index ≥ treeSize then [] else climbInclusionPairs index (treeSize - 1) leaf path

def climbConsistencyPairs (node last : Nat) (earlier later : Digest) :
    List Digest → List (Digest × Digest)
  | [] => []
  | sibling :: path =>
    if last = 0 then []
    else if node % 2 = 1 ∨ node = last then
      let (node, last) := climbFromRight node last
      (sibling, earlier) :: (sibling, later) ::
        climbConsistencyPairs node last (hashChildren sibling earlier) (hashChildren sibling later)
          path
    else
      (later, sibling) ::
        climbConsistencyPairs (node / 2) (last / 2) earlier (hashChildren later sibling) path

def consistencyPairs (first second : Nat) (firstRoot : Digest) (path : List Digest) :
    List (Digest × Digest) :=
  if first > second then []
  else if first = 0 ∨ first = second then []
  else
    match path with
    | [] => []
    | head :: tail =>
      let (start, rest) := if isPowerOfTwo first then (firstRoot, path) else (head, tail)
      let (node, last) := skipRightChildren (first - 1) (second - 1)
      climbConsistencyPairs node last start start rest

theorem climbInclusionPairs_eq_trace {node last : Nat} {sides : List Side}
    (climb : Climb node last sides) (hash : Digest) (path : List Digest) :
    climbInclusionPairs node last hash path = inclusionAscent.trace sides hash path := by
  induction climb generalizing hash path with
  | root => cases path <;> rfl
  | fromRight notTop turn _ ih =>
      cases path with
      | nil => rfl
      | cons sibling path =>
          rw [climbInclusionPairs, if_neg notTop, if_pos turn]
          exact congrArg _ (ih (hashChildren sibling hash) path)
  | fromLeft notTop noTurn _ ih =>
      cases path with
      | nil => rfl
      | cons sibling path =>
          rw [climbInclusionPairs, if_neg notTop, if_neg noTurn]
          exact congrArg _ (ih (hashChildren hash sibling) path)

theorem climbConsistencyPairs_eq_trace {node last : Nat} {sides : List Side}
    (climb : Climb node last sides) (earlier later : Digest) (path : List Digest) :
    climbConsistencyPairs node last earlier later path =
      consistencyAscent.trace sides (earlier, later) path := by
  induction climb generalizing earlier later path with
  | root => cases path <;> rfl
  | fromRight notTop turn _ ih =>
      cases path with
      | nil => rfl
      | cons sibling path =>
          rw [climbConsistencyPairs, if_neg notTop, if_pos turn]
          exact congrArg _ (congrArg _
            (ih (hashChildren sibling earlier) (hashChildren sibling later) path))
  | fromLeft notTop noTurn _ ih =>
      cases path with
      | nil => rfl
      | cons sibling path =>
          rw [climbConsistencyPairs, if_neg notTop, if_neg noTurn]
          exact congrArg _ (ih earlier (hashChildren later sibling) path)

theorem inclusionPairs_eq_trace {leaf : Digest} {index treeSize : Nat} (inside : index < treeSize)
    (path : List Digest) :
    inclusionPairs leaf index treeSize path =
      inclusionAscent.trace (route index treeSize) leaf path := by
  rw [inclusionPairs, if_neg (Nat.not_le_of_lt inside),
    climbInclusionPairs_eq_trace (climb_route_of_lt inside)]

theorem consistencyPairs_eq_trace {first second : Nat} {firstRoot start : Digest}
    {path rest : List Digest} (inhabited : 0 < first) (smaller : first < second)
    (started : consistencyStart first firstRoot path = some (start, rest)) :
    consistencyPairs first second firstRoot path =
      consistencyAscent.trace (growthRoute first second) (start, start) rest := by
  have climb := climb_growthRoute inhabited smaller
  have ordered : ¬first > second := by omega
  have different : ¬(first = 0 ∨ first = second) := by omega
  cases path with
  | nil =>
      simp only [consistencyStart] at started
      split at started
      · simp only [Option.some.injEq, Prod.mk.injEq] at started
        rw [← started.2, consistencyPairs, if_neg ordered, if_neg different]
        cases growthRoute first second <;> rfl
      · contradiction
  | cons head tail =>
      rw [consistencyPairs, if_neg ordered, if_neg different]
      simp only [consistencyStart] at started
      split at started <;> simp only [Option.some.injEq, Prod.mk.injEq] at started <;>
        rw [← climbConsistencyPairs_eq_trace climb, ← started.1, ← started.2]
      · rename_i power
        simp only [power, if_true]
      · rename_i notPower
        simp only [notPower, Bool.false_eq_true, if_false]

theorem eq_of_rootOf_eq {inputs : List (Digest × Digest)} (apart : ¬Collides hashPair inputs)
    (left right : List Digest) (sameLength : left.length = right.length)
    (leftHashed : rootPairs left ⊆ inputs) (rightHashed : rootPairs right ⊆ inputs)
    (sameRoot : rootOf left = rootOf right) : left = right := by
  induction left using split_induction generalizing right with
  | small left few =>
      match left, right, sameLength with
      | [], [], _ => rfl
      | [leaf], [other], _ => simpa using sameRoot
  | split left several ihTake ihDrop =>
      have rightSeveral : 2 ≤ right.length := by omega
      rw [rootPairs_split several] at leftHashed
      rw [rootPairs_split rightSeveral, ← sameLength] at rightHashed
      rw [rootOf_split several, rootOf_split rightSeveral, ← sameLength] at sameRoot
      simp only [List.append_subset, List.cons_subset] at leftHashed rightHashed
      have sides := eq_of_not_collides apart leftHashed.2.1 rightHashed.2.1 sameRoot
      simp only [Prod.mk.injEq] at sides
      have take := ihTake _ (by simp [sameLength]) leftHashed.1.1 rightHashed.1.1 sides.1
      have drop := ihDrop _ (by simp [sameLength]) leftHashed.1.2 rightHashed.1.2 sides.2
      rw [← List.take_append_drop (splitPoint left.length) left, take, drop,
        List.take_append_drop]

/-! What SHA-256 is applied to is a byte string: a value or a pair behind its first byte. -/

def leafMessage (value : Bytes) : Bytes := 0x00 :: value

def pairMessage (pair : Digest × Digest) : Bytes := 0x01 :: pair.1.bytes ++ pair.2.bytes

theorem hash_leafMessage (value : Bytes) :
    Sha256.hash (leafMessage value) = (hashLeaf value).bytes := rfl

theorem hash_pairMessage (pair : Digest × Digest) :
    Sha256.hash (pairMessage pair) = (hashPair pair).bytes := rfl

theorem pairMessage_injective {first second : Digest × Digest}
    (same : pairMessage first = pairMessage second) : first = second := by
  obtain ⟨⟨firstLeft, firstLeftLength⟩, ⟨firstRight, firstRightLength⟩⟩ := first
  obtain ⟨⟨secondLeft, secondLeftLength⟩, ⟨secondRight, secondRightLength⟩⟩ := second
  simp only [pairMessage, List.cons_append, List.cons.injEq, true_and] at same
  have sides := List.append_inj same (by rw [firstLeftLength, secondLeftLength])
  simp only [sides.1, sides.2]

theorem Collides.pairMessage {pairs : List (Digest × Digest)}
    (collision : Collides hashPair pairs) : Collides Sha256.hash (pairs.map pairMessage) := by
  obtain ⟨first, firstIn, second, secondIn, different, same⟩ := collision
  refine ⟨_, List.mem_map_of_mem firstIn, _, List.mem_map_of_mem secondIn, ?_, ?_⟩
  · intro sameMessage
    exact different (pairMessage_injective sameMessage)
  · rw [hash_pairMessage, hash_pairMessage, same]

def rootMessages (values : List Bytes) : List Bytes :=
  (if values = [] then [[]] else values.map leafMessage) ++
    (rootPairs (values.map hashLeaf)).map pairMessage

def inclusionMessages (value : Bytes) (index treeSize : Nat) (path : List Digest) : List Bytes :=
  leafMessage value :: (inclusionPairs (hashLeaf value) index treeSize path).map pairMessage

theorem leafMessage_mem_rootMessages {values : List Bytes} {value : Bytes}
    (present : value ∈ values) : leafMessage value ∈ rootMessages values := by
  rw [rootMessages, if_neg (List.ne_nil_of_mem present)]
  exact List.mem_append_left _ (List.mem_map_of_mem present)

end VerifiableLog.Merkle
