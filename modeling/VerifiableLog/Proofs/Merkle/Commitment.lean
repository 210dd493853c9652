import VerifiableLog.Proofs.Merkle.Collision

/-!
Commitment. A root stands for one list of values, its length included: trees of any two shapes with
the same root have the same leaves, or else two different byte strings hashed for the roots have the
same hash. The first byte of what is hashed last tells an empty tree, a leaf and a pair apart, so
two trees with the same root split alike and the comparison goes on below.
-/

namespace VerifiableLog.Merkle

def lastMessage (values : List Bytes) : Bytes :=
  match values with
  | [] => []
  | [value] => leafMessage value
  | first :: second :: rest =>
    let split := splitPoint (first :: second :: rest).length
    pairMessage (rootOf (((first :: second :: rest).take split).map hashLeaf),
      rootOf (((first :: second :: rest).drop split).map hashLeaf))

theorem lastMessage_split {values : List Bytes} (several : 2 ≤ values.length) :
    lastMessage values =
      pairMessage (rootOf ((values.take (splitPoint values.length)).map hashLeaf),
        rootOf ((values.drop (splitPoint values.length)).map hashLeaf)) := by
  match values, several with
  | first :: second :: rest, _ => rfl

theorem rootOf_map_split {values : List Bytes} (several : 2 ≤ values.length) :
    rootOf (values.map hashLeaf) =
      hashChildren (rootOf ((values.take (splitPoint values.length)).map hashLeaf))
        (rootOf ((values.drop (splitPoint values.length)).map hashLeaf)) := by
  rw [rootOf_split (by rwa [List.length_map]), List.length_map, List.map_take, List.map_drop]

theorem hash_lastMessage (values : List Bytes) :
    Sha256.hash (lastMessage values) = (rootOf (values.map hashLeaf)).bytes := by
  by_cases several : 2 ≤ values.length
  · rw [lastMessage_split several, rootOf_map_split several, hash_pairMessage]
    rfl
  · match values with
    | [] => rw [lastMessage, List.map_nil, rootOf_nil, emptyRoot, Digest.ofMessage]
    | [value] => rw [lastMessage, List.map_singleton, rootOf_singleton, hash_leafMessage]
    | first :: second :: rest => simp at several

theorem rootMessages_split {values : List Bytes} (several : 2 ≤ values.length) :
    rootMessages (values.take (splitPoint values.length)) ⊆ rootMessages values ∧
      rootMessages (values.drop (splitPoint values.length)) ⊆ rootMessages values ∧
      lastMessage values ∈ rootMessages values := by
  have bound := splitPoint_lt several
  have positive := splitPoint_pos values.length
  have inhabited : values ≠ [] := List.ne_nil_of_length_pos (by omega)
  have takeInhabited : values.take (splitPoint values.length) ≠ [] :=
    List.ne_nil_of_length_pos (by rw [List.length_take]; omega)
  have dropInhabited : values.drop (splitPoint values.length) ≠ [] :=
    List.ne_nil_of_length_pos (by rw [List.length_drop]; omega)
  have pairs := @rootPairs_split (values.map hashLeaf) (by rwa [List.length_map])
  rw [List.length_map, ← List.map_take, ← List.map_drop] at pairs
  have takeLeaves :=
    List.map_subset leafMessage (List.take_subset (splitPoint values.length) values)
  have dropLeaves :=
    List.map_subset leafMessage (List.drop_subset (splitPoint values.length) values)
  simp only [rootMessages, if_neg inhabited, if_neg takeInhabited, if_neg dropInhabited, pairs,
    lastMessage_split several, List.map_append, List.append_subset]
  refine ⟨⟨?_, ?_⟩, ⟨?_, ?_⟩, ?_⟩
  · exact List.subset_append_of_subset_left _ takeLeaves
  · intro message hashed
    simp only [List.mem_append, hashed, true_or, or_true]
  · exact List.subset_append_of_subset_left _ dropLeaves
  · intro message hashed
    simp only [List.mem_append, hashed, true_or, or_true]
  · simp

theorem lastMessage_mem_rootMessages (values : List Bytes) :
    lastMessage values ∈ rootMessages values := by
  by_cases several : 2 ≤ values.length
  · exact (rootMessages_split several).2.2
  · match values with
    | [] => simp [rootMessages, lastMessage]
    | [value] => simp [rootMessages, lastMessage]
    | first :: second :: rest => simp at several

theorem values_eq_of_rootOf_eq {inputs : List Bytes} (apart : ¬Collides Sha256.hash inputs)
    (left right : List Bytes) (leftHashed : rootMessages left ⊆ inputs)
    (rightHashed : rootMessages right ⊆ inputs)
    (sameRoot : rootOf (left.map hashLeaf) = rootOf (right.map hashLeaf)) : left = right := by
  induction left using split_induction generalizing right with
  | small left few =>
      have sameLast := eq_of_not_collides apart (leftHashed (lastMessage_mem_rootMessages left))
        (rightHashed (lastMessage_mem_rootMessages right))
        (by rw [hash_lastMessage, hash_lastMessage, sameRoot])
      match left, right with
      | [], [] => rfl
      | [], [_] => simp [lastMessage, leafMessage] at sameLast
      | [], _ :: _ :: _ => simp [lastMessage, pairMessage] at sameLast
      | [_], [] => simp [lastMessage, leafMessage] at sameLast
      | [_], [_] => simpa [lastMessage, leafMessage] using sameLast
      | [_], _ :: _ :: _ => simp [lastMessage, leafMessage, pairMessage] at sameLast
  | split left several ihTake ihDrop =>
      have sameLast := eq_of_not_collides apart (leftHashed (lastMessage_mem_rootMessages left))
        (rightHashed (lastMessage_mem_rootMessages right))
        (by rw [hash_lastMessage, hash_lastMessage, sameRoot])
      rw [lastMessage_split several] at sameLast
      by_cases rightSeveral : 2 ≤ right.length
      · rw [lastMessage_split rightSeveral] at sameLast
        have sides := pairMessage_injective sameLast
        simp only [Prod.mk.injEq] at sides
        obtain ⟨leftTake, leftDrop, _⟩ := rootMessages_split several
        obtain ⟨rightTake, rightDrop, _⟩ := rootMessages_split rightSeveral
        have take := ihTake _ (List.Subset.trans leftTake leftHashed)
          (List.Subset.trans rightTake rightHashed) sides.1
        have drop := ihDrop _ (List.Subset.trans leftDrop leftHashed)
          (List.Subset.trans rightDrop rightHashed) sides.2
        rw [← List.take_append_drop (splitPoint left.length) left, take, drop,
          List.take_append_drop]
      · rcases right with _ | ⟨value, _ | ⟨second, rest⟩⟩
        · simp [lastMessage, pairMessage] at sameLast
        · simp [lastMessage, leafMessage, pairMessage] at sameLast
        · simp at rightSeveral

/-- Two lists of values with the same root are the same list, unless SHA-256 collides on two of the
byte strings hashed for the two roots. -/
theorem rootOf_commits (left right : List Bytes)
    (sameRoot : rootOf (left.map hashLeaf) = rootOf (right.map hashLeaf)) :
    left = right ∨ Collides Sha256.hash (rootMessages left ++ rootMessages right) := by
  apply Classical.or_iff_not_imp_right.mpr
  intro apart
  exact values_eq_of_rootOf_eq apart left right (List.subset_append_left _ _)
    (List.subset_append_right _ _) sameRoot

theorem rootOf_commits_threeValues :
    rootOf (([[1], [2], [3]] : List Bytes).map hashLeaf) =
        rootOf (([[1], [2]] ++ [[3]] : List Bytes).map hashLeaf) ∧
      (([[1], [2], [3]] : List Bytes) = [[1], [2]] ++ [[3]] ∨
        Collides Sha256.hash (rootMessages [[1], [2], [3]] ++ rootMessages ([[1], [2]] ++ [[3]]))) :=
  ⟨rfl, rootOf_commits [[1], [2], [3]] ([[1], [2]] ++ [[3]]) rfl⟩

end VerifiableLog.Merkle
