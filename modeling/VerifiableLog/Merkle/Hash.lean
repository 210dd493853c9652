import VerifiableLog.Digest

/-!
Merkle tree hashing. Leaves and interior nodes are hashed under different first bytes, so that no
leaf value can pass for a node, and a list of more than one leaf is split at the largest power of
two below its length.
-/

namespace VerifiableLog.Merkle

def emptyRoot : Digest := Digest.ofMessage []

def hashLeaf (value : Bytes) : Digest := Digest.ofMessage (0x00 :: value)

def hashChildren (left right : Digest) : Digest :=
  Digest.ofMessage (0x01 :: left.bytes ++ right.bytes)

/-- The largest power of two below `count`, for a count of at least two. -/
def splitPoint (count : Nat) : Nat := 1 <<< Nat.log2 (count - 1)

theorem splitPoint_pos (count : Nat) : 0 < splitPoint count := by
  unfold splitPoint
  rw [Nat.one_shiftLeft]
  exact Nat.two_pow_pos _

theorem splitPoint_lt {count : Nat} (several : 2 ≤ count) : splitPoint count < count := by
  have bound := Nat.log2_self_le (n := count - 1) (by omega)
  unfold splitPoint
  rw [Nat.one_shiftLeft]
  omega

theorem le_two_mul_splitPoint {count : Nat} (several : 2 ≤ count) :
    count ≤ 2 * splitPoint count := by
  have bound := Nat.lt_log2_self (n := count - 1)
  unfold splitPoint
  rw [Nat.one_shiftLeft]
  rw [Nat.pow_succ] at bound
  omega

def rootOf : List Digest → Digest
  | [] => emptyRoot
  | [leaf] => leaf
  | first :: second :: rest =>
    let leaves := first :: second :: rest
    let split := splitPoint leaves.length
    hashChildren (rootOf (leaves.take split)) (rootOf (leaves.drop split))
termination_by leaves => leaves.length
decreasing_by
  · have bound := splitPoint_lt (show 2 ≤ (first :: second :: rest).length by simp)
    simp only [List.length_take]
    omega
  · have bound := splitPoint_pos (first :: second :: rest).length
    simp only [List.length_drop, List.length_cons] at bound ⊢
    omega

end VerifiableLog.Merkle
