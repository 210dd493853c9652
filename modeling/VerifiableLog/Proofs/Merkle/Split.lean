import Mathlib.Algebra.Group.Nat.Defs
import VerifiableLog.Merkle.Hash

/-!
The split of a tree. A tree of at least two leaves is split at the largest power of two below its
size, and halving the size halves the split, so the same splits are met from the root down and,
level by level, from the leaves up.
-/

namespace VerifiableLog.Merkle

theorem splitPoint_eq_two_pow (count : Nat) : splitPoint count = 2 ^ Nat.log2 (count - 1) := by
  rw [splitPoint, Nat.one_shiftLeft]

theorem splitPoint_eq {count exponent : Nat} (below : 2 ^ exponent < count)
    (reaches : count ≤ 2 * 2 ^ exponent) : splitPoint count = 2 ^ exponent := by
  rw [splitPoint_eq_two_pow]
  congr 1
  apply (Nat.log2_eq_iff (by omega)).mpr
  rw [Nat.pow_succ]
  omega

theorem splitPoint_two_mul_two_pow (exponent : Nat) :
    splitPoint (2 * 2 ^ exponent) = 2 ^ exponent := by
  have positive := Nat.two_pow_pos exponent
  exact splitPoint_eq (by omega) (Nat.le_refl _)

theorem splitPoint_two : splitPoint 2 = 1 := splitPoint_two_mul_two_pow 0

theorem splitPoint_eq_two_mul {count : Nat} (several : 3 ≤ count) :
    splitPoint count = 2 * splitPoint ((count + 1) / 2) := by
  obtain ⟨exponent, isPower⟩ : ∃ exponent, splitPoint ((count + 1) / 2) = 2 ^ exponent :=
    ⟨_, splitPoint_eq_two_pow _⟩
  have parents : 2 ≤ (count + 1) / 2 := by omega
  have below := splitPoint_lt parents
  have reaches := le_two_mul_splitPoint parents
  rw [isPower] at below reaches ⊢
  rw [← Nat.pow_succ']
  apply splitPoint_eq <;> rw [Nat.pow_succ'] <;> omega

theorem splitPoint_eq_of_lt {first second : Nat} (beyond : splitPoint second < first)
    (notLarger : first ≤ second) : splitPoint first = splitPoint second := by
  have positive := splitPoint_pos second
  have several : 2 ≤ second := by omega
  have reaches := le_two_mul_splitPoint several
  rw [splitPoint_eq_two_pow second] at beyond reaches ⊢
  exact splitPoint_eq beyond (by omega)

theorem two_pow_le_splitPoint {exponent count : Nat} (below : 2 ^ exponent < count) :
    2 ^ exponent ≤ splitPoint count := by
  have positive := Nat.two_pow_pos exponent
  rw [splitPoint_eq_two_pow]
  exact Nat.pow_le_pow_right (by omega)
    ((Nat.le_log2 (by omega)).mpr (by omega))

theorem two_le_of_not_complete {start count : Nat} (inhabited : count ≠ 0)
    (notComplete : ¬(1 <<< Nat.log2 count = count ∧ start % count = 0)) : 2 ≤ count := by
  apply Nat.le_of_not_lt
  intro few
  obtain rfl : count = 1 := by omega
  exact notComplete ⟨by decide, Nat.mod_one start⟩

@[simp] theorem rootOf_nil : rootOf [] = emptyRoot := by
  rw [rootOf]

@[simp] theorem rootOf_singleton (leaf : Digest) : rootOf [leaf] = leaf := by
  rw [rootOf]

theorem rootOf_split {leaves : List Digest} (several : 2 ≤ leaves.length) :
    rootOf leaves =
      hashChildren (rootOf (leaves.take (splitPoint leaves.length)))
        (rootOf (leaves.drop (splitPoint leaves.length))) := by
  match leaves, several with
  | first :: second :: rest, _ => rw [rootOf]

theorem rootOf_take_split {leaves : List Digest} {first : Nat}
    (beyond : splitPoint leaves.length < first) (within : first ≤ leaves.length) :
    rootOf (leaves.take first) =
      hashChildren (rootOf (leaves.take (splitPoint leaves.length)))
        (rootOf ((leaves.drop (splitPoint leaves.length)).take
          (first - splitPoint leaves.length))) := by
  have positive := splitPoint_pos leaves.length
  have takeLength := List.length_take_of_le within
  rw [rootOf_split (by omega), takeLength, splitPoint_eq_of_lt beyond within, List.take_take,
    List.drop_take, Nat.min_eq_left (by omega)]

@[elab_as_elim] theorem split_induction {Leaf : Type} {motive : List Leaf → Prop}
    (small : ∀ leaves : List Leaf, leaves.length < 2 → motive leaves)
    (split : ∀ leaves : List Leaf, 2 ≤ leaves.length →
      motive (leaves.take (splitPoint leaves.length)) →
      motive (leaves.drop (splitPoint leaves.length)) → motive leaves)
    (leaves : List Leaf) : motive leaves := by
  generalize sizeEq : leaves.length = size
  induction size using Nat.strongRecOn generalizing leaves with
  | ind size ih =>
      by_cases few : leaves.length < 2
      · exact small leaves few
      · have several : 2 ≤ leaves.length := by omega
        have bound := splitPoint_lt several
        have positive := splitPoint_pos leaves.length
        apply split leaves several
        · exact ih (splitPoint leaves.length) (by omega) _ (by rw [List.length_take]; omega)
        · exact ih (leaves.length - splitPoint leaves.length) (by omega) _ List.length_drop

end VerifiableLog.Merkle
