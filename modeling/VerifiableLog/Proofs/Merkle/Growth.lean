import Mathlib.Algebra.Group.Nat.Defs
import VerifiableLog.Merkle.Accumulator

/-!
Growing a tree. The levels of a tree are determined by its leaves: each level pairs the hashes of
the one below it. An appended leaf raises a hash through the levels, from pair to pair, and what a
plan lists are exactly the hashes that come to lie on each level, so that a tree grown by batches,
planned or not, is the tree over the leaves of all batches.
-/

namespace VerifiableLog.Merkle

def pairUp : List Digest → List Digest
  | [] => []
  | [_] => []
  | left :: right :: rest => hashChildren left right :: pairUp rest

theorem length_pairUp (hashes : List Digest) : (pairUp hashes).length = hashes.length / 2 := by
  fun_induction pairUp hashes with
  | case1 => rfl
  | case2 single => simp
  | case3 left right rest ih =>
      simp only [List.length_cons, ih]
      omega

theorem pairUp_append {first : List Digest} (even : first.length % 2 = 0) (second : List Digest) :
    pairUp (first ++ second) = pairUp first ++ pairUp second := by
  fun_induction pairUp first with
  | case1 => rfl
  | case2 single => simp at even
  | case3 left right rest ih =>
      simp only [List.length_cons] at even
      simp only [List.cons_append, pairUp, ih (by omega)]

def levelsOf (leaves : List Digest) : List (Array Digest) :=
  if _ : leaves = [] then [] else leaves.toArray :: levelsOf (pairUp leaves)
termination_by leaves.length
decreasing_by
  have positive := List.length_pos_iff.mpr ‹¬leaves = []›
  rw [length_pairUp]
  omega

@[simp] theorem levelsOf_nil : levelsOf [] = [] := by
  rw [levelsOf, dif_pos rfl]

theorem levelsOf_of_ne_nil {leaves : List Digest} (inhabited : leaves ≠ []) :
    levelsOf leaves = leaves.toArray :: levelsOf (pairUp leaves) := by
  rw [levelsOf, dif_neg inhabited]

theorem length_levelsOf_le {leaves : List Digest} {bits : Nat} (fits : leaves.length < 2 ^ bits) :
    (levelsOf leaves).length ≤ bits := by
  induction bits generalizing leaves with
  | zero =>
      obtain rfl : leaves = [] := List.length_eq_zero_iff.mp (by omega)
      simp
  | succ bits ih =>
      by_cases empty : leaves = []
      · simp [empty]
      · rw [Nat.pow_succ] at fits
        rw [levelsOf_of_ne_nil empty, List.length_cons]
        exact Nat.succ_le_succ (ih (by rw [length_pairUp]; omega))

def waiting (nodes : Array Digest) : Option Digest :=
  if nodes.size % 2 = 1 then nodes.back? else none

/-- Puts a hash on the lowest level and, where it meets its left sibling, their parent on the level
above. -/
def raise (hash : Digest) : List (Array Digest) → List (Array Digest)
  | [] => [#[hash]]
  | nodes :: above =>
    nodes.push hash ::
      match waiting nodes with
      | none => above
      | some left => raise (hashChildren left hash) above

theorem length_le_length_raise (hash : Digest) (levels : List (Array Digest)) :
    levels.length ≤ (raise hash levels).length := by
  induction levels generalizing hash with
  | nil => simp
  | cons nodes above ih =>
      simp only [raise, List.length_cons]
      cases waiting nodes with
      | none => exact Nat.le_refl _
      | some left => exact Nat.succ_le_succ (ih (hashChildren left hash))

theorem waiting_of_even {leaves : List Digest} (even : leaves.length % 2 = 0) :
    waiting leaves.toArray = none := by
  simp [waiting, even]

theorem waiting_of_odd {leaves : List Digest} {last : Digest} (even : leaves.length % 2 = 0) :
    waiting (leaves ++ [last]).toArray = some last := by
  simp [waiting]
  omega

theorem raise_levelsOf (hash : Digest) (leaves : List Digest) :
    raise hash (levelsOf leaves) = levelsOf (leaves ++ [hash]) := by
  generalize sizeEq : leaves.length = size
  induction size using Nat.strongRecOn generalizing leaves hash with
  | ind size ih =>
      rw [levelsOf_of_ne_nil (List.append_ne_nil_of_right_ne_nil leaves (List.cons_ne_nil hash []))]
      by_cases even : leaves.length % 2 = 0
      · rw [pairUp_append even]
        by_cases empty : leaves = []
        · subst empty
          simp [raise, pairUp]
        · rw [levelsOf_of_ne_nil empty, raise, waiting_of_even even]
          simp [pairUp]
      · rcases List.eq_nil_or_concat leaves with rfl | ⟨before, last, rfl⟩
        · simp at even
        · rw [List.concat_eq_append] at even sizeEq ⊢
          simp only [List.length_append, List.length_singleton] at even sizeEq
          have beforeEven : before.length % 2 = 0 := by omega
          have parents : pairUp (before ++ [last]) = pairUp before := by
            rw [pairUp_append beforeEven]
            simp [pairUp]
          have grown : pairUp (before ++ [last] ++ [hash]) =
              pairUp before ++ [hashChildren last hash] := by
            rw [List.append_assoc, pairUp_append beforeEven]
            simp [pairUp]
          have inhabited : before ++ [last] ≠ [] := by simp
          rw [levelsOf_of_ne_nil inhabited, raise, waiting_of_odd beforeEven, parents, grown]
          simp only [List.push_toArray]
          rw [ih (pairUp before).length (by rw [length_pairUp]; omega) _ _ rfl]

theorem waiting_push_of_none {nodes : Array Digest} (paired : waiting nodes = none)
    (hash : Digest) : waiting (nodes.push hash) = some hash := by
  by_cases odd : nodes.size % 2 = 1
  · rw [waiting, if_pos odd, Array.back?_eq_none_iff] at paired
    simp [paired] at odd
  · rw [waiting, Array.size_push, if_pos (by omega), Array.back?_push]

theorem waiting_push_of_some {nodes : Array Digest} {left : Digest}
    (waits : waiting nodes = some left) (hash : Digest) : waiting (nodes.push hash) = none := by
  by_cases odd : nodes.size % 2 = 1
  · rw [waiting, Array.size_push, if_neg (by omega)]
  · rw [waiting, if_neg odd] at waits
    contradiction

theorem insertNode_on_top {below : List (Array Digest)} (fits : below.length < 256)
    (index : UInt64) (hash : Digest) :
    Accumulator.insertNode below.toArray (⟨UInt8.ofNat below.length, index⟩, hash) =
      (below ++ [#[hash]]).toArray := by
  have level : (UInt8.ofNat below.length).toNat = below.length := UInt8.toNat_ofNat_of_lt' fits
  simp [Accumulator.insertNode, level]

theorem insertNode_inside {below : List (Array Digest)} (fits : below.length < 256)
    (nodes : Array Digest) (above : List (Array Digest)) (index : UInt64) (hash : Digest) :
    Accumulator.insertNode (below ++ nodes :: above).toArray
        (⟨UInt8.ofNat below.length, index⟩, hash) =
      (below ++ nodes.push hash :: above).toArray := by
  have level : (UInt8.ofNat below.length).toNat = below.length := UInt8.toNat_ofNat_of_lt' fits
  simp [Accumulator.insertNode, level, List.modify_eq_take_drop]

theorem carry_eq_raise (below above : List (Array Digest)) (index : Nat) (hash : Digest)
    (fits : below.length + (raise hash above).length ≤ 256) :
    (Frontier.carry below.length index hash (above.map waiting)).1.foldl Accumulator.insertNode
        (below ++ above).toArray = (below ++ raise hash above).toArray ∧
      (Frontier.carry below.length index hash (above.map waiting)).2 =
        (raise hash above).map waiting := by
  induction above generalizing below index hash with
  | nil =>
      simp only [raise, List.length_singleton] at fits
      have level : below.length < 256 := by omega
      simp only [List.map_nil, Frontier.carry, List.foldl_cons, List.foldl_nil, List.append_nil,
        insertNode_on_top level, raise, List.map_cons]
      exact ⟨trivial, rfl⟩
  | cons nodes above ih =>
      simp only [raise, List.length_cons] at fits
      have level : below.length < 256 := by omega
      cases waits : waiting nodes with
      | none =>
          simp only [List.map_cons, waits, Frontier.carry, List.foldl_cons, List.foldl_nil,
            insertNode_inside level, raise, waiting_push_of_none waits]
          exact ⟨trivial, trivial⟩
      | some left =>
          simp only [waits] at fits
          obtain ⟨inserted, frontier⟩ := ih (below ++ [nodes.push hash]) (index / 2)
            (hashChildren left hash) (by
              simp only [List.length_append, List.length_singleton]
              omega)
          simp only [List.length_append, List.length_singleton, List.append_assoc,
            List.singleton_append] at inserted frontier
          simp only [List.map_cons, waits, Frontier.carry, List.foldl_cons,
            insertNode_inside level, raise, waiting_push_of_some waits, inserted, frontier]
          exact ⟨trivial, trivial⟩

theorem length_levels_le_foldl_raise (leaves : List Digest) (levels : List (Array Digest)) :
    levels.length ≤ (leaves.foldl (fun levels leaf => raise leaf levels) levels).length := by
  induction leaves generalizing levels with
  | nil => exact Nat.le_refl _
  | cons leaf leaves ih =>
      exact Nat.le_trans (length_le_length_raise leaf levels) (ih (raise leaf levels))

theorem extend_eq_foldl_raise (levels : List (Array Digest)) (index : Nat) (leaves : List Digest)
    (fits : (leaves.foldl (fun levels leaf => raise leaf levels) levels).length ≤ 256) :
    (Frontier.extend index (levels.map waiting) leaves).foldl Accumulator.insertNode
        levels.toArray =
      (leaves.foldl (fun levels leaf => raise leaf levels) levels).toArray := by
  induction leaves generalizing levels index with
  | nil => rfl
  | cons leaf leaves ih =>
      have step := carry_eq_raise [] levels index leaf (by
        have grows := length_levels_le_foldl_raise leaves (raise leaf levels)
        simp only [List.foldl_cons] at fits
        simp only [List.length_nil]
        omega)
      simp only [List.nil_append, List.length_nil] at step
      simp only [Frontier.extend, List.foldl_append, step.1, step.2, List.foldl_cons]
      exact ih (raise leaf levels) (index + 1) fits

theorem foldl_raise_levelsOf (leaves batch : List Digest) :
    batch.foldl (fun levels leaf => raise leaf levels) (levelsOf leaves) =
      levelsOf (leaves ++ batch) := by
  induction batch generalizing leaves with
  | nil => simp
  | cons leaf batch ih =>
      rw [List.foldl_cons, raise_levelsOf, ih, List.append_assoc, List.singleton_append]

namespace Accumulator

def ofLeaves (leaves : List Digest) : Accumulator := ⟨(levelsOf leaves).toArray⟩

theorem ofLeaves_nil : ofLeaves [] = empty := by
  rw [ofLeaves, levelsOf_nil, empty]

@[simp] theorem size_ofLeaves (leaves : List Digest) : (ofLeaves leaves).size = leaves.length := by
  by_cases none : leaves = []
  · subst none
    simp [ofLeaves, size]
  · simp [ofLeaves, size, levelsOf_of_ne_nil none]

theorem extend_ofLeaves {leaves batch : List Digest}
    (fits : (leaves ++ batch).length < 2 ^ 64) :
    (ofLeaves leaves).extend batch = ofLeaves (leaves ++ batch) := by
  -- Sizes are words of 64 bits, so a tree has at most 64 levels.
  have levelsFit := length_levelsOf_le fits
  rw [← foldl_raise_levelsOf] at levelsFit
  have inserted := extend_eq_foldl_raise (levelsOf leaves) leaves.length batch (by omega)
  rw [foldl_raise_levelsOf] at inserted
  rw [extend, insertNodes, planAppend, size_ofLeaves]
  exact congrArg Accumulator.mk inserted

theorem apply_planAppend (tree : Accumulator) (leaves : List Digest) :
    tree.apply (tree.planAppend leaves) = .ok (tree.extend leaves) :=
  if_pos rfl

end Accumulator

inductive Batch where
  | extended (leaves : List Digest)
  | planned (leaves : List Digest)
  deriving DecidableEq

def Batch.leaves : Batch → List Digest
  | .extended leaves => leaves
  | .planned leaves => leaves

namespace Accumulator

def append (tree : Accumulator) : Batch → Except MerkleError Accumulator
  | .extended leaves => .ok (tree.extend leaves)
  | .planned leaves => tree.apply (tree.planAppend leaves)

def grow (batches : List Batch) : Except MerkleError Accumulator := batches.foldlM append empty

theorem append_eq_extend (tree : Accumulator) (batch : Batch) :
    tree.append batch = .ok (tree.extend batch.leaves) := by
  cases batch with
  | extended leaves => rfl
  | planned leaves => exact apply_planAppend tree leaves

theorem foldlM_append_ofLeaves (batches : List Batch) (leaves : List Digest)
    (fits : (leaves ++ batches.flatMap Batch.leaves).length < 2 ^ 64) :
    batches.foldlM append (ofLeaves leaves) =
      .ok (ofLeaves (leaves ++ batches.flatMap Batch.leaves)) := by
  induction batches generalizing leaves with
  | nil => simp [pure, Except.pure]
  | cons batch batches ih =>
      simp only [List.flatMap_cons, ← List.append_assoc] at fits ⊢
      have first : (leaves ++ batch.leaves).length < 2 ^ 64 := by
        rw [List.length_append] at fits
        omega
      rw [List.foldlM_cons, append_eq_extend, extend_ofLeaves first]
      exact ih (leaves ++ batch.leaves) fits

theorem grow_eq_ofLeaves {batches : List Batch}
    (fits : (batches.flatMap Batch.leaves).length < 2 ^ 64) :
    grow batches = .ok (ofLeaves (batches.flatMap Batch.leaves)) := by
  rw [grow, ← ofLeaves_nil]
  exact foldlM_append_ofLeaves batches [] fits

end Accumulator

end VerifiableLog.Merkle
