import VerifiableLog.Proofs.Merkle.Rebuild
import VerifiableLog.Proofs.Merkle.Split

/-!
The root of a tree from its nodes alone. The first leaves of a tree are made up of complete
subtrees, the largest first, one for each binary digit of their number. The root over them is put
together from the hashes of these peaks, from the right, and it is the root that the tree answers
with.
-/

namespace VerifiableLog.Merkle

/-- The complete subtrees that make up `count` leaves from `start` on, by their levels and
indices. -/
def peaks (start count : Nat) : List (Nat × Nat) :=
  if _ : count = 0 then []
  else
    let level := Nat.log2 count
    (level, start / 2 ^ level) :: peaks (start + 2 ^ level) (count - 2 ^ level)
termination_by count
decreasing_by
  have positive := Nat.two_pow_pos (Nat.log2 count)
  omega

def bag : List Digest → Digest
  | [] => emptyRoot
  | [hash] => hash
  | hash :: next :: hashes => hashChildren hash (bag (next :: hashes))

def bagPeaks (hashAt? : Nat → Nat → Option Digest) (start count : Nat) : Option Digest :=
  ((peaks start count).mapM fun peak => hashAt? peak.1 peak.2).map bag

def rootFrom? (nodes : List (NodeAddress × Digest)) (treeSize : Nat) : Option Digest :=
  bagPeaks (hashAt? nodes) 0 treeSize

theorem peaks_zero (start : Nat) : peaks start 0 = [] := by
  rw [peaks, dif_pos rfl]

theorem peaks_of_pos {count : Nat} (positive : 0 < count) (start : Nat) :
    peaks start count =
      (Nat.log2 count, start / 2 ^ Nat.log2 count) ::
        peaks (start + 2 ^ Nat.log2 count) (count - 2 ^ Nat.log2 count) := by
  rw [peaks, dif_neg (by omega)]

section

variable {hashAt? : Nat → Nat → Option Digest}

theorem bagPeaks_zero (start : Nat) : bagPeaks hashAt? start 0 = some emptyRoot := by
  simp [bagPeaks, peaks_zero, bag]

theorem bagPeaks_two_pow (start level : Nat) :
    bagPeaks hashAt? start (2 ^ level) = hashAt? level (start / 2 ^ level) := by
  rw [bagPeaks, peaks_of_pos (Nat.two_pow_pos level), Nat.log2_two_pow, Nat.sub_self, peaks_zero]
  cases found : hashAt? level (start / 2 ^ level) <;> simp [found, bag]

theorem bagPeaks_of_lt {start count : Nat} (positive : 0 < count)
    (more : 2 ^ Nat.log2 count < count) :
    bagPeaks hashAt? start count =
      (hashAt? (Nat.log2 count) (start / 2 ^ Nat.log2 count)).bind fun left =>
        (bagPeaks hashAt? (start + 2 ^ Nat.log2 count) (count - 2 ^ Nat.log2 count)).map
          (hashChildren left) := by
  rw [bagPeaks, bagPeaks, peaks_of_pos positive,
    peaks_of_pos (show 0 < count - 2 ^ Nat.log2 count by omega)]
  simp only [List.mapM_cons]
  cases hashAt? (Nat.log2 count) (start / 2 ^ Nat.log2 count) with
  | none => rfl
  | some left =>
      cases hashAt? (Nat.log2 (count - 2 ^ Nat.log2 count))
          ((start + 2 ^ Nat.log2 count) / 2 ^ Nat.log2 (count - 2 ^ Nat.log2 count)) with
      | none => rfl
      | some next =>
          simp only [Option.bind_eq_bind, Option.bind_some]
          cases (peaks _ _).mapM fun peak => hashAt? peak.1 peak.2 with
          | none => rfl
          | some rest => rfl

theorem mem_peaks {start count : Nat} {peak : Nat × Nat} (member : peak ∈ peaks start count) :
    2 ^ peak.1 ≤ count ∧ peak.2 < start + count := by
  fun_induction peaks start count with
  | case1 => simp at member
  | case2 start count inhabited level ih =>
      have reached : 2 ^ level ≤ count := Nat.log2_self_le inhabited
      have positive := Nat.two_pow_pos level
      have below := Nat.div_le_self start (2 ^ level)
      rcases List.mem_cons.mp member with rfl | later
      · exact ⟨reached, by show start / 2 ^ level < _; omega⟩
      · have rest := ih later
        omega

theorem mapM_congr {other? : Nat → Nat → Option Digest} {places : List (Nat × Nat)}
    (same : ∀ place ∈ places, hashAt? place.1 place.2 = other? place.1 place.2) :
    (places.mapM fun place => hashAt? place.1 place.2) =
      places.mapM fun place => other? place.1 place.2 := by
  induction places with
  | nil => rfl
  | cons place places ih =>
      simp only [List.mem_cons, forall_eq_or_imp] at same
      simp only [List.mapM_cons, same.1, ih same.2]

theorem bagPeaks_congr {other? : Nat → Nat → Option Digest} {start count bits : Nat}
    (fits : start + count < 2 ^ bits)
    (same : ∀ level index, level < bits → index < 2 ^ bits →
      hashAt? level index = other? level index) :
    bagPeaks hashAt? start count = bagPeaks other? start count := by
  rw [bagPeaks, bagPeaks, mapM_congr]
  intro peak member
  have bound := mem_peaks member
  have level : peak.1 < bits := (Nat.pow_lt_pow_iff_right (a := 2) (by omega)).mp (by omega)
  exact same peak.1 peak.2 level (by omega)

end

namespace Accumulator

theorem toOption_bind_hashChildren (left right : Except MerkleError Digest) :
    (do return hashChildren (← left) (← right) : Except MerkleError Digest).toOption =
      left.toOption.bind fun hash => right.toOption.map (hashChildren hash) := by
  cases left with
  | error cause => rfl
  | ok hash => cases right <;> rfl

theorem toOption_rangeHash_of_two_pow (tree : Accumulator) {start level : Nat}
    (aligned : start % 2 ^ level = 0) :
    (tree.rangeHash start (start + 2 ^ level)).toOption =
      tree.node? level (start / 2 ^ level) := by
  have positive := Nat.two_pow_pos level
  have inhabited : ¬2 ^ level = 0 := by omega
  rw [rangeHash]
  simp only [Nat.add_sub_cancel_left, Nat.log2_two_pow, Nat.one_shiftLeft, inhabited, aligned,
    and_self, if_true, if_false]
  cases tree.node? level (start / 2 ^ level) <;> rfl

theorem toOption_rangeHash (tree : Accumulator) {start count : Nat}
    (aligned : start % 2 ^ Nat.log2 count = 0) :
    (tree.rangeHash start (start + count)).toOption = bagPeaks tree.node? start count := by
  induction count using Nat.strongRecOn generalizing start with
  | ind count ih =>
      by_cases none : count = 0
      · subst none
        rw [bagPeaks_zero, rangeHash]
        simp [Except.toOption]
      have reached := Nat.log2_self_le none
      have bound := Nat.lt_log2_self (n := count)
      rw [Nat.pow_succ] at bound
      by_cases power : count = 2 ^ Nat.log2 count
      · generalize Nat.log2 count = level at power aligned
        subst power
        rw [toOption_rangeHash_of_two_pow tree aligned, bagPeaks_two_pow]
      · have several : 2 ≤ count := by
          have positive := Nat.two_pow_pos (Nat.log2 count)
          omega
        have more : 2 ^ Nat.log2 count < count := by omega
        have split : splitPoint count = 2 ^ Nat.log2 count := splitPoint_eq more (by omega)
        have lower := (Nat.log2_lt (n := count - 2 ^ Nat.log2 count) (by omega)).mpr
          (show _ < 2 ^ Nat.log2 count by omega)
        have divides := Nat.pow_dvd_pow 2 (Nat.le_of_lt lower)
        have alignedRight : (start + 2 ^ Nat.log2 count) %
            2 ^ Nat.log2 (count - 2 ^ Nat.log2 count) = 0 :=
          Nat.mod_eq_zero_of_dvd
            (Nat.dvd_add (Nat.dvd_trans divides (Nat.dvd_of_mod_eq_zero aligned)) divides)
        have right := @ih (count - 2 ^ Nat.log2 count) (by omega) (start + 2 ^ Nat.log2 count)
          alignedRight
        rw [show start + 2 ^ Nat.log2 count + (count - 2 ^ Nat.log2 count) = start + count by omega]
          at right
        have notPower : ¬(1 <<< Nat.log2 count = count ∧ start % count = 0) := by
          rw [Nat.one_shiftLeft]
          omega
        rw [rangeHash, bagPeaks_of_lt (by omega) more]
        simp only [Nat.add_sub_cancel_left, none, if_false, notPower, dif_pos several, split]
        rw [toOption_bind_hashChildren, toOption_rangeHash_of_two_pow tree aligned, right]

/-- What a tree answers as its root at a size is the root from its nodes, in whatever order. -/
theorem Complete.root_eq {tree : Accumulator} (complete : tree.Complete)
    (fits : tree.size < 2 ^ 64) {nodes : List (NodeAddress × Digest)}
    (same : nodes.Perm tree.nodes) {treeSize : Nat} (reached : treeSize ≤ tree.size) :
    (tree.root treeSize).toOption = rootFrom? nodes treeSize := by
  have range := @toOption_rangeHash tree 0 treeSize (Nat.zero_mod _)
  rw [Nat.zero_add] at range
  have sameNodes : ∀ level index, level < 64 → index < 2 ^ 64 →
      hashAt? nodes level index = tree.node? level index :=
    fun level index levelFits => complete.hashAt?_eq fits same (by omega)
  rw [rootFrom?, bagPeaks_congr (by omega) sameNodes, ← range, root, checkSize, if_neg (by omega)]
  rfl

end Accumulator

end VerifiableLog.Merkle
