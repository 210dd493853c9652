import Mathlib.Data.List.Nodup
import VerifiableLog.Proofs.Merkle.Growth

/-!
The nodes of a tree as a set of addresses with their hashes. A plan lists the nodes that are missing
between the tree before and the tree after, and the nodes of a tree, sorted by their addresses, are
placed back level by level. Together: whatever order a store keeps them in, the nodes of all plans
that were applied rebuild the tree.
-/

namespace VerifiableLog.Merkle

def rowEntries (level index : Nat) : List Digest → List (NodeAddress × Digest)
  | [] => []
  | hash :: hashes =>
    (⟨UInt8.ofNat level, UInt64.ofNat index⟩, hash) :: rowEntries level (index + 1) hashes

def levelEntries (level : Nat) : List (Array Digest) → List (NodeAddress × Digest)
  | [] => []
  | nodes :: above => rowEntries level 0 nodes.toList ++ levelEntries (level + 1) above

theorem rowEntries_eq_map_zipIdx (level index : Nat) (hashes : List Digest) :
    rowEntries level index hashes =
      (hashes.zipIdx index).map fun (hash, index) =>
        (⟨UInt8.ofNat level, UInt64.ofNat index⟩, hash) := by
  induction hashes generalizing index with
  | nil => rfl
  | cons hash hashes ih => simp only [rowEntries, ih, List.zipIdx_cons, List.map_cons]

theorem rowEntries_append (level index : Nat) (first second : List Digest) :
    rowEntries level index (first ++ second) =
      rowEntries level index first ++ rowEntries level (index + first.length) second := by
  induction first generalizing index with
  | nil => simp [rowEntries]
  | cons hash first ih =>
      simp only [List.cons_append, rowEntries, ih, List.length_cons]
      rw [show index + 1 + first.length = index + (first.length + 1) by omega]

theorem levelEntries_eq_flatMap_zipIdx (level : Nat) (levels : List (Array Digest)) :
    levelEntries level levels =
      (levels.zipIdx level).flatMap fun (hashes, level) =>
        hashes.toList.zipIdx.map fun (hash, index) =>
          (⟨UInt8.ofNat level, UInt64.ofNat index⟩, hash) := by
  induction levels generalizing level with
  | nil => rfl
  | cons nodes above ih =>
      simp only [levelEntries, ih, rowEntries_eq_map_zipIdx, List.zipIdx_cons, List.flatMap_cons]

theorem Accumulator.nodes_eq_levelEntries (tree : Accumulator) :
    tree.nodes = levelEntries 0 tree.levels.toList := by
  rw [levelEntries_eq_flatMap_zipIdx, nodes]

theorem Accumulator.nodes_ofLeaves (leaves : List Digest) :
    (ofLeaves leaves).nodes = levelEntries 0 (levelsOf leaves) := by
  rw [nodes_eq_levelEntries, ofLeaves]

/-! ### Complete trees -/

/-- Each level holds half as many nodes as the one below it, rounded down, and none is empty. -/
def Halving : Nat → List (Array Digest) → Prop
  | count, [] => count = 0
  | count, nodes :: above => 0 < count ∧ nodes.size = count ∧ Halving (count / 2) above

/-- The tree holds as many nodes on each level as its leaves call for, whatever their hashes. -/
def Accumulator.Complete (tree : Accumulator) : Prop := Halving tree.size tree.levels.toList

theorem Halving.complete {count : Nat} {levels : List (Array Digest)}
    (halving : Halving count levels) :
    (Accumulator.mk levels.toArray).size = count ∧ (Accumulator.mk levels.toArray).Complete := by
  have size : (Accumulator.mk levels.toArray).size = count := by
    cases levels with
    | nil => exact halving.symm
    | cons nodes above => simpa [Accumulator.size] using halving.2.1
  refine ⟨size, ?_⟩
  rw [Accumulator.Complete, size]
  exact halving

theorem Halving.length_le {count bits : Nat} {levels : List (Array Digest)}
    (halving : Halving count levels) (fits : count < 2 ^ bits) : levels.length ≤ bits := by
  induction bits generalizing count levels with
  | zero =>
      cases levels with
      | nil => exact Nat.zero_le 0
      | cons nodes above =>
          have positive := halving.1
          omega
  | succ bits ih =>
      cases levels with
      | nil => exact Nat.zero_le _
      | cons nodes above =>
          rw [Nat.pow_succ] at fits
          exact Nat.succ_le_succ (ih halving.2.2 (by omega))

theorem halving_levelsOf (leaves : List Digest) : Halving leaves.length (levelsOf leaves) := by
  generalize sizeEq : leaves.length = size
  induction size using Nat.strongRecOn generalizing leaves with
  | ind size ih =>
      by_cases empty : leaves = []
      · subst empty
        simpa [Halving] using sizeEq.symm
      · have positive := List.length_pos_iff.mpr empty
        rw [levelsOf_of_ne_nil empty]
        exact ⟨by omega, by simpa using sizeEq,
          ih (size / 2) (by omega) (pairUp leaves) (by rw [length_pairUp, sizeEq])⟩

theorem Accumulator.complete_ofLeaves (leaves : List Digest) : (ofLeaves leaves).Complete :=
  (halving_levelsOf leaves).complete.2

/-! ### What a plan adds -/

theorem carry_perm (above : List (Array Digest)) (level index : Nat) (hash : Digest)
    (halving : Halving index above) :
    (levelEntries level above ++ (Frontier.carry level index hash (above.map waiting)).1).Perm
      (levelEntries level (raise hash above)) := by
  induction above generalizing level index hash with
  | nil =>
      simp only [Halving] at halving
      simp [levelEntries, Frontier.carry, raise, rowEntries, halving]
  | cons nodes above ih =>
      obtain ⟨-, size, rest⟩ := halving
      have grown : rowEntries level 0 (nodes.push hash).toList =
          rowEntries level 0 nodes.toList ++
            [(⟨UInt8.ofNat level, UInt64.ofNat index⟩, hash)] := by
        rw [Array.toList_push, rowEntries_append, Array.length_toList, size, Nat.zero_add]
        rfl
      cases waits : waiting nodes with
      | none =>
          simp only [levelEntries, List.map_cons, waits, Frontier.carry, raise, grown,
            List.append_assoc]
          exact List.perm_append_comm.append_left _
      | some left =>
          have lifted := ih (level + 1) (index / 2) (hashChildren left hash) rest
          simp only [levelEntries, List.map_cons, waits, Frontier.carry, raise, grown,
            List.append_assoc, List.singleton_append]
          exact (List.perm_middle.trans (lifted.cons _)).append_left _

theorem extend_perm (leaves batch : List Digest) (fits : (leaves ++ batch).length < 2 ^ 64) :
    (levelEntries 0 (levelsOf leaves) ++
        Frontier.extend leaves.length ((levelsOf leaves).map waiting) batch).Perm
      (levelEntries 0 (levelsOf (leaves ++ batch))) := by
  induction batch generalizing leaves with
  | nil => simp [Frontier.extend]
  | cons leaf batch ih =>
      have appended : leaves ++ leaf :: batch = leaves ++ [leaf] ++ batch := by simp
      rw [appended] at fits ⊢
      have oneMore : (leaves ++ [leaf]).length < 2 ^ 64 := by
        rw [List.length_append] at fits
        omega
      have levelsFit := length_levelsOf_le oneMore
      rw [← raise_levelsOf] at levelsFit
      have carried := carry_perm (levelsOf leaves) 0 leaves.length leaf (halving_levelsOf leaves)
      have frontier := (carry_eq_raise [] (levelsOf leaves) leaves.length leaf
        (by simp only [List.length_nil]; omega)).2
      have rest := ih (leaves ++ [leaf]) fits
      rw [← raise_levelsOf] at rest
      simp only [List.length_append, List.length_singleton] at rest
      simp only [List.length_nil] at frontier
      simp only [Frontier.extend, frontier]
      rw [← List.append_assoc]
      exact (carried.append_right _).trans rest

theorem Accumulator.planAppend_perm {leaves batch : List Digest}
    (fits : (leaves ++ batch).length < 2 ^ 64) :
    ((ofLeaves leaves).nodes ++ ((ofLeaves leaves).planAppend batch).nodes).Perm
      (ofLeaves (leaves ++ batch)).nodes := by
  have extended := extend_perm leaves batch fits
  rw [nodes_ofLeaves, nodes_ofLeaves, planAppend, size_ofLeaves]
  exact extended

/-! ### The order of addresses -/

theorem NodeAddress.le_iff {left right : NodeAddress} :
    left.le right = true ↔
      left.level.toNat < right.level.toNat ∨
        (left.level.toNat = right.level.toNat ∧ left.index.toNat ≤ right.index.toNat) := by
  simp only [NodeAddress.le, Bool.or_eq_true, Bool.and_eq_true, decide_eq_true_eq, beq_iff_eq,
    UInt8.lt_iff_toNat_lt, UInt64.le_iff_toNat_le, ← UInt8.toNat_inj]

theorem NodeAddress.eq_of_le_of_le {left right : NodeAddress} (forward : left.le right = true)
    (backward : right.le left = true) : left = right := by
  rw [NodeAddress.le_iff] at forward backward
  have level : left.level = right.level := UInt8.toNat_inj.mp (by omega)
  have index : left.index = right.index := UInt64.toNat_inj.mp (by omega)
  cases left
  cases right
  simp_all

def Precedes (left right : NodeAddress × Digest) : Prop :=
  left.1.le right.1 = true ∧ left.1 ≠ right.1

theorem mem_rowEntries_iff {level index : Nat} {hashes : List Digest}
    {entry : NodeAddress × Digest} (levelFits : level < 256)
    (fits : index + hashes.length ≤ 2 ^ 64) :
    entry ∈ rowEntries level index hashes ↔
      entry.1.level.toNat = level ∧ index ≤ entry.1.index.toNat ∧
        hashes[entry.1.index.toNat - index]? = some entry.2 := by
  induction hashes generalizing index with
  | nil => simp [rowEntries]
  | cons hash hashes ih =>
      simp only [List.length_cons] at fits
      have ownLevel : (UInt8.ofNat level).toNat = level := UInt8.toNat_ofNat_of_lt' levelFits
      have ownIndex : (UInt64.ofNat index).toNat = index :=
        UInt64.toNat_ofNat_of_lt' (by show index < 2 ^ 64; omega)
      have rest := @ih (index + 1) (by omega)
      obtain ⟨⟨entryLevel, entryIndex⟩, entryHash⟩ := entry
      simp only [rowEntries, List.mem_cons, rest, Prod.mk.injEq, NodeAddress.mk.injEq,
        ← UInt8.toNat_inj, ← UInt64.toNat_inj, ownLevel, ownIndex]
      by_cases here : entryIndex.toNat = index
      · have notLater : ¬index + 1 ≤ index := by omega
        simp only [here, notLater, false_and, and_false, or_false, Nat.le_refl, true_and,
          Nat.sub_self, List.getElem?_cons_zero, Option.some_inj, and_true]
        rw [eq_comm (a := entryHash)]
      · by_cases behind : index ≤ entryIndex.toNat
        · have place : entryIndex.toNat - index = entryIndex.toNat - (index + 1) + 1 := by omega
          have later : index + 1 ≤ entryIndex.toNat := by omega
          simp [here, behind, place, later]
        · have notLater : ¬index + 1 ≤ entryIndex.toNat := by omega
          simp [here, behind, notLater]

theorem rowEntries_pairwise {level index : Nat} {hashes : List Digest} (levelFits : level < 256)
    (fits : index + hashes.length ≤ 2 ^ 64) :
    (rowEntries level index hashes).Pairwise Precedes := by
  induction hashes generalizing index with
  | nil => exact List.Pairwise.nil
  | cons hash hashes ih =>
      simp only [List.length_cons] at fits
      refine List.Pairwise.cons ?_ (ih (by omega))
      intro entry later
      have place := (mem_rowEntries_iff levelFits (by omega)).mp later
      have ownLevel : (UInt8.ofNat level).toNat = level := UInt8.toNat_ofNat_of_lt' levelFits
      have ownIndex : (UInt64.ofNat index).toNat = index :=
        UInt64.toNat_ofNat_of_lt' (by show index < 2 ^ 64; omega)
      constructor
      · rw [NodeAddress.le_iff]
        right
        simp only [ownLevel, ownIndex]
        omega
      · intro same
        rw [← same] at place
        simp only [ownIndex] at place
        omega

def Inhabited (levels : List (Array Digest)) : Prop :=
  ∀ nodes ∈ levels, 0 < nodes.size ∧ nodes.size ≤ 2 ^ 64

theorem Halving.inhabited {count : Nat} {levels : List (Array Digest)}
    (halving : Halving count levels) (fits : count < 2 ^ 64) : Inhabited levels := by
  induction levels generalizing count with
  | nil => simp [Inhabited]
  | cons nodes above ih =>
      obtain ⟨positive, size, rest⟩ := halving
      intro level member
      rcases List.mem_cons.mp member with rfl | higher
      · omega
      · exact ih rest (by omega) level higher

theorem mem_levelEntries_iff {level : Nat} {levels : List (Array Digest)}
    {entry : NodeAddress × Digest} (fits : level + levels.length ≤ 256)
    (inhabited : Inhabited levels) :
    entry ∈ levelEntries level levels ↔
      level ≤ entry.1.level.toNat ∧
        (levels[entry.1.level.toNat - level]?.bind fun nodes => nodes[entry.1.index.toNat]?) =
          some entry.2 := by
  induction levels generalizing level with
  | nil => simp [levelEntries]
  | cons nodes above ih =>
      simp only [List.length_cons] at fits
      simp only [Inhabited, List.mem_cons, forall_eq_or_imp] at inhabited
      have row := @mem_rowEntries_iff level 0 nodes.toList entry (by omega)
        (by rw [Array.length_toList]; exact Nat.zero_add _ ▸ inhabited.1.2)
      rw [levelEntries, List.mem_append, row, ih (by omega) inhabited.2]
      by_cases here : entry.1.level.toNat = level
      · have notAbove : ¬level + 1 ≤ level := by omega
        simp [here, notAbove]
      · by_cases above : level ≤ entry.1.level.toNat
        · have place : entry.1.level.toNat - level = entry.1.level.toNat - (level + 1) + 1 := by omega
          have higher : level + 1 ≤ entry.1.level.toNat := by omega
          simp [here, above, place, higher]
        · have notHigher : ¬level + 1 ≤ entry.1.level.toNat := by omega
          simp [here, above, notHigher]

theorem levelEntries_pairwise {level : Nat} {levels : List (Array Digest)}
    (fits : level + levels.length ≤ 256) (inhabited : Inhabited levels) :
    (levelEntries level levels).Pairwise Precedes := by
  induction levels generalizing level with
  | nil => exact List.Pairwise.nil
  | cons nodes above ih =>
      simp only [List.length_cons] at fits
      simp only [Inhabited, List.mem_cons, forall_eq_or_imp] at inhabited
      have rowFits : 0 + nodes.toList.length ≤ 2 ^ 64 := by
        rw [Array.length_toList]
        exact Nat.zero_add _ ▸ inhabited.1.2
      rw [levelEntries, List.pairwise_append]
      refine ⟨rowEntries_pairwise (by omega) rowFits, ih (by omega) inhabited.2, ?_⟩
      intro here hereMember higher higherMember
      have below := (mem_rowEntries_iff (by omega) rowFits).mp hereMember
      have above := (mem_levelEntries_iff (by omega) inhabited.2).mp higherMember
      constructor
      · rw [NodeAddress.le_iff]
        left
        omega
      · intro same
        rw [same] at below
        omega

/-! ### Rebuilding -/

theorem placeSorted_on_top {below : List (Array Digest)} (fits : below.length < 256)
    (hash : Digest) :
    Accumulator.placeSorted below.toArray
        (⟨UInt8.ofNat below.length, UInt64.ofNat 0⟩, hash) =
      .ok (below ++ [#[hash]]).toArray := by
  have level : (UInt8.ofNat below.length).toNat = below.length := UInt8.toNat_ofNat_of_lt' fits
  rw [Accumulator.placeSorted, insertNode_on_top fits]
  simp [level]

theorem placeSorted_inside {below : List (Array Digest)} (fits : below.length < 256)
    {nodes : Array Digest} (room : nodes.size < 2 ^ 64) (above : List (Array Digest))
    (hash : Digest) :
    Accumulator.placeSorted (below ++ nodes :: above).toArray
        (⟨UInt8.ofNat below.length, UInt64.ofNat nodes.size⟩, hash) =
      .ok (below ++ nodes.push hash :: above).toArray := by
  have level : (UInt8.ofNat below.length).toNat = below.length := UInt8.toNat_ofNat_of_lt' fits
  have index : (UInt64.ofNat nodes.size).toNat = nodes.size := UInt64.toNat_ofNat_of_lt' room
  rw [Accumulator.placeSorted, insertNode_inside fits]
  simp [level, index]

theorem foldlM_placeSorted_row {below : List (Array Digest)} (fits : below.length < 256)
    (nodes : Array Digest) (hashes : List Digest) (room : nodes.size + hashes.length ≤ 2 ^ 64) :
    (rowEntries below.length nodes.size hashes).foldlM Accumulator.placeSorted
        (below ++ [nodes]).toArray =
      .ok (below ++ [nodes ++ hashes.toArray]).toArray := by
  induction hashes generalizing nodes with
  | nil => simp [rowEntries, pure, Except.pure]
  | cons hash hashes ih =>
      simp only [List.length_cons] at room
      have pushed := ih (nodes.push hash) (by rw [Array.size_push]; omega)
      rw [Array.size_push] at pushed
      rw [rowEntries, List.foldlM_cons, placeSorted_inside fits (by omega) []]
      simp only [bind, Except.bind]
      rw [pushed]
      simp

theorem foldlM_placeSorted (below above : List (Array Digest))
    (fits : below.length + above.length ≤ 256) (inhabited : Inhabited above) :
    (levelEntries below.length above).foldlM Accumulator.placeSorted below.toArray =
      .ok (below ++ above).toArray := by
  induction above generalizing below with
  | nil => simp [levelEntries, pure, Except.pure]
  | cons nodes above ih =>
      simp only [List.length_cons] at fits
      simp only [Inhabited, List.mem_cons, forall_eq_or_imp] at inhabited
      have rest := ih (below ++ [nodes]) (by simp; omega) inhabited.2
      simp only [List.length_append, List.length_singleton, List.append_assoc,
        List.singleton_append] at rest
      obtain ⟨hashes⟩ := nodes
      match hashes, inhabited.1 with
      | first :: others, present =>
          have row := @foldlM_placeSorted_row below (by omega) #[first] others
            (by simpa [Nat.add_comm] using present.2)
          rw [levelEntries, List.foldlM_append, rowEntries, List.foldlM_cons,
            placeSorted_on_top (by omega)]
          simp only [bind, Except.bind] at row rest ⊢
          simp only [List.size_toArray, List.length_singleton] at row
          rw [row]
          simpa using rest

theorem checkHalving_ok_iff {level countBelow : Nat} {levels : List (Array Digest)}
    (inhabited : ∀ nodes ∈ levels, 0 < nodes.size) :
    Accumulator.checkHalving level countBelow levels = .ok () ↔
      Halving (countBelow / 2) levels := by
  induction levels generalizing level countBelow with
  | nil =>
      rw [Accumulator.checkHalving, Halving]
      by_cases several : countBelow ≥ 2
      · simp only [several, if_true, reduceCtorEq, false_iff]
        omega
      · simp only [several, if_false, true_iff]
        omega
  | cons nodes above ih =>
      simp only [List.mem_cons, forall_eq_or_imp] at inhabited
      rw [Accumulator.checkHalving, Halving]
      by_cases half : nodes.size = countBelow / 2
      · rw [if_neg (not_not_intro half), ih inhabited.2, ← half]
        simp [inhabited.1]
      · simp [half]

theorem checkLevels_ok_iff {levels : List (Array Digest)}
    (inhabited : ∀ nodes ∈ levels, 0 < nodes.size) :
    Accumulator.checkLevels levels = .ok () ↔ (Accumulator.mk levels.toArray).Complete := by
  cases levels with
  | nil => simp [Accumulator.checkLevels, Accumulator.Complete, Accumulator.size, Halving]
  | cons leaves above =>
      simp only [List.mem_cons, forall_eq_or_imp] at inhabited
      rw [Accumulator.checkLevels, checkHalving_ok_iff inhabited.2]
      simp [Accumulator.Complete, Accumulator.size, Halving, inhabited.1]

namespace Accumulator

theorem Complete.nodes_pairwise {tree : Accumulator} (complete : tree.Complete)
    (fits : tree.size < 2 ^ 64) : tree.nodes.Pairwise Precedes := by
  have levelsFit := Halving.length_le complete fits
  rw [nodes_eq_levelEntries]
  exact levelEntries_pairwise (by omega) (Halving.inhabited complete fits)

theorem Complete.nodes_nodup {tree : Accumulator} (complete : tree.Complete)
    (fits : tree.size < 2 ^ 64) : (tree.nodes.map Prod.fst).Nodup := by
  rw [List.Nodup, List.pairwise_map]
  exact (complete.nodes_pairwise fits).imp fun precedes => precedes.2

theorem Complete.mergeSort_eq_nodes {tree : Accumulator} (complete : tree.Complete)
    (fits : tree.size < 2 ^ 64) {nodes : List (NodeAddress × Digest)}
    (same : nodes.Perm tree.nodes) :
    (nodes.mergeSort fun left right => left.1.le right.1) = tree.nodes := by
  have sorted := (complete.nodes_pairwise fits).imp fun precedes => precedes.1
  apply List.Perm.eq_of_pairwise _ (List.pairwise_mergeSort _ _ nodes) sorted
    ((List.mergeSort_perm nodes _).trans same)
  · intro left right leftMember rightMember forward backward
    have address := NodeAddress.eq_of_le_of_le forward backward
    have leftNode := same.mem_iff.mp ((List.mergeSort_perm nodes _).mem_iff.mp leftMember)
    exact List.inj_on_of_nodup_map (complete.nodes_nodup fits) leftNode rightMember address
  · intro left middle right
    simp only [NodeAddress.le_iff]
    omega
  · intro left right
    simp only [Bool.or_eq_true, NodeAddress.le_iff]
    omega

theorem Complete.ofNodes_of_perm {tree : Accumulator} (complete : tree.Complete)
    (fits : tree.size < 2 ^ 64) {nodes : List (NodeAddress × Digest)}
    (same : nodes.Perm tree.nodes) : ofNodes nodes = .ok tree := by
  have levelsFit := Halving.length_le complete fits
  have inhabited := Halving.inhabited complete fits
  have placed := foldlM_placeSorted [] tree.levels.toList (by simp only [List.length_nil]; omega)
    inhabited
  simp only [List.length_nil, List.nil_append] at placed
  have checked := (checkLevels_ok_iff fun nodes member => (inhabited nodes member).1).mpr complete
  simp only [ofNodes, complete.mergeSort_eq_nodes fits same, nodes_eq_levelEntries, placed, checked,
    bind, Except.bind, pure, Except.pure, Except.mapError]

end Accumulator

end VerifiableLog.Merkle
