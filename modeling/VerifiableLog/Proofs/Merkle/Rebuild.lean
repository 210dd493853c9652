import VerifiableLog.Proofs.Merkle.NodeSet

/-!
Which sets of nodes are those of a tree. A tree of a given size calls for one node at each address
whose subtree is complete, and a list of nodes is accepted, in whatever order, exactly if it has one
node for each of these addresses and no other. The hashes are taken as they are.
-/

namespace VerifiableLog.Merkle

/-! ### Addresses -/

theorem Halving.isSome_iff {count : Nat} {levels : List (Array Digest)}
    (halving : Halving count levels) (level index : Nat) :
    (levels[level]?.bind fun nodes => nodes[index]?).isSome = true ↔ index < count >>> level := by
  induction level generalizing count levels with
  | zero =>
      cases levels with
      | nil =>
          rw [Halving] at halving
          simp [halving]
      | cons nodes above => simp [halving.2.1]
  | succ level ih =>
      cases levels with
      | nil =>
          rw [Halving] at halving
          simp [halving]
      | cons nodes above =>
          rw [List.getElem?_cons_succ, ih halving.2.2, Nat.shiftRight_succ_inside]

namespace Accumulator

theorem node?_eq (tree : Accumulator) (level index : Nat) :
    tree.node? level index = tree.levels.toList[level]?.bind fun nodes => nodes[index]? := by
  rw [Array.getElem?_toList]
  rfl

theorem Complete.isSome_node?_iff {tree : Accumulator} (complete : tree.Complete)
    (level index : Nat) :
    (tree.node? level index).isSome = true ↔ index < tree.size >>> level := by
  rw [node?_eq]
  exact Halving.isSome_iff complete level index

theorem Complete.mem_nodes_iff {tree : Accumulator} (complete : tree.Complete)
    (fits : tree.size < 2 ^ 64) {entry : NodeAddress × Digest} :
    entry ∈ tree.nodes ↔
      tree.node? entry.1.level.toNat entry.1.index.toNat = some entry.2 := by
  have levelsFit := Halving.length_le complete fits
  rw [nodes_eq_levelEntries, mem_levelEntries_iff (by omega) (Halving.inhabited complete fits),
    node?_eq]
  simp

end Accumulator

/-- One node for each complete subtree of a tree of the given size, and no other. -/
structure Covers (nodes : List (NodeAddress × Digest)) (size : Nat) : Prop where
  distinct : (nodes.map Prod.fst).Nodup
  addresses : ∀ address : NodeAddress,
    address ∈ nodes.map Prod.fst ↔ address.index.toNat < size >>> address.level.toNat

theorem Accumulator.Complete.covers {tree : Accumulator} (complete : tree.Complete)
    (fits : tree.size < 2 ^ 64) {nodes : List (NodeAddress × Digest)}
    (same : nodes.Perm tree.nodes) : Covers nodes tree.size where
  distinct := (same.map Prod.fst).nodup_iff.mpr (complete.nodes_nodup fits)
  addresses := by
    intro address
    rw [(same.map Prod.fst).mem_iff, ← complete.isSome_node?_iff, Option.isSome_iff_exists,
      List.mem_map]
    constructor
    · rintro ⟨entry, member, rfl⟩
      exact ⟨entry.2, (complete.mem_nodes_iff fits).mp member⟩
    · rintro ⟨hash, found⟩
      exact ⟨(address, hash), (complete.mem_nodes_iff fits).mpr found, rfl⟩

/-! ### Placing nodes -/

theorem levelEntries_append (level : Nat) (below above : List (Array Digest)) :
    levelEntries level (below ++ above) =
      levelEntries level below ++ levelEntries (level + below.length) above := by
  induction below generalizing level with
  | nil => simp [levelEntries]
  | cons nodes below ih =>
      rw [List.cons_append, levelEntries, levelEntries, ih, List.append_assoc, List.length_cons,
        show level + 1 + below.length = level + (below.length + 1) by omega]

theorem placeSorted_perm {levels after : Array (Array Digest)} {entry : NodeAddress × Digest}
    (inhabited : ∀ nodes ∈ levels.toList, 0 < nodes.size)
    (placed : Accumulator.placeSorted levels entry = .ok after) :
    (∀ nodes ∈ after.toList, 0 < nodes.size) ∧
      (levelEntries 0 levels.toList ++ [entry]).Perm (levelEntries 0 after.toList) := by
  obtain ⟨levels⟩ := levels
  obtain ⟨⟨level, index⟩, hash⟩ := entry
  simp only [Accumulator.placeSorted] at placed
  split at placed
  · simp at placed
  rename_i notBeyond
  split at placed
  · simp at placed
  rename_i expected
  simp only [List.size_toArray, ne_eq, Decidable.not_not] at notBeyond expected
  obtain rfl := Except.ok.inj placed
  have levelFits := level.toNat_lt
  by_cases top : level.toNat = levels.length
  · have first : index.toNat = 0 := by simpa [top] using expected
    have inserted := @insertNode_on_top levels (by omega) index hash
    rw [← top, UInt8.ofNat_toNat] at inserted
    rw [inserted]
    refine ⟨?_, ?_⟩
    · intro nodes member
      rcases List.mem_append.mp member with earlier | new
      · exact inhabited nodes earlier
      · simp [List.mem_singleton.mp new]
    · rw [levelEntries_append, Nat.zero_add, ← top]
      simp only [levelEntries, rowEntries, UInt8.ofNat_toNat, ← first, UInt64.ofNat_toNat,
        List.append_nil]
      exact List.Perm.refl _
  · have inside : level.toNat < levels.length := by omega
    have whole := List.take_append_drop level.toNat levels
    rw [List.drop_eq_getElem_cons inside] at whole
    have length : (levels.take level.toNat).length = level.toNat :=
      List.length_take_of_le (Nat.le_of_lt inside)
    have next : index.toNat = levels[level.toNat].size := by simpa [inside] using expected
    generalize levels.take level.toNat = below at whole length
    generalize levels.drop (level.toNat + 1) = above at whole
    generalize levels[level.toNat] = nodes at whole next
    subst whole
    have inserted := @insertNode_inside below (by omega) nodes above index hash
    rw [length, UInt8.ofNat_toNat] at inserted
    rw [inserted]
    refine ⟨?_, ?_⟩
    · intro kept member
      simp only [List.mem_append, List.mem_cons] at member
      rcases member with lower | rfl | higher
      · exact inhabited kept (List.mem_append_left _ lower)
      · simp
      · exact inhabited kept (List.mem_append_right _ (List.mem_cons_of_mem _ higher))
    · simp only [levelEntries_append, levelEntries, Nat.zero_add, length, Array.toList_push,
        rowEntries_append, Array.length_toList, rowEntries, ← next, UInt8.ofNat_toNat,
        UInt64.ofNat_toNat, List.append_assoc]
      exact (List.perm_append_comm.append_left _).append_left _

theorem foldlM_placeSorted_perm {entries : List (NodeAddress × Digest)}
    {levels after : Array (Array Digest)} (inhabited : ∀ nodes ∈ levels.toList, 0 < nodes.size)
    (placed : entries.foldlM Accumulator.placeSorted levels = .ok after) :
    (∀ nodes ∈ after.toList, 0 < nodes.size) ∧
      (levelEntries 0 levels.toList ++ entries).Perm (levelEntries 0 after.toList) := by
  induction entries generalizing levels with
  | nil =>
      obtain rfl := Except.ok.inj placed
      simpa using inhabited
  | cons entry entries ih =>
      rw [List.foldlM_cons] at placed
      cases first : Accumulator.placeSorted levels entry with
      | error fault => simp [first, bind, Except.bind] at placed
      | ok next =>
          simp only [first, bind, Except.bind] at placed
          obtain ⟨inhabitedNext, sameNext⟩ := placeSorted_perm inhabited first
          obtain ⟨inhabitedAfter, sameAfter⟩ := ih inhabitedNext placed
          refine ⟨inhabitedAfter, ?_⟩
          rw [← List.singleton_append, ← List.append_assoc]
          exact (sameNext.append_right _).trans sameAfter

theorem Accumulator.complete_of_ofNodes {nodes : List (NodeAddress × Digest)} {tree : Accumulator}
    (accepted : ofNodes nodes = .ok tree) : tree.Complete ∧ nodes.Perm tree.nodes := by
  simp only [ofNodes, bind, Except.bind, pure, Except.pure] at accepted
  cases placed : (nodes.mergeSort fun left right => left.1.le right.1).foldlM placeSorted #[] with
  | error fault => simp [placed, Except.mapError] at accepted
  | ok levels =>
      simp only [placed] at accepted
      cases checked : checkLevels levels.toList with
      | error fault => simp [checked, Except.mapError] at accepted
      | ok _ =>
          simp only [checked, Except.mapError, Except.ok.injEq] at accepted
          subst accepted
          obtain ⟨inhabited, same⟩ := foldlM_placeSorted_perm (by simp) placed
          refine ⟨(checkLevels_ok_iff inhabited).mp checked, ?_⟩
          rw [nodes_eq_levelEntries]
          exact (List.mergeSort_perm nodes _).symm.trans same

/-! ### Any such set is that of a tree -/

def hashAt? (nodes : List (NodeAddress × Digest)) (level index : Nat) : Option Digest :=
  nodes.lookup ⟨UInt8.ofNat level, UInt64.ofNat index⟩

def levelsFrom (hashAt : Nat → Nat → Digest) (level count : Nat) : List (Array Digest) :=
  if _ : count = 0 then []
  else ((List.range count).map (hashAt level)).toArray :: levelsFrom hashAt (level + 1) (count / 2)
termination_by count

theorem halving_levelsFrom (hashAt : Nat → Nat → Digest) (level count : Nat) :
    Halving count (levelsFrom hashAt level count) := by
  fun_induction levelsFrom hashAt level count with
  | case1 => rfl
  | case2 level count inhabited ih => exact ⟨by omega, by simp, ih⟩

theorem getElem?_levelsFrom (hashAt : Nat → Nat → Digest) (level count above index : Nat) :
    ((levelsFrom hashAt level count)[above]?.bind fun nodes => nodes[index]?) =
      if index < count >>> above then some (hashAt (level + above) index) else none := by
  induction above generalizing level count with
  | zero =>
      rw [levelsFrom]
      split
      · simp [*]
      · by_cases inside : index < count <;> simp [inside]
  | succ above ih =>
      rw [levelsFrom]
      split
      · simp [*]
      · rw [List.getElem?_cons_succ, ih, Nat.shiftRight_succ_inside]
        rw [show level + 1 + above = level + (above + 1) by omega]

theorem lookup_eq_some_iff_mem {nodes : List (NodeAddress × Digest)}
    (distinct : (nodes.map Prod.fst).Nodup) {address : NodeAddress} {hash : Digest} :
    nodes.lookup address = some hash ↔ (address, hash) ∈ nodes := by
  induction nodes with
  | nil => simp
  | cons entry nodes ih =>
      obtain ⟨other, found⟩ := entry
      rw [List.map_cons, List.nodup_cons] at distinct
      rw [List.lookup_cons, List.mem_cons, Prod.mk.injEq]
      by_cases same : address = other
      · subst same
        have once : (address, hash) ∉ nodes :=
          fun member => distinct.1 (List.mem_map.mpr ⟨_, member, rfl⟩)
        simp [once, eq_comm]
      · rw [beq_eq_false_iff_ne.mpr same]
        simp [same, ih distinct.2]

theorem Accumulator.Complete.hashAt?_eq {tree : Accumulator} (complete : tree.Complete)
    (fits : tree.size < 2 ^ 64) {nodes : List (NodeAddress × Digest)}
    (same : nodes.Perm tree.nodes) {level index : Nat} (levelFits : level < 256)
    (indexFits : index < 2 ^ 64) : hashAt? nodes level index = tree.node? level index := by
  have levelValue : (UInt8.ofNat level).toNat = level := UInt8.toNat_ofNat_of_lt' levelFits
  have indexValue : (UInt64.ofNat index).toNat = index := UInt64.toNat_ofNat_of_lt' indexFits
  apply Option.ext
  intro hash
  rw [hashAt?, lookup_eq_some_iff_mem (complete.covers fits same).distinct, same.mem_iff,
    complete.mem_nodes_iff fits, levelValue, indexValue]

theorem Covers.complete {nodes : List (NodeAddress × Digest)} {size : Nat}
    (covers : Covers nodes size) (fits : size < 2 ^ 64) :
    ∃ tree : Accumulator, tree.Complete ∧ tree.size = size ∧ nodes.Perm tree.nodes := by
  have halving := halving_levelsFrom
    (fun level index => (hashAt? nodes level index).getD emptyRoot) 0 size
  have node := getElem?_levelsFrom
    (fun level index => (hashAt? nodes level index).getD emptyRoot) 0 size
  generalize levelsFrom _ 0 size = levels at halving node
  obtain ⟨treeSize, complete⟩ := halving.complete
  have roomy : (Accumulator.mk levels.toArray).size < 2 ^ 64 := by rwa [treeSize]
  refine ⟨_, complete, treeSize, ?_⟩
  have nodup := covers.distinct.of_map
  have nodupTree := (complete.nodes_nodup roomy).of_map
  rw [List.perm_ext_iff_of_nodup nodup nodupTree]
  rintro ⟨address, hash⟩
  rw [complete.mem_nodes_iff roomy, Accumulator.node?_eq, node, Nat.zero_add, hashAt?,
    UInt8.ofNat_toNat, UInt64.ofNat_toNat]
  constructor
  · intro member
    have inside := (covers.addresses address).mp (List.mem_map.mpr ⟨_, member, rfl⟩)
    rw [if_pos inside, (lookup_eq_some_iff_mem covers.distinct).mpr member]
    rfl
  · intro found
    split at found
    · rename_i inside
      obtain ⟨⟨_, kept⟩, member, rfl⟩ := List.mem_map.mp ((covers.addresses address).mpr inside)
      rw [(lookup_eq_some_iff_mem covers.distinct).mpr member] at found
      obtain rfl := Option.some_inj.mp found
      exact member
    · simp at found

/-- A list of nodes is accepted, as a tree of some size, exactly if it covers that size. -/
theorem Accumulator.ofNodes_ok_iff_covers {nodes : List (NodeAddress × Digest)} {size : Nat}
    (fits : size < 2 ^ 64) :
    (∃ tree, ofNodes nodes = .ok tree ∧ tree.size = size) ↔ Covers nodes size := by
  constructor
  · rintro ⟨tree, accepted, rfl⟩
    obtain ⟨complete, same⟩ := complete_of_ofNodes accepted
    exact complete.covers fits same
  · intro covers
    obtain ⟨tree, complete, rfl, same⟩ := covers.complete fits
    exact ⟨tree, complete.ofNodes_of_perm fits same, rfl⟩

end VerifiableLog.Merkle
