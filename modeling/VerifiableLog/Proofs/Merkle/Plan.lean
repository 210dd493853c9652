import VerifiableLog.Proofs.Merkle.Workbench

/-!
What a plan lists. A node is written for each subtree that the new leaves complete and for no other,
so a store that takes the plans one after the other writes each node once. The nodes of a level come
in the order of their indices, and each node comes behind its children, whatever the batch.
-/

namespace VerifiableLog.Merkle

/-! ### The indices of a level -/

def countAt (levels : Array (Array Digest)) (level : Nat) : Nat :=
  (levels[level]?.map Array.size).getD 0

def indicesAt (level : UInt8) (addresses : List NodeAddress) : List Nat :=
  (addresses.filter fun address => address.level = level).map fun address => address.index.toNat

theorem mem_indicesAt_iff {addresses : List NodeAddress} {address : NodeAddress} :
    address.index.toNat ∈ indicesAt address.level addresses ↔ address ∈ addresses := by
  simp only [indicesAt, List.mem_map, List.mem_filter, decide_eq_true_eq]
  constructor
  · rintro ⟨other, ⟨member, level⟩, index⟩
    obtain rfl : other = address := by
      cases other
      cases address
      simp_all [UInt64.toNat_inj]
    exact member
  · intro member
    exact ⟨address, ⟨member, rfl⟩, rfl⟩

theorem Accumulator.Complete.countAt_eq {tree : Accumulator} (complete : tree.Complete)
    (level : Nat) : countAt tree.levels level = tree.size >>> level := by
  have sizes := Halving.map_size_getElem? complete level
  rw [Array.getElem?_toList] at sizes
  rw [countAt, sizes]
  split
  · rfl
  · exact (Nat.eq_zero_of_not_pos ‹_›).symm

theorem countAt_insertNode {levels : Array (Array Digest)} {entry : NodeAddress × Digest}
    (reached : entry.1.level.toNat ≤ levels.size) (level : Nat) :
    countAt (Accumulator.insertNode levels entry) level =
      countAt levels level + if entry.1.level.toNat = level then 1 else 0 := by
  simp only [countAt, Accumulator.insertNode]
  split
  · rename_i top
    rw [Array.getElem?_push, top]
    by_cases here : level = levels.size
    · simp [here]
    · simp [here, Ne.symm here]
  · rename_i inside
    rw [Array.getElem?_modify]
    by_cases here : entry.1.level.toNat = level
    · have present : level < levels.size := by omega
      simp [here, present]
    · simp [here]

theorem countAt_of_placeSorted {levels after : Array (Array Digest)}
    {entry : NodeAddress × Digest} (placed : Accumulator.placeSorted levels entry = .ok after) :
    entry.1.index.toNat = countAt levels entry.1.level.toNat ∧
      ∀ level, countAt after level =
        countAt levels level + if entry.1.level.toNat = level then 1 else 0 := by
  have inserted := Accumulator.insertNode_of_placeSorted placed
  simp only [Accumulator.placeSorted] at placed
  split at placed
  · simp at placed
  rename_i reached
  split at placed
  · simp at placed
  rename_i expected
  rw [← inserted]
  exact ⟨not_not.mp expected, countAt_insertNode (by omega)⟩

/-- Nodes that are placed, each right behind the others of its level, have consecutive indices. -/
theorem indicesAt_of_placed {entries : List (NodeAddress × Digest)}
    {levels after : Array (Array Digest)}
    (placed : entries.foldlM Accumulator.placeSorted levels = .ok after) (level : UInt8) :
    countAt levels level.toNat ≤ countAt after level.toNat ∧
      indicesAt level (entries.map Prod.fst) =
        List.range' (countAt levels level.toNat)
          (countAt after level.toNat - countAt levels level.toNat) := by
  induction entries generalizing levels with
  | nil =>
      obtain rfl := Except.ok.inj placed
      simp [indicesAt]
  | cons entry entries ih =>
      rw [List.foldlM_cons] at placed
      cases first : Accumulator.placeSorted levels entry with
      | error fault => simp [first, bind, Except.bind] at placed
      | ok next =>
          simp only [first, bind, Except.bind] at placed
          obtain ⟨index, counts⟩ := countAt_of_placeSorted first
          obtain ⟨grows, rest⟩ := ih placed
          rw [counts] at grows rest
          by_cases here : entry.1.level = level
          · subst here
            rw [if_pos rfl] at grows rest
            refine ⟨by omega, ?_⟩
            rw [show countAt after entry.1.level.toNat - countAt levels entry.1.level.toNat =
                countAt after entry.1.level.toNat - (countAt levels entry.1.level.toNat + 1) + 1 by
              omega, List.range'_succ, ← rest, ← index]
            simp [indicesAt]
          · have elsewhere : entry.1.level.toNat ≠ level.toNat := mt UInt8.toNat_inj.mp here
            rw [if_neg elsewhere, Nat.add_zero] at grows rest
            refine ⟨grows, ?_⟩
            rw [← rest]
            simp [indicesAt, here]

/-! ### The order of completion -/

namespace NodeAddress

/-- The number of leaves with which the node is complete. -/
def reach (address : NodeAddress) : Nat := (address.index.toNat + 1) * 2 ^ address.level.toNat

/-- Nodes come about leaf by leaf, and those that one leaf completes from the lowest up. -/
def Before (first second : NodeAddress) : Prop :=
  first.reach < second.reach ∨
    (first.reach = second.reach ∧ first.level.toNat < second.level.toNat)

def IsChildOf (child parent : NodeAddress) : Prop :=
  child.level.toNat + 1 = parent.level.toNat ∧
    (child.index.toNat = 2 * parent.index.toNat ∨
      child.index.toNat = 2 * parent.index.toNat + 1)

theorem Before.asymm {first second : NodeAddress} (before : first.Before second) :
    ¬second.Before first := by
  rw [Before] at before ⊢
  omega

theorem Before.ne {first second : NodeAddress} (before : first.Before second) :
    first ≠ second := by
  rintro rfl
  exact before.asymm before

theorem IsChildOf.before {child parent : NodeAddress} (isChild : child.IsChildOf parent) :
    child.Before parent := by
  obtain ⟨level, index⟩ := isChild
  have reached : child.reach ≤ parent.reach := by
    rw [reach, reach, ← level, Nat.pow_succ', ← Nat.mul_assoc]
    exact Nat.mul_le_mul_right _ (by omega)
  rw [Before]
  omega

end NodeAddress

theorem reach_ofNat {level index : Nat} (levelFits : level < 256) (indexFits : index < 2 ^ 64) :
    (NodeAddress.mk (UInt8.ofNat level) (UInt64.ofNat index)).reach = (index + 1) * 2 ^ level ∧
      (UInt8.ofNat level).toNat = level := by
  have ownLevel : (UInt8.ofNat level).toNat = level := UInt8.toNat_ofNat_of_lt' levelFits
  have ownIndex : (UInt64.ofNat index).toNat = index := UInt64.toNat_ofNat_of_lt' indexFits
  rw [NodeAddress.reach, ownLevel, ownIndex]
  exact ⟨rfl, rfl⟩

theorem carry_before {frontier : Frontier} {level index : Nat} (hash : Digest)
    (awaits : frontier.Awaits index) (indexFits : index < 2 ^ 64)
    (fits : level + frontier.length < 256) :
    (∀ entry ∈ (frontier.carry level index hash).1,
      entry.1.reach = (index + 1) * 2 ^ level ∧ level ≤ entry.1.level.toNat) ∧
      (frontier.carry level index hash).1.Pairwise fun first second =>
        first.1.Before second.1 := by
  have own := @reach_ofNat level index (by omega) indexFits
  induction frontier generalizing level index hash with
  | nil => simp [Frontier.carry, own]
  | cons slot above ih =>
      obtain ⟨positive, odd_iff, rest⟩ := awaits
      simp only [List.length_cons] at fits
      cases slot with
      | none => simp [Frontier.carry, own]
      | some left =>
          -- A sibling waits at odd counts only, so the parent is complete with the same leaf.
          have odd : index % 2 = 1 := by simpa using odd_iff
          have sameReach : (index / 2 + 1) * 2 ^ (level + 1) = (index + 1) * 2 ^ level := by
            rw [Nat.pow_succ', ← Nat.mul_assoc, show (index / 2 + 1) * 2 = index + 1 by omega]
          obtain ⟨parents, ordered⟩ := ih (hashChildren left hash) rest (by omega)
            (show level + 1 + above.length < 256 by omega) (reach_ofNat (by omega) (by omega))
          rw [sameReach] at parents
          simp only [Frontier.carry, List.forall_mem_cons, List.pairwise_cons]
          refine ⟨⟨⟨own.1, Nat.le_of_eq own.2.symm⟩, ?_⟩, ?_, ordered⟩
          · intro entry member
            obtain ⟨reached, higher⟩ := parents entry member
            exact ⟨reached, Nat.le_of_succ_le higher⟩
          · intro entry member
            obtain ⟨reached, higher⟩ := parents entry member
            exact .inr ⟨own.1.trans reached.symm, by rw [own.2]; exact higher⟩

theorem extend_before {frontier : Frontier} {index : Nat} {leaves : List Digest}
    (awaits : frontier.Awaits index) (fits : index + leaves.length < 2 ^ 64) :
    (∀ entry ∈ frontier.extend index leaves, index < entry.1.reach) ∧
      (frontier.extend index leaves).Pairwise fun first second => first.1.Before second.1 := by
  induction leaves generalizing frontier index with
  | nil => simp [Frontier.extend]
  | cons leaf leaves ih =>
      simp only [List.length_cons] at fits
      have levelsFit := awaits.length_le (show index < 2 ^ 64 by omega)
      obtain ⟨here, ordered⟩ := @carry_before frontier 0 index leaf awaits (by omega) (by omega)
      obtain ⟨later, orderedLater⟩ := ih (awaits.carry 0 index leaf) (by omega)
      simp only [Nat.pow_zero, Nat.mul_one] at here
      simp only [Frontier.extend, List.forall_mem_append, List.pairwise_append]
      refine ⟨⟨?_, ?_⟩, ordered, orderedLater, ?_⟩
      · intro entry member
        have reached := (here entry member).1
        omega
      · intro entry member
        have reached := later entry member
        omega
      · intro first firstMember second secondMember
        have reached := (here first firstMember).1
        have reachedLater := later second secondMember
        exact .inl (by omega)

/-! ### Plans -/

/-- The list is that of the nodes that a tree of `second` leaves has beyond one of `first`, in an
order in which they can be written. -/
structure Completes (addresses : List NodeAddress) (first second : Nat) : Prop where
  mem_iff : ∀ address : NodeAddress, address ∈ addresses ↔
    first >>> address.level.toNat ≤ address.index.toNat ∧
      address.index.toNat < second >>> address.level.toNat
  distinct : addresses.Nodup
  children_first : ∀ before node after, addresses = before ++ node :: after →
    ∀ child ∈ addresses, child.IsChildOf node → child ∈ before
  consecutive : ∀ level : UInt8, indicesAt level addresses =
    List.range' (first >>> level.toNat) (second >>> level.toNat - first >>> level.toNat)

theorem mem_before_of_isChildOf {before after : List NodeAddress} {node child : NodeAddress}
    (ordered : (before ++ node :: after).Pairwise NodeAddress.Before)
    (member : child ∈ before ++ node :: after) (isChild : child.IsChildOf node) :
    child ∈ before := by
  have behind := (List.pairwise_cons.mp (List.pairwise_append.mp ordered).2.1).1
  rcases List.mem_append.mp member with early | late
  · exact early
  · rcases List.mem_cons.mp late with rfl | later
    · exact absurd rfl isChild.before.ne
    · exact absurd isChild.before (behind child later).asymm

theorem Accumulator.Complete.plan_before {tree : Accumulator} (complete : tree.Complete)
    {leaves : List Digest} (fits : tree.size + leaves.length < 2 ^ 64) :
    ((tree.planAppend leaves).nodes.map Prod.fst).Pairwise NodeAddress.Before :=
  List.pairwise_map.mpr (extend_before (Halving.awaits complete) fits).2

theorem Accumulator.Complete.plan_indices {tree : Accumulator} (complete : tree.Complete)
    {leaves : List Digest} (fits : tree.size + leaves.length < 2 ^ 64) (level : UInt8) :
    tree.size >>> level.toNat ≤ (tree.size + leaves.length) >>> level.toNat ∧
      indicesAt level ((tree.planAppend leaves).nodes.map Prod.fst) =
        List.range' (tree.size >>> level.toNat)
          ((tree.size + leaves.length) >>> level.toNat - tree.size >>> level.toNat) := by
  obtain ⟨grown, size⟩ := complete.extend (show tree.size + leaves.length < 2 ^ 256 by omega)
  have placed := indicesAt_of_placed (complete.places fits) level
  rwa [complete.countAt_eq, grown.countAt_eq, size] at placed

theorem Accumulator.Complete.plan_completes {tree : Accumulator} (complete : tree.Complete)
    {leaves : List Digest} (fits : tree.size + leaves.length < 2 ^ 64) :
    Completes ((tree.planAppend leaves).nodes.map Prod.fst) tree.size
      (tree.size + leaves.length) := by
  have ordered := complete.plan_before fits
  refine ⟨?_, ordered.imp NodeAddress.Before.ne, ?_,
    fun level => (complete.plan_indices fits level).2⟩
  · intro address
    obtain ⟨grows, indices⟩ := complete.plan_indices fits address.level
    rw [← mem_indicesAt_iff, indices, List.mem_range'_1]
    omega
  · intro before node after split child member isChild
    rw [split] at ordered member
    exact mem_before_of_isChildOf ordered member isChild

namespace Accumulator

/-- Whatever a tree has been through, a plan for more leaves lists exactly the nodes that the larger
tree has and this one has not, each of them once, on each level from the first missing index on, and
none before its children. -/
theorem planAppend_completes {acts : List Act} (fits : ∀ act ∈ acts, act.Fits)
    (short : ∀ before, before <+: acts → (Workbench.run before).tree.size < 2 ^ 63)
    (leaves : List Digest) (room : (Workbench.run acts).tree.size + leaves.length < 2 ^ 63) :
    Completes (((Workbench.run acts).tree.planAppend leaves).nodes.map Prod.fst)
        (Workbench.run acts).tree.size ((Workbench.run acts).tree.size + leaves.length) ∧
      ∀ address ∈ ((Workbench.run acts).tree.planAppend leaves).nodes.map Prod.fst,
        (Workbench.run acts).tree.node? address.level.toNat address.index.toNat = none := by
  have complete := (Workbench.run_sound fits short).2.complete
  have completes := complete.plan_completes (show _ + leaves.length < 2 ^ 64 by omega)
  refine ⟨completes, ?_⟩
  intro address member
  have place := (completes.mem_iff address).mp member
  rw [← Option.not_isSome_iff_eq_none, complete.isSome_node?_iff]
  omega

theorem planAppend_completes_raggedBatch :
    let acts : List Act := [.extend [hashLeaf [1]], .plan [hashLeaf [2], hashLeaf [3]], .apply 0]
    (Workbench.run acts).tree.size = 3 ∧ Completes [⟨0, 3⟩, ⟨1, 1⟩, ⟨2, 0⟩, ⟨0, 4⟩] 3 5 ∧
      (Workbench.run acts).tree.node? 2 0 = none := by
  intro acts
  have short : ∀ before ∈ acts.inits, (Workbench.run before).tree.size < 2 ^ 63 := by
    decide +kernel
  have size : (Workbench.run acts).tree.size = 3 := by decide +kernel
  have listed : ((Workbench.run acts).tree.planAppend [hashLeaf [4], hashLeaf [5]]).nodes.map
      Prod.fst = [⟨0, 3⟩, ⟨1, 1⟩, ⟨2, 0⟩, ⟨0, 4⟩] := by decide +kernel
  obtain ⟨completes, absent⟩ := @planAppend_completes acts (by simp [acts, Act.Fits])
    (fun before earlier => short before ((List.mem_inits before acts).mpr earlier))
    [hashLeaf [4], hashLeaf [5]] (by rw [size]; decide)
  rw [listed, size] at completes
  rw [listed] at absent
  exact ⟨size, completes, absent ⟨2, 0⟩ (by simp)⟩

end Accumulator

end VerifiableLog.Merkle
