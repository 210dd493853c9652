import VerifiableLog.Proofs.Merkle.Complete

/-!
The shape of a tree, whatever is done to it. A tree may be extended, plans may be made of it and
applied at any later time, more than once, and it may be replaced by one that is rebuilt from any
nodes that are accepted. All the while each level holds as many nodes as the size of the tree calls
for, even where a plan that was made of one tree is applied to another of the same size. So no
lookup on the way fails, and a question is answered unless it is out of range.
-/

namespace VerifiableLog.Merkle

/-! ### Shape -/

/-- There is a level for each height at which the tree has a complete subtree, and it holds all of
them. -/
structure Accumulator.Shaped (tree : Accumulator) : Prop where
  level_iff : ∀ level, level < tree.levels.size ↔ 0 < tree.size >>> level
  size_eq : ∀ level nodes, tree.levels[level]? = some nodes → nodes.size = tree.size >>> level

theorem Halving.map_size_getElem? {count : Nat} {levels : List (Array Digest)}
    (halving : Halving count levels) (level : Nat) :
    levels[level]?.map Array.size =
      if 0 < count >>> level then some (count >>> level) else none := by
  induction level generalizing count levels with
  | zero =>
      cases levels with
      | nil =>
          rw [Halving] at halving
          simp [halving]
      | cons nodes above => simp [halving.1, halving.2.1]
  | succ level ih =>
      cases levels with
      | nil =>
          rw [Halving] at halving
          simp [halving]
      | cons nodes above =>
          rw [List.getElem?_cons_succ, ih halving.2.2, Nat.shiftRight_succ_inside]

theorem Accumulator.Complete.shaped {tree : Accumulator} (complete : tree.Complete) :
    tree.Shaped where
  level_iff := by
    intro level
    have sizes := Halving.map_size_getElem? complete level
    by_cases present : level < tree.levels.toList.length
    · rw [List.getElem?_eq_getElem present] at sizes
      by_cases positive : 0 < tree.size >>> level
      · simpa [positive] using present
      · simp [positive] at sizes
    · rw [List.getElem?_eq_none (by omega)] at sizes
      by_cases positive : 0 < tree.size >>> level
      · simp [positive] at sizes
      · simpa [positive] using present
  size_eq := by
    intro level nodes found
    have sizes := Halving.map_size_getElem? complete level
    rw [Array.getElem?_toList, found] at sizes
    by_cases positive : 0 < tree.size >>> level
    · simpa [positive] using sizes
    · simp [positive] at sizes

/-! ### Plans of another tree -/

/-- A frontier of a tree with this many leaves, whatever its hashes: a subtree waits on each level
of which the count is odd. -/
def Frontier.Awaits : Nat → Frontier → Prop
  | count, [] => count = 0
  | count, slot :: above =>
    0 < count ∧ (slot.isSome = true ↔ count % 2 = 1) ∧ Awaits (count / 2) above

theorem Halving.awaits {count : Nat} {levels : List (Array Digest)}
    (halving : Halving count levels) : Frontier.Awaits count (levels.map waiting) := by
  induction levels generalizing count with
  | nil => exact halving
  | cons nodes above ih =>
      obtain ⟨positive, size, rest⟩ := halving
      refine ⟨positive, ?_, ih rest⟩
      rw [waiting_eq size]
      by_cases odd : count % 2 = 1
      · simp [odd, show count - 1 < nodes.size by omega]
      · simp [odd]

theorem Frontier.Awaits.length_le {count bits : Nat} {frontier : Frontier}
    (awaits : frontier.Awaits count) (fits : count < 2 ^ bits) : frontier.length ≤ bits := by
  induction bits generalizing count frontier with
  | zero =>
      cases frontier with
      | nil => exact Nat.zero_le 0
      | cons slot above =>
          have positive := awaits.1
          omega
  | succ bits ih =>
      cases frontier with
      | nil => exact Nat.zero_le _
      | cons slot above =>
          rw [Nat.pow_succ] at fits
          exact Nat.succ_le_succ (ih awaits.2.2 (by omega))

theorem Frontier.Awaits.carry {count : Nat} {frontier : Frontier}
    (awaits : frontier.Awaits count) (level index : Nat) (hash : Digest) :
    (frontier.carry level index hash).2.Awaits (count + 1) := by
  induction frontier generalizing count level index hash with
  | nil =>
      obtain rfl : count = 0 := awaits
      exact ⟨Nat.one_pos, by simp, rfl⟩
  | cons slot above ih =>
      obtain ⟨positive, odd_iff, rest⟩ := awaits
      cases slot with
      | none =>
          have even : count % 2 ≠ 1 := by simpa using odd_iff
          refine ⟨by omega, by simp; omega, ?_⟩
          rwa [show (count + 1) / 2 = count / 2 by omega]
      | some left =>
          have odd : count % 2 = 1 := by simpa using odd_iff
          refine ⟨by omega, by simp; omega, ?_⟩
          rw [show (count + 1) / 2 = count / 2 + 1 by omega]
          exact ih rest (level + 1) (index / 2) (hashChildren left hash)

theorem carry_places_awaited {frontier : Frontier} {below above : List (Array Digest)}
    {index : Nat} (hash : Digest) (awaits : frontier.Awaits index) (halving : Halving index above)
    (indexFits : index < 2 ^ 64) (fits : below.length + above.length < 256) :
    ∃ grown, (frontier.carry below.length index hash).1.foldlM Accumulator.placeSorted
        (below ++ above).toArray = .ok (below ++ grown).toArray ∧ Halving (index + 1) grown := by
  -- The frontier and the levels may be of different trees. Both are gone through together, and an
  -- odd level, where a subtree waits to be joined, is odd in both.
  induction frontier generalizing below above index hash with
  | nil =>
      obtain rfl : index = 0 := awaits
      cases above with
      | nil =>
          have placed := placeSorted_on_top (show below.length < 256 by simpa using fits) hash
          refine ⟨[#[hash]], ?_, Nat.one_pos, rfl, rfl⟩
          simpa [Frontier.carry] using placed
      | cons nodes above => exact absurd halving.1 (by omega)
  | cons slot frontier ih =>
      obtain ⟨positive, odd_iff, waitsAbove⟩ := awaits
      cases above with
      | nil =>
          rw [Halving] at halving
          omega
      | cons nodes above =>
          obtain ⟨-, rfl, rest⟩ := halving
          simp only [List.length_cons] at fits
          have placed := placeSorted_inside (show below.length < 256 by omega) indexFits above hash
          cases slot with
          | none =>
              have even : nodes.size % 2 ≠ 1 := by simpa using odd_iff
              refine ⟨nodes.push hash :: above, ?_, by omega, by simp, ?_⟩
              · simpa [Frontier.carry] using placed
              · rwa [show (nodes.size + 1) / 2 = nodes.size / 2 by omega]
          | some left =>
              have odd : nodes.size % 2 = 1 := by simpa using odd_iff
              obtain ⟨grown, placedAbove, grownHalving⟩ :=
                @ih (below ++ [nodes.push hash]) above (nodes.size / 2) (hashChildren left hash)
                  waitsAbove rest (by omega)
                  (by simp only [List.length_append, List.length_singleton]; omega)
              simp only [List.length_append, List.length_singleton, List.append_assoc,
                List.singleton_append] at placedAbove
              refine ⟨nodes.push hash :: grown, ?_, by omega, by simp, ?_⟩
              · simp only [Frontier.carry, List.foldlM_cons, placed]
                exact placedAbove
              · rwa [show (nodes.size + 1) / 2 = nodes.size / 2 + 1 by omega]

theorem extend_places_awaited {frontier : Frontier} {levels : List (Array Digest)} {index : Nat}
    (leaves : List Digest) (awaits : frontier.Awaits index) (halving : Halving index levels)
    (fits : index + leaves.length < 2 ^ 64) :
    ∃ grown, (frontier.extend index leaves).foldlM Accumulator.placeSorted levels.toArray =
        .ok grown.toArray ∧ Halving (index + leaves.length) grown := by
  induction leaves generalizing frontier levels index with
  | nil => exact ⟨levels, rfl, halving⟩
  | cons leaf leaves ih =>
      simp only [List.length_cons] at fits
      have levelsFit := halving.length_le (show index < 2 ^ 64 by omega)
      obtain ⟨grown, placed, grownHalving⟩ := @carry_places_awaited frontier [] levels
        index leaf awaits halving (by omega) (by simp only [List.length_nil]; omega)
      simp only [List.length_nil, List.nil_append] at placed
      obtain ⟨whole, placedRest, wholeHalving⟩ :=
        ih (awaits.carry 0 index leaf) grownHalving (by omega)
      refine ⟨whole, ?_, ?_⟩
      · simp only [Frontier.extend, List.foldlM_append, placed]
        exact placedRest
      · rwa [List.length_cons, Nat.add_comm leaves.length 1, ← Nat.add_assoc]

namespace Accumulator

theorem Complete.places_plan {tree planned : Accumulator} (complete : tree.Complete)
    (plannedComplete : planned.Complete) (sameSize : planned.size = tree.size)
    {leaves : List Digest} (fits : tree.size + leaves.length < 2 ^ 64) :
    ∃ grown : Accumulator,
      (planned.planAppend leaves).nodes.foldlM placeSorted tree.levels = .ok grown.levels ∧
        grown.Complete ∧ grown.size = tree.size + leaves.length := by
  have awaits := Halving.awaits plannedComplete
  rw [sameSize] at awaits
  obtain ⟨grown, placed, halving⟩ := extend_places_awaited leaves awaits complete fits
  refine ⟨⟨grown.toArray⟩, ?_, halving.complete.2, halving.complete.1⟩
  rw [planAppend, sameSize]
  exact placed

theorem insertNode_of_placeSorted {levels after : Array (Array Digest)}
    {entry : NodeAddress × Digest} (placed : placeSorted levels entry = .ok after) :
    insertNode levels entry = after := by
  simp only [placeSorted] at placed
  split at placed
  · simp at placed
  · split at placed
    · simp at placed
    · exact Except.ok.inj placed

theorem insertNodes_of_placed {nodes : List (NodeAddress × Digest)} {tree grown : Accumulator}
    (placed : nodes.foldlM placeSorted tree.levels = .ok grown.levels) :
    tree.insertNodes nodes = grown := by
  obtain ⟨levels⟩ := tree
  obtain ⟨after⟩ := grown
  simp only [insertNodes, mk.injEq] at placed ⊢
  induction nodes generalizing levels with
  | nil => exact Except.ok.inj placed
  | cons entry nodes ih =>
      cases first : placeSorted levels entry with
      | error fault => simp [first, bind, Except.bind] at placed
      | ok next =>
          simp only [List.foldlM_cons, first, bind, Except.bind] at placed
          rw [List.foldl_cons, insertNode_of_placeSorted first]
          exact ih next placed

end Accumulator

end VerifiableLog.Merkle
