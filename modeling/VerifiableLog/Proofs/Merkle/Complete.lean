import VerifiableLog.Merkle.Proof
import VerifiableLog.Proofs.Merkle.Lookup
import VerifiableLog.Proofs.Merkle.Rebuild

/-!
Complete trees lack nothing. Whatever is asked of a tree within its size, every node that the answer
is made of is there; and when leaves are appended, every left sibling that a parent needs is there,
every new node comes to lie right behind the others of its level, and the tree that comes of it is
complete again. None of this depends on what the hashes are.
-/

namespace VerifiableLog.Merkle

namespace Accumulator

/-! ### Reading -/

theorem Complete.exists_node {tree : Accumulator} (complete : tree.Complete) {level index : Nat}
    (within : (index + 1) * 2 ^ level ≤ tree.size) :
    ∃ hash, tree.node? level index = some hash := by
  rw [← Option.isSome_iff_exists, complete.isSome_node?_iff, Nat.shiftRight_eq_div_pow]
  exact (Nat.le_div_iff_mul_le (Nat.two_pow_pos level)).mpr within

theorem Complete.exists_rangeHash {tree : Accumulator} (complete : tree.Complete)
    {start stop : Nat} (ordered : start ≤ stop) (within : stop ≤ tree.size) :
    ∃ hash, tree.rangeHash start stop = .ok hash := by
  rw [exists_rangeHash_iff]
  intro place member
  exact complete.exists_node (Nat.le_trans (within_of_mem_lookups ordered member) within)

theorem Complete.exists_sides {tree : Accumulator} (complete : tree.Complete) {start stop : Nat}
    (several : 2 ≤ stop - start) (within : stop ≤ tree.size) :
    ∃ left right, tree.rangeHash start (start + splitPoint (stop - start)) = .ok left ∧
      tree.rangeHash (start + splitPoint (stop - start)) stop = .ok right := by
  have bound := splitPoint_lt several
  have inside : start + splitPoint (stop - start) ≤ stop := by omega
  obtain ⟨left, leftFound⟩ := complete.exists_rangeHash
    (Nat.le_add_right start (splitPoint (stop - start))) (Nat.le_trans inside within)
  obtain ⟨right, rightFound⟩ := complete.exists_rangeHash inside within
  exact ⟨left, right, leftFound, rightFound⟩

theorem Complete.exists_root {tree : Accumulator} (complete : tree.Complete) {treeSize : Nat}
    (reached : treeSize ≤ tree.size) : ∃ hash, tree.root treeSize = .ok hash := by
  obtain ⟨hash, found⟩ := complete.exists_rangeHash (Nat.zero_le treeSize) reached
  rw [root, checkSize, if_neg (by omega)]
  exact ⟨hash, found⟩

theorem Complete.exists_currentRoot {tree : Accumulator} (complete : tree.Complete) :
    ∃ hash, tree.currentRoot = .ok hash :=
  complete.exists_rangeHash (Nat.zero_le tree.size) (Nat.le_refl _)

theorem Complete.exists_auditPath {tree : Accumulator} (complete : tree.Complete) (index : Nat)
    {start stop : Nat} (ordered : start ≤ stop) (within : stop ≤ tree.size) :
    ∃ path, tree.auditPath index start stop = .ok path := by
  generalize countEq : stop - start = count
  induction count using Nat.strongRecOn generalizing start stop with
  | ind count ih =>
      rw [auditPath]
      by_cases several : 2 ≤ stop - start
      · have bound := splitPoint_lt several
        have positive := splitPoint_pos (stop - start)
        obtain ⟨left, right, leftFound, rightFound⟩ := complete.exists_sides several within
        simp only [dif_pos several]
        split
        · obtain ⟨path, found⟩ := @ih (splitPoint (stop - start)) (by omega) start
            (start + splitPoint (stop - start)) (by omega) (by omega) (by omega)
          rw [found, rightFound]
          exact ⟨_, rfl⟩
        · obtain ⟨path, found⟩ := @ih (stop - (start + splitPoint (stop - start))) (by omega)
            (start + splitPoint (stop - start)) stop (by omega) within rfl
          rw [found, leftFound]
          exact ⟨_, rfl⟩
      · exact ⟨[], dif_neg several⟩

theorem Complete.exists_subproof {tree : Accumulator} (complete : tree.Complete)
    {known start stop : Nat} (isEarlierTree : Bool) (inhabited : 0 < known)
    (ordered : known ≤ stop - start) (within : stop ≤ tree.size) :
    ∃ path, tree.subproof known start stop isEarlierTree = .ok path := by
  generalize countEq : stop - start = count
  induction count using Nat.strongRecOn generalizing known start stop isEarlierTree with
  | ind count ih =>
      rw [subproof]
      by_cases all : known = stop - start
      · obtain ⟨hash, found⟩ := complete.exists_rangeHash (show start ≤ stop by omega) within
        rw [if_pos all, found]
        cases isEarlierTree <;> exact ⟨_, rfl⟩
      · have several : 2 ≤ stop - start := by omega
        have bound := splitPoint_lt several
        have positive := splitPoint_pos (stop - start)
        obtain ⟨left, right, leftFound, rightFound⟩ := complete.exists_sides several within
        rw [if_neg all]
        simp only [dif_pos several]
        split
        · obtain ⟨path, found⟩ := @ih (splitPoint (stop - start)) (by omega) known start
            (start + splitPoint (stop - start)) isEarlierTree inhabited (by omega) (by omega)
            (by omega)
          rw [found, rightFound]
          exact ⟨_, rfl⟩
        · obtain ⟨path, found⟩ := @ih (stop - (start + splitPoint (stop - start))) (by omega)
            (known - splitPoint (stop - start)) (start + splitPoint (stop - start)) stop false
            (by omega) (by omega) within rfl
          rw [found, leftFound]
          exact ⟨_, rfl⟩

theorem Complete.exists_inclusionPath {tree : Accumulator} (complete : tree.Complete)
    {index treeSize : Nat} (inside : index < treeSize) (reached : treeSize ≤ tree.size) :
    ∃ path, tree.inclusionPath index treeSize = .ok path := by
  obtain ⟨path, found⟩ := complete.exists_auditPath index (Nat.zero_le treeSize) reached
  rw [inclusionPath, checkSize, if_neg (by omega), if_neg (by omega)]
  exact ⟨path, found⟩

theorem Complete.exists_consistencyPath {tree : Accumulator} (complete : tree.Complete)
    {first second : Nat} (ordered : first ≤ second) (reached : second ≤ tree.size) :
    ∃ path, tree.consistencyPath first second = .ok path := by
  rw [consistencyPath, checkSize, if_neg (by omega), if_neg (by omega)]
  by_cases trivial : first = 0 ∨ first = second
  · rw [if_pos trivial]
    exact ⟨[], rfl⟩
  · obtain ⟨path, found⟩ := complete.exists_subproof true (show 0 < first by omega)
      (show first ≤ second - 0 by omega) reached
    rw [if_neg trivial]
    exact ⟨path, found⟩

end Accumulator

/-! ### Growing -/

theorem waiting_eq {nodes : Array Digest} {index : Nat} (size : nodes.size = index) :
    waiting nodes = if index % 2 = 1 then nodes[index - 1]? else none := by
  rw [waiting, size, Array.back?_eq_getElem?, size]

theorem Halving.raise {count : Nat} {levels : List (Array Digest)}
    (halving : Halving count levels) (hash : Digest) :
    Halving (count + 1) (raise hash levels) := by
  induction levels generalizing count hash with
  | nil =>
      obtain rfl : count = 0 := halving
      exact ⟨Nat.one_pos, rfl, rfl⟩
  | cons nodes above ih =>
      obtain ⟨positive, size, rest⟩ := halving
      refine ⟨by omega, by simpa using size, ?_⟩
      rw [waiting_eq size]
      by_cases odd : count % 2 = 1
      · have parents := ih rest (hashChildren nodes[count - 1] hash)
        rw [show count / 2 + 1 = (count + 1) / 2 by omega] at parents
        simpa [odd, show count - 1 < nodes.size by omega] using parents
      · rw [show count / 2 = (count + 1) / 2 by omega] at rest
        simpa [odd] using rest

theorem Halving.foldl_raise {count : Nat} {levels : List (Array Digest)}
    (halving : Halving count levels) (leaves : List Digest) :
    Halving (count + leaves.length)
      (leaves.foldl (fun levels leaf => Merkle.raise leaf levels) levels) := by
  induction leaves generalizing count levels with
  | nil => exact halving
  | cons leaf leaves ih =>
      have grown := ih (halving.raise leaf)
      rwa [Nat.add_assoc, Nat.add_comm 1] at grown

theorem carry_places {below above : List (Array Digest)} {index : Nat} (hash : Digest)
    (halving : Halving index above) (indexFits : index < 2 ^ 64)
    (fits : below.length + (raise hash above).length ≤ 256) :
    (Frontier.carry below.length index hash (above.map waiting)).1.foldlM Accumulator.placeSorted
        (below ++ above).toArray = .ok (below ++ raise hash above).toArray := by
  induction above generalizing below index hash with
  | nil =>
      obtain rfl : index = 0 := halving
      simp only [raise, List.length_singleton] at fits
      have placed := placeSorted_on_top (show below.length < 256 by omega) hash
      simpa [Frontier.carry, raise] using placed
  | cons nodes above ih =>
      obtain ⟨-, rfl, rest⟩ := halving
      simp only [raise, List.length_cons] at fits
      have placed := placeSorted_inside (show below.length < 256 by omega) indexFits above hash
      cases waits : waiting nodes with
      | none =>
          simp [waits, Frontier.carry, raise, placed]
      | some left =>
          simp only [waits] at fits
          have above := @ih (below ++ [nodes.push hash]) (nodes.size / 2) (hashChildren left hash)
            rest (by omega) (by simp only [List.length_append, List.length_singleton]; omega)
          simp only [List.length_append, List.length_singleton, List.append_assoc,
            List.singleton_append] at above
          simp only [List.map_cons, waits, Frontier.carry, raise, List.foldlM_cons, placed]
          exact above

theorem extend_places {levels : List (Array Digest)} {index : Nat} (leaves : List Digest)
    (halving : Halving index levels) (fits : index + leaves.length < 2 ^ 64) :
    (Frontier.extend index (levels.map waiting) leaves).foldlM Accumulator.placeSorted
        levels.toArray =
      .ok (leaves.foldl (fun levels leaf => raise leaf levels) levels).toArray := by
  induction leaves generalizing levels index with
  | nil => rfl
  | cons leaf leaves ih =>
      simp only [List.length_cons] at fits
      have grown := halving.raise leaf
      have levelsFit := grown.length_le (show index + 1 < 2 ^ 64 by omega)
      have placed := @carry_places [] levels index leaf halving (by omega)
        (by simp only [List.length_nil]; omega)
      have frontier := (carry_eq_raise [] levels index leaf
        (by simp only [List.length_nil]; omega)).2
      simp only [List.length_nil, List.nil_append] at placed frontier
      simp only [Frontier.extend, frontier, List.foldlM_append, placed, List.foldl_cons]
      exact ih grown (by omega)

namespace Accumulator

theorem Complete.extend_eq {tree : Accumulator} (complete : tree.Complete) {leaves : List Digest}
    (fits : tree.size + leaves.length < 2 ^ 256) :
    tree.extend leaves =
      ⟨(leaves.foldl (fun levels leaf => raise leaf levels) tree.levels.toList).toArray⟩ := by
  have levelsFit := Halving.length_le (Halving.foldl_raise complete leaves) fits
  exact congrArg Accumulator.mk
    (extend_eq_foldl_raise tree.levels.toList tree.size leaves levelsFit)

theorem Complete.extend {tree : Accumulator} (complete : tree.Complete) {leaves : List Digest}
    (fits : tree.size + leaves.length < 2 ^ 256) :
    (tree.extend leaves).Complete ∧ (tree.extend leaves).size = tree.size + leaves.length := by
  rw [complete.extend_eq fits]
  exact (Halving.foldl_raise complete leaves).complete.symm

theorem size_le_size_insertNode (levels : Array (Array Digest)) (entry : NodeAddress × Digest) :
    (Accumulator.mk levels).size ≤ (Accumulator.mk (insertNode levels entry)).size := by
  obtain ⟨levels⟩ := levels
  cases levels with
  | nil => exact Nat.zero_le _
  | cons leaves above =>
      simp only [size, insertNode]
      split
      · simp
      · by_cases onLeaves : entry.1.level.toNat = 0 <;> simp [onLeaves]

theorem size_le_size_insertNodes (tree : Accumulator) (nodes : List (NodeAddress × Digest)) :
    tree.size ≤ (tree.insertNodes nodes).size := by
  rw [insertNodes]
  obtain ⟨levels⟩ := tree
  induction nodes generalizing levels with
  | nil => exact Nat.le_refl _
  | cons entry nodes ih =>
      exact Nat.le_trans (size_le_size_insertNode levels entry) (ih (insertNode levels entry))

/-- The nodes of a plan, placed as strictly as those of a store, make the tree that comes of it. -/
theorem Complete.places {tree : Accumulator} (complete : tree.Complete) {leaves : List Digest}
    (fits : tree.size + leaves.length < 2 ^ 64) :
    (tree.planAppend leaves).nodes.foldlM placeSorted tree.levels =
      .ok (tree.extend leaves).levels := by
  rw [complete.extend_eq (by omega)]
  exact extend_places leaves complete fits

/-! ### Looking for the left sibling -/

/-- The left sibling of a node to come, from the tree or from what has been planned so far. -/
def sibling? (tree : Accumulator) (planned : List (NodeAddress × Digest)) (level index : Nat) :
    Option Digest :=
  (tree.node? level (index - 1)).or (hashAt? planned level (index - 1))

def climb? (tree : Accumulator) (planned : List (NodeAddress × Digest)) (level index : Nat)
    (hash : Digest) : Option (List (NodeAddress × Digest)) :=
  let planned := planned ++ [(⟨UInt8.ofNat level, UInt64.ofNat index⟩, hash)]
  if _ : index % 2 = 1 then do
    let left ← tree.sibling? planned level index
    tree.climb? planned (level + 1) (index / 2) (hashChildren left hash)
  else some planned
termination_by index

def climbAll? (tree : Accumulator) (planned : List (NodeAddress × Digest)) (index : Nat) :
    List Digest → Option (List (NodeAddress × Digest))
  | [] => some planned
  | leaf :: leaves => do
    let planned ← tree.climb? planned 0 index leaf
    tree.climbAll? planned (index + 1) leaves

def Knows (tree : Accumulator) (planned : List (NodeAddress × Digest)) (level : Nat)
    (levels : List (Array Digest)) : Prop :=
  ∀ above index, level + above < 256 → index < 2 ^ 64 →
    (tree.node? (level + above) index).or (hashAt? planned (level + above) index) =
      levels[above]?.bind fun nodes => nodes[index]?

theorem hashAt?_concat {planned : List (NodeAddress × Digest)} {level index : Nat}
    {entry : NodeAddress × Digest}
    (other : UInt8.ofNat level ≠ entry.1.level ∨ UInt64.ofNat index ≠ entry.1.index) :
    hashAt? (planned ++ [entry]) level index = hashAt? planned level index := by
  have different : (⟨UInt8.ofNat level, UInt64.ofNat index⟩ : NodeAddress) ≠ entry.1 := by
    intro same
    simp [← same] at other
  rw [hashAt?, hashAt?, List.lookup_append, List.lookup_cons, beq_eq_false_iff_ne.mpr different]
  simp

theorem Knows.concat {tree : Accumulator} {planned : List (NodeAddress × Digest)} {level : Nat}
    {nodes : Array Digest} {above : List (Array Digest)}
    (knows : tree.Knows planned level (nodes :: above)) (index : UInt64) (hash : Digest) :
    tree.Knows (planned ++ [(⟨UInt8.ofNat level, index⟩, hash)]) (level + 1) above := by
  intro higher place levelFits placeFits
  have known := knows (higher + 1) place (by omega) placeFits
  have ownLevel : (UInt8.ofNat level).toNat = level :=
    UInt8.toNat_ofNat_of_lt' (by show level < 256; omega)
  have otherLevel : (UInt8.ofNat (level + 1 + higher)).toNat = level + 1 + higher :=
    UInt8.toNat_ofNat_of_lt' levelFits
  rw [hashAt?_concat]
  · rwa [List.getElem?_cons_succ, Nat.add_comm higher, ← Nat.add_assoc] at known
  · left
    intro same
    have values := congrArg UInt8.toNat same
    simp only [ownLevel, otherLevel] at values
    omega

theorem climb?_eq_carry {tree : Accumulator} {planned : List (NodeAddress × Digest)}
    {levels : List (Array Digest)} {level index : Nat} (hash : Digest)
    (halving : Halving index levels) (knows : tree.Knows planned level levels)
    (indexFits : index < 2 ^ 64) (fits : level + levels.length < 256) :
    tree.climb? planned level index hash =
      some (planned ++ (Frontier.carry level index hash (levels.map waiting)).1) := by
  induction levels generalizing planned level index hash with
  | nil =>
      obtain rfl : index = 0 := halving
      rw [climb?]
      rfl
  | cons nodes above ih =>
      obtain ⟨positive, size, rest⟩ := halving
      simp only [List.length_cons] at fits
      rw [climb?]
      simp only [List.map_cons, waiting_eq size]
      by_cases odd : index % 2 = 1
      · have known := knows 0 (index - 1) (by omega) (by omega)
        have ownIndex : (UInt64.ofNat index).toNat = index := UInt64.toNat_ofNat_of_lt' indexFits
        have otherIndex : (UInt64.ofNat (index - 1)).toNat = index - 1 :=
          UInt64.toNat_ofNat_of_lt' (by show index - 1 < 2 ^ 64; omega)
        have behind : UInt64.ofNat (index - 1) ≠ UInt64.ofNat index := by
          intro same
          have values := congrArg UInt64.toNat same
          omega
        have inside : index - 1 < nodes.size := by omega
        have sibling : tree.sibling? (planned ++
            [(⟨UInt8.ofNat level, UInt64.ofNat index⟩, hash)]) level index =
              some nodes[index - 1] := by
          rw [sibling?, hashAt?_concat (.inr behind)]
          simpa [inside] using known
        have climbed := ih (hashChildren nodes[index - 1] hash) rest
          (knows.concat (UInt64.ofNat index) hash) (by omega) (by omega)
        simp [odd, sibling, climbed, Frontier.carry, inside]
      · simp [odd, Frontier.carry]

theorem knows_of_perm {tree : Accumulator} {planned : List (NodeAddress × Digest)}
    {levels : List (Array Digest)} {index : Nat} (complete : tree.Complete)
    (fits : tree.size < 2 ^ 64) (halving : Halving index levels) (indexFits : index < 2 ^ 64)
    (same : (tree.nodes ++ planned).Perm (levelEntries 0 levels)) :
    tree.Knows planned 0 levels := by
  obtain ⟨size, grown⟩ := halving.complete
  have all : (tree.nodes ++ planned).Perm (Accumulator.mk levels.toArray).nodes := by
    rwa [nodes_eq_levelEntries ⟨levels.toArray⟩]
  intro level place levelFits placeFits
  rw [Nat.zero_add] at levelFits ⊢
  have known := grown.hashAt?_eq (by omega) all levelFits placeFits
  rw [node?_eq] at known
  rw [← complete.hashAt?_eq fits (List.Perm.refl _) levelFits placeFits, ← known]
  exact List.lookup_append.symm

theorem climbAll?_eq_extend {tree : Accumulator} {planned : List (NodeAddress × Digest)}
    {levels : List (Array Digest)} {index : Nat} (complete : tree.Complete)
    (treeFits : tree.size < 2 ^ 64) (leaves : List Digest) (halving : Halving index levels)
    (fits : index + leaves.length < 2 ^ 64)
    (same : (tree.nodes ++ planned).Perm (levelEntries 0 levels)) :
    tree.climbAll? planned index leaves =
      some (planned ++ Frontier.extend index (levels.map waiting) leaves) := by
  induction leaves generalizing planned levels index with
  | nil => simp [climbAll?, Frontier.extend]
  | cons leaf leaves ih =>
      simp only [List.length_cons] at fits
      have knows := knows_of_perm complete treeFits halving (by omega) same
      have levelsFit := halving.length_le (show index < 2 ^ 64 by omega)
      have grown := halving.raise leaf
      have grownFit := grown.length_le (show index + 1 < 2 ^ 64 by omega)
      have frontier := (carry_eq_raise [] levels index leaf
        (by simp only [List.length_nil]; omega)).2
      have carried := (same.append_right _).trans (carry_perm levels 0 index leaf halving)
      rw [List.append_assoc] at carried
      simp only [List.length_nil] at frontier
      simp only [climbAll?, climb?_eq_carry leaf halving knows (by omega) (by omega),
        Option.bind_eq_bind, Option.bind_some, Frontier.extend, frontier,
        ih grown (by omega) carried, List.append_assoc]

/-- Looking for each left sibling where it has to be, in the tree or among the nodes planned before,
never fails, and comes to the same plan. -/
theorem Complete.climbs {tree : Accumulator} (complete : tree.Complete) {leaves : List Digest}
    (fits : tree.size + leaves.length < 2 ^ 64) :
    tree.climbAll? [] tree.size leaves = some (tree.planAppend leaves).nodes := by
  have climbed := climbAll?_eq_extend complete (by omega) leaves complete fits
    (by rw [List.append_nil, nodes_eq_levelEntries])
  rwa [List.nil_append] at climbed

structure Ready (tree : Accumulator) : Prop where
  climbs : ∀ leaves : List Digest, tree.size + leaves.length < 2 ^ 64 →
    tree.climbAll? [] tree.size leaves = some (tree.planAppend leaves).nodes
  places : ∀ leaves : List Digest, tree.size + leaves.length < 2 ^ 64 →
    (tree.planAppend leaves).nodes.foldlM placeSorted tree.levels = .ok (tree.extend leaves).levels

theorem Complete.ready {tree : Accumulator} (complete : tree.Complete) : tree.Ready where
  climbs _ fits := complete.climbs fits
  places _ fits := complete.places fits

end Accumulator

end VerifiableLog.Merkle
