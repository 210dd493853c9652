import Mathlib.Data.List.Perm.Subperm
import VerifiableLog.Proofs.Merkle.Rebuild
import VerifiableLog.Proofs.Merkle.Workbench

/-!
What a rebuild accepts. A list of nodes is taken, whatever its order, exactly if it has one node for
each complete subtree of a tree of some size, and no other. Nothing else passes the three checks
together, on the places of the sorted nodes, on the counts of neighbouring levels and on the top.
The tree that comes of it has the listed hashes, so that the nodes of a tree, in any order, give
back the tree.
-/

namespace VerifiableLog.Merkle

def leafAddress (index : Nat) : NodeAddress := ⟨0, UInt64.ofNat index⟩

theorem index_leafAddress {index : Nat} (fits : index < 2 ^ 64) :
    (leafAddress index).index.toNat = index :=
  UInt64.toNat_ofNat_of_lt' fits

theorem nodup_leafAddresses {count : Nat} (fits : count ≤ 2 ^ 64) :
    ((List.range count).map leafAddress).Nodup := by
  apply List.Nodup.map_on _ List.nodup_range
  intro first firstInside second secondInside same
  rw [List.mem_range] at firstInside secondInside
  have indices := congrArg (fun address => address.index.toNat) same
  rwa [index_leafAddress (by omega), index_leafAddress (by omega)] at indices

theorem Covers.leafAddress_mem {nodes : List (NodeAddress × Digest)} {size index : Nat}
    (covers : Covers nodes size) (inside : index < size) (fits : index < 2 ^ 64) :
    leafAddress index ∈ nodes.map Prod.fst := by
  rw [covers.addresses, index_leafAddress fits]
  exact inside

/-- A covered size has a leaf at each word of 64 bits below it, and all of them are listed. -/
theorem Covers.size_le_length {nodes : List (NodeAddress × Digest)} {size : Nat}
    (covers : Covers nodes size) : min size (2 ^ 64) ≤ nodes.length := by
  have distinct : ((List.range (min size (2 ^ 64))).map leafAddress).Nodup :=
    nodup_leafAddresses (Nat.min_le_right _ _)
  have listed : (List.range (min size (2 ^ 64))).map leafAddress ⊆ nodes.map Prod.fst := by
    intro address member
    obtain ⟨index, inside, rfl⟩ := List.mem_map.mp member
    rw [List.mem_range] at inside
    exact covers.leafAddress_mem (by omega) (by omega)
  simpa using (distinct.subperm listed).length_le

theorem Covers.size_lt {nodes : List (NodeAddress × Digest)} {size bound : Nat}
    (covers : Covers nodes size) (fits : nodes.length < bound) (small : bound ≤ 2 ^ 64) :
    size < bound := by
  have counted := covers.size_le_length
  omega

namespace Accumulator

theorem size_le_length_nodes (tree : Accumulator) : tree.size ≤ tree.nodes.length := by
  rw [nodes_eq_levelEntries]
  obtain ⟨⟨levels⟩⟩ := tree
  cases levels with
  | nil => exact Nat.zero_le _
  | cons leaves above => simp [size, levelEntries, rowEntries_eq_map_zipIdx]

theorem mapError_cases {Cause Fault α : Type} (wrap : Cause → Fault) (result : Except Cause α) :
    (∃ value, result.mapError wrap = .ok value) ∨
      ∃ cause, result.mapError wrap = .error (wrap cause) := by
  cases result with
  | ok value => exact .inl ⟨value, rfl⟩
  | error cause => exact .inr ⟨cause, rfl⟩

theorem ofNodes_cases (nodes : List (NodeAddress × Digest)) :
    (∃ tree, ofNodes nodes = .ok tree) ∨ ∃ fault, ofNodes nodes = .error (.corruptNodes fault) :=
  mapError_cases MerkleError.corruptNodes _

theorem covers_of_ofNodes {nodes : List (NodeAddress × Digest)} {tree : Accumulator}
    (accepted : ofNodes nodes = .ok tree) (fits : nodes.length < 2 ^ 64) :
    Covers nodes tree.size := by
  obtain ⟨complete, same⟩ := complete_of_ofNodes accepted
  have counted := tree.size_le_length_nodes
  rw [← same.length_eq] at counted
  exact complete.covers (by omega) same

theorem ofNodes_of_covers {nodes : List (NodeAddress × Digest)} {size : Nat}
    (covers : Covers nodes size) (fits : size < 2 ^ 64) :
    ∃ tree, ofNodes nodes = .ok tree ∧ tree.size = size ∧
      ∀ (address : NodeAddress) (hash : Digest),
        tree.node? address.level.toNat address.index.toNat = some hash ↔
          (address, hash) ∈ nodes := by
  obtain ⟨tree, complete, rfl, same⟩ := covers.complete fits
  refine ⟨tree, complete.ofNodes_of_perm fits same, rfl, ?_⟩
  intro address hash
  rw [same.mem_iff, complete.mem_nodes_iff fits]

/-- Half the words of 64 bits count the nodes of the list. It is taken if and only if it covers some
size, and the tree then has that size and those nodes; otherwise it is found corrupt. The nodes of a
tree that any run has come to, in any order, give back the tree. -/
theorem ofNodes_exact (nodes : List (NodeAddress × Digest)) (fits : nodes.length < 2 ^ 63) :
    ((∃ tree, ofNodes nodes = .ok tree) ↔ ∃ size, Covers nodes size) ∧
      (∀ size tree, Covers nodes size → ofNodes nodes = .ok tree →
        tree.size = size ∧ ∀ (address : NodeAddress) (hash : Digest),
          tree.node? address.level.toNat address.index.toNat = some hash ↔
            (address, hash) ∈ nodes) ∧
      ((¬∃ size, Covers nodes size) → ∃ fault, ofNodes nodes = .error (.corruptNodes fault)) ∧
      ∀ acts : List Act, (∀ act ∈ acts, act.Fits) →
        (∀ before, before <+: acts → (Workbench.run before).tree.size < 2 ^ 63) →
        nodes.Perm (Workbench.run acts).tree.nodes →
        ofNodes nodes = .ok (Workbench.run acts).tree := by
  have covered {size : Nat} (covers : Covers nodes size) :=
    ofNodes_of_covers covers (Nat.lt_trans (covers.size_lt fits (by omega)) (by omega))
  have accepted_iff : (∃ tree, ofNodes nodes = .ok tree) ↔ ∃ size, Covers nodes size := by
    constructor
    · rintro ⟨tree, accepted⟩
      exact ⟨tree.size, covers_of_ofNodes accepted (by omega)⟩
    · rintro ⟨size, covers⟩
      obtain ⟨tree, accepted, -⟩ := covered covers
      exact ⟨tree, accepted⟩
  refine ⟨accepted_iff, ?_, ?_, ?_⟩
  · intro size tree covers accepted
    obtain ⟨rebuilt, taken, holds⟩ := covered covers
    rw [accepted] at taken
    obtain rfl := Except.ok.inj taken
    exact holds
  · intro uncovered
    exact (ofNodes_cases nodes).resolve_left (mt accepted_iff.mp uncovered)
  · intro acts actsFit short same
    have complete := (Workbench.run_sound actsFit short).2.complete
    have size := short acts (List.prefix_refl acts)
    exact complete.ofNodes_of_perm (by omega) same

theorem ofNodes_exact_lastFirst :
    let acts : List Act := [.extend [hashLeaf [1]], .plan [hashLeaf [2], hashLeaf [3]], .apply 0]
    let nodes : List (NodeAddress × Digest) :=
      [(⟨1, 0⟩, hashChildren (hashLeaf [1]) (hashLeaf [2])), (⟨0, 2⟩, hashLeaf [3]),
        (⟨0, 1⟩, hashLeaf [2]), (⟨0, 0⟩, hashLeaf [1])]
    ofNodes nodes = .ok (Workbench.run acts).tree ∧ (∃ size, Covers nodes size) ∧
      (Workbench.run acts).tree.node? 1 0 = some (hashChildren (hashLeaf [1]) (hashLeaf [2])) ∧
      ∃ fault, ofNodes [(⟨0, 1⟩, hashLeaf [2]), (⟨0, 0⟩, hashLeaf [1])] =
        .error (.corruptNodes fault) := by
  intro acts nodes
  have listed (first second third : Digest) :
      (Workbench.run [.extend [first], .plan [second, third], .apply 0]).tree.nodes.reverse =
        [(⟨1, 0⟩, hashChildren first second), (⟨0, 2⟩, third), (⟨0, 1⟩, second),
          (⟨0, 0⟩, first)] := by
    simp [Workbench.run, Workbench.act, apply, extend, planAppend, insertNodes, insertNode, empty,
      Accumulator.size, frontier, Frontier.extend, Frontier.carry, Accumulator.nodes]
  have same := List.reverse_perm (Workbench.run acts).tree.nodes
  rw [listed] at same
  have short : ∀ before ∈ acts.inits, (Workbench.run before).tree.size < 2 ^ 63 := by
    decide +kernel
  obtain ⟨accepted_iff, holds, -, back⟩ := ofNodes_exact nodes (by simp [nodes])
  have accepted := back acts (by simp [acts, Act.Fits])
    (fun before earlier => short before ((List.mem_inits before acts).mpr earlier)) same
  obtain ⟨size, covers⟩ := accepted_iff.mp ⟨_, accepted⟩
  refine ⟨accepted, ⟨size, covers⟩, ?_, ?_⟩
  · exact ((holds size _ covers accepted).2 ⟨1, 0⟩ _).mpr (by simp [nodes])
  · apply (ofNodes_exact [(⟨0, 1⟩, hashLeaf [2]), (⟨0, 0⟩, hashLeaf [1])] (by simp)).2.2.1
    rintro ⟨size, covers⟩
    have second := (covers.addresses ⟨0, 1⟩).mp (by simp)
    have two : 2 ≤ size := second
    have parent := (covers.addresses ⟨1, 0⟩).mpr (by
      show 0 < size >>> 1
      rw [Nat.shiftRight_succ_inside]
      show 0 < size / 2
      omega)
    simp at parent

end Accumulator

end VerifiableLog.Merkle
