import VerifiableLog.Proofs.Log.Run
import VerifiableLog.Proofs.Record.Kind
import VerifiableLog.Proofs.Store.ReadBack

/-!
The packed form of every kind of value says where it ends, so one value can follow another and no
form is the beginning of another one. What a store on disk writes it reads back unchanged.
-/

namespace VerifiableLog

open Packed (Codec)
open Packed.Codec

/-! ### Each kind -/

theorem NewLeaf.packed_readsBack {leaf : NewLeaf} (storable : leaf.Storable) :
    NewLeaf.packed.ReadsBack leaf := by
  apply mapped_readsBack rfl
  apply pair_readsBack (blob_readsBack storable.1)
  apply optional_readsBack
  intro extra present
  exact blob_readsBack (storable.2 extra present)

theorem Merkle.NodeAddress.packed_readsBack (address : Merkle.NodeAddress) :
    Merkle.NodeAddress.packed.ReadsBack address := by
  apply mapped_readsBack rfl
  exact pair_readsBack (byte_readsBack _) (word_readsBack _)

theorem TreeState.packed_readsBack (state : TreeState) : TreeState.packed.ReadsBack state := by
  apply mapped_readsBack rfl
  exact pair_readsBack (word_readsBack _) (digest_readsBack _)

theorem TreeHead.packed_readsBack (head : TreeHead) : TreeHead.packed.ReadsBack head := by
  apply mapped_readsBack rfl
  apply pair_readsBack (word_readsBack _)
  exact pair_readsBack (word_readsBack _) (digest_readsBack _)

theorem InclusionProof.packed_readsBack {proof : InclusionProof}
    (fits : proof.auditPath.length < 2 ^ 64) : InclusionProof.packed.ReadsBack proof := by
  apply mapped_readsBack rfl
  apply pair_readsBack (word_readsBack _)
  apply pair_readsBack (word_readsBack _)
  exact list_readsBack fits fun hash _ => digest_readsBack hash

theorem ConsistencyProof.packed_readsBack {proof : ConsistencyProof}
    (fits : proof.path.length < 2 ^ 64) : ConsistencyProof.packed.ReadsBack proof := by
  apply mapped_readsBack rfl
  apply pair_readsBack (word_readsBack _)
  apply pair_readsBack (word_readsBack _)
  exact list_readsBack fits fun hash _ => digest_readsBack hash

theorem AppendReceipt.packed_readsBack {receipt : AppendReceipt}
    (fits : receipt.leafIndexes.length < 2 ^ 64) : AppendReceipt.packed.ReadsBack receipt := by
  apply mapped_readsBack rfl
  apply pair_readsBack (word_readsBack _)
  apply pair_readsBack _ (digest_readsBack _)
  exact list_readsBack fits fun index _ => word_readsBack index

/-! ### Any kind -/

namespace ValueKind

def packed : (kind : ValueKind) → Codec kind.Value
  | .digest => Codec.digest
  | .newLeaf => NewLeaf.packed
  | .leafRecord => LeafRecord.packed
  | .nodeAddress => Merkle.NodeAddress.packed
  | .treeState => TreeState.packed
  | .treeHead => TreeHead.packed
  | .signedTreeHead => SignedTreeHead.packed
  | .inclusionProof => InclusionProof.packed
  | .consistencyProof => ConsistencyProof.packed
  | .appendReceipt => AppendReceipt.packed

def Writable : (kind : ValueKind) → kind.Value → Prop
  | .newLeaf, leaf => leaf.Storable
  | .leafRecord, record => record.Storable
  | .signedTreeHead, head => head.signature.length < 2 ^ 64
  | .inclusionProof, proof => proof.auditPath.length < 2 ^ 64
  | .consistencyProof, proof => proof.path.length < 2 ^ 64
  | .appendReceipt, receipt => receipt.leafIndexes.length < 2 ^ 64
  | .digest, _ | .nodeAddress, _ | .treeState, _ | .treeHead, _ => True

theorem packed_readsBack {kind : ValueKind} {value : kind.Value} (writable : kind.Writable value) :
    kind.packed.ReadsBack value := by
  cases kind with
  | digest => exact digest_readsBack value
  | newLeaf => exact NewLeaf.packed_readsBack writable
  | leafRecord => exact LeafRecord.packed_readsBack writable
  | nodeAddress => exact Merkle.NodeAddress.packed_readsBack value
  | treeState => exact TreeState.packed_readsBack value
  | treeHead => exact TreeHead.packed_readsBack value
  | signedTreeHead => exact SignedTreeHead.packed_readsBack writable
  | inclusionProof => exact InclusionProof.packed_readsBack writable
  | consistencyProof => exact ConsistencyProof.packed_readsBack writable
  | appendReceipt => exact AppendReceipt.packed_readsBack writable

/-- Whatever follows the packed form of a value, the value is read and the rest is left; the form of
one value never begins the form of another. A store on disk, whatever its tables hold, finds what is
in a batch that it took and the tree head put into it as they were given. -/
theorem packed_selfDelimiting :
    (∀ (kind : ValueKind) (value : kind.Value), kind.Writable value →
      ∀ rest, kind.packed.read (kind.packed.write value ++ rest) = .ok (value, rest)) ∧
    (∀ (kind : ValueKind) (value other : kind.Value), kind.Writable value → kind.Writable other →
      kind.packed.write value <+: kind.packed.write other → value = other) ∧
    (∀ (store after : DiskStore) (batch : Batch), store.commit batch = .ok after →
      batch.leaves.length ≤ 2 ^ 64 → (∀ leaf ∈ batch.leaves, leaf.Storable) →
      store.ReadsBack after batch) ∧
    (∀ (store : DiskStore) (head : SignedTreeHead), head.signature.length < 2 ^ 64 →
      ∃ after, LeafStore.putTreeHead store head = .ok after ∧
        LeafStore.treeHead? after = .ok (some head) ∧ after.size = store.size ∧
        LeafStore.leaf? after = LeafStore.leaf? store ∧
        LeafStore.nodes after = LeafStore.nodes store) := by
  refine ⟨?_, ?_, ?_, ?_⟩
  · intro kind value writable
    exact packed_readsBack writable
  · intro kind value other writable otherWritable
    exact (packed_readsBack writable).eq_of_starts (packed_readsBack otherWritable)
  · intro store after batch committed fits storable
    exact DiskStore.commit_readsBack committed fits storable
  · intro store head fits
    exact ⟨_, rfl, DiskStore.treeHead?_putTreeHead fits rfl, DiskStore.size_putTreeHead rfl, rfl,
      rfl⟩

theorem packed_selfDelimiting_edges :
    let hash : Digest := ⟨List.replicate 32 7, by decide⟩
    let leaf : LeafRecord := ⟨18446744073709551615, hash, [], some []⟩
    let proof : InclusionProof := ⟨128, 16384, [hash, hash]⟩
    LeafRecord.packed.read (LeafRecord.packed.write leaf ++ [255]) = .ok (leaf, [255]) ∧
      InclusionProof.packed.read (InclusionProof.packed.write proof ++ [0, 1]) =
        .ok (proof, [0, 1]) ∧
      ¬ NewLeaf.packed.write ⟨[1], none⟩ <+: NewLeaf.packed.write ⟨[1], some []⟩ ∧
      (∃ after, DiskStore.empty.commit ⟨0, [⟨0, hash, [], some []⟩], []⟩ = .ok after ∧
        LeafStore.leaf? after 0 = .ok (some ⟨0, hash, [], some []⟩)) ∧
      ∃ after, LeafStore.putTreeHead DiskStore.empty ⟨1, hash, 2, [3]⟩ = .ok after ∧
        LeafStore.treeHead? after = .ok (some ⟨1, hash, 2, [3]⟩) := by
  intro hash leaf proof
  obtain ⟨reads, delimits, stores, publishes⟩ := packed_selfDelimiting
  refine ⟨reads .leafRecord leaf ?_ [255], reads .inclusionProof proof ?_ [0, 1], ?_, ?_, ?_⟩
  · simp [Writable, LeafRecord.Storable, leaf]
  · simp [Writable, proof]
  · intro starts
    have same := delimits .newLeaf ⟨[1], none⟩ ⟨[1], some []⟩ (by simp [Writable, NewLeaf.Storable])
      (by simp [Writable, NewLeaf.Storable]) starts
    simp at same
  · refine ⟨_, rfl, ?_⟩
    have found := stores .empty _ ⟨0, [⟨0, hash, [], some []⟩], []⟩ rfl (by simp)
      (by simp [LeafRecord.Storable])
    exact found.leaf ⟨0, hash, [], some []⟩ List.mem_cons_self
  · obtain ⟨after, written, found, -⟩ := publishes .empty ⟨1, hash, 2, [3]⟩ (by simp)
    exact ⟨after, written, found⟩

end ValueKind

end VerifiableLog
