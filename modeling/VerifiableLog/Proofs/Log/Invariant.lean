import VerifiableLog.Proofs.Log.Heads
import VerifiableLog.Proofs.Merkle.NodeSet
import VerifiableLog.Proofs.Merkle.Range

/-!
What a log and its store have in common at all times. The tree is that of the stored leaves, the
stored nodes are those of the tree, and every head in use describes the tree over some of the first
leaves. Each part of an append, a refresh and an opening leaves this standing, whatever fails.
-/

namespace VerifiableLog

open LawfulStore (Holds)
open Merkle (Accumulator rootOf)
open Merkle.Accumulator (ofLeaves)

/-! ### The leaves of a log -/

def leafHashes (leaves : List NewLeaf) : List Digest :=
  leaves.map fun leaf => Merkle.hashLeaf leaf.leafValue

def recordsOf (leaves : List NewLeaf) : List LeafRecord :=
  leaves.mapIdx fun index leaf =>
    ⟨UInt64.ofNat index, Merkle.hashLeaf leaf.leafValue, leaf.leafValue, leaf.extraData⟩

def stateOf (leaves : List NewLeaf) : TreeState :=
  ⟨UInt64.ofNat leaves.length, rootOf (leafHashes leaves)⟩

def receiptOf (leaves batch : List NewLeaf) : AppendReceipt :=
  ⟨UInt64.ofNat (leaves ++ batch).length,
    (List.range' leaves.length batch.length).map UInt64.ofNat,
    rootOf (leafHashes (leaves ++ batch))⟩

@[simp] theorem length_leafHashes (leaves : List NewLeaf) :
    (leafHashes leaves).length = leaves.length :=
  List.length_map _

@[simp] theorem length_recordsOf (leaves : List NewLeaf) :
    (recordsOf leaves).length = leaves.length :=
  List.length_mapIdx

theorem leafHashes_append (leaves batch : List NewLeaf) :
    leafHashes (leaves ++ batch) = leafHashes leaves ++ leafHashes batch :=
  List.map_append

theorem ofNat_succ (count : Nat) : UInt64.ofNat count + 1 = UInt64.ofNat (count + 1) := by
  simp

theorem number_eq_mapIdx (first : Nat) (leaves : List NewLeaf) :
    Log.number (UInt64.ofNat first) leaves =
      leaves.mapIdx fun index leaf =>
        ⟨UInt64.ofNat (first + index), Merkle.hashLeaf leaf.leafValue, leaf.leafValue,
          leaf.extraData⟩ := by
  induction leaves generalizing first with
  | nil => rfl
  | cons leaf leaves ih =>
      rw [Log.number, ofNat_succ, ih, List.mapIdx_cons]
      simp only [Nat.add_zero, Nat.add_comm, Nat.add_left_comm]

theorem recordsOf_append (leaves batch : List NewLeaf) :
    recordsOf (leaves ++ batch) =
      recordsOf leaves ++ Log.number (UInt64.ofNat leaves.length) batch := by
  rw [number_eq_mapIdx, recordsOf, recordsOf, List.mapIdx_append]
  simp only [Nat.add_comm]

theorem numbered_number (first : Nat) (leaves : List NewLeaf) :
    Numbered first (Log.number (UInt64.ofNat first) leaves) := by
  induction leaves generalizing first with
  | nil => trivial
  | cons leaf leaves ih =>
      rw [Log.number, ofNat_succ]
      exact ⟨rfl, ih (first + 1)⟩

theorem map_leafHash_number (first : UInt64) (leaves : List NewLeaf) :
    (Log.number first leaves).map LeafRecord.leafHash = leafHashes leaves := by
  induction leaves generalizing first with
  | nil => rfl
  | cons leaf leaves ih =>
      rw [Log.number, List.map_cons, ih]
      rfl

theorem number_zero (leaves : List NewLeaf) :
    Log.number (UInt64.ofNat 0) leaves = recordsOf leaves := by
  rw [number_eq_mapIdx]
  simp only [Nat.zero_add, recordsOf]

theorem map_leafHash_recordsOf (leaves : List NewLeaf) :
    (recordsOf leaves).map LeafRecord.leafHash = leafHashes leaves := by
  rw [← number_zero, map_leafHash_number]

theorem numbered_recordsOf (leaves : List NewLeaf) : Numbered 0 (recordsOf leaves) := by
  rw [← number_zero]
  exact numbered_number 0 leaves

theorem storable_recordsOf {leaves : List NewLeaf} (storable : ∀ leaf ∈ leaves, leaf.Storable) :
    ∀ record ∈ recordsOf leaves, record.Storable := by
  intro record member
  obtain ⟨index, inside, rfl⟩ := List.mem_mapIdx.mp member
  exact storable _ (List.getElem_mem inside)

theorem sequencesFrom_eq_map_range' (first count : Nat) :
    Log.sequencesFrom (UInt64.ofNat first) count =
      (List.range' first count).map UInt64.ofNat := by
  induction count generalizing first with
  | zero => rfl
  | succ count ih => rw [Log.sequencesFrom, ofNat_succ, ih, List.range'_succ, List.map_cons]

/-! ### Stores and heads -/

/-- The head is that of the tree over the first of the leaves. -/
structure SignedTreeHead.Describes (head : SignedTreeHead) (leaves : List NewLeaf) : Prop where
  reached : head.treeSize.toNat ≤ leaves.length
  root : head.rootHash = rootOf ((leafHashes leaves).take head.treeSize.toNat)
  signature : head.signature.length < 2 ^ 64

theorem SignedTreeHead.Describes.append {head : SignedTreeHead} {leaves : List NewLeaf}
    (describes : head.Describes leaves) (batch : List NewLeaf) :
    head.Describes (leaves ++ batch) where
  reached := by
    rw [List.length_append]
    exact Nat.le_add_right_of_le describes.reached
  root := by
    rw [leafHashes_append, List.take_append_of_le_length, describes.root]
    rw [length_leafHashes]
    exact describes.reached
  signature := describes.signature

variable {σ : Type}

/-- The store holds the leaves, their nodes and the head, which is one of theirs. -/
structure Keeps [LeafStore σ] [LawfulStore σ] (store : σ) (leaves : List NewLeaf)
    (stored : Option SignedTreeHead) : Prop where
  fits : leaves.length < 2 ^ 63
  storable : ∀ leaf ∈ leaves, leaf.Storable
  content : ∃ nodes, nodes.Perm (ofLeaves (leafHashes leaves)).nodes ∧
    Holds store ⟨recordsOf leaves, nodes, stored⟩
  head : ∀ head ∈ stored, head.Describes leaves

structure Log.Reflects [LeafStore σ] [LawfulStore σ] (log : Log σ) (leaves : List NewLeaf)
    (stored : Option SignedTreeHead) : Prop where
  keeps : Keeps log.store leaves stored
  tree : log.tree = ofLeaves (leafHashes leaves)
  signer : log.signer.Storable
  latest : ∀ head ∈ log.head.latest, head.Describes leaves
  newest : log.head.failure = none → ∀ head ∈ log.head.latest, head.treeSize.toNat = leaves.length

theorem toNat_ofNat_length {leaves : List NewLeaf} (fits : leaves.length < 2 ^ 63) :
    (UInt64.ofNat leaves.length).toNat = leaves.length :=
  UInt64.toNat_ofNat_of_lt' (by show leaves.length < 2 ^ 64; omega)

theorem Keeps.size_eq [LeafStore σ] [LawfulStore σ] {store : σ} {leaves : List NewLeaf}
    {stored : Option SignedTreeHead} (keeps : Keeps store leaves stored) :
    LeafStore.size store = .ok (UInt64.ofNat leaves.length) := by
  obtain ⟨nodes, same, holds⟩ := keeps.content
  rw [LawfulStore.size_eq holds, length_recordsOf]

theorem Keeps.treeHead?_eq [LeafStore σ] [LawfulStore σ] {store : σ}
    {leaves : List NewLeaf} {stored : Option SignedTreeHead} (keeps : Keeps store leaves stored) :
    LeafStore.treeHead? store = .ok stored := by
  obtain ⟨nodes, same, holds⟩ := keeps.content
  exact LawfulStore.treeHead?_eq holds

theorem treeState_ofLeaves (leaves : List NewLeaf) :
    Log.treeState (ofLeaves (leafHashes leaves)) = .ok (stateOf leaves) := by
  have root : (ofLeaves (leafHashes leaves)).currentRoot = .ok (rootOf (leafHashes leaves)) := by
    have whole := @Accumulator.rangeHash_ofLeaves (leafHashes leaves) _ _ (Nat.zero_le _)
      (Nat.le_refl _)
    rw [Merkle.leafRange, List.take_length, List.drop_zero] at whole
    rw [Accumulator.currentRoot, Accumulator.size_ofLeaves, whole]
  rw [Log.treeState, root, Accumulator.size_ofLeaves, length_leafHashes]
  rfl

theorem storable_content {leaves : List NewLeaf} {stored : Option SignedTreeHead}
    {nodes : List (Merkle.NodeAddress × Digest)} (fits : leaves.length < 2 ^ 64)
    (storable : ∀ leaf ∈ leaves, leaf.Storable)
    (same : nodes.Perm (ofLeaves (leafHashes leaves)).nodes)
    (describes : ∀ head ∈ stored, head.Describes leaves) :
    Content.Storable ⟨recordsOf leaves, nodes, stored⟩ where
  fits := by rwa [length_recordsOf]
  records := storable_recordsOf storable
  distinct := by
    have distinct := (Accumulator.complete_ofLeaves (leafHashes leaves)).nodes_nodup
      (by rwa [Accumulator.size_ofLeaves, length_leafHashes])
    exact (same.map Prod.fst).nodup_iff.mpr distinct
  signature head present := (describes head present).signature

/-! ### Publishing a head -/

def Log.nextHead (log : Log σ) (now : Moment) (state : TreeState) : TreeHead :=
  ⟨state.size, max now.sinceEpoch ((log.head.latest.map SignedTreeHead.timestamp).getD 0),
    state.rootHash⟩

theorem publishHead_cases [LeafStore σ] (log : Log σ) (now : Moment) (state : TreeState) :
    (∃ cause, log.publishHead now state =
        { log with head := { log.head with failure := some cause } }) ∨
      ∃ signature, log.signer.sign (log.nextHead now state) = .ok signature ∧
        let signed := (log.nextHead now state).withSignature signature
        ((∃ store, LeafStore.putTreeHead log.store signed = .ok store ∧
            log.publishHead now state = { log with store := store, head := ⟨some signed, none⟩ }) ∨
          ∃ cause, LeafStore.putTreeHead log.store signed = .error cause ∧
            log.publishHead now state = { log with head := ⟨some signed, none⟩ }) := by
  simp only [Log.publishHead, Log.nextHead]
  split
  · exact .inl ⟨_, rfl⟩
  · rename_i signature signed
    refine .inr ⟨signature, signed, ?_⟩
    split
    · rename_i store written
      exact .inl ⟨store, written, rfl⟩
    · rename_i cause refused
      exact .inr ⟨cause, refused, rfl⟩

theorem nextHead_describes {log : Log σ} {leaves : List NewLeaf} {now : Moment}
    {signature : Bytes} (signer : log.signer.Storable) (fits : leaves.length < 2 ^ 63)
    (signed : log.signer.sign (log.nextHead now (stateOf leaves)) = .ok signature) :
    ((log.nextHead now (stateOf leaves)).withSignature signature).Describes leaves where
  reached := Nat.le_of_eq (toNat_ofNat_length fits)
  root := by
    have all := List.take_length (l := leafHashes leaves)
    rw [length_leafHashes] at all
    simp only [Log.nextHead, stateOf, TreeHead.withSignature, toNat_ofNat_length fits, all]
  signature := signer _ _ signed

theorem Keeps.putTreeHead [LeafStore σ] [LawfulStore σ] {store after : σ} {leaves : List NewLeaf}
    {stored : Option SignedTreeHead} {head : SignedTreeHead} (keeps : Keeps store leaves stored)
    (describes : head.Describes leaves) (written : LeafStore.putTreeHead store head = .ok after) :
    Keeps after leaves (some head) := by
  obtain ⟨nodes, same, holds⟩ := keeps.content
  have described : ∀ present ∈ some head, present.Describes leaves := by
    rintro _ ⟨⟩
    exact describes
  have fits := keeps.fits
  have storable := storable_content (by omega) keeps.storable same described
  exact ⟨keeps.fits, keeps.storable,
    ⟨nodes, same, LawfulStore.putTreeHead_ok holds storable written⟩, described⟩

theorem publishHead_reflects {log : Log Storage} {leaves : List NewLeaf}
    {stored : Option SignedTreeHead} (keeps : Keeps log.store leaves stored)
    (tree : log.tree = ofLeaves (leafHashes leaves)) (signer : log.signer.Storable)
    (latest : ∀ head ∈ log.head.latest, head.Describes leaves) (now : Moment) :
    ∃ storedAfter, (log.publishHead now (stateOf leaves)).Reflects leaves storedAfter ∧
      Published now leaves.length stored log.head.latest
        (log.publishHead now (stateOf leaves)).headOutcome storedAfter
        (log.publishHead now (stateOf leaves)).head.latest := by
  rcases publishHead_cases log now (stateOf leaves) with
    ⟨cause, unsigned⟩ | ⟨signature, signed, published⟩
  · rw [unsigned]
    exact ⟨stored, ⟨keeps, tree, signer, latest, by simp⟩, .unsigned⟩
  · have describes := nextHead_describes signer keeps.fits signed
    have described : ∀ head ∈ some ((log.nextHead now (stateOf leaves)).withSignature signature),
        head.Describes leaves ∧ head.treeSize.toNat = leaves.length := by
      rintro _ ⟨⟩
      exact ⟨describes, toNat_ofNat_length keeps.fits⟩
    rcases published with ⟨store, written, result⟩ | ⟨cause, refused, result⟩
    · rw [result]
      refine ⟨_, ⟨keeps.putTreeHead describes written, tree, signer,
        fun head present => (described head present).1,
        fun _ head present => (described head present).2⟩, ?_⟩
      rw [Log.headOutcome, Storage.refusesHeads_of_ok written]
      exact .kept (toNat_ofNat_length keeps.fits) rfl
    · rw [result]
      refine ⟨_, ⟨keeps, tree, signer, fun head present => (described head present).1,
        fun _ head present => (described head present).2⟩, ?_⟩
      rw [Log.headOutcome, Storage.refusesHeads_of_error refused]
      exact .lost (toNat_ofNat_length keeps.fits) rfl

end VerifiableLog
