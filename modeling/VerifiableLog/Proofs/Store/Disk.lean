import Std.Data.HashSet.Lemmas
import VerifiableLog.Proofs.Bytes
import VerifiableLog.Proofs.Store.Content
import VerifiableLog.Proofs.Store.Table
import VerifiableLog.Store.Disk

/-!
The tables of a store on disk and the content that they stand for. What is written of a batch at
once comes to the same as its leaves and nodes one by one. A leaf is written behind all earlier
ones, as its key is the largest so far; its hash is entered unless an earlier leaf has it; a node
finds its place between those that are there.
-/

namespace VerifiableLog.DiskStore

def leafEntry (record : LeafRecord) : Bytes × Bytes :=
  (Bytes.ofWord record.sequence, LeafRecord.packed.write record)

def nodeEntry (node : Merkle.NodeAddress × Digest) : Bytes × Bytes :=
  (node.1.toKey, node.2.bytes)

theorem bytes_inj {left right : Digest} : left.bytes = right.bytes ↔ left = right := by
  cases left
  cases right
  simp

theorem foldl_keeps {α β : Type} (table : DiskStore → β) (insert : DiskStore → α → DiskStore)
    (keeps : ∀ store entry, table (insert store entry) = table store) (entries : List α)
    (store : DiskStore) : table (entries.foldl insert store) = table store := by
  induction entries generalizing store with
  | nil => rfl
  | cons entry entries ih => rw [List.foldl_cons, ih, keeps]

/-! ### One by one -/

def insertLeaf (store : DiskStore) (leaf : LeafRecord) : DiskStore :=
  let sequence := Bytes.ofWord leaf.sequence
  { store with
    leaves := store.leaves.insert sequence (LeafRecord.packed.write leaf)
    leafIndex := store.leafIndex.insertIfAbsent leaf.leafHash.bytes sequence }

def insertNode (store : DiskStore) (entry : Merkle.NodeAddress × Digest) : DiskStore :=
  { store with nodes := store.nodes.insert entry.1.toKey entry.2.bytes }

theorem isSome_find?_insertLeaf (store : DiskStore) (leaf : LeafRecord) (hash : Digest) :
    ((store.insertLeaf leaf).leafIndex.find? hash.bytes).isSome = true ↔
      (store.leafIndex.find? hash.bytes).isSome = true ∨ leaf.leafHash = hash := by
  rw [insertLeaf, Table.find?_insertIfAbsent, Option.isSome_or, Bool.or_eq_true]
  by_cases same : leaf.leafHash = hash <;> simp [same, bytes_inj]

theorem insertLeaf_of_known {store : DiskStore} {leaf : LeafRecord}
    (known : (store.leafIndex.find? leaf.leafHash.bytes).isSome = true) :
    store.insertLeaf leaf = store.write (leafWrite leaf) := by
  rw [insertLeaf, Table.insertIfAbsent, if_pos known]
  rfl

theorem insertLeaf_of_new {store : DiskStore} {leaf : LeafRecord}
    (new : ¬(store.leafIndex.find? leaf.leafHash.bytes).isSome = true) :
    store.insertLeaf leaf = (store.write (leafWrite leaf)).write (indexWrite leaf) := by
  rw [insertLeaf, Table.insertIfAbsent, if_neg new]
  rfl

/-- Together with the hashes that a batch has entered so far, the index as it was before the batch
tells what is in the index by now. -/
def Tells (before : DiskStore) (indexed : Std.HashSet Digest) (store : DiskStore) : Prop :=
  ∀ hash : Digest, (store.leafIndex.find? hash.bytes).isSome = true ↔
    (before.leafIndex.find? hash.bytes).isSome = true ∨ hash ∈ indexed

section

variable {before store : DiskStore} {indexed : Std.HashSet Digest} {leaf : LeafRecord}

theorem Tells.isNew_iff (tells : before.Tells indexed store) (hash : Digest) :
    (!indexed.contains hash && (before.leafIndex.find? hash.bytes).isNone) = true ↔
      ¬(store.leafIndex.find? hash.bytes).isSome = true := by
  rw [tells hash]
  simp [and_comm]

theorem Tells.insertLeaf_known (tells : before.Tells indexed store)
    (known : (store.leafIndex.find? leaf.leafHash.bytes).isSome = true) :
    before.Tells indexed (store.insertLeaf leaf) := by
  intro hash
  rw [isSome_find?_insertLeaf, tells]
  constructor
  · rintro (earlier | rfl)
    · exact earlier
    · exact (tells _).mp known
  · exact .inl

theorem Tells.insertLeaf_new (tells : before.Tells indexed store) :
    before.Tells (indexed.insert leaf.leafHash) (store.insertLeaf leaf) := by
  intro hash
  rw [isSome_find?_insertLeaf, tells, Std.HashSet.mem_insert, beq_iff_eq, or_assoc,
    or_comm (a := hash ∈ indexed)]

theorem foldl_write_leafWrites (tells : before.Tells indexed store) (leaves : List LeafRecord) :
    (before.leafWrites indexed leaves).foldl write store = leaves.foldl insertLeaf store := by
  induction leaves generalizing store indexed with
  | nil => rfl
  | cons leaf leaves ih =>
      have isNew := tells.isNew_iff leaf.leafHash
      rw [leafWrites]
      by_cases known : (store.leafIndex.find? leaf.leafHash.bytes).isSome = true
      · rw [if_neg fun new => isNew.mp new known, List.foldl_cons, List.foldl_cons,
          ← insertLeaf_of_known known]
        exact ih (tells.insertLeaf_known known)
      · rw [if_pos (isNew.mpr known), List.foldl_cons, List.foldl_cons, List.foldl_cons,
          ← insertLeaf_of_new known]
        exact ih tells.insertLeaf_new

end

theorem foldl_write_nodeWrites (nodes : List (Merkle.NodeAddress × Digest)) (store : DiskStore) :
    (nodes.map nodeWrite).foldl write store = nodes.foldl insertNode store := by
  rw [List.foldl_map]
  rfl

theorem commit_eq (store : DiskStore) (batch : Batch) :
    store.commit batch = (do
      let size ← store.size
      batch.validate size
      let store := batch.nodes.foldl insertNode (batch.leaves.foldl insertLeaf store)
      return { store with info := store.info.insert sizeKey (Bytes.ofWord batch.newSize) }) := by
  rw [commit, batchWrites, List.foldl_append, List.foldl_append,
    foldl_write_leafWrites (by simp [Tells]), foldl_write_nodeWrites]
  rfl

/-! ### Leaves -/

structure HoldsLeaves (leaves leafIndex : Table) (records : List LeafRecord) : Prop where
  numbered : Numbered 0 records
  entries : leaves.entries = records.map leafEntry
  first : ∀ hash : Digest, leafIndex.find? hash.bytes =
    ((records.find? fun record => record.leafHash = hash).map LeafRecord.sequence).map Bytes.ofWord

theorem HoldsLeaves.add_leaf {store : DiskStore} {records : List LeafRecord}
    (holds : HoldsLeaves store.leaves store.leafIndex records) (fits : records.length < 2 ^ 64)
    {record : LeafRecord} (next : record.sequence = UInt64.ofNat records.length) :
    HoldsLeaves (store.insertLeaf record).leaves (store.insertLeaf record).leafIndex
      (records ++ [record]) where
  numbered := by
    rw [numbered_append, Nat.zero_add]
    exact ⟨holds.numbered, next, trivial⟩
  entries := by
    have value : record.sequence.toNat = records.length := by
      rw [next]
      exact UInt64.toNat_ofNat_of_lt' fits
    have last : ∀ entry ∈ store.leaves.entries, Bytes.ofWord record.sequence ≠ entry.1 ∧
        (Bytes.ofWord record.sequence).below entry.1 = false := by
      intro entry member
      rw [holds.entries, List.mem_map] at member
      obtain ⟨earlier, earlierMember, rfl⟩ := member
      have found := (holds.numbered.getElem?_sequence (by omega) earlierMember).2
      have inside := (List.getElem?_eq_some_iff.mp found).1
      rw [leafEntry, ne_eq, Bytes.ofWord_inj, ← Bool.not_eq_true, Bytes.below_ofWord,
        UInt64.lt_iff_toNat_lt, ← UInt64.toNat_inj]
      omega
    rw [insertLeaf, Table.entries_insert_of_last _ last, holds.entries, List.map_append]
    rfl
  first := by
    intro hash
    rw [insertLeaf, Table.find?_insertIfAbsent, holds.first, firstSequence_concat, Option.map_or]
    by_cases found : record.leafHash = hash <;> simp [found, bytes_inj]

theorem HoldsLeaves.add_leaves {store : DiskStore} {records batch : List LeafRecord}
    (holds : HoldsLeaves store.leaves store.leafIndex records)
    (numbered : Numbered records.length batch) (fits : (records ++ batch).length < 2 ^ 64) :
    HoldsLeaves (batch.foldl insertLeaf store).leaves (batch.foldl insertLeaf store).leafIndex
      (records ++ batch) := by
  induction batch generalizing store records with
  | nil => simpa using holds
  | cons record batch ih =>
      have appended : records ++ record :: batch = records ++ [record] ++ batch := by simp
      rw [appended] at fits ⊢
      rw [List.foldl_cons]
      rw [List.append_assoc, List.length_append] at fits
      apply ih (holds.add_leaf (by omega) numbered.1)
      · simpa using numbered.2
      · simpa using fits

@[simp] theorem nodes_foldl_insertLeaf (batch : List LeafRecord) (store : DiskStore) :
    (batch.foldl insertLeaf store).nodes = store.nodes :=
  foldl_keeps DiskStore.nodes insertLeaf (fun _ _ => rfl) batch store

@[simp] theorem info_foldl_insertLeaf (batch : List LeafRecord) (store : DiskStore) :
    (batch.foldl insertLeaf store).info = store.info :=
  foldl_keeps DiskStore.info insertLeaf (fun _ _ => rfl) batch store

/-! ### Nodes -/

def HoldsNodes (table : Table) (nodes : List (Merkle.NodeAddress × Digest)) : Prop :=
  ∃ kept : List (Merkle.NodeAddress × Digest), kept.Perm nodes ∧ table.entries = kept.map nodeEntry

theorem HoldsNodes.add_node {store : DiskStore} {nodes : List (Merkle.NodeAddress × Digest)}
    (holds : HoldsNodes store.nodes nodes) {node : Merkle.NodeAddress × Digest}
    (absent : node.1 ∉ nodes.map Prod.fst) :
    HoldsNodes (store.insertNode node).nodes (nodes ++ [node]) := by
  obtain ⟨kept, same, entries⟩ := holds
  have keyAbsent : ∀ entry ∈ store.nodes.entries, node.1.toKey ≠ entry.1 := by
    intro entry member equal
    rw [entries, List.mem_map] at member
    obtain ⟨old, oldMember, rfl⟩ := member
    rw [nodeEntry, Merkle.NodeAddress.toKey_inj] at equal
    exact absent (equal ▸ List.mem_map_of_mem (same.mem_iff.mp oldMember))
  obtain ⟨before, after, split, inserted⟩ :=
    Table.entries_insert_of_absent node.2.bytes keyAbsent
  rw [entries] at split
  obtain ⟨keptBefore, keptAfter, rfl, rfl, rfl⟩ := List.map_eq_append_iff.mp split
  refine ⟨keptBefore ++ node :: keptAfter, ?_, ?_⟩
  · exact (List.perm_middle.trans (same.cons node)).trans
      (List.perm_append_singleton node nodes).symm
  · rw [insertNode, inserted, List.map_append, List.map_cons]
    rfl

theorem HoldsNodes.add_nodes {store : DiskStore}
    {nodes batch : List (Merkle.NodeAddress × Digest)} (holds : HoldsNodes store.nodes nodes)
    (distinct : ((nodes ++ batch).map Prod.fst).Nodup) :
    HoldsNodes (batch.foldl insertNode store).nodes (nodes ++ batch) := by
  induction batch generalizing store nodes with
  | nil => simpa using holds
  | cons node batch ih =>
      have appended : nodes ++ node :: batch = nodes ++ [node] ++ batch := by simp
      have absent : node.1 ∉ nodes.map Prod.fst := by
        rw [List.map_append, List.map_cons, List.nodup_append] at distinct
        intro member
        exact distinct.2.2 _ member _ List.mem_cons_self rfl
      rw [appended] at distinct ⊢
      exact ih (holds.add_node absent) distinct

@[simp] theorem leaves_foldl_insertNode (batch : List (Merkle.NodeAddress × Digest))
    (store : DiskStore) : (batch.foldl insertNode store).leaves = store.leaves :=
  foldl_keeps DiskStore.leaves insertNode (fun _ _ => rfl) batch store

@[simp] theorem leafIndex_foldl_insertNode (batch : List (Merkle.NodeAddress × Digest))
    (store : DiskStore) : (batch.foldl insertNode store).leafIndex = store.leafIndex :=
  foldl_keeps DiskStore.leafIndex insertNode (fun _ _ => rfl) batch store

@[simp] theorem info_foldl_insertNode (batch : List (Merkle.NodeAddress × Digest))
    (store : DiskStore) : (batch.foldl insertNode store).info = store.info :=
  foldl_keeps DiskStore.info insertNode (fun _ _ => rfl) batch store

/-! ### Reading back -/

theorem decodeWord_ofWord (word : UInt64) : decodeWord (Bytes.ofWord word) = .ok word := by
  rw [decodeWord, Bytes.toWord?_ofWord]

theorem decodePacked_write {α : Type} {codec : Packed.Codec α} {value : α}
    (readsBack : codec.ReadsBack value) : decodePacked codec (codec.write value) = .ok value := by
  have read := readsBack []
  rw [List.append_nil] at read
  rw [decodePacked, read]

theorem decodeNode_nodeEntry (node : Merkle.NodeAddress × Digest) :
    decodeNode (nodeEntry node) = .ok node := by
  rw [decodeNode, nodeEntry, Merkle.NodeAddress.ofKey?_toKey, Digest.ofBytes,
    dif_pos node.2.length_bytes]

theorem mapM_map_of_decodes {α β : Type} {encode : α → β} {decode : β → Except StoreError α}
    {values : List α} (decodes : ∀ value ∈ values, decode (encode value) = .ok value) :
    (values.map encode).mapM decode = .ok values := by
  induction values with
  | nil => rfl
  | cons value values ih =>
      have rest := ih fun later member => decodes later (List.mem_cons_of_mem _ member)
      simp only [List.map_cons, List.mapM_cons, decodes value List.mem_cons_self, rest, bind,
        Except.bind, pure, Except.pure]

theorem decodeEntry_map {α : Type} {encode : α → Bytes} {decode : Bytes → Except StoreError α}
    {entry : Option α} (decodes : ∀ value ∈ entry, decode (encode value) = .ok value) :
    decodeEntry decode (entry.map encode) = .ok entry := by
  cases entry with
  | none => rfl
  | some value =>
      rw [Option.map_some, decodeEntry, decodes value rfl]
      rfl

theorem size_insert_sizeKey (store : DiskStore) (word : UInt64) :
    size { store with info := store.info.insert sizeKey (Bytes.ofWord word) } = .ok word := by
  rw [size, Table.find?_insert, if_pos rfl, decodeEntry, decodeWord_ofWord]
  rfl

/-! ### The store as a whole -/

structure Represents (store : DiskStore) (content : Content) : Prop where
  storable : content.Storable
  leaves : HoldsLeaves store.leaves store.leafIndex content.records
  nodes : HoldsNodes store.nodes content.nodes
  size : store.size = .ok (UInt64.ofNat content.records.length)
  treeHead : store.info.find? treeHeadKey = content.treeHead.map SignedTreeHead.packed.write

theorem empty_represents : Represents empty .empty where
  storable := Content.empty_storable
  leaves := ⟨trivial, rfl, fun _ => rfl⟩
  nodes := ⟨[], List.Perm.refl _, rfl⟩
  size := rfl
  treeHead := rfl

theorem Represents.commit_ok {store after : DiskStore} {content : Content} {batch : Batch}
    (represents : Represents store content) (storable : (content.add batch).Storable)
    (committed : store.commit batch = .ok after) : Represents after (content.add batch) := by
  rw [commit_eq, represents.size] at committed
  cases valid : batch.validate (UInt64.ofNat content.records.length) with
  | error cause => simp [valid, bind, Except.bind] at committed
  | ok _ =>
      simp only [valid, bind, Except.bind, pure, Except.pure, Except.ok.injEq] at committed
      obtain ⟨firstSequence, numbered⟩ := Batch.validate_ok_iff.mp valid
      subst committed
      constructor
      · exact storable
      · rw [leaves_foldl_insertNode, leafIndex_foldl_insertNode]
        exact represents.leaves.add_leaves numbered storable.fits
      · have nodes := represents.nodes
        rw [← nodes_foldl_insertLeaf batch.leaves store] at nodes
        exact nodes.add_nodes storable.distinct
      · rw [size_insert_sizeKey, Batch.newSize, firstSequence]
        simp [Content.add]
      · simpa [Table.find?_insert, show sizeKey ≠ treeHeadKey by decide, Content.add] using
          represents.treeHead

theorem Represents.putTreeHead_ok {store : DiskStore} {content : Content} {head : SignedTreeHead}
    (represents : Represents store content) (storable : (content.withHead head).Storable) :
    Represents
      { store with info := store.info.insert treeHeadKey (SignedTreeHead.packed.write head) }
      (content.withHead head) where
  storable := storable
  leaves := represents.leaves
  nodes := represents.nodes
  size := by
    have unchanged := represents.size
    rw [DiskStore.size] at unchanged ⊢
    rw [Table.find?_insert, if_neg (by decide)]
    exact unchanged
  treeHead := by
    rw [Table.find?_insert, if_pos rfl]
    rfl

theorem Represents.leaf?_eq {store : DiskStore} {content : Content}
    (represents : Represents store content) (sequence : UInt64) :
    LeafStore.leaf? store sequence = .ok content.records[sequence.toNat]? := by
  have found := @Numbered.find?_eq _ _ represents.leaves.numbered
    (by rw [Nat.zero_add]; exact Nat.le_of_lt represents.storable.fits) sequence (Nat.zero_le _)
  rw [Nat.sub_zero] at found
  have entry : store.leaves.find? (Bytes.ofWord sequence) =
      content.records[sequence.toNat]?.map LeafRecord.packed.write := by
    rw [Table.find?, represents.leaves.entries, List.find?_map, Option.map_map, ← found]
    simp [Function.comp_def, leafEntry, Bytes.ofWord_inj]
  rw [show LeafStore.leaf? store sequence = decodeEntry (decodePacked LeafRecord.packed)
    (store.leaves.find? (Bytes.ofWord sequence)) from rfl, entry]
  apply decodeEntry_map
  intro record present
  have member := List.mem_of_getElem? present
  exact decodePacked_write (LeafRecord.packed_readsBack (represents.storable.records _ member))

theorem Represents.leafRange_eq {store : DiskStore} {content : Content}
    (represents : Represents store content) (start stop : UInt64) :
    store.leafRange start stop = .ok ((content.records.take stop.toNat).drop start.toNat) := by
  have filtered := represents.leaves.numbered.filter_eq
    (by rw [Nat.zero_add]; exact Nat.le_of_lt represents.storable.fits) start stop
  rw [Nat.sub_zero, Nat.sub_zero] at filtered
  have range : store.leaves.range (Bytes.ofWord start) (Bytes.ofWord stop) =
      ((content.records.take stop.toNat).drop start.toNat).map leafEntry := by
    rw [Table.range, represents.leaves.entries, List.filter_map, ← filtered]
    congr 2
    funext record
    simp [leafEntry, ← Bytes.below_ofWord]
  rw [leafRange, range]
  apply mapM_map_of_decodes
  intro record member
  exact decodePacked_write (LeafRecord.packed_readsBack
    (represents.storable.records _ (List.mem_of_mem_take (List.mem_of_mem_drop member))))

instance : LawfulStore DiskStore where
  Holds := Represents
  size_eq := Represents.size
  leaf?_eq := Represents.leaf?_eq
  leaves_eq := Represents.leafRange_eq
  sequenceOf?_eq := by
    intro store content represents hash
    simp only [LeafStore.sequenceOf?, represents.leaves.first]
    exact decodeEntry_map fun sequence _ => decodeWord_ofWord sequence
  nodes_eq := by
    intro store content represents
    obtain ⟨kept, same, entries⟩ := represents.nodes
    refine ⟨kept, ?_, same⟩
    simp only [LeafStore.nodes, entries]
    exact mapM_map_of_decodes fun node _ => decodeNode_nodeEntry node
  treeHead?_eq := by
    intro store content represents
    simp only [LeafStore.treeHead?, represents.treeHead]
    apply decodeEntry_map
    intro head present
    exact decodePacked_write
      (SignedTreeHead.packed_readsBack (represents.storable.signature head present))
  commit_ok := by
    intro store content batch represents storable taken
    simp only [LeafStore.commit] at taken ⊢
    split at taken
    · rename_i committed
      exact represents.commit_ok storable committed
    · simp at taken
  commit_error := by
    intro store content batch cause represents refused
    simp only [LeafStore.commit] at refused ⊢
    split at refused
    · simp at refused
    · exact represents
  putTreeHead_ok := by
    intro store after content head represents storable written
    cases written
    exact represents.putTreeHead_ok storable

end VerifiableLog.DiskStore
