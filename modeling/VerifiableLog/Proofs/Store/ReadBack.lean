import Mathlib.Data.List.Basic
import VerifiableLog.Proofs.Store.Disk

/-!
Reading back from any store on disk, whoever filled its tables. A batch that it takes is found
again, its leaves one by one, in ranges and by their hashes, and its nodes among the others; so is
the tree head that is put into it. Whatever else was found before is still found.
-/

namespace VerifiableLog

/-! ### Sequences within a batch -/

theorem Numbered.sequence_getElem {first : Nat} {records : List LeafRecord}
    (numbered : Numbered first records) (place : Nat) (inside : place < records.length) :
    records[place].sequence = UInt64.ofNat (first + place) := by
  induction records generalizing first place with
  | nil => simp at inside
  | cons record records ih =>
      cases place with
      | zero => exact numbered.1
      | succ place =>
          have later := ih numbered.2 place (by simpa using inside)
          rw [List.getElem_cons_succ, later, show first + 1 + place = first + (place + 1) by omega]

theorem Numbered.distinct {first : Nat} {records : List LeafRecord}
    (numbered : Numbered first records) (fits : records.length ≤ 2 ^ 64) :
    (records.map LeafRecord.sequence).Nodup := by
  -- Not even sequences that start again at 0 meet, as a batch has too few leaves for that.
  rw [List.Nodup, List.pairwise_iff_getElem]
  intro left right leftInside rightInside before same
  simp only [List.length_map] at leftInside rightInside
  simp only [List.getElem_map, numbered.sequence_getElem, ← UInt64.toNat_inj,
    UInt64.toNat_ofNat'] at same
  omega

/-! ### Many entries put into a table -/

namespace Table

def insertAll (table : Table) (entries : List (Bytes × Bytes)) : Table :=
  entries.foldl (fun table entry => table.insert entry.1 entry.2) table

variable {table : Table} {key value : Bytes} {entry : Bytes × Bytes}
  {entries : List (Bytes × Bytes)}

theorem mem_entries_insert (member : entry ∈ (table.insert key value).entries) :
    entry = (key, value) ∨ entry ∈ table.entries := by
  obtain ⟨old⟩ := table
  simp only [insert] at member ⊢
  induction old with
  | nil => exact .inl (List.mem_singleton.mp member)
  | cons first old ih =>
      rw [insertSorted] at member
      split at member
      · rcases List.mem_cons.mp member with here | later
        · exact .inl here
        · exact .inr (List.mem_cons_of_mem _ later)
      · split at member
        · exact List.mem_cons.mp member
        · rcases List.mem_cons.mp member with rfl | later
          · exact .inr List.mem_cons_self
          · exact (ih later).imp_right (List.mem_cons_of_mem _)

theorem mem_entries_insertAll (member : entry ∈ (table.insertAll entries).entries) :
    entry ∈ entries ∨ entry ∈ table.entries := by
  induction entries generalizing table with
  | nil => exact .inr member
  | cons first entries ih =>
      rcases ih member with later | old
      · exact .inl (List.mem_cons_of_mem _ later)
      · rcases mem_entries_insert old with rfl | old
        · exact .inl List.mem_cons_self
        · exact .inr old

theorem mem_of_find? (found : table.find? key = some value) : (key, value) ∈ table.entries := by
  obtain ⟨entry, here, rfl⟩ := Option.map_eq_some_iff.mp found
  have sameKey : entry.1 = key := by simpa using List.find?_some here
  rw [← sameKey]
  exact List.mem_of_find?_eq_some here

theorem find?_insertAll_of_absent (absent : key ∉ entries.map Prod.fst) :
    (table.insertAll entries).find? key = table.find? key := by
  induction entries generalizing table with
  | nil => rfl
  | cons first entries ih =>
      rw [List.map_cons, List.mem_cons, not_or] at absent
      rw [insertAll, List.foldl_cons, ← insertAll, ih absent.2, find?_insert,
        if_neg (Ne.symm absent.1)]

theorem find?_insertAll_of_last {earlier later : List (Bytes × Bytes)}
    (last : entry.1 ∉ later.map Prod.fst) :
    (table.insertAll (earlier ++ entry :: later)).find? entry.1 = some entry.2 := by
  rw [insertAll, List.foldl_append, List.foldl_cons, ← insertAll, ← insertAll,
    find?_insertAll_of_absent last, find?_insert, if_pos rfl]

end Table

namespace DiskStore

variable {store after : DiskStore} {batch : Batch}

theorem leaves_foldl_insertLeaf (leaves : List LeafRecord) (store : DiskStore) :
    (leaves.foldl insertLeaf store).leaves = store.leaves.insertAll (leaves.map leafEntry) := by
  induction leaves generalizing store with
  | nil => rfl
  | cons leaf leaves ih => exact ih (store.insertLeaf leaf)

theorem nodes_foldl_insertNode (nodes : List (Merkle.NodeAddress × Digest)) (store : DiskStore) :
    (nodes.foldl insertNode store).nodes = store.nodes.insertAll (nodes.map nodeEntry) := by
  induction nodes generalizing store with
  | nil => rfl
  | cons node nodes ih => exact ih (store.insertNode node)

theorem ofWord_injective : Function.Injective Bytes.ofWord := fun _ _ => Bytes.ofWord_inj.mp

theorem toKey_injective : Function.Injective Merkle.NodeAddress.toKey :=
  fun _ _ => Merkle.NodeAddress.toKey_inj.mp

theorem mem_leafKeys {leaves : List LeafRecord} {sequence : UInt64} :
    Bytes.ofWord sequence ∈ (leaves.map leafEntry).map Prod.fst ↔
      sequence ∈ leaves.map LeafRecord.sequence := by
  rw [← List.mem_map_of_injective ofWord_injective, List.map_map, List.map_map]
  rfl

theorem mem_nodeKeys {nodes : List (Merkle.NodeAddress × Digest)} {address : Merkle.NodeAddress} :
    address.toKey ∈ (nodes.map nodeEntry).map Prod.fst ↔ address ∈ nodes.map Prod.fst := by
  rw [← List.mem_map_of_injective toKey_injective, List.map_map, List.map_map]
  rfl

theorem leafIndex_foldl_insertLeaf (leaves : List LeafRecord) (store : DiskStore) (hash : Digest) :
    (leaves.foldl insertLeaf store).leafIndex.find? hash.bytes =
      (store.leafIndex.find? hash.bytes).or
        (((leaves.find? fun leaf => leaf.leafHash = hash).map LeafRecord.sequence).map
          Bytes.ofWord) := by
  induction leaves generalizing store with
  | nil => simp
  | cons leaf leaves ih =>
      rw [List.foldl_cons, ih, insertLeaf, Table.find?_insertIfAbsent, Option.or_assoc]
      by_cases here : leaf.leafHash = hash
      · simp [here]
      · simp [here, bytes_inj]

/-! ### What a batch changes -/

structure Took (store after : DiskStore) (batch : Batch) : Prop where
  numbered : ∃ first, Numbered first batch.leaves
  size : after.size = .ok batch.newSize
  leaves : after.leaves = store.leaves.insertAll (batch.leaves.map leafEntry)
  leafIndex : after.leafIndex = (batch.leaves.foldl insertLeaf store).leafIndex
  nodes : after.nodes = store.nodes.insertAll (batch.nodes.map nodeEntry)
  treeHead : after.info.find? treeHeadKey = store.info.find? treeHeadKey

theorem commit_took (committed : store.commit batch = .ok after) : Took store after batch := by
  rw [commit_eq] at committed
  cases counted : store.size with
  | error cause => simp [counted, bind, Except.bind] at committed
  | ok count =>
      cases valid : batch.validate count with
      | error cause => simp [counted, valid, bind, Except.bind] at committed
      | ok _ =>
          simp only [counted, valid, bind, Except.bind, pure, Except.pure,
            Except.ok.injEq] at committed
          rw [← UInt64.ofNat_toNat (x := count), Batch.validate_ok_iff] at valid
          subst committed
          constructor
          · exact ⟨count.toNat, valid.2⟩
          · exact size_insert_sizeKey _ _
          · rw [leaves_foldl_insertNode, leaves_foldl_insertLeaf]
          · rw [leafIndex_foldl_insertNode]
          · rw [nodes_foldl_insertNode, nodes_foldl_insertLeaf]
          · simp [Table.find?_insert, show sizeKey ≠ treeHeadKey by decide]

/-! ### Leaves and nodes of the batch -/

theorem decode_leafEntry {leaf : LeafRecord} (storable : leaf.Storable) :
    decodePacked LeafRecord.packed (leafEntry leaf).2 = .ok leaf :=
  decodePacked_write (LeafRecord.packed_readsBack storable)

theorem Took.find?_leaf (took : Took store after batch) (fits : batch.leaves.length ≤ 2 ^ 64)
    {leaf : LeafRecord} (member : leaf ∈ batch.leaves) :
    after.leaves.find? (Bytes.ofWord leaf.sequence) = some (leafEntry leaf).2 := by
  obtain ⟨first, numbered⟩ := took.numbered
  have distinct := numbered.distinct fits
  obtain ⟨earlier, later, split⟩ := List.append_of_mem member
  rw [split, List.map_append, List.map_cons, List.nodup_append, List.nodup_cons] at distinct
  have last : (leafEntry leaf).1 ∉ (later.map leafEntry).map Prod.fst :=
    mem_leafKeys.not.mpr distinct.2.1.1
  rw [took.leaves, split, List.map_append, List.map_cons]
  exact Table.find?_insertAll_of_last last

theorem Took.leaf?_eq (took : Took store after batch) (fits : batch.leaves.length ≤ 2 ^ 64)
    {leaf : LeafRecord} (storable : leaf.Storable) (member : leaf ∈ batch.leaves) :
    LeafStore.leaf? after leaf.sequence = .ok (some leaf) := by
  simp only [LeafStore.leaf?, took.find?_leaf fits member, decodeEntry, decode_leafEntry storable]
  rfl

theorem Took.leaf?_of_absent (took : Took store after batch) {sequence : UInt64}
    (absent : sequence ∉ batch.leaves.map LeafRecord.sequence) :
    LeafStore.leaf? after sequence = LeafStore.leaf? store sequence := by
  simp only [LeafStore.leaf?, took.leaves,
    Table.find?_insertAll_of_absent (mem_leafKeys.not.mpr absent)]

theorem exists_mapM {α β : Type} {decode : α → Except StoreError β} {entries : List α}
    (each : ∀ entry ∈ entries, ∃ value, decode entry = .ok value) :
    ∃ values, entries.mapM decode = .ok values ∧
      ∀ entry ∈ entries, ∃ value ∈ values, decode entry = .ok value := by
  induction entries with
  | nil => exact ⟨[], rfl, by simp⟩
  | cons entry entries ih =>
      obtain ⟨value, first⟩ := each entry List.mem_cons_self
      obtain ⟨values, others, found⟩ :=
        ih fun later member => each later (List.mem_cons_of_mem _ member)
      refine ⟨value :: values, ?_, ?_⟩
      · simp only [List.mapM_cons, first, others, bind, Except.bind, pure, Except.pure]
      · intro sought member
        rcases List.mem_cons.mp member with rfl | later
        · exact ⟨value, List.mem_cons_self, first⟩
        · obtain ⟨other, otherMember, decoded⟩ := found sought later
          exact ⟨other, List.mem_cons_of_mem _ otherMember, decoded⟩

theorem exists_of_mapM {α β : Type} {decode : α → Except StoreError β} {entries : List α}
    {values : List β} (read : entries.mapM decode = .ok values) :
    ∀ entry ∈ entries, ∃ value, decode entry = .ok value := by
  induction entries generalizing values with
  | nil => simp
  | cons entry entries ih =>
      simp only [List.mapM_cons, bind, Except.bind, pure, Except.pure] at read
      cases first : decode entry with
      | error cause => simp [first] at read
      | ok value =>
          cases others : entries.mapM decode with
          | error cause => simp [first, others] at read
          | ok values =>
              intro sought member
              rcases List.mem_cons.mp member with rfl | later
              · exact ⟨value, first⟩
              · exact ih others sought later

theorem exists_mapM_filter {β : Type} {decode : Bytes × Bytes → Except StoreError β}
    {table : Table} {added : List (Bytes × Bytes)} {earlier : List β} {keep : Bytes × Bytes → Bool}
    (readable : (table.entries.filter keep).mapM decode = .ok earlier)
    (each : ∀ entry ∈ added, ∃ value, decode entry = .ok value) :
    ∃ values, ((table.insertAll added).entries.filter keep).mapM decode = .ok values ∧
      ∀ entry, (table.insertAll added).find? entry.1 = some entry.2 → keep entry = true →
        ∃ value ∈ values, decode entry = .ok value := by
  have decodes : ∀ entry ∈ (table.insertAll added).entries.filter keep,
      ∃ value, decode entry = .ok value := by
    intro entry member
    rw [List.mem_filter] at member
    rcases Table.mem_entries_insertAll member.1 with new | old
    · exact each entry new
    · exact exists_of_mapM readable entry (List.mem_filter.mpr ⟨old, member.2⟩)
  obtain ⟨values, read, found⟩ := exists_mapM decodes
  refine ⟨values, read, ?_⟩
  intro entry present kept
  exact found entry (List.mem_filter.mpr ⟨Table.mem_of_find? present, kept⟩)

theorem Took.leafRange_ok (took : Took store after batch) (fits : batch.leaves.length ≤ 2 ^ 64)
    (storable : ∀ leaf ∈ batch.leaves, leaf.Storable) {start stop : UInt64}
    {earlier : List LeafRecord} (readable : store.leafRange start stop = .ok earlier) :
    ∃ records, after.leafRange start stop = .ok records ∧
      ∀ leaf ∈ batch.leaves, start ≤ leaf.sequence → leaf.sequence < stop → leaf ∈ records := by
  rw [leafRange, Table.range] at readable ⊢
  rw [took.leaves]
  have each : ∀ entry ∈ batch.leaves.map leafEntry,
      ∃ record, decodePacked LeafRecord.packed entry.2 = .ok record := by
    rw [List.forall_mem_map]
    exact fun leaf member => ⟨leaf, decode_leafEntry (storable leaf member)⟩
  obtain ⟨records, read, found⟩ := exists_mapM_filter readable each
  refine ⟨records, read, ?_⟩
  intro leaf member reached before
  have present := took.find?_leaf fits member
  rw [took.leaves] at present
  obtain ⟨record, recordMember, decoded⟩ := found (leafEntry leaf) present (by
    simpa [leafEntry, ← Bytes.below_ofWord] using And.intro (UInt64.not_lt.mpr reached) before)
  rw [decode_leafEntry (storable leaf member), Except.ok.injEq] at decoded
  rw [decoded]
  exact recordMember

theorem Took.nodes_ok (took : Took store after batch)
    {earlier : List (Merkle.NodeAddress × Digest)}
    (readable : LeafStore.nodes store = .ok earlier) :
    ∃ nodes, LeafStore.nodes after = .ok nodes ∧
      ∀ before node later, batch.nodes = before ++ node :: later →
        node.1 ∉ later.map Prod.fst → node ∈ nodes := by
  simp only [LeafStore.nodes] at readable ⊢
  have all : ∀ entries : List (Bytes × Bytes), entries = entries.filter fun _ => true :=
    fun _ => (List.filter_eq_self.mpr fun _ _ => rfl).symm
  have each : ∀ entry ∈ batch.nodes.map nodeEntry, ∃ node, decodeNode entry = .ok node := by
    rw [List.forall_mem_map]
    exact fun node _ => ⟨node, decodeNode_nodeEntry node⟩
  rw [all store.nodes.entries] at readable
  rw [all after.nodes.entries, took.nodes]
  obtain ⟨nodes, read, found⟩ := exists_mapM_filter readable each
  refine ⟨nodes, read, ?_⟩
  intro before node later split last
  have lastKey : (nodeEntry node).1 ∉ (later.map nodeEntry).map Prod.fst :=
    mem_nodeKeys.not.mpr last
  rw [split, List.map_append, List.map_cons] at found
  obtain ⟨same, sameMember, decoded⟩ :=
    found (nodeEntry node) (Table.find?_insertAll_of_last lastKey) rfl
  rw [decodeNode_nodeEntry, Except.ok.injEq] at decoded
  rw [decoded]
  exact sameMember

theorem Took.sequenceOf?_eq (took : Took store after batch) {hash : Digest}
    {earlier : Option UInt64} (known : LeafStore.sequenceOf? store hash = .ok earlier) :
    LeafStore.sequenceOf? after hash =
      .ok (earlier.or
        ((batch.leaves.find? fun leaf => leaf.leafHash = hash).map LeafRecord.sequence)) := by
  simp only [LeafStore.sequenceOf?, took.leafIndex, leafIndex_foldl_insertLeaf] at known ⊢
  cases present : store.leafIndex.find? hash.bytes with
  | none =>
      rw [present] at known
      obtain rfl := Except.ok.inj known
      rw [Option.none_or, Option.none_or]
      exact decodeEntry_map fun sequence _ => decodeWord_ofWord sequence
  | some entry =>
      rw [present] at known
      rw [Option.some_or, known]
      cases decoded : decodeWord entry with
      | error cause => simp [decodeEntry, decoded, Except.map] at known
      | ok sequence =>
          simp only [decodeEntry, decoded, Except.map, Except.ok.injEq] at known
          subst known
          rfl

structure ReadsBack (store after : DiskStore) (batch : Batch) : Prop where
  size : LeafStore.size after = .ok batch.newSize
  leaf : ∀ leaf ∈ batch.leaves, LeafStore.leaf? after leaf.sequence = .ok (some leaf)
  otherLeaf : ∀ sequence ∉ batch.leaves.map LeafRecord.sequence,
    LeafStore.leaf? after sequence = LeafStore.leaf? store sequence
  range : ∀ start stop earlier, LeafStore.leaves store start stop = .ok earlier →
    ∃ records, LeafStore.leaves after start stop = .ok records ∧
      ∀ leaf ∈ batch.leaves, start ≤ leaf.sequence → leaf.sequence < stop → leaf ∈ records
  /-- A hash leads to its first leaf, which may be one that was there before. -/
  sequenceOf : ∀ hash earlier, LeafStore.sequenceOf? store hash = .ok earlier →
    LeafStore.sequenceOf? after hash = .ok (earlier.or
      ((batch.leaves.find? fun leaf => leaf.leafHash = hash).map LeafRecord.sequence))
  /-- Of several nodes with one address the last is kept. -/
  nodes : ∀ earlier, LeafStore.nodes store = .ok earlier →
    ∃ nodes, LeafStore.nodes after = .ok nodes ∧
      ∀ before node later, batch.nodes = before ++ node :: later →
        node.1 ∉ later.map Prod.fst → node ∈ nodes
  treeHead : LeafStore.treeHead? after = LeafStore.treeHead? store

theorem commit_readsBack (committed : store.commit batch = .ok after)
    (fits : batch.leaves.length ≤ 2 ^ 64) (storable : ∀ leaf ∈ batch.leaves, leaf.Storable) :
    ReadsBack store after batch := by
  have took := commit_took committed
  constructor
  · exact took.size
  · exact fun leaf member => took.leaf?_eq fits (storable leaf member) member
  · exact fun sequence absent => took.leaf?_of_absent absent
  · exact fun start stop earlier readable => took.leafRange_ok fits storable readable
  · exact fun hash earlier known => took.sequenceOf?_eq known
  · exact fun earlier readable => took.nodes_ok readable
  · simp only [LeafStore.treeHead?, took.treeHead]

/-! ### The tree head -/

theorem treeHead?_putTreeHead {head : SignedTreeHead} (fits : head.signature.length < 2 ^ 64)
    (written : LeafStore.putTreeHead store head = .ok after) :
    LeafStore.treeHead? after = .ok (some head) := by
  obtain rfl := Except.ok.inj written
  simp only [LeafStore.treeHead?, Table.find?_insert, if_true, decodeEntry]
  rw [decodePacked_write (SignedTreeHead.packed_readsBack fits)]
  rfl

theorem size_putTreeHead {head : SignedTreeHead}
    (written : LeafStore.putTreeHead store head = .ok after) : after.size = store.size := by
  obtain rfl := Except.ok.inj written
  rw [size, size, Table.find?_insert, if_neg (by decide)]

end DiskStore

end VerifiableLog
