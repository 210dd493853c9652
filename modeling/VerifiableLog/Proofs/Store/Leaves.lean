import VerifiableLog.Proofs.Store.Ledger

/-!
The leaves of a store, whatever else is in it. A batch that the store takes puts its leaves behind
the others, be its nodes new or known, and neither a head nor a failure to come touches the leaves.
What is read of them is read off the list of all leaves that were ever taken.
-/

namespace VerifiableLog

open LawfulStore (Holds)

/-! ### Stores without their nodes -/

namespace DiskStore

def withoutNodes (store : DiskStore) : DiskStore := { store with nodes := .empty }

theorem foldl_insertLeaf_withoutNodes (records : List LeafRecord) (store : DiskStore) :
    records.foldl insertLeaf store.withoutNodes = (records.foldl insertLeaf store).withoutNodes :=
  List.foldl_hom withoutNodes fun _ _ => rfl

theorem foldl_insertNode_withoutNodes (nodes : List (Merkle.NodeAddress × Digest))
    (store : DiskStore) : (nodes.foldl insertNode store).withoutNodes = store.withoutNodes := by
  exact foldl_keeps withoutNodes insertNode (fun _ _ => rfl) nodes store

theorem commit_withoutNodes (store : DiskStore) (batch : Batch) :
    store.withoutNodes.commit { batch with nodes := [] } =
      (store.commit batch).map withoutNodes := by
  have size : store.withoutNodes.size = store.size := rfl
  simp only [commit_eq, size]
  cases store.size with
  | error cause => rfl
  | ok size =>
      have valid : Batch.validate { batch with nodes := [] } size = batch.validate size := rfl
      simp only [bind, Except.bind, valid]
      cases batch.validate size with
      | error cause => rfl
      | ok _ =>
          simp only [foldl_insertLeaf_withoutNodes, List.foldl_nil, pure, Except.pure, Except.map]
          rw [← foldl_insertNode_withoutNodes batch.nodes]
          rfl

end DiskStore

namespace MemoryStore

def withoutNodes (store : MemoryStore) : MemoryStore := { store with nodes := [] }

theorem commit_withoutNodes (store : MemoryStore) (batch : Batch) :
    store.withoutNodes.commit { batch with nodes := [] } =
      (store.commit batch).map withoutNodes := by
  have valid : Batch.validate { batch with nodes := [] } store.withoutNodes.size =
      batch.validate store.size := rfl
  have leaves : batch.leaves.foldl addLeaf store.withoutNodes =
      (batch.leaves.foldl addLeaf store).withoutNodes := List.foldl_hom withoutNodes fun _ _ => rfl
  simp only [commit, valid, leaves]
  cases batch.validate store.size <;> rfl

end MemoryStore

namespace Backend

def withoutNodes : Backend → Backend
  | .memory store => .memory store.withoutNodes
  | .disk store => .disk store.withoutNodes

theorem commit_withoutNodes (backend : Backend) (batch : Batch) :
    LeafStore.commit backend.withoutNodes { batch with nodes := [] } =
      (LeafStore.commit backend batch).map id withoutNodes := by
  cases backend with
  | memory store =>
      simp only [LeafStore.commit, withoutNodes, store.commit_withoutNodes]
      cases store.commit batch <;> rfl
  | disk store =>
      simp only [LeafStore.commit, withoutNodes, store.commit_withoutNodes]
      cases store.commit batch <;> rfl

theorem putTreeHead_withoutNodes (backend : Backend) (head : SignedTreeHead) :
    LeafStore.putTreeHead backend.withoutNodes head =
      (LeafStore.putTreeHead backend head).map withoutNodes := by
  cases backend <;> rfl

theorem leaf?_withoutNodes (backend : Backend) :
    LeafStore.leaf? backend.withoutNodes = LeafStore.leaf? backend := by
  cases backend <;> rfl

theorem leaves_withoutNodes (backend : Backend) :
    LeafStore.leaves backend.withoutNodes = LeafStore.leaves backend := by
  cases backend <;> rfl

theorem sequenceOf?_withoutNodes (backend : Backend) :
    LeafStore.sequenceOf? backend.withoutNodes = LeafStore.sequenceOf? backend := by
  cases backend <;> rfl

end Backend

/-! ### The list of leaves -/

namespace Storage

/-- As far as its leaves go, the store is the list of these records. -/
structure Lists (storage : Storage) (records : List LeafRecord) : Prop where
  fits : records.length < 2 ^ 64
  storable : ∀ record ∈ records, record.Storable
  numbered : Numbered 0 records
  holds : ∃ head : Option SignedTreeHead, (∀ present ∈ head, present.signature.length < 2 ^ 64) ∧
    Holds storage.backend.withoutNodes ⟨records, [], head⟩

/-- The store comes from `start` by batches that were taken, one after the other, whose leaves are
the records. Heads may have been written in between, and failures ordered. -/
inductive Takes (start : Storage) : List LeafRecord → Storage → Prop
  | nothing : Takes start [] start
  | commit {records : List LeafRecord} {store after : Storage} {batch : Batch}
      (earlier : Takes start records store)
      (taken : LeafStore.commit store batch = (.ok (), after)) :
      Takes start (records ++ batch.leaves) after
  | putTreeHead {records : List LeafRecord} {store after : Storage} {head : SignedTreeHead}
      (earlier : Takes start records store) (fits : head.signature.length < 2 ^ 64)
      (written : LeafStore.putTreeHead store head = .ok after) : Takes start records after
  | inject {records : List LeafRecord} {store : Storage} (earlier : Takes start records store)
      (fault : Fault) : Takes start records (store.inject fault)

theorem commit_ok_backend {storage after : Storage} {batch : Batch}
    (taken : LeafStore.commit storage batch = (.ok (), after)) :
    LeafStore.commit storage.backend batch = (.ok (), after.backend) := by
  cases storage with
  | bare backend =>
      have under : (LeafStore.commit backend batch).map id bare = (.ok (), after) := taken
      rcases inner : LeafStore.commit backend batch with ⟨result, next⟩
      rw [inner] at under
      obtain ⟨rfl, rfl⟩ := Prod.mk.inj under
      exact inner
  | faulty store =>
      have under : (LeafStore.commit store batch).map id faulty = (.ok (), after) := taken
      by_cases pending : store.failingCommits > 0
      · simp [FaultyStore.commit_of_pending pending] at under
      · rw [FaultyStore.commit_of_none_pending pending] at under
        rcases inner : LeafStore.commit store.inner batch with ⟨result, next⟩
        rw [inner] at under
        obtain ⟨rfl, rfl⟩ := Prod.mk.inj under
        exact inner

theorem Fresh.lists {storage : Storage} (fresh : storage.Fresh) : storage.Lists [] := by
  refine ⟨by simp, by simp, trivial, none, by simp, ?_⟩
  rcases fresh with memory | disk
  · rw [memory]
    exact MemoryStore.empty_represents
  · rw [disk]
    exact DiskStore.empty_represents

namespace Lists

variable {storage after : Storage} {records : List LeafRecord}

theorem commit_result (lists : storage.Lists records) (batch : Batch) :
    (LeafStore.commit storage.backend batch).1 =
      batch.validate (UInt64.ofNat records.length) := by
  obtain ⟨head, _, holds⟩ := lists.holds
  have result := Backend.commit_result holds { batch with nodes := [] }
  rw [storage.backend.commit_withoutNodes] at result
  exact result

theorem commit (lists : storage.Lists records) {batch : Batch}
    (fits : (records ++ batch.leaves).length < 2 ^ 64)
    (storable : ∀ record ∈ batch.leaves, record.Storable)
    (taken : LeafStore.commit storage batch = (.ok (), after)) :
    after.Lists (records ++ batch.leaves) := by
  obtain ⟨head, signature, holds⟩ := lists.holds
  have under := storage.backend.commit_withoutNodes batch
  rw [commit_ok_backend taken] at under
  have accepted : (LeafStore.commit storage.backend.withoutNodes { batch with nodes := [] }).1 =
      .ok () := congrArg Prod.fst under
  have result := lists.commit_result batch
  rw [commit_ok_backend taken] at result
  have next := (Batch.validate_ok_iff.mp result.symm).2
  have allStorable : ∀ record ∈ records ++ batch.leaves, record.Storable := by
    intro record member
    rcases List.mem_append.mp member with earlier | new
    · exact lists.storable record earlier
    · exact storable record new
  have storableAfter : (Content.add ⟨records, [], head⟩ { batch with nodes := [] }).Storable :=
    ⟨fits, allStorable, by simp [Content.add], signature⟩
  have holdsAfter := LawfulStore.commit_ok holds storableAfter accepted
  rw [under] at holdsAfter
  refine ⟨fits, allStorable, ?_, head, signature, holdsAfter⟩
  rw [numbered_append, Nat.zero_add]
  exact ⟨lists.numbered, next⟩

theorem of_backend (lists : storage.Lists records) (same : after.backend = storage.backend) :
    after.Lists records := by
  obtain ⟨head, signature, holds⟩ := lists.holds
  refine ⟨lists.fits, lists.storable, lists.numbered, head, signature, ?_⟩
  rwa [same]

theorem putTreeHead (lists : storage.Lists records) {head : SignedTreeHead}
    (fits : head.signature.length < 2 ^ 64)
    (written : LeafStore.putTreeHead storage head = .ok after) : after.Lists records := by
  obtain ⟨old, _, holds⟩ := lists.holds
  have signature : ∀ present ∈ some head, present.signature.length < 2 ^ 64 := by
    rintro _ ⟨⟩
    exact fits
  rcases storage.putTreeHead_cases head with ⟨_, cause, refused⟩ | ⟨_, taken, kept, _, inner⟩
  · simp [refused] at written
  · obtain rfl := Except.ok.inj (kept.symm.trans written)
    have under := storage.backend.putTreeHead_withoutNodes head
    rw [inner] at under
    refine ⟨lists.fits, lists.storable, lists.numbered, some head, signature, ?_⟩
    exact LawfulStore.putTreeHead_ok holds ⟨lists.fits, lists.storable, by simp [Content.withHead],
      signature⟩ under

theorem takes {more : List LeafRecord} (lists : storage.Lists records)
    (taken : storage.Takes more after) (fits : (records ++ more).length < 2 ^ 64)
    (storable : ∀ record ∈ more, record.Storable) : after.Lists (records ++ more) := by
  induction taken with
  | nothing => simpa using lists
  | @commit earlier store after batch _ taken ih =>
      rw [← List.append_assoc] at fits ⊢
      have fitsEarlier : (records ++ earlier).length < 2 ^ 64 := by
        rw [List.length_append] at fits
        omega
      have listsEarlier := ih fitsEarlier fun record member =>
        storable record (List.mem_append_left _ member)
      exact listsEarlier.commit fits
        (fun record member => storable record (List.mem_append_right _ member)) taken
  | putTreeHead _ short written ih => exact (ih fits storable).putTreeHead short written
  | inject _ fault ih => exact (ih fits storable).of_backend (backend_inject _ fault)

theorem leaf?_eq (lists : storage.Lists records) (sequence : UInt64) :
    LeafStore.leaf? storage sequence = .ok records[sequence.toNat]? := by
  obtain ⟨head, _, holds⟩ := lists.holds
  have found := LawfulStore.leaf?_eq holds sequence
  rw [Backend.leaf?_withoutNodes] at found
  cases storage <;> exact found

theorem leaves_eq (lists : storage.Lists records) (start stop : UInt64) :
    LeafStore.leaves storage start stop =
      .ok ((records.take stop.toNat).drop start.toNat) := by
  obtain ⟨head, _, holds⟩ := lists.holds
  have found := LawfulStore.leaves_eq holds start stop
  rw [Backend.leaves_withoutNodes] at found
  cases storage <;> exact found

theorem sequenceOf?_eq (lists : storage.Lists records) (hash : Digest) :
    LeafStore.sequenceOf? storage hash =
      .ok ((records.find? fun record => record.leafHash = hash).map LeafRecord.sequence) := by
  obtain ⟨head, _, holds⟩ := lists.holds
  have found := LawfulStore.sequenceOf?_eq holds hash
  rw [Backend.sequenceOf?_withoutNodes] at found
  cases storage <;> exact found

end Lists

end Storage

end VerifiableLog
