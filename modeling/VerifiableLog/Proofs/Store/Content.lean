import Std.Data.HashMap.Lemmas
import VerifiableLog.Proofs.Packed.RoundTrip
import VerifiableLog.Store.Memory

/-!
What a store holds, whatever the kind of store: the leaves in order, the nodes in any order and the
latest tree head. A store is lawful if its answers are read off that content, if a batch that it
takes is added to the content, and if one that it refuses leaves the content alone.
-/

namespace VerifiableLog

/-! ### Numbered records -/

def Numbered (first : Nat) : List LeafRecord → Prop
  | [] => True
  | record :: records => record.sequence = UInt64.ofNat first ∧ Numbered (first + 1) records

theorem numbered_append {first : Nat} {left right : List LeafRecord} :
    Numbered first (left ++ right) ↔
      Numbered first left ∧ Numbered (first + left.length) right := by
  induction left generalizing first with
  | nil => simp [Numbered]
  | cons record left ih =>
      rw [List.cons_append, Numbered, Numbered, ih, and_assoc, List.length_cons,
        show first + 1 + left.length = first + (left.length + 1) by omega]

theorem checkSequences_ok_iff {first : Nat} {records : List LeafRecord} :
    Batch.checkSequences (UInt64.ofNat first) records = .ok () ↔ Numbered first records := by
  induction records generalizing first with
  | nil => simp [Batch.checkSequences, Numbered]
  | cons record records ih =>
      have next : UInt64.ofNat first + 1 = UInt64.ofNat (first + 1) := by simp
      rw [Batch.checkSequences, Numbered]
      by_cases expected : record.sequence = UInt64.ofNat first
      · rw [if_neg (not_not_intro expected), next, ih]
        simp [expected]
      · simp [expected]

theorem Batch.validate_ok_iff {batch : Batch} {count : Nat} :
    batch.validate (UInt64.ofNat count) = .ok () ↔
      batch.firstSequence = UInt64.ofNat count ∧ Numbered count batch.leaves := by
  rw [Batch.validate]
  by_cases expected : batch.firstSequence = UInt64.ofNat count
  · rw [if_neg (not_not_intro expected), checkSequences_ok_iff]
    simp [expected]
  · simp [expected]

theorem toNat_ofNat_of_numbered {first : Nat} {record : LeafRecord} {records : List LeafRecord}
    (fits : first + (record :: records).length ≤ 2 ^ 64) : (UInt64.ofNat first).toNat = first := by
  rw [List.length_cons] at fits
  exact UInt64.toNat_ofNat_of_lt' (by show first < 2 ^ 64; omega)

theorem Numbered.find?_eq {first : Nat} {records : List LeafRecord}
    (numbered : Numbered first records) (fits : first + records.length ≤ 2 ^ 64)
    {sequence : UInt64} (reached : first ≤ sequence.toNat) :
    (records.find? fun record => record.sequence = sequence) =
      records[sequence.toNat - first]? := by
  induction records generalizing first with
  | nil => rfl
  | cons record records ih =>
      have value := toNat_ofNat_of_numbered fits
      simp only [List.length_cons] at fits
      obtain ⟨here, rest⟩ := numbered
      by_cases found : sequence.toNat = first
      · have same : record.sequence = sequence := by
          rw [here, ← UInt64.toNat_inj, value, found]
        simp [same, found]
      · have other : record.sequence ≠ sequence := by
          rw [here, ne_eq, ← UInt64.toNat_inj, value]
          omega
        have place : sequence.toNat - first = sequence.toNat - (first + 1) + 1 := by omega
        rw [List.find?_cons_of_neg (by simpa using other), ih rest (by omega) (by omega), place,
          List.getElem?_cons_succ]

theorem Numbered.filter_eq {first : Nat} {records : List LeafRecord}
    (numbered : Numbered first records) (fits : first + records.length ≤ 2 ^ 64)
    (start stop : UInt64) :
    (records.filter fun record =>
        !decide (record.sequence < start) && decide (record.sequence < stop)) =
      (records.take (stop.toNat - first)).drop (start.toNat - first) := by
  induction records generalizing first with
  | nil => simp
  | cons record records ih =>
      have value := toNat_ofNat_of_numbered fits
      simp only [List.length_cons] at fits
      obtain ⟨here, rest⟩ := numbered
      have later := ih rest (by omega)
      have place : record.sequence.toNat = first := by rw [here, value]
      rw [List.filter_cons, later]
      simp only [UInt64.lt_iff_toNat_lt, place]
      by_cases beforeStop : first < stop.toNat
      · have room : stop.toNat - first = stop.toNat - (first + 1) + 1 := by omega
        rw [room, List.take_succ_cons]
        by_cases beforeStart : first < start.toNat
        · have skipped : start.toNat - first = start.toNat - (first + 1) + 1 := by omega
          rw [skipped, List.drop_succ_cons, if_neg (by simp [beforeStart])]
        · have kept : start.toNat - first = 0 := by omega
          have keptNext : start.toNat - (first + 1) = 0 := by omega
          rw [kept, keptNext, if_pos (by simp [beforeStop, beforeStart]), List.drop_zero,
            List.drop_zero]
      · have none : stop.toNat - first = 0 := by omega
        have noneNext : stop.toNat - (first + 1) = 0 := by omega
        rw [none, noneNext, if_neg (by simp [beforeStop]), List.take_zero, List.take_zero,
          List.drop_nil, List.drop_nil]

theorem Numbered.getElem?_sequence {first : Nat} {records : List LeafRecord}
    (numbered : Numbered first records) (fits : first + records.length ≤ 2 ^ 64)
    {record : LeafRecord} (member : record ∈ records) :
    first ≤ record.sequence.toNat ∧
      records[record.sequence.toNat - first]? = some record := by
  induction records generalizing first with
  | nil => simp at member
  | cons head records ih =>
      have value := toNat_ofNat_of_numbered fits
      simp only [List.length_cons] at fits
      obtain ⟨here, rest⟩ := numbered
      rcases List.mem_cons.mp member with rfl | later
      · rw [here, value]
        simp
      · obtain ⟨reached, found⟩ := ih rest (by omega) later
        have place : record.sequence.toNat - first = record.sequence.toNat - (first + 1) + 1 := by
          omega
        exact ⟨by omega, by rw [place, List.getElem?_cons_succ, found]⟩

theorem firstSequence_concat (records : List LeafRecord) (record : LeafRecord) (hash : Digest) :
    ((records ++ [record]).find? fun other => other.leafHash = hash).map LeafRecord.sequence =
      ((records.find? fun other => other.leafHash = hash).map LeafRecord.sequence).or
        (if record.leafHash = hash then some record.sequence else none) := by
  rw [List.find?_append]
  cases records.find? fun other => other.leafHash = hash with
  | some earlier => rfl
  | none => by_cases found : record.leafHash = hash <;> simp [found]

/-! ### Content -/

structure Content where
  records : List LeafRecord
  nodes : List (Merkle.NodeAddress × Digest)
  treeHead : Option SignedTreeHead

namespace Content

def empty : Content := ⟨[], [], none⟩

def add (content : Content) (batch : Batch) : Content :=
  { content with
    records := content.records ++ batch.leaves
    nodes := content.nodes ++ batch.nodes }

def withHead (content : Content) (head : SignedTreeHead) : Content :=
  { content with treeHead := some head }

/-- Words of 64 bits count the leaves and the bytes of everything, and no node is given twice. -/
structure Storable (content : Content) : Prop where
  fits : content.records.length < 2 ^ 64
  records : ∀ record ∈ content.records, record.Storable
  distinct : (content.nodes.map Prod.fst).Nodup
  signature : ∀ head ∈ content.treeHead, head.signature.length < 2 ^ 64

theorem empty_storable : empty.Storable where
  fits := by simp [empty]
  records := by simp [empty]
  distinct := by simp [empty]
  signature := by simp [empty]

end Content

class LawfulStore (σ : Type) [LeafStore σ] where
  Holds : σ → Content → Prop
  size_eq {store : σ} {content : Content} (holds : Holds store content) :
    LeafStore.size store = .ok (UInt64.ofNat content.records.length)
  leaf?_eq {store : σ} {content : Content} (holds : Holds store content) (sequence : UInt64) :
    LeafStore.leaf? store sequence = .ok content.records[sequence.toNat]?
  leaves_eq {store : σ} {content : Content} (holds : Holds store content) (start stop : UInt64) :
    LeafStore.leaves store start stop =
      .ok ((content.records.take stop.toNat).drop start.toNat)
  sequenceOf?_eq {store : σ} {content : Content} (holds : Holds store content) (hash : Digest) :
    LeafStore.sequenceOf? store hash =
      .ok ((content.records.find? fun record => record.leafHash = hash).map LeafRecord.sequence)
  nodes_eq {store : σ} {content : Content} (holds : Holds store content) :
    ∃ nodes, LeafStore.nodes store = .ok nodes ∧ nodes.Perm content.nodes
  treeHead?_eq {store : σ} {content : Content} (holds : Holds store content) :
    LeafStore.treeHead? store = .ok content.treeHead
  commit_ok {store : σ} {content : Content} {batch : Batch} (holds : Holds store content)
    (storable : (content.add batch).Storable) (taken : (LeafStore.commit store batch).1 = .ok ()) :
    Holds (LeafStore.commit store batch).2 (content.add batch)
  commit_error {store : σ} {content : Content} {batch : Batch} {cause : StoreError}
    (holds : Holds store content) (refused : (LeafStore.commit store batch).1 = .error cause) :
    Holds (LeafStore.commit store batch).2 content
  putTreeHead_ok {store after : σ} {content : Content} {head : SignedTreeHead}
    (holds : Holds store content) (storable : (content.withHead head).Storable)
    (written : LeafStore.putTreeHead store head = .ok after) :
    Holds after (content.withHead head)

/-! ### The store in memory -/

namespace MemoryStore

structure Represents (store : MemoryStore) (content : Content) : Prop where
  leaves : store.leaves.toList = content.records
  first : ∀ hash : Digest, store.index[hash]? =
    (content.records.find? fun record => record.leafHash = hash).map LeafRecord.sequence
  nodes : store.nodes = content.nodes
  treeHead : store.treeHead = content.treeHead

theorem empty_represents : Represents .empty .empty where
  leaves := rfl
  first := fun _ => Std.HashMap.getElem?_empty
  nodes := rfl
  treeHead := rfl

theorem getElem?_insertIfNew_eq_or (index : Std.HashMap Digest UInt64) (hash sought : Digest)
    (sequence : UInt64) : (index.insertIfNew hash sequence)[sought]? =
      index[sought]?.or (if hash = sought then some sequence else none) := by
  rw [Std.HashMap.getElem?_insertIfNew]
  by_cases found : hash = sought
  · subst found
    by_cases present : hash ∈ index
    · simp [present]
    · simp [present]
  · simp [found]

theorem Represents.addLeaf {store : MemoryStore} {content : Content}
    (represents : store.Represents content) (leaf : LeafRecord) :
    (store.addLeaf leaf).Represents { content with records := content.records ++ [leaf] } where
  leaves := by rw [MemoryStore.addLeaf, Array.toList_push, represents.leaves]
  first := by
    intro hash
    rw [MemoryStore.addLeaf, getElem?_insertIfNew_eq_or, represents.first, firstSequence_concat]
  nodes := represents.nodes
  treeHead := represents.treeHead

theorem Represents.addLeaves {store : MemoryStore} {content : Content}
    (represents : store.Represents content) (leaves : List LeafRecord) :
    (leaves.foldl MemoryStore.addLeaf store).Represents
      { content with records := content.records ++ leaves } := by
  induction leaves generalizing store content with
  | nil => simpa using represents
  | cons leaf leaves ih => simpa using ih (represents.addLeaf leaf)

theorem Represents.commit_ok {store after : MemoryStore} {content : Content} {batch : Batch}
    (represents : store.Represents content) (committed : store.commit batch = .ok after) :
    after.Represents (content.add batch) := by
  rw [commit] at committed
  cases valid : batch.validate store.size with
  | error cause => simp [valid, bind, Except.bind] at committed
  | ok _ =>
      simp only [valid, bind, Except.bind, pure, Except.pure, Except.ok.injEq] at committed
      have added := represents.addLeaves batch.leaves
      subst committed
      exact ⟨added.leaves, added.first, congrArg (· ++ batch.nodes) added.nodes, added.treeHead⟩

instance : LawfulStore MemoryStore where
  Holds := Represents
  size_eq := by
    intro store content represents
    simp only [LeafStore.size, size, ← represents.leaves, Array.length_toList]
  leaf?_eq := by
    intro store content represents sequence
    simp only [LeafStore.leaf?, ← represents.leaves, Array.getElem?_toList]
  leaves_eq := by
    intro store content represents start stop
    simp [LeafStore.leaves, ← represents.leaves, List.drop_take]
  sequenceOf?_eq := by
    intro store content represents hash
    simp only [LeafStore.sequenceOf?, sequenceOf?, represents.first]
  nodes_eq := by
    intro store content represents
    exact ⟨store.nodes, rfl, represents.nodes ▸ List.Perm.refl _⟩
  treeHead?_eq := by
    intro store content represents
    simp only [LeafStore.treeHead?, represents.treeHead]
  commit_ok := by
    intro store content batch represents _ taken
    simp only [LeafStore.commit] at taken ⊢
    split at taken
    · rename_i committed
      exact represents.commit_ok committed
    · simp at taken
  commit_error := by
    intro store content batch cause represents refused
    simp only [LeafStore.commit] at refused ⊢
    split at refused
    · simp at refused
    · exact represents
  putTreeHead_ok := by
    intro store after content head represents _ written
    cases written
    exact ⟨represents.leaves, represents.first, represents.nodes, rfl⟩

end MemoryStore

end VerifiableLog
