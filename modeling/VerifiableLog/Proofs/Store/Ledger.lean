import Mathlib.Data.Multiset.ZeroCons
import VerifiableLog.Proofs.Store.Storage

/-!
Both kinds of store as one list of records. Calls are made on a store one after the other, batches
that it has to refuse among them, and a store on disk may be closed and opened again at any time.
Every answer is the one that the list gives, with the nodes and the latest tree head beside it.
-/

namespace VerifiableLog

open LawfulStore (Holds)

inductive StoreCall where
  | commit (batch : Batch)
  | putTreeHead (head : SignedTreeHead)
  | reopen
  | size
  | leaf (sequence : UInt64)
  | leaves (start stop : UInt64)
  | sequenceOf (hash : Digest)
  | nodes
  | treeHead

/-- Nodes are handed out in no particular order. -/
inductive StoreAnswer where
  | done
  | size (size : UInt64)
  | leaf (record : Option LeafRecord)
  | leaves (records : List LeafRecord)
  | sequence (sequence : Option UInt64)
  | nodes (nodes : Multiset (Merkle.NodeAddress × Digest))
  | treeHead (head : Option SignedTreeHead)

def StoreCall.Fits : StoreCall → Prop
  | .commit batch => ∀ record ∈ batch.leaves, record.Storable
  | .putTreeHead head => head.signature.length < 2 ^ 64
  | _ => True

def answersOf {State : Type}
    (serve : State → StoreCall → Except StoreError StoreAnswer × State) (state : State) :
    List StoreCall → List (Except StoreError StoreAnswer)
  | [] => []
  | call :: calls => (serve state call).1 :: answersOf serve (serve state call).2 calls

namespace Backend

/-- What is in memory is lost with the store, and a disk keeps its tables. -/
def reopen : Backend → Backend
  | .memory _ => .memory .empty
  | .disk store => .disk store

def serve (backend : Backend) : StoreCall → Except StoreError StoreAnswer × Backend
  | .commit batch =>
    let (result, after) := LeafStore.commit backend batch
    (result.map fun _ => .done, after)
  | .putTreeHead head =>
    match LeafStore.putTreeHead backend head with
    | .ok after => (.ok .done, after)
    | .error cause => (.error cause, backend)
  | .reopen => (.ok .done, backend.reopen)
  | .size => ((LeafStore.size backend).map .size, backend)
  | .leaf sequence => ((LeafStore.leaf? backend sequence).map .leaf, backend)
  | .leaves start stop => ((LeafStore.leaves backend start stop).map .leaves, backend)
  | .sequenceOf hash => ((LeafStore.sequenceOf? backend hash).map .sequence, backend)
  | .nodes => ((LeafStore.nodes backend).map fun nodes => .nodes nodes, backend)
  | .treeHead => ((LeafStore.treeHead? backend).map .treeHead, backend)

end Backend

/-! ### The list -/

namespace Content

/-- The first sequence in a batch that is not the next one, behind the one that is expected. -/
def mismatch? (content : Content) (batch : Batch) : Option (UInt64 × UInt64) :=
  let next := content.records.length
  let expected := next :: List.range' next batch.leaves.length
  let found := batch.firstSequence :: batch.leaves.map LeafRecord.sequence
  ((expected.map UInt64.ofNat).zip found).find? fun (expected, found) => expected ≠ found

def serve (content : Content) : StoreCall → Except StoreError StoreAnswer × Content
  | .commit batch =>
    match content.mismatch? batch with
    | some (expected, found) => (.error (.sequenceMismatch expected found), content)
    | none => (.ok .done, content.add batch)
  | .putTreeHead head => (.ok .done, content.withHead head)
  | .reopen => (.ok .done, content)
  | .size => (.ok (.size (UInt64.ofNat content.records.length)), content)
  | .leaf sequence => (.ok (.leaf content.records[sequence.toNat]?), content)
  | .leaves start stop =>
    (.ok (.leaves ((content.records.take stop.toNat).drop start.toNat)), content)
  | .sequenceOf hash =>
    let place := content.records.findIdx? fun record => record.leafHash = hash
    (.ok (.sequence (place.map UInt64.ofNat)), content)
  | .nodes => (.ok (.nodes content.nodes), content)
  | .treeHead => (.ok (.treeHead content.treeHead), content)

def afterCalls (content : Content) (calls : List StoreCall) : Content :=
  calls.foldl (fun content call => (content.serve call).2) content

theorem checkSequences_eq (first : Nat) (records : List LeafRecord) :
    Batch.checkSequences (UInt64.ofNat first) records =
      match (((List.range' first records.length).map UInt64.ofNat).zip
          (records.map LeafRecord.sequence)).find? fun (expected, found) => expected ≠ found with
      | some (expected, found) => .error (.sequenceMismatch expected found)
      | none => .ok () := by
  induction records generalizing first with
  | nil => rfl
  | cons record records ih =>
      have next : UInt64.ofNat first + 1 = UInt64.ofNat (first + 1) := by simp
      simp only [Batch.checkSequences, List.length_cons, List.range'_succ, List.map_cons,
        List.zip_cons_cons, List.find?_cons]
      by_cases expected : record.sequence = UInt64.ofNat first
      · rw [if_neg (not_not_intro expected), next, ih (first + 1)]
        simp [expected]
      · rw [if_pos expected]
        simp [Ne.symm expected]

theorem validate_eq (content : Content) (batch : Batch) :
    batch.validate (UInt64.ofNat content.records.length) =
      match content.mismatch? batch with
      | some (expected, found) => .error (.sequenceMismatch expected found)
      | none => .ok () := by
  simp only [Batch.validate, mismatch?, List.map_cons, List.zip_cons_cons, List.find?_cons]
  by_cases expected : batch.firstSequence = UInt64.ofNat content.records.length
  · rw [if_neg (not_not_intro expected), checkSequences_eq]
    simp [expected]
  · rw [if_pos expected]
    simp [Ne.symm expected]

theorem mismatch?_eq_none_iff {content : Content} {batch : Batch} :
    content.mismatch? batch = none ↔
      batch.firstSequence = UInt64.ofNat content.records.length ∧
        Numbered content.records.length batch.leaves := by
  rw [← Batch.validate_ok_iff, validate_eq]
  cases content.mismatch? batch <;> simp

theorem serve_numbered {content : Content} (numbered : Numbered 0 content.records)
    (call : StoreCall) : Numbered 0 (content.serve call).2.records := by
  cases call with
  | commit batch =>
      cases next : content.mismatch? batch with
      | some mismatch => simpa [serve, next] using numbered
      | none =>
          simp only [serve, next, add]
          rw [numbered_append, Nat.zero_add]
          exact ⟨numbered, (mismatch?_eq_none_iff.mp next).2⟩
  | putTreeHead | reopen | size | leaf | leaves | sequenceOf | nodes | treeHead => exact numbered

theorem serve_extends (content : Content) (call : StoreCall) :
    ∃ records nodes, (content.serve call).2.records = content.records ++ records ∧
      (content.serve call).2.nodes = content.nodes ++ nodes := by
  cases call with
  | commit batch =>
      cases next : content.mismatch? batch with
      | some mismatch => exact ⟨[], [], by simp [serve, next], by simp [serve, next]⟩
      | none =>
          exact ⟨batch.leaves, batch.nodes, by simp [serve, next, add], by simp [serve, next, add]⟩
  | putTreeHead | reopen | size | leaf | leaves | sequenceOf | nodes | treeHead =>
      exact ⟨[], [], by simp [serve, withHead], by simp [serve, withHead]⟩

theorem afterCalls_extends (content : Content) (calls : List StoreCall) :
    ∃ records nodes, (content.afterCalls calls).records = content.records ++ records ∧
      (content.afterCalls calls).nodes = content.nodes ++ nodes := by
  induction calls generalizing content with
  | nil => exact ⟨[], [], by simp [afterCalls], by simp [afterCalls]⟩
  | cons call calls ih =>
      obtain ⟨records, nodes, recordsNow, nodesNow⟩ := content.serve_extends call
      obtain ⟨moreRecords, moreNodes, recordsLater, nodesLater⟩ := ih (content.serve call).2
      refine ⟨records ++ moreRecords, nodes ++ moreNodes, ?_, ?_⟩
      · rw [← List.append_assoc, ← recordsNow]
        exact recordsLater
      · rw [← List.append_assoc, ← nodesNow]
        exact nodesLater

theorem serve_storable {content : Content} {call : StoreCall} (storable : content.Storable)
    (fits : call.Fits) (short : (content.serve call).2.records.length < 2 ^ 64)
    (distinct : ((content.serve call).2.nodes.map Prod.fst).Nodup) :
    (content.serve call).2.Storable := by
  refine ⟨short, ?_, distinct, ?_⟩
  · cases call with
    | commit batch =>
        cases next : content.mismatch? batch with
        | some mismatch => simpa [serve, next] using storable.records
        | none =>
            intro record member
            simp only [serve, next, add, List.mem_append] at member
            exact member.elim (storable.records record) (fits record)
    | putTreeHead | reopen | size | leaf | leaves | sequenceOf | nodes | treeHead =>
        exact storable.records
  · cases call with
    | commit batch =>
        cases next : content.mismatch? batch with
        | some mismatch => simpa [serve, next] using storable.signature
        | none => simpa [serve, next, add] using storable.signature
    | putTreeHead head =>
        rintro _ ⟨⟩
        exact fits
    | reopen | size | leaf | leaves | sequenceOf | nodes | treeHead => exact storable.signature

end Content

/-! ### One call -/

theorem Numbered.find?_map_sequence {first : Nat} {records : List LeafRecord}
    (numbered : Numbered first records) (isSought : LeafRecord → Bool) :
    (records.find? isSought).map LeafRecord.sequence =
      (records.findIdx? isSought).map fun index => UInt64.ofNat (first + index) := by
  induction records generalizing first with
  | nil => rfl
  | cons record records ih =>
      obtain ⟨here, rest⟩ := numbered
      rw [List.find?_cons, List.findIdx?_cons]
      cases found : isSought record with
      | true => simp [here]
      | false =>
          simp only [Bool.false_eq_true, if_false, ih rest, Option.map_map]
          congr 1
          funext index
          simp only [Function.comp_apply]
          rw [show first + 1 + index = first + (index + 1) by omega]

namespace Backend

def persists : Backend → Bool
  | .memory _ => false
  | .disk _ => true

theorem commit_result {backend : Backend} {content : Content} (holds : Holds backend content)
    (batch : Batch) :
    (LeafStore.commit backend batch).1 =
      batch.validate (UInt64.ofNat content.records.length) := by
  have size := LawfulStore.size_eq holds
  cases backend with
  | memory store =>
      have valid : store.size = UInt64.ofNat content.records.length := Except.ok.inj size
      simp only [LeafStore.commit, MemoryStore.commit, valid]
      cases batch.validate (UInt64.ofNat content.records.length) <;> rfl
  | disk store =>
      have valid : store.size = .ok (UInt64.ofNat content.records.length) := size
      simp only [LeafStore.commit, DiskStore.commit, valid, bind, Except.bind]
      cases batch.validate (UInt64.ofNat content.records.length) <;> rfl

theorem persists_serve (backend : Backend) (call : StoreCall) :
    (backend.serve call).2.persists = backend.persists := by
  cases backend <;> cases call <;> rfl

theorem serve_refines {backend : Backend} {content : Content} {call : StoreCall}
    (holds : Holds backend content) (numbered : Numbered 0 content.records)
    (storable : (content.serve call).2.Storable)
    (kept : call = .reopen → backend.persists = true) :
    (backend.serve call).1 = (content.serve call).1 ∧
      Holds (backend.serve call).2 (content.serve call).2 := by
  cases call with
  | commit batch =>
      have result := commit_result holds batch
      rw [Content.validate_eq] at result
      cases next : content.mismatch? batch with
      | some mismatch =>
          simp only [next] at result
          refine ⟨?_, ?_⟩
          · simp only [serve, Content.serve, next, result]
            rfl
          · simpa only [serve, Content.serve, next] using LawfulStore.commit_error holds result
      | none =>
          simp only [next] at result
          simp only [Content.serve, next] at storable
          refine ⟨?_, ?_⟩
          · simp only [serve, Content.serve, next, result]
            rfl
          · simpa only [serve, Content.serve, next] using
              LawfulStore.commit_ok holds storable result
  | putTreeHead head =>
      obtain ⟨after, written⟩ := backend.putTreeHead_ok head
      simp only [serve, written]
      exact ⟨rfl, LawfulStore.putTreeHead_ok holds storable written⟩
  | reopen =>
      cases backend with
      | memory store => simp [persists] at kept
      | disk store => exact ⟨rfl, holds⟩
  | size =>
      simp only [serve, Content.serve, LawfulStore.size_eq holds]
      exact ⟨rfl, holds⟩
  | leaf sequence =>
      simp only [serve, Content.serve, LawfulStore.leaf?_eq holds]
      exact ⟨rfl, holds⟩
  | leaves start stop =>
      simp only [serve, Content.serve, LawfulStore.leaves_eq holds]
      exact ⟨rfl, holds⟩
  | sequenceOf hash =>
      simp only [serve, Content.serve, LawfulStore.sequenceOf?_eq holds,
        numbered.find?_map_sequence, Nat.zero_add]
      exact ⟨rfl, holds⟩
  | nodes =>
      obtain ⟨nodes, found, same⟩ := LawfulStore.nodes_eq holds
      simp only [serve, Content.serve, found]
      refine ⟨?_, holds⟩
      rw [← Multiset.coe_eq_coe.mpr same]
      rfl
  | treeHead =>
      simp only [serve, Content.serve, LawfulStore.treeHead?_eq holds]
      exact ⟨rfl, holds⟩

/-! ### Any calls -/

theorem answersOf_eq {backend : Backend} {content : Content} {calls : List StoreCall}
    (holds : Holds backend content) (numbered : Numbered 0 content.records)
    (storable : content.Storable) (kept : .reopen ∈ calls → backend.persists = true)
    (fits : ∀ call ∈ calls, call.Fits) (short : (content.afterCalls calls).records.length < 2 ^ 64)
    (distinct : ((content.afterCalls calls).nodes.map Prod.fst).Nodup) :
    answersOf serve backend calls = answersOf Content.serve content calls := by
  induction calls generalizing backend content with
  | nil => rfl
  | cons call calls ih =>
      obtain ⟨records, nodes, recordsLater, nodesLater⟩ :=
        (content.serve call).2.afterCalls_extends calls
      have shortNow : (content.serve call).2.records.length < 2 ^ 64 := by
        rw [Content.afterCalls, List.foldl_cons, ← Content.afterCalls, recordsLater,
          List.length_append] at short
        omega
      have distinctNow : ((content.serve call).2.nodes.map Prod.fst).Nodup := by
        rw [Content.afterCalls, List.foldl_cons, ← Content.afterCalls, nodesLater,
          List.map_append] at distinct
        exact (List.nodup_append.mp distinct).1
      have storableNow := Content.serve_storable storable (fits call List.mem_cons_self) shortNow
        distinctNow
      obtain ⟨answer, holdsNow⟩ := serve_refines holds numbered storableNow
        fun same => kept (same ▸ List.mem_cons_self)
      rw [answersOf, answersOf, answer]
      congr 1
      apply ih holdsNow (Content.serve_numbered numbered call) storableNow
      · intro later
        rw [persists_serve]
        exact kept (List.mem_cons_of_mem _ later)
      · intro later member
        exact fits later (List.mem_cons_of_mem _ member)
      · exact short
      · exact distinct

/-- A store of either kind, empty at first, answers every sequence of calls as the list does. What
is asked of the calls is that no node is taken twice and that words of 64 bits count leaves and
bytes. -/
theorem answers_as_list {backend : Backend}
    (fresh : backend = .memory .empty ∨ backend = .disk .empty) {calls : List StoreCall}
    (kept : .reopen ∈ calls → backend.persists = true) (fits : ∀ call ∈ calls, call.Fits)
    (short : (Content.empty.afterCalls calls).records.length < 2 ^ 64)
    (distinct : ((Content.empty.afterCalls calls).nodes.map Prod.fst).Nodup) :
    answersOf serve backend calls = answersOf Content.serve .empty calls := by
  have holds : Holds backend Content.empty := by
    rcases fresh with rfl | rfl
    · exact MemoryStore.empty_represents
    · exact DiskStore.empty_represents
  exact answersOf_eq holds trivial Content.empty_storable kept fits short distinct

theorem answers_as_list_throughRefusal :
    let hash : Digest := ⟨List.replicate 32 7, by decide⟩
    let parent : Digest := ⟨List.replicate 32 8, by decide⟩
    let head : SignedTreeHead := ⟨2, parent, 9, List.replicate 64 10⟩
    answersOf serve (.disk .empty)
        [.commit ⟨0, [⟨0, hash, [1], none⟩, ⟨1, hash, [1], some [2]⟩],
            [(⟨0, 0⟩, hash), (⟨0, 1⟩, hash), (⟨1, 0⟩, parent)]⟩,
          .commit ⟨2, [⟨2, parent, [], none⟩, ⟨4, hash, [], none⟩], [(⟨0, 0⟩, parent)]⟩,
          .putTreeHead head, .reopen, .commit ⟨2, [⟨2, hash, [3], none⟩], [(⟨0, 2⟩, hash)]⟩,
          .sequenceOf hash, .leaf 2, .leaves 1 18446744073709551615, .leaves 2 1, .treeHead] =
      [.ok .done, .error (.sequenceMismatch 3 4), .ok .done, .ok .done, .ok .done,
        .ok (.sequence (some 0)), .ok (.leaf (some ⟨2, hash, [3], none⟩)),
        .ok (.leaves [⟨1, hash, [1], some [2]⟩, ⟨2, hash, [3], none⟩]), .ok (.leaves []),
        .ok (.treeHead (some head))] := by
  intro hash parent head
  rw [answers_as_list (.inr rfl) (fun _ => rfl)]
  · rfl
  · simp [StoreCall.Fits, LeafRecord.Storable, head]
  · decide
  · decide

end Backend

end VerifiableLog
