import VerifiableLog.Proofs.Log.Invariant

/-!
One call at a time. An opening rebuilds the log from its store; an append adds its leaves or changes
nothing that is read; no other call touches the leaves. After each call the log is in order again,
its heads have moved as they may, and a receipt says what was appended.
-/

namespace VerifiableLog

open LawfulStore (Holds)
open Merkle (Accumulator rootOf)
open Merkle.Accumulator (ofLeaves)

section

variable {σ : Type} [LeafStore σ] [LawfulStore σ]

/-! ### Opening -/

theorem checkStoredHead_ok {leaves : List NewLeaf} {head : SignedTreeHead}
    (fits : leaves.length < 2 ^ 63) (describes : head.Describes leaves) :
    Log.checkStoredHead (ofLeaves (leafHashes leaves)) (UInt64.ofNat leaves.length) head =
      .ok () := by
  have reached := describes.reached
  have root := @Accumulator.root_ofLeaves (leafHashes leaves) head.treeSize.toNat
    (by rwa [length_leafHashes])
  have within : ¬head.treeSize > UInt64.ofNat leaves.length := by
    rw [gt_iff_lt, UInt64.lt_iff_toNat_lt, toNat_ofNat_length fits]
    omega
  rw [Log.checkStoredHead, if_neg within, root, ← describes.root]
  simp [Log.fromTree, Except.mapError, bind, Except.bind]

theorem openStore_eq {store : σ} {leaves : List NewLeaf} {stored : Option SignedTreeHead}
    (keeps : Keeps store leaves stored) (signer : Signer) (now : Moment) :
    Log.openStore store signer now =
      let log : Log σ := ⟨store, signer, ofLeaves (leafHashes leaves), ⟨stored, none⟩, false⟩
      .ok (if stored.all fun head => head.treeSize < UInt64.ofNat leaves.length
        then log.publishHead now (stateOf leaves) else log) := by
  obtain ⟨nodes, same, holds⟩ := keeps.content
  obtain ⟨found, foundEq, sameFound⟩ := LawfulStore.nodes_eq holds
  have fits := keeps.fits
  have rebuilt := (Accumulator.complete_ofLeaves (leafHashes leaves)).ofNodes_of_perm
    (by rw [Accumulator.size_ofLeaves, length_leafHashes]; omega) (sameFound.trans same)
  have size := LawfulStore.size_eq holds
  rw [length_recordsOf] at size
  have checked : stored.forM (Log.checkStoredHead (ofLeaves (leafHashes leaves))
      (UInt64.ofNat leaves.length)) = .ok () := by
    cases stored with
    | none => rfl
    | some head => exact checkStoredHead_ok fits (keeps.head head rfl)
  simp only [Log.openStore, size, foundEq, rebuilt, LawfulStore.treeHead?_eq holds, checked,
    treeState_ofLeaves, Log.fromStore, Log.fromTree, Except.mapError, bind, Except.bind,
    Accumulator.size_ofLeaves, length_leafHashes, toNat_ofNat_length fits, ne_eq,
    not_true_eq_false, if_false, pure, Except.pure]
  split <;> rfl

theorem Keeps.behind_iff {store : σ} {leaves : List NewLeaf} {head : SignedTreeHead}
    (keeps : Keeps store leaves (some head)) :
    head.treeSize < UInt64.ofNat leaves.length ↔ head.treeSize.toNat ≠ leaves.length := by
  have reached := (keeps.head head rfl).reached
  rw [UInt64.lt_iff_toNat_lt, toNat_ofNat_length keeps.fits]
  omega

theorem openStore_of_covered {store : σ} {leaves : List NewLeaf} {head : SignedTreeHead}
    (keeps : Keeps store leaves (some head)) (covers : head.treeSize.toNat = leaves.length)
    (signer : Signer) (now : Moment) :
    Log.openStore store signer now =
      .ok ⟨store, signer, ofLeaves (leafHashes leaves), ⟨some head, none⟩, false⟩ := by
  have current : ¬head.treeSize < UInt64.ofNat leaves.length :=
    fun behind => keeps.behind_iff.mp behind covers
  simp only [openStore_eq keeps, Option.all_some, current, decide_false, Bool.false_eq_true,
    if_false]

/-! ### Appending -/

theorem Log.Reflects.size_eq {log : Log σ} {leaves : List NewLeaf}
    {stored : Option SignedTreeHead} (reflects : log.Reflects leaves stored) :
    log.size = UInt64.ofNat leaves.length := by
  rw [Log.size, reflects.tree, Accumulator.size_ofLeaves, length_leafHashes]

def Log.batchFor (log : Log σ) (leaves : List NewLeaf) : Batch :=
  ⟨log.size, Log.number log.size leaves, (log.tree.planAppend (leafHashes leaves)).nodes⟩

def batchOf (leaves batch : List NewLeaf) : Batch :=
  ⟨UInt64.ofNat leaves.length, Log.number (UInt64.ofNat leaves.length) batch,
    ((ofLeaves (leafHashes leaves)).planAppend (leafHashes batch)).nodes⟩

omit [LeafStore σ] [LawfulStore σ] in
theorem batchFor_eq {log : Log σ} {leaves : List NewLeaf}
    (tree : log.tree = ofLeaves (leafHashes leaves)) (batch : List NewLeaf) :
    log.batchFor batch = batchOf leaves batch := by
  have size : log.size = UInt64.ofNat leaves.length := by
    rw [Log.size, tree, Accumulator.size_ofLeaves, length_leafHashes]
  rw [Log.batchFor, size, tree, batchOf]

theorem Keeps.commit_ok {store : σ} {leaves batch : List NewLeaf}
    {stored : Option SignedTreeHead} (keeps : Keeps store leaves stored)
    (fits : (leaves ++ batch).length < 2 ^ 63) (storable : ∀ leaf ∈ batch, leaf.Storable)
    (taken : (LeafStore.commit store (batchOf leaves batch)).1 = .ok ()) :
    Keeps (LeafStore.commit store (batchOf leaves batch)).2 (leaves ++ batch) stored := by
  obtain ⟨nodes, same, holds⟩ := keeps.content
  have allStorable : ∀ leaf ∈ leaves ++ batch, leaf.Storable := by
    intro leaf member
    rcases List.mem_append.mp member with earlier | new
    · exact keeps.storable leaf earlier
    · exact storable leaf new
  have described : ∀ head ∈ stored, head.Describes (leaves ++ batch) :=
    fun head present => (keeps.head head present).append batch
  have grown : (nodes ++ (batchOf leaves batch).nodes).Perm
      (ofLeaves (leafHashes (leaves ++ batch))).nodes := by
    rw [leafHashes_append]
    refine (same.append_right _).trans (Accumulator.planAppend_perm ?_)
    rw [← leafHashes_append, length_leafHashes]
    omega
  have content : Content.add ⟨recordsOf leaves, nodes, stored⟩ (batchOf leaves batch) =
      ⟨recordsOf (leaves ++ batch), nodes ++ (batchOf leaves batch).nodes, stored⟩ := by
    rw [recordsOf_append]
    rfl
  have room : (leaves ++ batch).length < 2 ^ 64 := by omega
  have committed := LawfulStore.commit_ok holds
    (content ▸ storable_content room allStorable grown described) taken
  rw [content] at committed
  exact ⟨fits, allStorable, ⟨_, grown, committed⟩, described⟩

theorem Keeps.commit_error {store : σ} {leaves : List NewLeaf} {batch : Batch}
    {stored : Option SignedTreeHead} {cause : StoreError} (keeps : Keeps store leaves stored)
    (refused : (LeafStore.commit store batch).1 = .error cause) :
    Keeps (LeafStore.commit store batch).2 leaves stored := by
  obtain ⟨nodes, same, holds⟩ := keeps.content
  exact ⟨keeps.fits, keeps.storable, ⟨nodes, same, LawfulStore.commit_error holds refused⟩,
    keeps.head⟩

omit [LawfulStore σ] in
theorem append_eq_commit {log : Log σ} {batch : List NewLeaf} {now : Moment} {deadline : Deadline}
    (nonempty : batch ≠ []) (writable : log.isClosed = false)
    (inTime : deadline.isExpired now = false) :
    log.append now batch deadline =
      log.commit now (log.batchFor batch) (log.tree.planAppend (leafHashes batch)) := by
  simp [Log.append, Log.batchFor, nonempty, writable, inTime, map_leafHash_number]

omit [LawfulStore σ] in
theorem append_split (log : Log σ) (now : Moment) (batch : List NewLeaf) (deadline : Deadline) :
    (∃ cause, (cause = .emptyBatch ∨ cause = .closed ∨ cause = .timeout) ∧
        log.append now batch deadline = (.error cause, log)) ∨
      batch ≠ [] ∧ log.append now batch deadline =
        log.commit now (log.batchFor batch) (log.tree.planAppend (leafHashes batch)) := by
  by_cases empty : batch = []
  · subst empty
    exact .inl ⟨.emptyBatch, .inl rfl, rfl⟩
  by_cases closed : log.isClosed = true
  · refine .inl ⟨.closed, .inr (.inl rfl), ?_⟩
    simp [Log.append, empty, closed]
  by_cases expired : deadline.isExpired now = true
  · refine .inl ⟨.timeout, .inr (.inr rfl), ?_⟩
    simp [Log.append, empty, closed, expired]
  exact .inr ⟨empty,
    append_eq_commit empty (Bool.eq_false_iff.mpr closed) (Bool.eq_false_iff.mpr expired)⟩

omit [LawfulStore σ] in
theorem commit_of_taken {log : Log σ} {leaves batch : List NewLeaf}
    (tree : log.tree = ofLeaves (leafHashes leaves)) (now : Moment)
    (fits : (leaves ++ batch).length < 2 ^ 64)
    (taken : (LeafStore.commit log.store (batchOf leaves batch)).1 = .ok ()) :
    log.commit now (batchOf leaves batch)
        ((ofLeaves (leafHashes leaves)).planAppend (leafHashes batch)) =
      (.ok (receiptOf leaves batch),
        Log.publishHead { log with
          store := (LeafStore.commit log.store (batchOf leaves batch)).2
          tree := ofLeaves (leafHashes (leaves ++ batch)) } now (stateOf (leaves ++ batch))) := by
  have grown := @Accumulator.extend_ofLeaves (leafHashes leaves) (leafHashes batch)
    (by rwa [← leafHashes_append, length_leafHashes])
  rw [← leafHashes_append] at grown
  have earlier : (UInt64.ofNat leaves.length).toNat = leaves.length :=
    UInt64.toNat_ofNat_of_lt' (by
      rw [List.length_append] at fits
      show leaves.length < 2 ^ 64
      omega)
  have count : (stateOf (leaves ++ batch)).size.toNat - (batchOf leaves batch).firstSequence.toNat =
      batch.length := by
    rw [stateOf, batchOf, earlier, UInt64.toNat_ofNat_of_lt' fits, List.length_append]
    omega
  rcases result : LeafStore.commit log.store (batchOf leaves batch) with ⟨outcome, store⟩
  rw [result] at taken
  simp only at taken
  subst taken
  simp only [Log.commit, result, tree, Accumulator.apply_planAppend, grown,
    treeState_ofLeaves, Log.fromTree, Except.mapError, bind, Except.bind, pure, Except.pure, count]
  simp only [batchOf, sequencesFrom_eq_map_range', stateOf, receiptOf]

omit [LawfulStore σ] in
theorem commit_of_refused {batch : Batch} {cause : StoreError} (log : Log σ) (now : Moment)
    (plan : Merkle.AppendPlan) (refused : (LeafStore.commit log.store batch).1 = .error cause) :
    log.commit now batch plan =
      (.error (.storage cause), { log with store := (LeafStore.commit log.store batch).2 }) := by
  rcases result : LeafStore.commit log.store batch with ⟨outcome, store⟩
  rw [result] at refused
  simp only at refused
  subst refused
  simp only [Log.commit, result]

theorem append_cases {log : Log σ} {leaves batch : List NewLeaf}
    {stored : Option SignedTreeHead} (reflects : log.Reflects leaves stored)
    (fits : batch.length < 2 ^ 63) (storable : ∀ leaf ∈ batch, leaf.Storable) (now : Moment)
    (deadline : Deadline) :
    (∃ cause after, log.append now batch deadline = (.error cause, after) ∧
        after.Reflects leaves stored ∧ after.head = log.head) ∨
      batch ≠ [] ∧ ∃ store : σ,
        ((leaves ++ batch).length < 2 ^ 63 → Keeps store (leaves ++ batch) stored) ∧
        log.append now batch deadline =
          (.ok (receiptOf leaves batch),
            Log.publishHead
              { log with store := store, tree := ofLeaves (leafHashes (leaves ++ batch)) } now
              (stateOf (leaves ++ batch))) := by
  rcases append_split log now batch deadline with
    ⟨cause, _, turnedAway⟩ | ⟨nonempty, committed⟩
  · exact .inl ⟨cause, log, turnedAway, reflects, rfl⟩
  rw [committed, batchFor_eq reflects.tree, reflects.tree]
  have room : (leaves ++ batch).length < 2 ^ 64 := by
    have earlier := reflects.keeps.fits
    rw [List.length_append]
    omega
  cases taken : (LeafStore.commit log.store (batchOf leaves batch)).1 with
  | ok _ =>
      exact .inr ⟨nonempty, _, fun fits => reflects.keeps.commit_ok fits storable taken,
        commit_of_taken reflects.tree now room taken⟩
  | error cause =>
      refine .inl ⟨.storage cause, _, commit_of_refused log now _ taken, ?_, rfl⟩
      exact ⟨reflects.keeps.commit_error taken, reflects.tree, reflects.signer, reflects.latest,
        reflects.newest⟩

end

/-! ### Any call -/

theorem Keeps.of_backend {storage other : Storage} {leaves : List NewLeaf}
    {stored : Option SignedTreeHead} (keeps : Keeps storage leaves stored)
    (backend : other.backend = storage.backend) : Keeps other leaves stored := by
  obtain ⟨nodes, same, holds⟩ := keeps.content
  refine ⟨keeps.fits, keeps.storable, ⟨nodes, same, ?_⟩, keeps.head⟩
  change Holds other.backend _
  rwa [backend]

theorem Keeps.inject {storage : Storage} {leaves : List NewLeaf}
    {stored : Option SignedTreeHead} (keeps : Keeps storage leaves stored) (fault : Fault) :
    Keeps (storage.inject fault) leaves stored :=
  keeps.of_backend (storage.backend_inject fault)

def Log.heads (log : Log Storage) (leaves : List NewLeaf) (stored : Option SignedTreeHead) :
    Heads :=
  ⟨leaves.length, stored, log.head.latest⟩

/-- What an event leaves behind: a log of the leaves so far with those that were appended. -/
structure Leaves (event : Event) (leaves : List NewLeaf) (before : Heads) (after : Log Storage)
    (stored : Option SignedTreeHead) : Prop where
  reflects : after.Reflects (leaves ++ event.accepted) stored
  move : HeadMove event before (after.heads (leaves ++ event.accepted) stored)
  serves : ∀ head, event.servedHead? = some head →
    Serves event (after.heads (leaves ++ event.accepted) stored) head
  receipt : ∀ receipt, event.answer = .ok (.receipt receipt) →
    receipt = receiptOf leaves event.accepted

theorem needsHead_eq {storage : Storage} {leaves : List NewLeaf} {stored : Option SignedTreeHead}
    (keeps : Keeps storage leaves stored) :
    storage.needsHead = stored.all fun head => head.treeSize < UInt64.ofNat leaves.length := by
  obtain ⟨nodes, same, holds⟩ := keeps.content
  have size := LawfulStore.size_eq holds
  rw [length_recordsOf] at size
  rw [Storage.needsHead, LawfulStore.treeHead?_eq holds, size]

theorem openLog_of_covered {storage : Storage} {leaves : List NewLeaf} {head : SignedTreeHead}
    (keeps : Keeps storage leaves (some head)) (covers : head.treeSize.toNat = leaves.length)
    (signer : Signer) (now : Moment) :
    storage.openLog signer now =
      (⟨now, .reopen, .ok .done, .notDue⟩,
        .ok ⟨storage, signer, ofLeaves (leafHashes leaves), ⟨some head, none⟩, false⟩) := by
  have current : ¬head.treeSize < UInt64.ofNat leaves.length :=
    fun behind => keeps.behind_iff.mp behind covers
  simp only [Storage.openLog, openStore_of_covered keeps covers, needsHead_eq keeps,
    Option.all_some, current, decide_false, Bool.false_eq_true, if_false]

theorem exists_of_map_ok {α β : Type} {read : α → β} {result : Except LogError α} {value : β}
    (mapped : result.map read = .ok value) : ∃ found, result = .ok found ∧ read found = value := by
  cases result with
  | error cause => cases mapped
  | ok found => exact ⟨found, rfl, Except.ok.inj mapped⟩

theorem latestHead_ok_iff {σ : Type} {log : Log σ} {head : SignedTreeHead} :
    log.latestHead = .ok head ↔ log.head.failure = none ∧ log.head.latest = some head := by
  rw [Log.latestHead]
  split
  · rename_i failed
    simp [failed]
  · rename_i unfailed unsigned
    simp [unsigned]
  · rename_i unfailed signed
    simp [unfailed, signed]

theorem serves_of_latestHead {event : Event} {log : Log Storage} {leaves : List NewLeaf}
    {stored : Option SignedTreeHead} {head : SignedTreeHead} (staysOpen : event.reopens = false)
    (reflects : log.Reflects leaves stored) (served : log.latestHead = .ok head) :
    Serves event (log.heads leaves stored) head := by
  obtain ⟨unfailed, latest⟩ := latestHead_ok_iff.mp served
  exact ⟨staysOpen, latest, reflects.newest unfailed head latest⟩

theorem failure_of_lost {log : Log Storage} (lost : log.headOutcome = .lost) :
    log.head.failure = none := by
  rw [Log.headOutcome] at lost
  split at lost
  · simp at lost
  · assumption

theorem leaves_of_rest {event : Event} {leaves : List NewLeaf} {before : Heads}
    {after : Log Storage} {stored : Option SignedTreeHead} (quiet : event.head = .notDue)
    (accepted : event.accepted = []) (reflects : after.Reflects leaves stored)
    (base : (⟨before.size, before.stored, before.base event⟩ : Heads) = after.heads leaves stored)
    (serves : ∀ head, event.servedHead? = some head →
      event.reopens = false ∧ after.latestHead = .ok head)
    (noReceipt : ∀ receipt, event.answer ≠ .ok (.receipt receipt)) :
    Leaves event leaves before after stored := by
  constructor
  · rwa [accepted, List.append_nil]
  · rw [accepted, List.append_nil, ← base]
    exact .rest quiet
  · intro head served
    obtain ⟨staysOpen, latest⟩ := serves head served
    rw [accepted, List.append_nil]
    exact serves_of_latestHead staysOpen reflects latest
  · intro receipt answered
    exact absurd answered (noReceipt receipt)

theorem openLog_leaves {storage : Storage} {leaves : List NewLeaf}
    {stored : Option SignedTreeHead} (keeps : Keeps storage leaves stored) {signer : Signer}
    (storable : signer.Storable) (now : Moment) (latest : Option SignedTreeHead) :
    ∃ log storedAfter, (storage.openLog signer now).2 = .ok log ∧
      Leaves (storage.openLog signer now).1 leaves ⟨leaves.length, stored, latest⟩ log
        storedAfter := by
  have fits := keeps.fits
  by_cases due : (stored.all fun head => head.treeSize < UInt64.ofNat leaves.length) = true
  · simp only [Storage.openLog, openStore_eq keeps, needsHead_eq keeps, if_pos due]
    obtain ⟨storedAfter, reflects, published⟩ := @publishHead_reflects
      ⟨storage, signer, ofLeaves (leafHashes leaves), ⟨stored, none⟩, false⟩ leaves stored keeps rfl
      storable keeps.head now
    refine ⟨_, storedAfter, rfl, ?_, .due ?_ ?_ ?_, ?_, ?_⟩
    · simpa [Event.accepted] using reflects
    · simp [Event.accepted, Log.heads]
    · simpa [Event.accepted, Log.heads, Heads.base, Event.reopens] using published
    · intro _
      left
      rintro old ⟨⟩
      simp only [Option.all_some, decide_eq_true_eq, UInt64.lt_iff_toNat_lt,
        toNat_ofNat_length fits] at due
      simpa [Event.accepted, Log.heads] using due
    · simp [Event.servedHead?]
    · simp
  · cases stored with
    | none => simp at due
    | some head =>
        simp only [Option.all_some, decide_eq_true_eq, keeps.behind_iff, ne_eq,
          Decidable.not_not] at due
        rw [openLog_of_covered keeps due]
        refine ⟨_, some head, rfl,
          leaves_of_rest rfl rfl ⟨keeps, rfl, storable, keeps.head, ?_⟩ rfl ?_ ?_⟩
        · rintro _ _ ⟨⟩
          exact due
        · simp [Event.servedHead?]
        · simp

theorem append_leaves {log : Log Storage} {leaves batch : List NewLeaf}
    {stored : Option SignedTreeHead} {now : Moment} {deadline : Deadline}
    (reflects : log.Reflects leaves stored) (fits : (Call.append batch deadline).Fits)
    (short : (leaves ++ (log.step now (.append batch deadline)).1.accepted).length < 2 ^ 63) :
    ∃ after storedAfter, (log.step now (.append batch deadline)).2 = .ok after ∧
      Leaves (log.step now (.append batch deadline)).1 leaves (log.heads leaves stored) after
        storedAfter := by
  rcases append_cases reflects fits.1 fits.2 now deadline with
    ⟨cause, after, refused, reflectsAfter, head⟩ | ⟨nonempty, store, kept, taken⟩
  · simp only [Log.step, refused]
    refine ⟨after, stored, rfl, leaves_of_rest rfl rfl reflectsAfter ?_ ?_ ?_⟩
    · simp [Log.heads, Heads.base, Event.reopens, head]
    · simp [Event.servedHead?]
    · simp
  · simp only [Log.step, taken, Event.accepted] at short ⊢
    have keeps := kept short
    obtain ⟨storedAfter, reflectsAfter, published⟩ := @publishHead_reflects
      { log with store := store, tree := ofLeaves (leafHashes (leaves ++ batch)) } _ stored keeps rfl
      reflects.signer (fun head present => (reflects.latest head present).append batch) now
    refine ⟨_, storedAfter, rfl, reflectsAfter, .due ?_ published ?_, ?_, ?_⟩
    · simp [Log.heads, Event.accepted]
    · intro _
      left
      intro old present
      have reached := (reflects.keeps.head old present).reached
      have grows := List.length_pos_iff.mpr nonempty
      simp only [Log.heads, Event.accepted, List.length_append]
      omega
    · simp [Event.servedHead?]
    · rintro receipt ⟨⟩
      rfl

theorem refresh_leaves {log : Log Storage} {leaves : List NewLeaf}
    {stored : Option SignedTreeHead} (reflects : log.Reflects leaves stored) (now : Moment)
    (deadline : Deadline) :
    ∃ after storedAfter, (log.step now (.refresh deadline)).2 = .ok after ∧
      Leaves (log.step now (.refresh deadline)).1 leaves (log.heads leaves stored) after
        storedAfter := by
  obtain ⟨storedAfter, reflectsAfter, published⟩ := publishHead_reflects reflects.keeps
    reflects.tree reflects.signer reflects.latest now
  simp only [Log.step, Log.refresh, reflects.tree, treeState_ofLeaves]
  generalize log.publishHead now (stateOf leaves) = after at reflectsAfter published ⊢
  refine ⟨after, storedAfter, rfl, ?_, .due ?_ ?_ ?_, ?_, ?_⟩
  · simpa [Event.accepted] using reflectsAfter
  · simp [Event.accepted, Log.heads]
  · simpa [Event.accepted, Log.heads, Heads.base, Event.reopens] using published
  · intro lost
    -- The tree has not grown, so the stored head may well be of the same size.
    right
    have unfailed := failure_of_lost lost
    simp only at lost
    rw [lost] at published
    cases latest : after.head.latest with
    | none => rw [latest] at published; cases published
    | some head =>
        have served := latestHead_ok_iff.mpr ⟨unfailed, latest⟩
        exact ⟨rfl, by simp [Event.servedHead?, served, Except.map, Log.heads, latest]⟩
  · intro head served
    obtain ⟨_, latest, ⟨⟩⟩ := exists_of_map_ok (Event.servedHead?_eq_some_iff.mp served)
    simpa [Event.accepted] using serves_of_latestHead rfl reflectsAfter latest
  · intro receipt answered
    obtain ⟨_, _, ⟨⟩⟩ := exists_of_map_ok answered

theorem signedTreeHead_of_inTime {σ : Type} {log : Log σ} {now : Moment} {deadline : Deadline}
    (inTime : deadline.isExpired now = false) :
    log.signedTreeHead now deadline = log.latestHead := by
  rw [Log.signedTreeHead, Log.checkDeadline, inTime]
  rfl

theorem latestHead_of_signedTreeHead {σ : Type} {log : Log σ} {now : Moment} {deadline : Deadline}
    {head : SignedTreeHead} (served : log.signedTreeHead now deadline = .ok head) :
    log.latestHead = .ok head := by
  cases expired : deadline.isExpired now with
  | true =>
      rw [Log.signedTreeHead, Log.checkDeadline, expired] at served
      cases served
  | false => rwa [signedTreeHead_of_inTime expired] at served

theorem latestHead_of_ask {σ : Type} [LeafStore σ] {log : Log σ} {now : Moment}
    {deadline : Deadline} {question : Question} {head : SignedTreeHead}
    (answered : log.ask now deadline question = .ok (.head head)) : log.latestHead = .ok head := by
  cases question <;> obtain ⟨_, found, ⟨⟩⟩ := exists_of_map_ok answered
  exact latestHead_of_signedTreeHead found

theorem ask_ne_receipt {σ : Type} [LeafStore σ] (log : Log σ) (now : Moment) (deadline : Deadline)
    (question : Question) (receipt : AppendReceipt) :
    log.ask now deadline question ≠ .ok (.receipt receipt) := by
  intro answered
  cases question <;> obtain ⟨_, _, ⟨⟩⟩ := exists_of_map_ok answered

theorem step_leaves {log : Log Storage} {leaves : List NewLeaf}
    {stored : Option SignedTreeHead} {now : Moment} {call : Call}
    (reflects : log.Reflects leaves stored) (fits : call.Fits)
    (short : (leaves ++ (log.step now call).1.accepted).length < 2 ^ 63) :
    ∃ after storedAfter, (log.step now call).2 = .ok after ∧
      Leaves (log.step now call).1 leaves (log.heads leaves stored) after storedAfter := by
  cases call with
  | append batch deadline => exact append_leaves reflects fits short
  | refresh deadline => exact refresh_leaves reflects now deadline
  | close =>
      refine ⟨log.close, stored, rfl, leaves_of_rest rfl rfl ?_ rfl ?_ ?_⟩
      · exact ⟨reflects.keeps, reflects.tree, reflects.signer, reflects.latest, reflects.newest⟩
      · simp [Log.step, Event.servedHead?]
      · simp [Log.step]
  | read question deadline =>
      refine ⟨log, stored, rfl, leaves_of_rest rfl rfl reflects rfl ?_ ?_⟩
      · intro head served
        exact ⟨rfl, latestHead_of_ask (Event.servedHead?_eq_some_iff.mp served)⟩
      · exact ask_ne_receipt log now deadline question
  | useSigner signer =>
      refine ⟨{ log with signer := signer }, stored, rfl, leaves_of_rest rfl rfl ?_ rfl ?_ ?_⟩
      · exact ⟨reflects.keeps, reflects.tree, fits, reflects.latest, reflects.newest⟩
      · simp [Log.step, Event.servedHead?]
      · simp [Log.step]
  | inject fault =>
      refine ⟨{ log with store := log.store.inject fault }, stored, rfl,
        leaves_of_rest rfl rfl ?_ rfl ?_ ?_⟩
      · exact ⟨reflects.keeps.inject fault, reflects.tree, reflects.signer, reflects.latest,
          reflects.newest⟩
      · simp [Log.step, Event.servedHead?]
      · simp [Log.step]
  | reopen => exact openLog_leaves reflects.keeps reflects.signer now log.head.latest

end VerifiableLog
