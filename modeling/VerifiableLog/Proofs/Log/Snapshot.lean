import VerifiableLog.Proofs.Log.FailedAppend
import VerifiableLog.Proofs.Store.Leaves

/-!
A store that is ahead of its log. Between the moment at which a store takes a batch and the moment
at which the tree grows, and whenever others write to the store beside the log, the store holds
leaves that the tree does not count. Nobody who asks the log sees them, whichever leaves they
repeat, and the log appends nothing behind them.
-/

namespace VerifiableLog

/-! ### Stores that logs have written -/

section

variable {start : Storage} {records : List LeafRecord}

theorem Storage.Takes.publishHead {log : Log Storage} (takes : start.Takes records log.store)
    (signs : log.signer.Storable) (now : Moment) (state : TreeState) :
    start.Takes records (log.publishHead now state).store := by
  rcases publishHead_cases log now state with
    ⟨cause, unsigned⟩ | ⟨signature, signed, ⟨store, written, kept⟩ | ⟨cause, _, lost⟩⟩
  · rwa [unsigned]
  · rw [kept]
    exact takes.putTreeHead (signs _ _ signed) written
  · rwa [lost]

theorem Storage.Takes.commit_error {store after : Storage} {batch : Batch} {cause : StoreError}
    (takes : start.Takes records store)
    (refused : LeafStore.commit store batch = (.error cause, after)) :
    start.Takes records after := by
  rcases Storage.commit_error_cases refused with ⟨rfl, _⟩ | ⟨_, count, _, rfl⟩
  · exact takes
  · exact takes.inject (.commits count)

theorem openLog_takes {storage : Storage} {leaves : List NewLeaf}
    {stored : Option SignedTreeHead} (takes : start.Takes records storage)
    (keeps : Keeps storage leaves stored) {signer : Signer} (signs : signer.Storable)
    {now : Moment} {log : Log Storage} (opened : (storage.openLog signer now).2 = .ok log) :
    start.Takes records log.store := by
  rw [Storage.openLog, openStore_eq keeps] at opened
  obtain rfl := Except.ok.inj opened
  split
  · exact Storage.Takes.publishHead takes signs now _
  · exact takes

theorem append_takes {log : Log Storage} {leaves batch : List NewLeaf}
    {stored : Option SignedTreeHead} (reflects : log.Reflects leaves stored)
    (takes : start.Takes (recordsOf leaves) log.store) (fits : batch.length < 2 ^ 63)
    {now : Moment} {deadline : Deadline} {after : Log Storage}
    (stepped : (log.step now (.append batch deadline)).2 = .ok after) :
    start.Takes (recordsOf (leaves ++ (log.step now (.append batch deadline)).1.accepted))
      after.store := by
  have room : (leaves ++ batch).length < 2 ^ 64 := by
    have earlier := reflects.keeps.fits
    rw [List.length_append]
    omega
  rcases append_split log now batch deadline with ⟨cause, _, turnedAway⟩ | ⟨_, committed⟩
  · simp only [Log.step, turnedAway, Event.accepted, List.append_nil] at stepped ⊢
    obtain rfl := Except.ok.inj stepped
    exact takes
  · rw [batchFor_eq reflects.tree, reflects.tree] at committed
    cases taken : (LeafStore.commit log.store (batchOf leaves batch)).1 with
    | error cause =>
        rw [commit_of_refused log now _ taken] at committed
        simp only [Log.step, committed, Event.accepted, List.append_nil] at stepped ⊢
        obtain rfl := Except.ok.inj stepped
        exact takes.commit_error (Prod.ext taken rfl)
    | ok _ =>
        rw [commit_of_taken reflects.tree now room taken] at committed
        simp only [Log.step, committed, Event.accepted] at stepped ⊢
        obtain rfl := Except.ok.inj stepped
        rw [recordsOf_append]
        apply Storage.Takes.publishHead
        · exact takes.commit (Prod.ext taken rfl)
        · exact reflects.signer

theorem step_takes {log : Log Storage} {leaves : List NewLeaf} {stored : Option SignedTreeHead}
    (reflects : log.Reflects leaves stored) (takes : start.Takes (recordsOf leaves) log.store)
    {now : Moment} {call : Call} (fits : call.Fits) {after : Log Storage}
    (stepped : (log.step now call).2 = .ok after) :
    start.Takes (recordsOf (leaves ++ (log.step now call).1.accepted)) after.store := by
  cases call with
  | append batch deadline => exact append_takes reflects takes fits.1 stepped
  | refresh deadline =>
      obtain rfl := Except.ok.inj stepped
      simp only [Log.step, Log.refresh, reflects.tree, treeState_ofLeaves, Event.accepted,
        List.append_nil]
      exact takes.publishHead reflects.signer now _
  | close | read question deadline | useSigner signer =>
      obtain rfl := Except.ok.inj stepped
      change start.Takes (recordsOf (leaves ++ [])) log.store
      rwa [List.append_nil]
  | inject fault =>
      obtain rfl := Except.ok.inj stepped
      change start.Takes (recordsOf (leaves ++ [])) (log.store.inject fault)
      rw [List.append_nil]
      exact takes.inject fault
  | reopen =>
      simp only [Log.step, accepted_openLog, List.append_nil]
      exact openLog_takes takes reflects.keeps reflects.signer stepped

end

/-- The store of a log that was opened over an empty one has taken the leaves of the log, as many as
the tree counts. -/
theorem Run.store_takes {storage : Storage} (fresh : storage.Fresh) {signer : Signer}
    (signs : signer.Storable) (opened : Moment) {calls : List (Moment × Call)}
    (fits : ∀ call ∈ calls, call.2.Fits)
    (short : (acceptedLeaves (Run.ofCalls storage signer opened calls).events).length < 2 ^ 63) :
    ∃ log, (Run.ofCalls storage signer opened calls).log = .ok log ∧
      storage.Takes (recordsOf (acceptedLeaves (Run.ofCalls storage signer opened calls).events))
        log.store ∧
      log.tree.size = (acceptedLeaves (Run.ofCalls storage signer opened calls).events).length := by
  obtain ⟨log, stored, sound, takes⟩ := Run.ofCalls_induction
    (motive := fun events log _ => storage.Takes (recordsOf (acceptedLeaves events)) log.store)
    fresh signs opened fits short
    (by
      intro log stored result _
      have none : acceptedLeaves [(storage.openLog signer opened).1] = [] := by
        simp [acceptedLeaves, accepted_openLog]
      rw [none]
      exact openLog_takes .nothing fresh.keeps signs result)
    (by
      intro events log stored now call after storedAfter sound takes fitsNow result _
      rw [acceptedLeaves_concat]
      exact step_takes sound.reflects takes fitsNow result)
  refine ⟨log, sound.log_eq, takes, ?_⟩
  rw [sound.reflects.tree, Merkle.Accumulator.size_ofLeaves, length_leafHashes]

namespace Log

section

variable {log : Log Storage} {truncated : Storage} {records : List LeafRecord}

theorem toNat_size_of_le (fits : records.length < 2 ^ 64)
    (reached : log.tree.size ≤ records.length) : log.size.toNat = log.tree.size :=
  UInt64.toNat_ofNat_of_lt' (by show log.tree.size < 2 ^ 64; omega)

/-! ### Reading past the tree -/

theorem sequenceOf_eq_truncated (lists : log.store.Lists records)
    (cut : truncated.Lists (records.take log.tree.size))
    (reached : log.tree.size ≤ records.length) (hash : Digest) :
    log.sequenceOf hash = sequenceOf { log with store := truncated } hash := by
  have size := toNat_size_of_le lists.fits reached
  have known := lists.sequenceOf?_eq hash
  simp only [sequenceOf, known, cut.sequenceOf?_eq, fromStore, Except.mapError, bind, Except.bind]
  rw [← List.take_append_drop log.tree.size records, List.find?_append]
  rw [List.take_append_drop]
  cases seen : (records.take log.tree.size).find? fun record => record.leafHash = hash with
  | some record => rfl
  | none =>
      cases unseen : (records.drop log.tree.size).find? fun record => record.leafHash = hash with
      | none => rfl
      | some record =>
          have numbered := lists.numbered
          rw [← List.take_append_drop log.tree.size records, numbered_append, Nat.zero_add,
            List.length_take_of_le reached] at numbered
          have fits := lists.fits
          have later := (numbered.2.getElem?_sequence (by rw [List.length_drop]; omega)
            (List.mem_of_find?_eq_some unseen)).1
          have outside : ¬record.sequence < log.size := by
            rw [UInt64.lt_iff_toNat_lt, size]
            omega
          simp [outside]

theorem sequenceOf_lt {hash : Digest} {sequence : UInt64}
    (found : log.sequenceOf hash = .ok sequence) : sequence < log.size := by
  rw [sequenceOf] at found
  cases lookup : fromStore (LeafStore.sequenceOf? log.store hash) with
  | error cause => simp [lookup, bind, Except.bind] at found
  | ok place =>
      cases place with
      | none => simp [lookup, bind, Except.bind] at found
      | some known =>
          by_cases inside : known < log.size
          · simp only [lookup, bind, Except.bind, inside, if_true, pure, Except.pure,
              Except.ok.injEq] at found
            rwa [← found]
          · simp [lookup, bind, Except.bind, inside] at found

theorem leafByHash_eq_truncated (lists : log.store.Lists records)
    (cut : truncated.Lists (records.take log.tree.size))
    (reached : log.tree.size ≤ records.length) (now : Moment) (hash : Digest)
    (deadline : Deadline) :
    log.leafByHash now hash deadline =
      leafByHash { log with store := truncated } now hash deadline := by
  have size := toNat_size_of_le lists.fits reached
  rw [leafByHash, leafByHash, ← sequenceOf_eq_truncated lists cut reached]
  refine bind_congr fun _ => ?_
  cases found : log.sequenceOf hash with
  | error cause => rfl
  | ok sequence =>
      have inside := sequenceOf_lt found
      rw [UInt64.lt_iff_toNat_lt, size] at inside
      have same : LeafStore.leaf? log.store sequence = LeafStore.leaf? truncated sequence := by
        rw [lists.leaf?_eq, cut.leaf?_eq, List.getElem?_take_of_lt inside]
      simp only [bind, Except.bind, same]

theorem leavesByRange_eq_truncated (lists : log.store.Lists records)
    (cut : truncated.Lists (records.take log.tree.size))
    (reached : log.tree.size ≤ records.length) (now : Moment) (start stop : UInt64)
    (deadline : Deadline) :
    log.leavesByRange now start stop deadline =
      leavesByRange { log with store := truncated } now start stop deadline := by
  have limit := toNat_rangeLimit log.size stop
  rw [toNat_size_of_le lists.fits reached] at limit
  have within : (if stop < log.size then stop + 1 else log.size).toNat ≤ log.tree.size := by omega
  have same : LeafStore.leaves log.store start (if stop < log.size then stop + 1 else log.size) =
      LeafStore.leaves truncated start (if stop < log.size then stop + 1 else log.size) := by
    rw [lists.leaves_eq, cut.leaves_eq, List.take_take, Nat.min_eq_left within]
  have size : size { log with store := truncated } = log.size := rfl
  simp only [leavesByRange, size, same]

theorem inclusionProof_eq_truncated (lists : log.store.Lists records)
    (cut : truncated.Lists (records.take log.tree.size))
    (reached : log.tree.size ≤ records.length) (now : Moment) (leaf : Locator) (treeSize : UInt64)
    (deadline : Deadline) :
    log.inclusionProof now leaf treeSize deadline =
      inclusionProof { log with store := truncated } now leaf treeSize deadline := by
  have located : log.locate leaf = locate { log with store := truncated } leaf := by
    cases leaf with
    | index index => rfl
    | hash hash => exact sequenceOf_eq_truncated lists cut reached hash
  have size : size { log with store := truncated } = log.size := rfl
  simp only [inclusionProof, located, size]

theorem ask_eq_truncated (lists : log.store.Lists records)
    (cut : truncated.Lists (records.take log.tree.size))
    (reached : log.tree.size ≤ records.length) (now : Moment) (deadline : Deadline)
    (question : Question) :
    log.ask now deadline question = ask { log with store := truncated } now deadline question := by
  cases question with
  | treeSize | signedTreeHead | rootHash | consistencyProof => rfl
  | leafByHash hash =>
      exact congrArg (Except.map Answer.leaf)
        (leafByHash_eq_truncated lists cut reached now hash deadline)
  | leavesByRange start stop =>
      exact congrArg (Except.map Answer.leaves)
        (leavesByRange_eq_truncated lists cut reached now start stop deadline)
  | inclusionProof leaf treeSize =>
      exact congrArg (Except.map Answer.inclusion)
        (inclusionProof_eq_truncated lists cut reached now leaf treeSize deadline)

/-! ### Appending behind unseen leaves -/

theorem append_of_ahead (lists : log.store.Lists records) (ahead : log.tree.size < records.length)
    (writable : log.isClosed = false) {now : Moment} {batch : List NewLeaf} {deadline : Deadline}
    (nonempty : batch ≠ []) (inTime : deadline.isExpired now = false) :
    ∃ fault after, log.append now batch deadline = (.error (.storage fault), after) ∧
      log.AsBefore after ∧
      (log.store.pendingFailures = 0 → after = log ∧
        fault = .sequenceMismatch (UInt64.ofNat records.length) (UInt64.ofNat log.tree.size)) := by
  have fits := lists.fits
  have behind : log.size ≠ UInt64.ofNat records.length := by
    intro same
    have sizes := congrArg UInt64.toNat same
    rw [toNat_size_of_le fits (Nat.le_of_lt ahead), UInt64.toNat_ofNat_of_lt' fits] at sizes
    omega
  have result : (LeafStore.commit log.store.backend (log.batchFor batch)).1 =
      .error (.sequenceMismatch (UInt64.ofNat records.length) log.size) := by
    rw [lists.commit_result, Batch.validate, if_pos (by exact behind)]
    rfl
  rw [append_eq_commit nonempty writable inTime]
  rcases committed : LeafStore.commit log.store (log.batchFor batch) with ⟨fault | _, store⟩
  · have refused := commit_of_refused log now (log.tree.planAppend (leafHashes batch))
      (congrArg Prod.fst committed)
    rw [committed] at refused
    refine ⟨fault, _, refused, asBefore_of_commit_error committed, ?_⟩
    intro nonePending
    rcases Storage.commit_error_cases committed with ⟨rfl, under⟩ | ⟨_, count, pending, _⟩
    · exact ⟨rfl, Except.error.inj (under.symm.trans result)⟩
    · omega
  · rw [Storage.commit_ok_backend committed] at result
    cases result

end

/-- A log never shows a leaf that its tree does not count. Its store has taken the `own` leaves of
the log, which are as many as the tree counts (`Run.store_takes`), and then the `rest`, by whomever
they were committed.
Every question is answered as over any store that has taken the own leaves and no others; and behind
the rest nothing can be appended until the log is opened again. -/
theorem asks_as_truncated {empty base : Storage} (fresh : empty.Fresh) {own rest : List LeafRecord}
    (made : empty.Takes own base) {log : Log Storage} (beside : base.Takes rest log.store)
    (covers : log.tree.size = own.length) (fits : (own ++ rest).length < 2 ^ 64)
    (storable : ∀ record ∈ own ++ rest, record.Storable) :
    (∀ start truncated : Storage, start.Fresh → start.Takes own truncated →
      ∀ now deadline question,
        log.ask now deadline question = ask { log with store := truncated } now deadline question) ∧
    (rest ≠ [] → log.isClosed = false →
      ∀ now batch deadline, batch ≠ [] → deadline.isExpired now = false →
        ∃ fault after, log.append now batch deadline = (.error (.storage fault), after) ∧
          log.AsBefore after ∧
          (log.store.pendingFailures = 0 → after = log ∧
            fault = .sequenceMismatch (UInt64.ofNat (own ++ rest).length)
              (UInt64.ofNat own.length))) := by
  have ownFits : own.length < 2 ^ 64 := by
    rw [List.length_append] at fits
    omega
  have ownStorable : ∀ record ∈ own, record.Storable :=
    fun record member => storable record (List.mem_append_left _ member)
  have ofOwn : ∀ start truncated : Storage, start.Fresh → start.Takes own truncated →
      truncated.Lists own := by
    intro start truncated startFresh taken
    exact startFresh.lists.takes taken ownFits ownStorable
  have lists : log.store.Lists (own ++ rest) := (ofOwn empty base fresh made).takes beside fits
    fun record member => storable record (List.mem_append_right _ member)
  have reached : log.tree.size ≤ (own ++ rest).length := by
    rw [List.length_append]
    omega
  constructor
  · intro start truncated startFresh taken now deadline question
    refine ask_eq_truncated lists ?_ reached now deadline question
    rw [covers, List.take_left]
    exact ofOwn start truncated startFresh taken
  · intro unseen writable now batch deadline nonempty inTime
    rw [← covers]
    apply append_of_ahead lists _ writable nonempty inTime
    have more := List.length_pos_iff.mpr unseen
    rw [List.length_append]
    omega

theorem asks_as_truncated_repeatedLeaf :
    let hash := Merkle.hashLeaf [1]
    let first : LeafRecord := ⟨0, hash, [1], none⟩
    let second : LeafRecord := ⟨1, hash, [1], some [2]⟩
    let store : MemoryStore := ⟨#[first, second], (.insertIfNew (.insertIfNew ∅ hash 0) hash 1),
      [(⟨0, 0⟩, hash), (⟨0, 0⟩, hash)], none⟩
    let log : Log Storage :=
      ⟨.bare (.memory store), .ed25519 ⟨List.replicate 32 42⟩, .ofLeaves [hash], ⟨none, none⟩,
        false⟩
    let truncated := (LeafStore.commit (Storage.bare (.disk .empty)) ⟨0, [first], []⟩).2
    (∀ question, log.ask ⟨1, 1001⟩ .never question =
      ask { log with store := truncated } ⟨1, 1001⟩ .never question) ∧
    log.append ⟨2, 1002⟩ [⟨[3], none⟩] .never =
      (.error (.storage (.sequenceMismatch 2 1)), log) := by
  intro hash first second store log truncated
  have made : Storage.Takes (.bare (.memory .empty)) [first]
      (.bare (.memory ⟨#[first], .insertIfNew ∅ hash 0, [(⟨0, 0⟩, hash)], none⟩)) :=
    @Storage.Takes.commit _ _ _ _ ⟨0, [first], [(⟨0, 0⟩, hash)]⟩ .nothing rfl
  have beside : Storage.Takes
      (.bare (.memory ⟨#[first], .insertIfNew ∅ hash 0, [(⟨0, 0⟩, hash)], none⟩)) [second]
      log.store :=
    @Storage.Takes.commit _ _ _ _ ⟨1, [second], [(⟨0, 0⟩, hash)]⟩ .nothing rfl
  have cut : Storage.Takes (.bare (.disk .empty)) [first] truncated :=
    @Storage.Takes.commit _ _ _ _ ⟨0, [first], []⟩ .nothing rfl
  obtain ⟨reads, appends⟩ := asks_as_truncated (.inl rfl) made beside
    (Merkle.Accumulator.size_ofLeaves [hash]) (by simp)
    (by simp [LeafRecord.Storable, first, second])
  constructor
  · intro question
    exact reads _ _ (.inr rfl) cut _ _ question
  · obtain ⟨fault, after, refused, _, exactly⟩ := appends (by simp) rfl ⟨2, 1002⟩ [⟨[3], none⟩]
      .never (by simp) rfl
    obtain ⟨rfl, rfl⟩ := exactly rfl
    exact refused

end Log

end VerifiableLog
