import VerifiableLog.Http.Service
import VerifiableLog.Proofs.Json.Extent
import VerifiableLog.Proofs.Log.Consistency
import VerifiableLog.Proofs.Log.FailedAppend
import VerifiableLog.Proofs.Record.Json

/-!
Appending by request. A body is read to its end before the log is asked for anything, and the leaves
in it are no more and no longer than the body has bytes. So the log takes all the leaves of the body
or stays as it was, and the status of the response says which.
-/

namespace VerifiableLog

open Json

/-! ### Leaves in a text -/

namespace NewLeaf

theorem shrinking_fields : fields.Shrinking :=
  ⟨shrinks_readBlob, shrinks_readBlob.readOptional, trivial⟩

theorem shrinks_readJson : Shrinks readJson :=
  (Fields.shrinks_readRecord shrinking_fields).mapReader _

theorem storable_of_readWithin {leaf : NewLeaf} {limit : Nat} (fits : limit < 2 ^ 64)
    (within : ReadWithin readJson limit leaf) : leaf.Storable := by
  obtain ⟨text, rest, short, ran⟩ := within
  obtain ⟨⟨leafValue, extraData, _⟩, record, built⟩ := exists_of_mapReader ran
  obtain rfl := Option.some.inj built
  obtain ⟨value, extra, -⟩ := (Fields.readRecord_within shrinking_fields record).2
  refine ⟨?_, ?_⟩
  · rcases value with ⟨spelled, behind, within, found⟩ | absent
    · have bound := length_readBlob found
      simp only
      omega
    · cases absent
  · rcases extra with ⟨spelled, behind, within, found⟩ | absent
    · rcases readOptional_cases found with ⟨rfl, -⟩ | ⟨given, rfl, blob⟩
      · simp
      · have bound := length_readBlob blob
        have blanks := (List.dropWhile_suffix (l := spelled) isBlank).length_le
        rw [skipBlanks] at bound
        simp only [Option.mem_some_iff, forall_eq']
        omega
    · obtain rfl := Option.some.inj absent
      simp

end NewLeaf

/-! ### Appending -/

section

variable {leaves batch : List NewLeaf} {stored : Option SignedTreeHead}

theorem Keeps.taken_iff {storage : Storage} (keeps : Keeps storage leaves stored)
    (batch : List NewLeaf) :
    (LeafStore.commit storage (batchOf leaves batch)).1 = .ok () ↔
      storage.pendingFailures = 0 := by
  constructor
  · intro taken
    cases storage with
    | bare backend => rfl
    | faulty store =>
        by_contra pending
        have under : ((LeafStore.commit store (batchOf leaves batch)).map id Storage.faulty).1 =
            .ok () := taken
        rw [FaultyStore.commit_of_pending (Nat.pos_of_ne_zero pending)] at under
        cases under
  · intro nonePending
    obtain ⟨nodes, same, holds⟩ := keeps.content
    have valid : (batchOf leaves batch).validate (UInt64.ofNat leaves.length) = .ok () :=
      Batch.validate_ok_iff.mpr ⟨rfl, numbered_number _ _⟩
    have result := @Backend.commit_result storage.backend _ holds (batchOf leaves batch)
    rw [length_recordsOf, valid] at result
    rcases committed : LeafStore.commit storage (batchOf leaves batch) with ⟨fault | _, store⟩
    · -- The store underneath takes what is numbered behind its leaves, so the failure was ordered.
      rcases Storage.commit_error_cases committed with ⟨_, under⟩ | ⟨_, count, pending, _⟩
      · cases under.symm.trans result
      · omega
    · rfl

variable {log : Log Storage} {now : Moment} {deadline : Deadline}

theorem append_ok_iff (reflects : log.Reflects leaves stored)
    (room : (leaves ++ batch).length < 2 ^ 64) :
    (∃ receipt, (log.append now batch deadline).1 = .ok receipt) ↔
      batch ≠ [] ∧ log.isClosed = false ∧ deadline.isExpired now = false ∧
        log.store.pendingFailures = 0 := by
  constructor
  · rintro ⟨receipt, succeeded⟩
    have nonempty : batch ≠ [] := by
      rintro rfl
      cases succeeded
    have writable : log.isClosed = false := by
      cases closed : log.isClosed with
      | false => rfl
      | true => simp [Log.append, nonempty, closed] at succeeded
    have inTime : deadline.isExpired now = false := by
      cases expired : deadline.isExpired now with
      | false => rfl
      | true => simp [Log.append, nonempty, writable, expired] at succeeded
    refine ⟨nonempty, writable, inTime, (reflects.keeps.taken_iff batch).mp ?_⟩
    rw [append_eq_commit nonempty writable inTime, batchFor_eq reflects.tree] at succeeded
    cases taken : (LeafStore.commit log.store (batchOf leaves batch)).1 with
    | ok _ => rfl
    | error cause =>
        rw [commit_of_refused log now _ taken] at succeeded
        cases succeeded
  · rintro ⟨nonempty, writable, inTime, nonePending⟩
    have taken := (reflects.keeps.taken_iff batch).mpr nonePending
    rw [← batchFor_eq reflects.tree] at taken
    obtain ⟨after, appended⟩ :=
      Log.append_of_taken reflects.tree room nonempty writable inTime taken
    exact ⟨_, congrArg Prod.fst appended⟩

theorem append_signer (log : Log Storage) (signer : Signer) (now : Moment) (batch : List NewLeaf)
    (deadline : Deadline) :
    ({ log with signer := signer }.append now batch deadline).1 =
      (log.append now batch deadline).1 := by
  simp only [Log.append, Log.size, Log.commit]
  split
  · rfl
  split
  · rfl
  split
  · rfl
  split
  · rfl
  split <;> rfl

theorem append_grows (reflects : log.Reflects leaves stored)
    (room : leaves.length + batch.length < 2 ^ 63) (storable : ∀ leaf ∈ batch, leaf.Storable)
    {receipt : AppendReceipt} {after : Log Storage}
    (appended : log.append now batch deadline = (.ok receipt, after)) :
    receipt = receiptOf leaves batch ∧ after.Lists (leaves ++ batch) := by
  have accepted : (log.step now (.append batch deadline)).1.accepted = batch := by
    simp only [Log.step, appended, Event.accepted]
  obtain ⟨grown, storedAfter, result, left⟩ := @append_leaves log leaves batch stored now deadline
    reflects ⟨by omega, storable⟩ (by rw [accepted, List.length_append]; exact room)
  have reflectsAfter := left.reflects
  have names := left.receipt receipt (by simp only [Log.step, appended])
  rw [accepted] at reflectsAfter names
  simp only [Log.step, appended] at result
  obtain rfl := Except.ok.inj result
  exact ⟨names, reflectsAfter.lists⟩

end

namespace Http

theorem ApiError.status_ne_ok (error : ApiError) : error.status ≠ 200 := by
  cases error with
  | badRequest fault => simp [status]
  | log cause =>
      rw [status]
      split <;> decide

namespace Service

/-! ### Bodies -/

structure Accepts (service : Service) (request : Request) (batch : List NewLeaf) : Prop where
  announced : announcesJson request.contentType = true
  short : request.body.length ≤ service.maxBodyLength
  decoded : readAll batchFields.readRecord request.body = .ok (batch, ())

variable {service : Service} {request : Request} {batch : List NewLeaf}

theorem Accepts.unique {other : List NewLeaf} (accepts : service.Accepts request batch)
    (acceptsOther : service.Accepts request other) : batch = other :=
  congrArg Prod.fst (Except.ok.inj (accepts.decoded.symm.trans acceptsOther.decoded))

theorem readBatch_ok_iff :
    service.readBatch request = .ok batch ↔ service.Accepts request batch := by
  constructor
  · intro read
    unfold readBatch at read
    split at read
    · cases read
    · rename_i announced
      split at read
      · cases read
      · rename_i short
        split at read
        · rename_i leaves decoded
          obtain rfl := Except.ok.inj read
          exact ⟨by simpa using announced, by omega, decoded⟩
        · cases read
  · intro accepts
    have short : ¬request.body.length > service.maxBodyLength := Nat.not_lt.mpr accepts.short
    simp only [readBatch, accepts.announced, short, accepts.decoded, Bool.not_true,
      Bool.false_eq_true, if_false]
    rfl

theorem shrinking_batchFields : batchFields.Shrinking :=
  ⟨NewLeaf.shrinks_readJson.readList, trivial⟩

theorem Accepts.fits (accepts : service.Accepts request batch)
    (fits : request.body.length < 2 ^ 64) :
    batch.length ≤ request.body.length ∧ ∀ leaf ∈ batch, leaf.Storable := by
  obtain ⟨text, rest, short, ran⟩ := readWithin_of_readAll accepts.decoded
  have within := (Fields.readRecord_within shrinking_batchFields ran).2
  rcases within.1 with ⟨spelled, behind, spelledShort, found⟩ | absent
  · obtain ⟨-, count, each⟩ := readList_within NewLeaf.shrinks_readJson found
    refine ⟨by omega, ?_⟩
    intro leaf member
    exact NewLeaf.storable_of_readWithin (by omega) (each leaf member)
  · cases absent

/-! ### Requests -/

section

variable (found : Route.ofPath? request.target.path = some .leaves)
  (isPost : request.method = .post)

include found isPost

theorem respond_of_post (service : Service) (now : Moment) (log : Log Storage)
    (detail : Request → String) :
    service.respond now log request detail =
      ((service.appendLeaves now log request).map (answer (detail request)) id) := by
  simp only [respond, found, isPost]
  rfl

theorem respond_cases (service : Service) (now : Moment) (log : Log Storage)
    (detail : Request → String) :
    (∃ error : ApiError,
        service.respond now log request detail = (error.response (detail request), log) ∧
        ∀ batch, ¬service.Accepts request batch) ∨
      ∃ batch, service.Accepts request batch ∧
        ((∃ cause after, log.append now batch (service.deadline now) = (.error cause, after) ∧
            service.respond now log request detail =
              ((ApiError.log cause).response (detail request), after)) ∨
          ∃ receipt after, log.append now batch (service.deadline now) = (.ok receipt, after) ∧
            service.respond now log request detail = (.json 200 receipt.writeJson, after)) := by
  cases read : service.readBatch request with
  | error error =>
      refine .inl ⟨error, ?_, ?_⟩
      · rw [respond_of_post found isPost, appendLeaves, read]
        rfl
      · intro batch accepts
        rw [readBatch_ok_iff.mpr accepts] at read
        cases read
  | ok batch =>
      have accepts := readBatch_ok_iff.mp read
      refine .inr ⟨batch, accepts, ?_⟩
      rw [respond_of_post found isPost, appendLeaves, read]
      dsimp only
      rcases log.append now batch (service.deadline now) with ⟨cause | receipt, after⟩
      · exact .inl ⟨cause, after, rfl, rfl⟩
      · exact .inr ⟨receipt, after, rfl, rfl⟩

theorem status_eq_ok_iff (service : Service) (now : Moment) (log : Log Storage)
    (detail : Request → String) :
    (service.respond now log request detail).1.status = 200 ↔
      ∃ batch, service.Accepts request batch ∧
        ∃ receipt, (log.append now batch (service.deadline now)).1 = .ok receipt := by
  rcases respond_cases found isPost service now log detail with
    ⟨error, refused, notAccepted⟩ |
      ⟨batch, accepts, ⟨cause, after, failed, told⟩ | ⟨receipt, after, appended, told⟩⟩
  · rw [refused]
    refine ⟨fun succeeded => absurd succeeded error.status_ne_ok, ?_⟩
    rintro ⟨batch, accepts, _⟩
    exact absurd accepts (notAccepted batch)
  · rw [told]
    refine ⟨fun succeeded => absurd succeeded (ApiError.log cause).status_ne_ok, ?_⟩
    rintro ⟨other, acceptsOther, receipt, appended⟩
    obtain rfl := accepts.unique acceptsOther
    rw [failed] at appended
    cases appended
  · rw [told]
    exact ⟨fun _ => ⟨batch, accepts, receipt, congrArg Prod.fst appended⟩, fun _ => rfl⟩

theorem respond_signer (service : Service) (now : Moment) (log : Log Storage)
    (detail : Request → String) (signer : Signer) :
    (service.respond now { log with signer := signer } request detail).1 =
      (service.respond now log request detail).1 := by
  rw [respond_of_post found isPost, respond_of_post found isPost]
  simp only [appendLeaves, Prod.map_fst]
  cases service.readBatch request with
  | error error => rfl
  | ok batch =>
      exact congrArg
        (fun result => answer (detail request) (fromLog (result.map AppendReceipt.writeJson)))
        (append_signer log signer now batch (service.deadline now))

end

/-- What a request to append comes to, when `leaves` are those of the log so far. -/
structure AppendsAllOrNone (service : Service) (now : Moment) (log : Log Storage)
    (leaves : List NewLeaf) (request : Request) (detail : Request → String) : Prop where
  status : (service.respond now log request detail).1.status = 200 ↔
    (∃ batch, service.Accepts request batch ∧ batch ≠ []) ∧ log.isClosed = false ∧
      0 < service.timeout ∧ log.store.pendingFailures = 0
  all : (service.respond now log request detail).1.status = 200 →
    ∃ batch, service.Accepts request batch ∧ batch ≠ [] ∧
      (service.respond now log request detail).2.Lists (leaves ++ batch) ∧
      readAll AppendReceipt.readJson (service.respond now log request detail).1.body =
        .ok (receiptOf leaves batch)
  none : (service.respond now log request detail).1.status ≠ 200 →
    log.AsBefore (service.respond now log request detail).2
  signer : ∀ signer, (service.respond now { log with signer := signer } request detail).1 =
    (service.respond now log request detail).1

theorem appendsAllOrNone {leaves : List NewLeaf} {stored : Option SignedTreeHead}
    {log : Log Storage} (reflects : log.Reflects leaves stored)
    (found : Route.ofPath? request.target.path = some .leaves) (isPost : request.method = .post)
    (room : leaves.length + min request.body.length service.maxBodyLength < 2 ^ 63)
    (now : Moment) (detail : Request → String) :
    service.AppendsAllOrNone now log leaves request detail := by
  have fits : ∀ batch, service.Accepts request batch →
      leaves.length + batch.length < 2 ^ 63 ∧ ∀ leaf ∈ batch, leaf.Storable := by
    intro batch accepts
    -- The body is within the limit of the service, so the bound on the lesser of both is on it.
    have taken := accepts.short
    obtain ⟨count, storable⟩ := accepts.fits (by omega)
    exact ⟨by omega, storable⟩
  have granted : ∀ batch, service.Accepts request batch →
      ((∃ receipt, (log.append now batch (service.deadline now)).1 = .ok receipt) ↔
        batch ≠ [] ∧ log.isClosed = false ∧ 0 < service.timeout ∧
          log.store.pendingFailures = 0) := by
    intro batch accepts
    have counted := (fits batch accepts).1
    rw [append_ok_iff reflects (by rw [List.length_append]; omega), deadline,
      Deadline.isExpired_after_eq_false_iff]
  refine ⟨?_, ?_, ?_, respond_signer found isPost service now log detail⟩
  · rw [status_eq_ok_iff found isPost service now log detail]
    constructor
    · rintro ⟨batch, accepts, succeeded⟩
      obtain ⟨nonempty, others⟩ := (granted batch accepts).mp succeeded
      exact ⟨⟨batch, accepts, nonempty⟩, others⟩
    · rintro ⟨⟨batch, accepts, nonempty⟩, others⟩
      exact ⟨batch, accepts, (granted batch accepts).mpr ⟨nonempty, others⟩⟩
  · intro succeeded
    rcases respond_cases found isPost service now log detail with
      ⟨error, refused, _⟩ |
        ⟨batch, accepts, ⟨cause, after, _, told⟩ | ⟨receipt, after, appended, told⟩⟩
    · rw [refused] at succeeded
      exact absurd succeeded error.status_ne_ok
    · rw [told] at succeeded
      exact absurd succeeded (ApiError.log cause).status_ne_ok
    · have nonempty := ((granted batch accepts).mp ⟨receipt, congrArg Prod.fst appended⟩).1
      obtain ⟨counted, storable⟩ := fits batch accepts
      obtain ⟨rfl, lists⟩ := append_grows reflects counted storable appended
      rw [told]
      exact ⟨batch, accepts, nonempty, lists, readAll_of_reads
        (ValueKind.reads_restated (ValueKind.restates_writeJson .appendReceipt _))⟩
  · intro unsuccessful
    rcases respond_cases found isPost service now log detail with
      ⟨error, refused, _⟩ |
        ⟨batch, accepts, ⟨cause, after, failed, told⟩ | ⟨receipt, after, _, told⟩⟩
    · rw [refused]
      exact .refl log
    · have counted := (fits batch accepts).1
      rw [told]
      exact Log.asBefore_of_append_error reflects.tree (by rw [List.length_append]; omega) failed
    · rw [told] at unsuccessful
      exact absurd rfl unsuccessful

/-- A request to append, made of the log at the end of any run. If the response is one of success,
then the body lists leaves, one at least, these and no others stand behind the leaves so far, in
their order, and the receipt names their places, the new size and the new root, whoever signs or
fails to. If it is any other, nothing has changed but, maybe, that a failure which the store was
told to make is used up. -/
theorem post_appends_all_or_none {storage : Storage} (fresh : storage.Fresh) {signer : Signer}
    (signs : signer.Storable) (opened : Moment) {calls : List (Moment × Call)}
    (fits : ∀ call ∈ calls, call.2.Fits) (service : Service) (now : Moment) {request : Request}
    (detail : Request → String) (found : Route.ofPath? request.target.path = some .leaves)
    (isPost : request.method = .post)
    (room : (acceptedLeaves (Run.ofCalls storage signer opened calls).events).length +
      min request.body.length service.maxBodyLength < 2 ^ 63) :
    ∃ log, (Run.ofCalls storage signer opened calls).log = .ok log ∧
      service.AppendsAllOrNone now log
        (acceptedLeaves (Run.ofCalls storage signer opened calls).events) request detail := by
  obtain ⟨log, stored, sound⟩ := Run.ofCalls_sound fresh signs opened fits (by omega)
  exact ⟨log, sound.log_eq, appendsAllOrNone sound.reflects found isPost room now detail⟩

theorem post_appends_all_or_none_withoutKey :
    let key : Signature.SecretKey := ⟨List.replicate 32 42⟩
    let run := Run.ofCalls (.faulty (.wrap (.disk .empty))) (.ed25519 key) ⟨0, 5⟩
      [(⟨1, 6⟩, .useSigner (Signer.ed25519 key).withoutKey)]
    let leaf (digits : String) : Bytes :=
      Bytes.ofAscii "\x7b\"leaf_value\":\"" ++ Bytes.ofAscii digits ++ Bytes.ofAscii "\"\x7d"
    let request (digits : String) : Request :=
      ⟨.post, .ofBytes (Bytes.ofAscii "/v1/leaves"), some (Bytes.ofAscii "application/json"),
        Bytes.ofAscii "\x7b\"leaves\":[" ++ leaf "0a" ++ Bytes.ofAscii "," ++ leaf digits ++
          Bytes.ofAscii "]\x7d"⟩
    ∃ log, run.log = .ok log ∧
      ((standard.respond ⟨2, 7⟩ log (request "0bc")).1.status ≠ 200 ∧
        log.AsBefore (standard.respond ⟨2, 7⟩ log (request "0bc")).2) ∧
      (standard.respond ⟨2, 7⟩ log (request "0b")).1.status = 200 ∧
        readAll AppendReceipt.readJson (standard.respond ⟨2, 7⟩ log (request "0b")).1.body =
          .ok (receiptOf [] [⟨[0x0a], none⟩, ⟨[0x0b], none⟩]) := by
  intro key run leaf request
  have last : run.log =
      .ok { emptyLog key 5 5 false with signer := (Signer.ed25519 key).withoutKey } := by
    have opened := openLog_empty key ⟨0, 5⟩
    simp only [run, Run.ofCalls, opened, List.foldl_cons, List.foldl_nil, Run.call, Log.step]
    rfl
  have empty : acceptedLeaves run.events = [] := by
    have few := length_acceptedLeaves_ofCalls_le (.faulty (.wrap (.disk .empty))) (.ed25519 key)
      ⟨0, 5⟩ [(⟨1, 6⟩, .useSigner (Signer.ed25519 key).withoutKey)]
    exact List.eq_nil_of_length_eq_zero (Nat.le_zero.mp few)
  have found : Route.ofPath? (request "0b").target.path = some .leaves := by decide +kernel
  have whole : ∀ digits, ∃ log, run.log = .ok log ∧
      standard.AppendsAllOrNone ⟨2, 7⟩ log (acceptedLeaves run.events) (request digits)
        (fun _ => "") :=
    fun digits => @post_appends_all_or_none (.faulty (.wrap (.disk .empty))) (.inr rfl)
      (.ed25519 key) (Signer.ed25519_storable key) ⟨0, 5⟩
      [(⟨1, 6⟩, .useSigner (Signer.ed25519 key).withoutKey)]
      (by simp [Call.Fits, Signer.withoutKey_storable]) standard ⟨2, 7⟩ (request digits)
      (fun _ => "") found rfl
      (Nat.lt_of_le_of_lt
        (Nat.add_le_add (length_acceptedLeaves_ofCalls_le _ _ _ _) (Nat.min_le_right _ _))
        (by simp [Call.leaves, standard]))
  have undecoded : (readAll batchFields.readRecord (request "0bc").body).isOk = false := by
    decide +kernel
  have decoded : (readAll batchFields.readRecord (request "0b").body :
      Except Json.Fault (List NewLeaf × Unit)) = .ok ([⟨[0x0a], none⟩, ⟨[0x0b], none⟩], ()) := by
    decide +kernel
  have accepts : standard.Accepts (request "0b") [⟨[0x0a], none⟩, ⟨[0x0b], none⟩] :=
    ⟨by decide +kernel, by decide +kernel, decoded⟩
  obtain ⟨log, opened, odd⟩ := whole "0bc"
  obtain ⟨same, openedSame, even⟩ := whole "0b"
  obtain rfl := Except.ok.inj (opened.symm.trans openedSame)
  rw [empty] at odd even
  have refused : (standard.respond ⟨2, 7⟩ log (request "0bc")).1.status ≠ 200 := by
    intro succeeded
    obtain ⟨batch, accepted, _⟩ := odd.all succeeded
    rw [accepted.decoded] at undecoded
    cases undecoded
  have granted : (standard.respond ⟨2, 7⟩ log (request "0b")).1.status = 200 := by
    obtain rfl := Except.ok.inj (last.symm.trans opened)
    exact even.status.mpr ⟨⟨_, accepts, by simp⟩, rfl, by decide, rfl⟩
  obtain ⟨batch, accepted, _, _, receipt⟩ := even.all granted
  obtain rfl := accepts.unique accepted
  exact ⟨log, opened, ⟨refused, odd.none refused⟩, granted, receipt⟩

end Service

end Http

end VerifiableLog
