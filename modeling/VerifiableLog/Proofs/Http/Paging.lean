import VerifiableLog.Http.Service
import VerifiableLog.Proofs.Http.Query
import VerifiableLog.Proofs.Log.Refinement
import VerifiableLog.Proofs.Record.Json

/-!
Going through a log page by page. A client names the first leaf it wants, and the last one if it
likes; how much it gets is for the policy to say, but it always gets the leaf that it has named, if
there is one. So whoever goes on behind the last page until one is empty has been given every leaf
once, in order.
-/

namespace VerifiableLog.Http

open Json

/-! ### Requests and pages, as a client makes and reads them -/

def rangeParameters (start : UInt64) (stop : Option UInt64) : List (Bytes × Bytes) :=
  (Bytes.ofAscii "start", writeWord start) ::
    (stop.map fun stop => (Bytes.ofAscii "end", writeWord stop)).toList

def rangeRequest (start : UInt64) (stop : Option UInt64) : Request :=
  ⟨.get, .ofBytes (Bytes.ofAscii "/v1/leaves" ++ 0x3f :: writeQuery (rangeParameters start stop)),
    none, []⟩

structure Page where
  records : List LeafRecord
  count : UInt64
  start : UInt64
  stop : UInt64

def Page.fields : Fields [List LeafRecord, UInt64, UInt64, UInt64] :=
  .cons ⟨Bytes.ofAscii "leaves", readList LeafRecord.readJson, none⟩
    (.cons ⟨Bytes.ofAscii "count", readWord, none⟩
      (.cons ⟨Bytes.ofAscii "start", readWord, none⟩
        (.cons ⟨Bytes.ofAscii "end", readWord, none⟩ .nil)))

def Page.ofResponse? (response : Response) : Option Page :=
  match response.status, readAll Page.fields.readRecord response.body with
  | 200, .ok (records, count, start, stop, ()) => some ⟨records, count, start, stop⟩
  | _, _ => none

/-- What a client is given that asks for the leaves from `start` on, then for those behind the page
that it has got, and so on until a page is empty. Nothing if a response is no page, or if there is
still no empty page when the requests are used up. -/
def Service.crawl {σ : Type} [LeafStore σ] (service : Service) (detail : Request → String)
    (clock : Nat → Moment) : Nat → Log σ → UInt64 → Option (List LeafRecord)
  | 0, _, _ => none
  | requests + 1, log, start => do
    let answered := service.respond (clock requests) log (rangeRequest start none) detail
    let page ← Page.ofResponse? answered.1
    if page.count = 0 then return page.records
    else
      let others ← service.crawl detail clock requests answered.2 (start + page.count)
      return page.records ++ others

def Page.covering (leaves : List NewLeaf) (start stop : UInt64) : Page :=
  let records := ((recordsOf leaves).take (stop.toNat + 1)).drop start.toNat
  ⟨records, UInt64.ofNat records.length, start, stop⟩

namespace Page

theorem length_covering (leaves : List NewLeaf) (start stop : UInt64) :
    (covering leaves start stop).records.length =
      min (stop.toNat + 1) leaves.length - start.toNat := by
  simp only [covering, List.length_drop, List.length_take, length_recordsOf]

theorem toNat_count_covering {leaves : List NewLeaf} (fits : leaves.length < 2 ^ 64)
    (start stop : UInt64) :
    (covering leaves start stop).count.toNat = (covering leaves start stop).records.length := by
  have length := length_covering leaves start stop
  refine UInt64.toNat_ofNat_of_lt' ?_
  show (covering leaves start stop).records.length < 2 ^ 64
  omega

theorem covering_append_drop (leaves : List NewLeaf) (start stop : UInt64) :
    (covering leaves start stop).records ++
        (recordsOf leaves).drop (start.toNat + (covering leaves start stop).records.length) =
      (recordsOf leaves).drop start.toNat := by
  have later : (covering leaves start stop).records =
      ((recordsOf leaves).drop start.toNat).take (stop.toNat + 1 - start.toNat) := List.drop_take
  rw [← List.drop_drop, later, List.length_take]
  generalize (recordsOf leaves).drop start.toNat = records
  rw [List.take_eq_take_min, List.take_append_drop]

end Page

/-! ### Pages read back -/

theorem reads_records (records : List LeafRecord) :
    Reads (readList LeafRecord.readJson) (writeList LeafRecord.writeJson records) records := by
  have each : ∀ element ∈ records.map fun record => (record.writeJson, record),
      StartsValue element.1 ∧ Reads LeafRecord.readJson element.1 element.2 := by
    rw [List.forall_mem_map]
    intro record _
    exact ⟨⟨openObject, _, rfl, by decide, by decide, by decide⟩,
      ValueKind.reads_restated (ValueKind.restates_writeJson .leafRecord record)⟩
  have read := reads_list each
  simpa [writeList, Function.comp_def] using read

theorem reads_word (value : UInt64) : Reads readWord (writeWord value) value :=
  readsAnyCase_word value _ (map_lowerDigit_writeNatural _)

theorem Page.ofResponse?_writeRange {records : List LeafRecord} (fits : records.length < 2 ^ 64)
    (start stop : UInt64) :
    Page.ofResponse? (.json 200 (Service.writeRange start stop records)) =
      some ⟨records, UInt64.ofNat records.length, start, stop⟩ := by
  have count : writeNatural records.length = writeWord (UInt64.ofNat records.length) := by
    rw [writeWord, UInt64.toNat_ofNat_of_lt' fits]
  have given : Page.fields.Given (records, UInt64.ofNat records.length, start, stop, ())
      [(Bytes.ofAscii "leaves", writeList LeafRecord.writeJson records),
        (Bytes.ofAscii "count", writeNatural records.length),
        (Bytes.ofAscii "start", writeWord start), (Bytes.ofAscii "end", writeWord stop)] := by
    rw [count]
    exact ⟨_, _, rfl, reads_records records, _, _, rfl, reads_word _, _, _, rfl, reads_word _,
      _, _, rfl, reads_word _, rfl⟩
  have read := readAll_of_reads
    (Fields.reads_writeObject (by decide) given (by simp) (Text.isUtf8_of_all_ascii (by decide)))
  simp only [Page.ofResponse?, Response.json, Service.writeRange, read]

/-! ### One request -/

theorem toNat_addCapped (left right : UInt64) :
    (RangePolicy.addCapped left right).toNat =
      min (left.toNat + right.toNat) 0xffffffffffffffff := by
  rw [RangePolicy.addCapped, UInt64.toNat_ofNat_of_lt']
  show _ < 2 ^ 64
  omega

theorem RangePolicy.le_resolve (policy : RangePolicy) {start : UInt64} {stop : Option UInt64}
    (ordered : ∀ asked ∈ stop, start ≤ asked) : start ≤ policy.resolve start stop := by
  have fits := start.toNat_lt
  rw [UInt64.le_iff_toNat_le, RangePolicy.resolve, UInt64.toNat_min, toNat_addCapped]
  cases stop with
  | none =>
      rw [Option.getD_none, toNat_addCapped]
      omega
  | some asked =>
      have order := UInt64.le_iff_toNat_le.mp (ordered asked rfl)
      rw [Option.getD_some]
      omega

theorem RangePolicy.toNat_resolve_some (policy : RangePolicy) (start stop : UInt64) :
    (policy.resolve start (some stop)).toNat =
      min stop.toNat (start.toNat + policy.maxSpan.toNat) := by
  have fits := stop.toNat_lt
  rw [RangePolicy.resolve, UInt64.toNat_min, toNat_addCapped, Option.getD_some]
  omega

theorem plain_rangeParameters (start : UInt64) (stop : Option UInt64) :
    ∀ pair ∈ rangeParameters start stop, AllPlain pair.1 ∧ AllPlain pair.2 := by
  have plainName : AllPlain (Bytes.ofAscii "start") ∧ AllPlain (Bytes.ofAscii "end") := by
    simp [AllPlain, IsPlain, Bytes.ofAscii, percentSign, plusSign]
  intro pair member
  rcases List.mem_cons.mp member with rfl | later
  · exact ⟨plainName.1, allPlain_writeNatural _⟩
  · obtain ⟨asked, -, rfl⟩ := Option.map_eq_some_iff.mp (Option.mem_toList.mp later)
    exact ⟨plainName.2, allPlain_writeNatural _⟩

theorem target_rangeRequest (start : UInt64) (stop : Option UInt64) :
    (rangeRequest start stop).target =
      ⟨Bytes.ofAscii "/v1/leaves", writeQuery (rangeParameters start stop)⟩ :=
  target_ofBytes (by decide) (by decide) (by decide)
    (plain_rangeParameters start stop)

theorem parameter_start {start : UInt64} (fits : start.toNat < 2 ^ 63) (stop : Option UInt64) :
    parameter (writeQuery (rangeParameters start stop)) "start" =
      .ok (some (start.toNat : Int)) := by
  have otherName : Bytes.ofAscii "end" ≠ Bytes.ofAscii "start" := by decide
  have alone : (rangeParameters start stop).filter (fun pair => pair.1 = Bytes.ofAscii "start") =
      [(Bytes.ofAscii "start", writeWord start)] := by
    cases stop <;> simp [rangeParameters, otherName]
  rw [parameter, queryPairs_writeQuery (plain_rangeParameters start stop), alone]
  simp only [writeWord, readInteger?_writeNatural fits]

theorem parameter_end {start : UInt64} {stop : Option UInt64}
    (fits : ∀ asked ∈ stop, asked.toNat < 2 ^ 63) :
    parameter (writeQuery (rangeParameters start stop)) "end" =
      .ok (stop.map fun asked => (asked.toNat : Int)) := by
  have otherName : Bytes.ofAscii "start" ≠ Bytes.ofAscii "end" := by decide
  rw [parameter, queryPairs_writeQuery (plain_rangeParameters start stop)]
  cases stop with
  | none => simp [rangeParameters, otherName]
  | some asked =>
      have alone : (rangeParameters start (some asked)).filter
          (fun pair => pair.1 = Bytes.ofAscii "end") =
            [(Bytes.ofAscii "end", writeWord asked)] := by
        simp [rangeParameters, otherName]
      rw [alone]
      simp only [writeWord, readInteger?_writeNatural (fits asked rfl), Option.map_some]

theorem nonNegative_natCast (name : String) (value : UInt64) :
    Service.nonNegative name (value.toNat : Int) = .ok value := by
  rw [Service.nonNegative, if_neg (by omega), Int.toNat_natCast, UInt64.ofNat_toNat]

namespace Service

section

variable {σ : Type} [LeafStore σ] {service : Service} {now : Moment} {start : UInt64}
  {stop : Option UInt64}

theorem leafRange_eq (log : Log σ) (startFits : start.toNat < 2 ^ 63)
    (stopFits : ∀ asked ∈ stop, asked.toNat < 2 ^ 63) :
    service.leafRange now log (rangeRequest start stop) =
      (fromLog (log.leavesByRange now start (service.rangePolicy.resolve start stop)
        (service.deadline now))).map
        (writeRange start (service.rangePolicy.resolve start stop)) := by
  have stopRead : (stop.map fun asked => (asked.toNat : Int)).mapM (nonNegative "end") =
      .ok stop := by
    cases stop with
    | none => rfl
    | some asked =>
        rw [Option.map_some, Option.mapM_some, nonNegative_natCast]
        rfl
  simp only [leafRange, queryParameter, target_rangeRequest, parameter_start startFits,
    parameter_end stopFits, Except.mapError, bind, Except.bind, nonNegative_natCast, stopRead]
  cases log.leavesByRange now start (service.rangePolicy.resolve start stop)
    (service.deadline now) <;> rfl

theorem respond_rangeRequest (service : Service) (now : Moment) (log : Log σ) (start : UInt64)
    (stop : Option UInt64) (detail : Request → String) :
    service.respond now log (rangeRequest start stop) detail =
      (answer (detail (rangeRequest start stop))
        (service.leafRange now log (rangeRequest start stop)), log) := by
  have found : Route.ofPath? (rangeRequest start stop).target.path = some .leaves := by
    rw [target_rangeRequest, Route.ofPath?, if_pos rfl]
  have isGet : (rangeRequest start stop).method = .get := rfl
  simp only [respond, found, isGet, read]

variable [LawfulStore σ] {log : Log σ} {leaves : List NewLeaf} {stored : Option SignedTreeHead}

theorem respond_page (reflects : log.Reflects leaves stored) (inTime : 0 < service.timeout)
    (now : Moment) (startFits : start.toNat < 2 ^ 63) (stop : Option UInt64)
    (stopFits : ∀ asked ∈ stop, asked.toNat < 2 ^ 63) (ordered : ∀ asked ∈ stop, start ≤ asked)
    (detail : Request → String) :
    ∃ response, service.respond now log (rangeRequest start stop) detail = (response, log) ∧
      Page.ofResponse? response =
        some (Page.covering leaves start (service.rangePolicy.resolve start stop)) := by
  have fits := reflects.keeps.fits
  have short : (((recordsOf leaves).take ((service.rangePolicy.resolve start stop).toNat + 1)).drop
      start.toNat).length < 2 ^ 64 := by
    simp only [List.length_drop, List.length_take, length_recordsOf]
    omega
  have asked : (service.deadline now).isExpired now = false :=
    Deadline.isExpired_after_eq_false_iff.mpr inTime
  rw [respond_rangeRequest, leafRange_eq log startFits stopFits, leavesByRange_eq reflects asked
      (service.rangePolicy.le_resolve ordered)]
  exact ⟨_, rfl, Page.ofResponse?_writeRange short start _⟩

/-! ### All pages -/

theorem crawl_eq (reflects : log.Reflects leaves stored) (inTime : 0 < service.timeout)
    (detail : Request → String) (clock : Nat → Moment) {requests : Nat}
    (within : start.toNat ≤ leaves.length)
    (enough : leaves.length < start.toNat + requests) :
    service.crawl detail clock requests log start = some ((recordsOf leaves).drop start.toNat) := by
  have fits := reflects.keeps.fits
  -- Each request but the last brings the client on by a leaf at least, so those left are enough.
  induction requests generalizing start with
  | zero => omega
  | succ requests ih =>
      have behind : start ≤ service.rangePolicy.resolve start none :=
        service.rangePolicy.le_resolve (by simp)
      obtain ⟨response, answered, found⟩ := respond_page reflects inTime (clock requests)
        (show start.toNat < 2 ^ 63 by omega) none (by simp) (by simp) detail
      generalize service.rangePolicy.resolve start none = resolved at behind found
      have order := UInt64.le_iff_toNat_le.mp behind
      have length := Page.length_covering leaves start resolved
      have count := @Page.toNat_count_covering leaves (by omega) start resolved
      have whole := Page.covering_append_drop leaves start resolved
      rw [crawl, answered, found, Option.bind_eq_bind, Option.bind_some]
      by_cases last : (Page.covering leaves start resolved).count = 0
      · rw [if_pos last]
        rw [last, UInt64.toNat_zero] at count
        rw [← count, List.drop_eq_nil_of_le (by rw [length_recordsOf]; omega)] at whole
        simpa using whole
      · have moves : (Page.covering leaves start resolved).count.toNat ≠ 0 :=
          fun same => last (UInt64.toNat_inj.mp same)
        have next : (start + (Page.covering leaves start resolved).count).toNat =
            start.toNat + (Page.covering leaves start resolved).records.length := by
          rw [UInt64.toNat_add, count, Nat.mod_eq_of_lt (by omega)]
        have others := @ih (start + (Page.covering leaves start resolved).count)
          (by rw [next]; omega) (by rw [next]; omega)
        rw [if_neg last, others, next, Option.bind_eq_bind, Option.bind_some]
        exact congrArg some whole

theorem length_covering_resolve_le (policy : RangePolicy) (leaves : List NewLeaf)
    (start stop : UInt64) :
    (Page.covering leaves start (policy.resolve start (some stop))).records.length ≤
      policy.maxSpan.toNat + 1 := by
  rw [Page.length_covering, policy.toNat_resolve_some]
  omega

end

/-- Over the log of any run, whatever the policy: a client that starts with the first leaf, and each
time goes on behind the leaves that it has got, has got every record once and in order when it meets
the first empty page, and meets it by the request after as many as there are leaves. A client that
names the last leaf too gets what the cap and the size of the log leave of its range. -/
theorem paging_complete {storage : Storage} (fresh : storage.Fresh) {signer : Signer}
    (signs : signer.Storable) (opened : Moment) {calls : List (Moment × Call)}
    (fits : ∀ call ∈ calls, call.2.Fits)
    (short : (acceptedLeaves (Run.ofCalls storage signer opened calls).events).length < 2 ^ 63)
    (service : Service) (detail : Request → String) (inTime : 0 < service.timeout) :
    let leaves := acceptedLeaves (Run.ofCalls storage signer opened calls).events
    ∃ log, (Run.ofCalls storage signer opened calls).log = .ok log ∧
      (∀ clock, service.crawl detail clock (leaves.length + 1) log 0 = some (recordsOf leaves)) ∧
      ∀ now start stop, start ≤ stop → stop.toNat < 2 ^ 63 →
        ∃ response page,
          service.respond now log (rangeRequest start (some stop)) detail = (response, log) ∧
          Page.ofResponse? response = some page ∧
          page.records = ((recordsOf leaves).take
            (min stop.toNat (start.toNat + service.rangePolicy.maxSpan.toNat) + 1)).drop
              start.toNat ∧
          page.records.length ≤ service.rangePolicy.maxSpan.toNat + 1 ∧
          page.count.toNat = page.records.length := by
  intro leaves
  obtain ⟨log, stored, sound⟩ := Run.ofCalls_sound fresh signs opened fits short
  have reflects : log.Reflects leaves stored := sound.reflects
  clear_value leaves
  refine ⟨log, sound.log_eq, ?_, ?_⟩
  · intro clock
    exact crawl_eq reflects inTime detail clock (Nat.zero_le _) (by simp)
  · intro now start stop ordered stopFits
    have order := UInt64.le_iff_toNat_le.mp ordered
    have startFits : start.toNat < 2 ^ 63 := Nat.lt_of_le_of_lt order stopFits
    obtain ⟨response, answered, found⟩ := respond_page reflects inTime now startFits (some stop)
      (by simpa using stopFits) (by simpa using ordered) detail
    have bound := length_covering_resolve_le service.rangePolicy leaves start stop
    have kept := reflects.keeps.fits
    have count := @Page.toNat_count_covering leaves (by omega) start
      (service.rangePolicy.resolve start (some stop))
    refine ⟨response, _, answered, found, ?_, bound, count⟩
    rw [Page.covering, RangePolicy.toNat_resolve_some]

theorem paging_complete_singleLeaves :
    let run := Run.ofCalls (.faulty (.wrap (.disk .empty))) (.ed25519 ⟨List.replicate 32 42⟩) ⟨0, 5⟩
      [(⟨1, 6⟩, .append [⟨[1], none⟩, ⟨[2], some [3]⟩] .never), (⟨2, 7⟩, .inject (.commits 1)),
        (⟨3, 8⟩, .append [⟨[4], none⟩] .never), (⟨4, 9⟩, .reopen)]
    let service : Service := ⟨⟨0, 0xffffffffffffffff⟩, 1, 0⟩
    ∃ log, run.log = .ok log ∧ ∀ clock,
      service.crawl (fun _ => "") clock ((acceptedLeaves run.events).length + 1) log 0 =
        some (recordsOf (acceptedLeaves run.events)) := by
  intro run service
  obtain ⟨log, opened, crawled, -⟩ := @paging_complete (.faulty (.wrap (.disk .empty))) (.inr rfl)
    (.ed25519 ⟨List.replicate 32 42⟩) (Signer.ed25519_storable _) ⟨0, 5⟩
    [(⟨1, 6⟩, .append [⟨[1], none⟩, ⟨[2], some [3]⟩] .never), (⟨2, 7⟩, .inject (.commits 1)),
      (⟨3, 8⟩, .append [⟨[4], none⟩] .never), (⟨4, 9⟩, .reopen)]
    (by simp [Call.Fits, NewLeaf.Storable])
    (Nat.lt_of_le_of_lt (length_acceptedLeaves_ofCalls_le _ _ _ _) (by simp [Call.leaves]))
    service (fun _ => "") (by decide)
  exact ⟨log, opened, crawled⟩

end Service

end VerifiableLog.Http
