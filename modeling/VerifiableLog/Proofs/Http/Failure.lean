import VerifiableLog.Http.Service
import VerifiableLog.Proofs.Json.Record
import VerifiableLog.Proofs.Log.Consistency

/-!
What a client gets when a request fails: a status, and an object from which the code and the message
of the failure can be read. One failure is told in another way, and its cause is in the path alone:
the segment that should name a leaf is no text.
-/

namespace VerifiableLog

open Json

/-! ### Texts -/

theorem Json.reads_writeText (text : String) :
    Reads readText (writeText text) (Bytes.ofText text) :=
  reads_text (spells_flatMap_escapeByte _) (Text.isUtf8_ofText text)

namespace Http

/-! ### Failures -/

def failureStatuses : List (String × Nat) :=
  [("bad_request", 400), ("empty_batch", 400), ("invalid_range", 400), ("invalid_tree_size", 400),
    ("not_found", 404), ("closed", 409), ("storage_failure", 500), ("signing_failure", 500),
    ("timeout", 504)]

def failureFields : Fields [Bytes, Bytes] :=
  .cons ⟨Bytes.ofAscii "error", readText, none⟩
    (.cons ⟨Bytes.ofAscii "message", readText, none⟩ .nil)

/-- The response tells of a failure by its status and by an object with just these two texts. -/
structure Response.Reports (response : Response) (code message : String) : Prop where
  status : (code, response.status) ∈ failureStatuses
  contentType : response.contentType = some "application/json"
  members : ObjectText [(Bytes.ofAscii "error", writeText code),
    (Bytes.ofAscii "message", writeText message)] response.body
  read : readAll failureFields.readRecord response.body =
    .ok (Bytes.ofText code, Bytes.ofText message, ())

theorem ApiError.status_mem (error : ApiError) : (error.code, error.status) ∈ failureStatuses := by
  cases error with
  | badRequest fault => simp [failureStatuses, code, status]
  | log cause => cases cause <;> simp [failureStatuses, code, status, LogError.kind, ErrorKind.name]

theorem ApiError.reports (error : ApiError) (detail : String) :
    (error.response detail).Reports error.code (error.message detail) := by
  have isText : ∀ name ∈ failureFields.names, Text.isUtf8 name = true :=
    Text.isUtf8_of_all_ascii (by decide)
  have members : ObjectText [(Bytes.ofAscii "error", writeText error.code),
      (Bytes.ofAscii "message", writeText (error.message detail))] (error.response detail).body :=
    objectText_writeObject (by simp) (by simpa [failureFields, Fields.names] using isText)
  have given : failureFields.Given
      (Bytes.ofText error.code, Bytes.ofText (error.message detail), ())
      [(Bytes.ofAscii "error", writeText error.code),
        (Bytes.ofAscii "message", writeText (error.message detail))] :=
    ⟨_, _, rfl, reads_writeText _, _, _, rfl, reads_writeText _, rfl⟩
  exact ⟨error.status_mem, rfl, members,
    readAll_of_reads (Fields.reads_writeObject (by decide) given (by simp) isText)⟩

theorem Service.answer_form (detail : String) (result : Except ApiError Bytes) :
    (answer detail result).status = 200 ∧
        (answer detail result).contentType = some "application/json" ∨
      ∃ code message, (answer detail result).Reports code message := by
  cases result with
  | ok body => exact .inl ⟨rfl, rfl⟩
  | error error => exact .inr ⟨_, _, error.reports detail⟩

/-! ### Any request -/

def Route.segment? : Route → Option Bytes
  | .leaf segment => some segment
  | .inclusion segment => some segment
  | .leaves | .consistency | .treeHead | .size => none

namespace Service

/-- Every request that has a handler is answered with success or with the report of a failure,
whatever the parsers have to say of it, unless the path has a segment that should be text and is
not: the answer is a plain text then. -/
theorem failures_reported {σ : Type} [LeafStore σ] (service : Service) (now : Moment) (log : Log σ)
    (request : Request) (detail : Request → String) (route : Route)
    (found : Route.ofPath? request.target.path = some route)
    (handled : request.method = .get ∨ request.method = .post ∧ route = .leaves) :
    let response := (service.respond now log request detail).1
    ((∀ segment ∈ route.segment?, (Text.ofUtf8? (decodePercent segment)).isSome) →
      response.status = 200 ∧ response.contentType = some "application/json" ∨
        ∃ code message, response.Reports code message) ∧
    (∀ segment ∈ route.segment?, Text.ofUtf8? (decodePercent segment) = none →
      response = .plainText 400 "Invalid URL: Invalid UTF-8 in `hash`") := by
  intro response
  rcases handled with isGet | ⟨isPost, rfl⟩
  · have answered : response = service.read now log request (detail request) route := by
      simp only [response, respond, found, isGet]
    rw [answered]
    cases route with
    | leaves | consistency | treeHead | size =>
        exact ⟨fun _ => answer_form _ _, by simp [Route.segment?]⟩
    | leaf segment | inclusion segment =>
        simp only [Route.segment?, Option.mem_some_iff, forall_eq', read, answerAbout]
        cases decoded : Text.ofUtf8? (decodePercent segment) with
        | none => exact ⟨fun isText => absurd isText (by simp), fun _ => rfl⟩
        | some text => exact ⟨fun _ => answer_form _ _, by simp⟩
  · have answered : response =
        answer (detail request) (service.appendLeaves now log request).1 := by
      simp only [response, respond, found, isPost]
    rw [answered]
    exact ⟨fun _ => answer_form _ _, by simp [Route.segment?]⟩

theorem failures_reported_badHash :
    let log := emptyLog ⟨List.replicate 32 42⟩ 5 5 false
    let request : Request := ⟨.get, .ofBytes (Bytes.ofAscii "/v1/leaves/%7a"), none, []⟩
    Route.ofPath? request.target.path = some (.leaf (Bytes.ofAscii "%7a")) ∧
      ∃ code message, (standard.respond ⟨1, 6⟩ log request).1.Reports code message := by
  intro log request
  have found : Route.ofPath? request.target.path = some (.leaf (Bytes.ofAscii "%7a")) := by
    decide +kernel
  have decoded : Text.ofUtf8? (decodePercent (Bytes.ofAscii "%7a")) = some "z" := by
    decide +kernel
  refine ⟨found, ?_⟩
  have form := (failures_reported standard ⟨1, 6⟩ log request (fun _ => "") _ found (.inl rfl)).1
  rcases form (by simp [Route.segment?, decoded]) with ⟨ok, -⟩ | reported
  · have bytes : Bytes.ofText "z" = [0x7a] := by decide +kernel
    have refused : leafHash "z" = reject (.leafHash "z" (.hex .oddLength)) := by
      simp [leafHash, Digest.parse, bytes, Hex.decode]
    have isGet : request.method = .get := rfl
    simp [respond, found, isGet, read, answerAbout, decoded, leaf, refused, reject, answer,
      ApiError.response, ApiError.status, Response.json, bind, Except.bind] at ok
  · exact reported

/-- The exception is real: a segment with the byte `ff` is met by a text that is no object. -/
theorem undecodable_segment_unreported :
    let key : Signature.SecretKey := ⟨List.replicate 32 42⟩
    let request : Request := ⟨.get, .ofBytes (Bytes.ofAscii "/v1/leaves/%ff"), none, []⟩
    ∃ log, ((Storage.faulty (.wrap (.disk .empty))).openLog (.ed25519 key) ⟨0, 5⟩).2 = .ok log ∧
      Route.ofPath? request.target.path = some (.leaf (Bytes.ofAscii "%ff")) ∧
      let response := (standard.respond ⟨1, 6⟩ log request).1
      response.status = 400 ∧ response.contentType = some "text/plain; charset=utf-8" ∧
        ¬∃ code message, response.Reports code message := by
  intro key request
  have opened := congrArg Prod.snd (openLog_empty key ⟨0, 5⟩)
  have found : Route.ofPath? request.target.path = some (.leaf (Bytes.ofAscii "%ff")) := by
    decide +kernel
  have undecoded : Text.ofUtf8? (decodePercent (Bytes.ofAscii "%ff")) = none := by
    decide +kernel
  refine ⟨_, opened, found, ?_⟩
  have plain : (standard.respond ⟨1, 6⟩ (emptyLog key (max 5 0) (max 5 0) false) request).1 =
      .plainText 400 "Invalid URL: Invalid UTF-8 in `hash`" := by
    have isGet : request.method = .get := rfl
    simp only [respond, found, isGet, read, answerAbout, undecoded]
  intro response
  rw [show response = _ from plain]
  refine ⟨rfl, rfl, ?_⟩
  rintro ⟨code, message, reports⟩
  exact absurd reports.contentType (by decide)

end Service

end Http

end VerifiableLog
