import VerifiableLog.Http.Error
import VerifiableLog.Http.MediaType
import VerifiableLog.Http.Query
import VerifiableLog.Http.RangePolicy
import VerifiableLog.Log.State
import VerifiableLog.Record.Json

/-!
The log as a service: each request is one call to the log, with a deadline of its own.

A request is looked at from left to right, method and path first, then the text of a path segment,
then the query or the body, and the first fault is the one that is reported.
-/

namespace VerifiableLog.Http

/-- What a path leads to. A leaf hash is the last segment of its path, as it was sent. -/
inductive Route where
  | leaves
  | leaf (hash : Bytes)
  | inclusion (hash : Bytes)
  | consistency
  | treeHead
  | size
  deriving DecidableEq, Repr

namespace Route

def segmentBelow? (parent : String) (path : Bytes) : Option Bytes :=
  let parent := Bytes.ofAscii parent
  let segment := path.drop parent.length
  if parent.isPrefixOf path && !segment.isEmpty && !segment.contains slash then some segment
  else none

def ofPath? (path : Bytes) : Option Route :=
  if path = Bytes.ofAscii "/v1/leaves" then some .leaves
  else if path = Bytes.ofAscii "/v1/proofs/consistency" then some .consistency
  else if path = Bytes.ofAscii "/v1/sth" then some .treeHead
  else if path = Bytes.ofAscii "/v1/size" then some .size
  else
    ((segmentBelow? "/v1/leaves/" path).map .leaf).or
      ((segmentBelow? "/v1/proofs/inclusion/" path).map .inclusion)

end Route

structure Service where
  rangePolicy : RangePolicy
  timeout : Nat
  maxBodyLength : Nat
  deriving DecidableEq, Repr

namespace Service

def standard : Service := ⟨.standard, 5000, 16 * 1024 * 1024⟩

abbrev Outcome (σ : Type) := Except ApiError Bytes × Log σ

variable {σ : Type} [LeafStore σ]

def fromLog {α : Type} (result : Except LogError α) : Except ApiError α := result.mapError .log

def reject {α : Type} (fault : RequestFault) : Except ApiError α := .error (.badRequest fault)

def deadline (service : Service) (now : Moment) : Deadline := Deadline.after now service.timeout

/-! ### Parts of requests -/

def queryParameter (request : Request) (name : String) : Except ApiError (Option Int) :=
  (parameter request.target.query name).mapError fun () => .badRequest .query

def requiredParameter (request : Request) (name : String) : Except ApiError Int := do
  match ← queryParameter request name with
  | some value => return value
  | none => reject .query

def nonNegative (name : String) (value : Int) : Except ApiError UInt64 :=
  if value < 0 then .error (.log (.invalidRange (.negative name value)))
  else .ok (UInt64.ofNat value.toNat)

def leafHash (text : String) : Except ApiError Digest :=
  match Digest.parse (Bytes.ofText text) with
  | .ok hash => .ok hash
  | .error cause => reject (.leafHash text cause)

def batchFields : Json.Fields [List NewLeaf] :=
  .cons ⟨Bytes.ofAscii "leaves", Json.readList NewLeaf.readJson, none⟩ .nil

def readBatch (service : Service) (request : Request) : Except ApiError (List NewLeaf) := do
  if !announcesJson request.contentType then reject .contentType
  else if request.body.length > service.maxBodyLength then reject .bodyLength
  else
    match Json.readAll batchFields.readRecord request.body with
    | .ok (leaves, ()) => return leaves
    | .error fault => reject (.body fault)

/-! ### The calls -/

def appendLeaves (service : Service) (now : Moment) (log : Log σ) (request : Request) : Outcome σ :=
  match service.readBatch request with
  | .error error => (.error error, log)
  | .ok leaves =>
    let (result, log) := log.append now leaves (service.deadline now)
    (fromLog (result.map AppendReceipt.writeJson), log)

def leaf (service : Service) (now : Moment) (log : Log σ) (hash : String) :
    Except ApiError Bytes := do
  let hash ← leafHash hash
  let record ← fromLog (log.leafByHash now hash (service.deadline now))
  return record.writeJson

def writeRange (start stop : UInt64) (leaves : List LeafRecord) : Bytes :=
  Json.writeObject [(Bytes.ofAscii "leaves", Json.writeList LeafRecord.writeJson leaves),
    (Bytes.ofAscii "count", Json.writeNatural leaves.length),
    (Bytes.ofAscii "start", Json.writeWord start), (Bytes.ofAscii "end", Json.writeWord stop)]

def leafRange (service : Service) (now : Moment) (log : Log σ) (request : Request) :
    Except ApiError Bytes := do
  let start ← queryParameter request "start"
  let stop ← queryParameter request "end"
  match start with
  | none => reject (.missingParameter "start")
  | some start => do
    let start ← nonNegative "start" start
    let stop ← stop.mapM (nonNegative "end")
    let stop := service.rangePolicy.resolve start stop
    let leaves ← fromLog (log.leavesByRange now start stop (service.deadline now))
    return writeRange start stop leaves

/-- A tree size that is not given, or given as zero, is the current one. -/
def inclusionProof (service : Service) (now : Moment) (log : Log σ) (request : Request)
    (hash : String) : Except ApiError Bytes := do
  let treeSize ← queryParameter request "tree_size"
  let hash ← leafHash hash
  let treeSize := treeSize.getD 0
  if treeSize < 0 then .error (.log (.invalidTreeSize (.negative treeSize)))
  else do
    let proof ← fromLog (log.inclusionProof now (.hash hash) (UInt64.ofNat treeSize.toNat)
      (service.deadline now))
    return proof.writeJson

def consistencyProof (service : Service) (now : Moment) (log : Log σ) (request : Request) :
    Except ApiError Bytes := do
  let first ← requiredParameter request "from_size"
  let second ← requiredParameter request "to_size"
  let first ← nonNegative "from_size" first
  let second ← nonNegative "to_size" second
  let proof ← fromLog (log.consistencyProof now first second (service.deadline now))
  return proof.writeJson

def treeHead (service : Service) (now : Moment) (log : Log σ) : Except ApiError Bytes := do
  let head ← fromLog (log.signedTreeHead now (service.deadline now))
  return head.writeJson

def size (service : Service) (now : Moment) (log : Log σ) : Except ApiError Bytes := do
  let size ← fromLog (log.treeSize now (service.deadline now))
  return Json.writeObject [(Bytes.ofAscii "tree_size", Json.writeWord size)]

/-! ### Answers -/

def answer (detail : String) : Except ApiError Bytes → Response
  | .ok body => .json 200 body
  | .error error => error.response detail

def answerAbout (detail : String) (segment : Bytes)
    (answerFor : String → Except ApiError Bytes) : Response :=
  match Text.ofUtf8? (decodePercent segment) with
  | some text => answer detail (answerFor text)
  | none => .plainText 400 "Invalid URL: Invalid UTF-8 in `hash`"

def read (service : Service) (now : Moment) (log : Log σ) (request : Request) (detail : String) :
    Route → Response
  | .leaves => answer detail (service.leafRange now log request)
  | .leaf hash => answerAbout detail hash (service.leaf now log)
  | .inclusion hash => answerAbout detail hash (service.inclusionProof now log request)
  | .consistency => answer detail (service.consistencyProof now log request)
  | .treeHead => answer detail (service.treeHead now log)
  | .size => answer detail (service.size now log)

/-- The response, and the log afterwards. What the parsers say of a request that they cannot read
is left to `detail`, and left out unless it is given. -/
def respond (service : Service) (now : Moment) (log : Log σ) (request : Request)
    (detail : Request → String := fun _ => "") : Response × Log σ :=
  match Route.ofPath? request.target.path with
  | none => (.empty 404, log)
  | some route =>
    match request.method, route with
    | .get, route => (service.read now log request (detail request) route, log)
    | .head, route => ((service.read now log request (detail request) route).withoutBody, log)
    | .post, .leaves =>
      let (result, log) := service.appendLeaves now log request
      (answer (detail request) result, log)
    | _, _ => (.empty 405, log)

end Service

end VerifiableLog.Http
