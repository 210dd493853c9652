import VerifiableLog.Http.Message
import VerifiableLog.Json.Writer
import VerifiableLog.Log.Error

/-!
What a client is told when a request fails: a status, and an object with a code for programs and a
message for people. Of a body or a query that could not be read the message begins in a fixed way,
and the detail behind that is in the words of the parser.
-/

namespace VerifiableLog.Http

inductive RequestFault where
  | contentType
  | bodyLength
  | body (fault : Json.Fault)
  | query
  | missingParameter (name : String)
  | leafHash (text : String) (cause : Digest.ParseError)
  deriving DecidableEq, Repr

def RequestFault.message (detail : String) : RequestFault → String
  | .contentType => "Expected request with `Content-Type: application/json`"
  | .bodyLength => "Failed to buffer the request body: length limit exceeded"
  | .body .mismatched => "Failed to deserialize the JSON body into the target type" ++ detail
  | .body .malformed => "Failed to parse the request body as JSON" ++ detail
  | .body .unfinished => "Failed to parse the request body as JSON" ++ detail
  | .query => "Failed to deserialize query string" ++ detail
  | .missingParameter name => s!"missing query parameter `{name}`"
  | .leafHash text cause => s!"invalid leaf hash {Text.quote text}: {cause.message}"

inductive ApiError where
  | badRequest (fault : RequestFault)
  | log (cause : LogError)
  deriving DecidableEq

namespace ApiError

def status : ApiError → Nat
  | .badRequest _ => 400
  | .log cause =>
    match cause.kind with
    | .emptyBatch => 400
    | .invalidRange => 400
    | .invalidTreeSize => 400
    | .notFound => 404
    | .closed => 409
    | .timeout => 504
    | .storageFailure => 500
    | .signingFailure => 500

def code : ApiError → String
  | .badRequest _ => "bad_request"
  | .log cause => cause.kind.name

def message (detail : String) : ApiError → String
  | .badRequest fault => s!"bad request: {fault.message detail}"
  | .log cause => cause.message

def response (detail : String) (error : ApiError) : Response :=
  .json error.status (Json.writeObject [(Bytes.ofAscii "error", Json.writeText error.code),
    (Bytes.ofAscii "message", Json.writeText (error.message detail))])

end ApiError

end VerifiableLog.Http
