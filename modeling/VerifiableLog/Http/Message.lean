import VerifiableLog.Http.Target

/-!
Requests and responses, as far as the service looks at them and fills them in.
-/

namespace VerifiableLog.Http

inductive Method where
  | get
  | head
  | post
  | other
  deriving DecidableEq, Repr

def Method.ofName (name : String) : Method :=
  if name = "GET" then .get
  else if name = "HEAD" then .head
  else if name = "POST" then .post
  else .other

structure Request where
  method : Method
  target : Target
  contentType : Option Bytes
  body : Bytes
  deriving DecidableEq, Repr

structure Response where
  status : Nat
  contentType : Option String
  body : Bytes
  deriving DecidableEq, Repr

namespace Response

def empty (status : Nat) : Response := ⟨status, none, []⟩

def json (status : Nat) (body : Bytes) : Response := ⟨status, some "application/json", body⟩

def plainText (status : Nat) (text : String) : Response :=
  ⟨status, some "text/plain; charset=utf-8", Bytes.ofText text⟩

def withoutBody (response : Response) : Response := { response with body := [] }

end Response

end VerifiableLog.Http
