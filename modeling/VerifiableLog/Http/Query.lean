import VerifiableLog.Http.Target
import VerifiableLog.Json.Lexeme

/-!
Queries: pairs of a name and a value, joined by `&`, in which a plus sign stands for a space. The
parameters of this interface are all integers.
-/

namespace VerifiableLog.Http

/-- The pairs of a query, decoded. A pair without an equals sign has an empty value. -/
def queryPairs (query : Bytes) : List (Bytes × Bytes) :=
  let decode (part : Bytes) : Bytes :=
    decodePercent (part.map fun byte => if byte = plusSign then 0x20 else byte)
  let pieces := (splitAll 0x26 query).filter fun piece => !piece.isEmpty
  pieces.map fun piece =>
    let (name, value) := splitFirst 0x3d piece
    (decode name, decode (value.getD []))

def readInteger? (text : Bytes) : Option Int :=
  let value? (digits : Bytes) : Option Int :=
    if digits.isEmpty || !digits.all Json.isDigit then none
    else some (digits.foldl (fun value digit => value * 10 + (digit.toNat - 0x30)) 0)
  let integer? :=
    match text with
    | [] => none
    | sign :: digits =>
      if sign = Json.minusSign then (value? digits).map fun value => -value
      else if sign = plusSign then value? digits
      else value? text
  integer?.filter fun integer => -0x8000000000000000 ≤ integer && integer ≤ 0x7fffffffffffffff

def parameter (query : Bytes) (name : String) : Except Unit (Option Int) :=
  match (queryPairs query).filter fun pair => pair.1 = Bytes.ofAscii name with
  | [] => .ok none
  | [pair] =>
    match readInteger? pair.2 with
    | some value => .ok (some value)
    | none => .error ()
  | _ :: _ :: _ => .error ()

end VerifiableLog.Http
