import VerifiableLog.Json.Number

/-!
Passing over a JSON value of any kind, however deeply its lists and objects are nested. The
containers that are still open are kept on a stack.
-/

namespace VerifiableLog.Json

inductive Container where
  | list
  | object
  deriving DecidableEq, Repr

def Container.closer : Container → UInt8
  | .list => closeList
  | .object => closeObject

def Container.skipName : Container → Bytes → Except Fault Bytes
  | .list, text => .ok text
  | .object, text =>
    match skipBlanks text with
    | [] => .error .unfinished
    | byte :: text =>
      if byte ≠ quoteMark then .error .malformed
      else do
        let text ← skipString text
        match skipBlanks text with
        | [] => .error .unfinished
        | byte :: text => if byte = colon then return text else .error .malformed

inductive Progress where
  | finished (rest : Bytes)
  | member (containers : List Container) (rest : Bytes)

def afterValue : List Container → Bytes → Except Fault Progress
  | [], text => .ok (.finished text)
  | container :: outer, text =>
    match skipBlanks text with
    | [] => .error .unfinished
    | byte :: text =>
      if byte = comma then do
        let text ← container.skipName text
        return .member (container :: outer) text
      else if byte = container.closer then afterValue outer text
      else .error .malformed

def skipScalar (first : UInt8) (text : Bytes) : Except Fault Bytes :=
  if first = quoteMark then skipString text
  else if first = minusSign then skipUnsigned text
  else if isDigit first then skipUnsigned (first :: text)
  else if first = 0x6e then expect [0x75, 0x6c, 0x6c] text
  else if first = 0x74 then expect [0x72, 0x75, 0x65] text
  else if first = 0x66 then expect [0x61, 0x6c, 0x73, 0x65] text
  else .error .malformed

def openedBy? (byte : UInt8) : Option Container :=
  if byte = openList then some .list else if byte = openObject then some .object else none

def startValue (containers : List Container) (text : Bytes) : Except Fault Progress :=
  match skipBlanks text with
  | [] => .error .unfinished
  | byte :: text =>
    match openedBy? byte with
    | none => do
      let text ← skipScalar byte text
      afterValue containers text
    | some container =>
      match skipBlanks text with
      | [] => .error .unfinished
      | next :: rest =>
        if next = container.closer then afterValue containers rest
        else do
          let text ← container.skipName (next :: rest)
          return .member (container :: containers) text

/-- Each step reads at least one byte, so as many steps as there are bytes are enough. -/
def skipSteps : Nat → List Container → Bytes → Except Fault Bytes
  | 0, _, _ => .error .unfinished
  | steps + 1, containers, text => do
    match ← startValue containers text with
    | .finished rest => return rest
    | .member containers text => skipSteps steps containers text

def skipValue (text : Bytes) : Except Fault Bytes := skipSteps (text.length + 1) [] text

end VerifiableLog.Json
