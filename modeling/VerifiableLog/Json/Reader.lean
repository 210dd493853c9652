import VerifiableLog.Digest
import VerifiableLog.Json.Skip

/-!
Reading JSON text as a value of a known type. A reader takes the blanks before its value with it,
and the first fault in the text, of whatever kind, is the one reported.

A record is read from an object, whose members may come in any order and of which those with
unknown names are passed over, or from a list of its fields in order.
-/

namespace VerifiableLog.Json

/-- The fault of a value that starts with `first` and is of no kind that the reader takes. The
value has to be well formed as far as it is looked at, or it counts as malformed. -/
def faultOfOther (first : UInt8) (text : Bytes) : Fault :=
  let faultOf {α : Type} : Except Fault α → Fault
    | .error fault => fault
    | .ok _ => .mismatched
  if first = 0x6e then faultOf (expect [0x75, 0x6c, 0x6c] text)
  else if first = 0x74 then faultOf (expect [0x72, 0x75, 0x65] text)
  else if first = 0x66 then faultOf (expect [0x61, 0x6c, 0x73, 0x65] text)
  else if first = minusSign ∨ isDigit first then faultOf (readNumber (first :: text))
  else if first = quoteMark then faultOf (readString text)
  else if first = openList ∨ first = openObject then .mismatched
  else .malformed

def readNatural (largest : Nat) : Reader Nat := fun text =>
  match skipBlanks text with
  | [] => .error .unfinished
  | first :: text =>
    if first = minusSign ∨ isDigit first then do
      let (number, rest) ← readNumber (first :: text)
      match number with
      | .natural value => if value ≤ largest then return (value, rest) else .error .mismatched
      | .other => .error .mismatched
    else .error (faultOfOther first text)

def readText : Reader Bytes := fun text =>
  match skipBlanks text with
  | [] => .error .unfinished
  | first :: text =>
    if first = quoteMark then readString text else .error (faultOfOther first text)

def mapReader {α β : Type} (read : Reader α) (build : α → Option β) : Reader β := fun text => do
  let (value, rest) ← read text
  match build value with
  | some value => return (value, rest)
  | none => .error .mismatched

def readByte : Reader UInt8 := mapReader (readNatural 255) fun value => some (UInt8.ofNat value)

def readWord : Reader UInt64 :=
  mapReader (readNatural largestWord) fun value => some (UInt64.ofNat value)

def readBlob : Reader Bytes := mapReader readText fun text => (Hex.decode text).toOption

def readDigest : Reader Digest := mapReader readText fun text => (Digest.parse text).toOption

def readOptional {α : Type} (read : Reader α) : Reader (Option α) := fun text =>
  match skipBlanks text with
  | 0x6e :: text => do
    let text ← expect [0x75, 0x6c, 0x6c] text
    return (none, text)
  | text => mapReader read (fun value => some (some value)) text

/-! ### Lists -/

/-- Looks for the next element of a list: nothing at the closing bracket, otherwise the text where
the element starts. Every element but the first follows a comma. -/
def nextElement (isFirst : Bool) (text : Bytes) : Except Fault (Option Bytes) :=
  match skipBlanks text with
  | [] => .error .unfinished
  | byte :: text =>
    if byte = closeList then .ok none
    else if isFirst then .ok (some (byte :: text))
    else if byte = comma then
      match skipBlanks text with
      | [] => .error .unfinished
      | next :: text => if next = closeList then .error .malformed else .ok (some (next :: text))
    else .error .malformed

def endList (text : Bytes) : Except Fault Bytes :=
  match skipBlanks text with
  | [] => .error .unfinished
  | byte :: text => if byte = closeList then .ok text else .error .malformed

/-- The elements after those in `before`, which are held last first. Each takes up at least one
byte, so as many steps as there are bytes are enough. -/
def readElements {α : Type} (read : Reader α) : Nat → List α → Reader (List α)
  | 0, _, _ => .error .unfinished
  | steps + 1, before, text => do
    match ← nextElement before.isEmpty text with
    | none => do
      let rest ← endList text
      return (before.reverse, rest)
    | some text => do
      let (value, text) ← read text
      readElements read steps (value :: before) text

def readList {α : Type} (read : Reader α) : Reader (List α) := fun text =>
  match skipBlanks text with
  | [] => .error .unfinished
  | first :: text =>
    if first = openList then readElements read (text.length + 1) [] text
    else .error (faultOfOther first text)

/-! ### Records -/

structure FieldReader (α : Type) where
  name : Bytes
  read : Reader α
  absent : Option α

inductive Fields : List Type → Type 1
  | nil : Fields []
  | cons {α : Type} {types : List Type} : FieldReader α → Fields types → Fields (α :: types)

def Slots : List Type → Type
  | [] => Unit
  | α :: types => Option α × Slots types

def Values : List Type → Type
  | [] => Unit
  | α :: types => α × Values types

namespace Fields

def noSlots : {types : List Type} → Fields types → Slots types
  | _, nil => ()
  | _, cons _ fields => (none, fields.noSlots)

def complete : {types : List Type} → Fields types → Slots types → Except Fault (Values types)
  | _, nil, () => .ok ()
  | _, cons field fields, (slot, slots) => do
    let value ←
      match slot.or field.absent with
      | some value => .ok value
      | none => .error .mismatched
    let values ← fields.complete slots
    return (value, values)

def passColon (text : Bytes) : Except Fault Bytes :=
  match skipBlanks text with
  | [] => .error .unfinished
  | byte :: text => if byte = colon then .ok text else .error .malformed

/-- Reads the member called `name`, of which the text is at the colon. A name that is given twice
is refused before its value is looked at. -/
def readMember : {types : List Type} → Fields types → Bytes → Slots types →
    Bytes → Except Fault (Slots types × Bytes)
  | _, nil, _, (), text => do
    let text ← passColon text
    let text ← skipValue text
    return ((), text)
  | _, cons field fields, name, (slot, slots), text =>
    if field.name = name then
      match slot with
      | some _ => .error .mismatched
      | none => do
        let text ← passColon text
        let (value, text) ← field.read text
        return ((some value, slots), text)
    else do
      let (slots, text) ← fields.readMember name slots text
      return ((slot, slots), text)

def nextMember (isFirst : Bool) (text : Bytes) : Except Fault (Option Bytes) :=
  match skipBlanks text with
  | [] => .error .unfinished
  | byte :: text =>
    if byte = closeObject then .ok none
    else if isFirst then
      if byte = quoteMark then .ok (some text) else .error .malformed
    else if byte = comma then
      match skipBlanks text with
      | [] => .error .unfinished
      | next :: text => if next = quoteMark then .ok (some text) else .error .malformed
    else .error .malformed

def endObject (text : Bytes) : Except Fault Bytes :=
  match skipBlanks text with
  | [] => .error .unfinished
  | byte :: text => if byte = closeObject then .ok text else .error .malformed

def readMembers {types : List Type} (fields : Fields types) : Nat → Bool → Slots types →
    Bytes → Except Fault (Values types × Bytes)
  | 0, _, _, _ => .error .unfinished
  | steps + 1, isFirst, slots, text => do
    match ← nextMember isFirst text with
    | none => do
      let values ← fields.complete slots
      let rest ← endObject text
      return (values, rest)
    | some text => do
      let (name, text) ← readString text
      let (slots, text) ← fields.readMember name slots text
      fields.readMembers steps false slots text

def readPositions : {types : List Type} → Fields types → Bool →
    Bytes → Except Fault (Values types × Bytes)
  | _, nil, _, text => do
    let rest ← endList text
    return ((), rest)
  | _, cons field fields, isFirst, text => do
    match ← nextElement isFirst text with
    | some text => do
      let (value, text) ← field.read text
      let (values, rest) ← fields.readPositions false text
      return ((value, values), rest)
    | none =>
      match field.absent with
      | none => .error .mismatched
      | some value => do
        let (values, rest) ← fields.readPositions isFirst text
        return ((value, values), rest)

def readRecord {types : List Type} (fields : Fields types) : Reader (Values types) := fun text =>
  match skipBlanks text with
  | [] => .error .unfinished
  | first :: text =>
    if first = openObject then fields.readMembers (text.length + 1) true fields.noSlots text
    else if first = openList then fields.readPositions true text
    else .error (faultOfOther first text)

end Fields

def readAll {α : Type} (read : Reader α) (text : Bytes) : Except Fault α := do
  let (value, rest) ← read text
  if (skipBlanks rest).isEmpty then return value else .error .malformed

end VerifiableLog.Json
