import VerifiableLog.Digest

/-!
The packed binary form. Numbers are written in groups of seven bits, least significant first, with
the top bit of a byte saying that more follow; byte strings and lists start with their length;
an optional value starts with a byte 0 or 1; a record is its fields one after the other. What is
written for a value says where it ends, so nothing separates one value from the next.
-/

namespace VerifiableLog.Packed

inductive Error where
  | unexpectedEnd
  | badVarint
  | badOption
  deriving DecidableEq, Repr

def Error.message : Error → String
  | .unexpectedEnd => "Hit the end of buffer, expected more data"
  | .badVarint =>
    "Found a varint that didn't terminate. Is the usize too big for this platform?"
  | .badOption => "Found an Option discriminant that wasn't 0 or 1"

abbrev Reader (α : Type) := Bytes → Except Error (α × Bytes)

structure Codec (α : Type) where
  write : α → Bytes
  read : Reader α

def writeVarint (value : Nat) : Bytes :=
  if _ : value < 128 then [UInt8.ofNat value]
  else UInt8.ofNat (value % 128 + 128) :: writeVarint (value / 128)
termination_by value
decreasing_by omega

/-- Reads a number of at most `groups` groups; the last of them has room for one bit alone. -/
def readVarintGroups : Nat → Reader Nat
  | 0, _ => .error .badVarint
  | _ + 1, [] => .error .unexpectedEnd
  | groups + 1, byte :: rest =>
    if byte.toNat < 128 then
      if groups = 0 ∧ byte.toNat > 1 then .error .badVarint else .ok (byte.toNat, rest)
    else do
      let (high, rest) ← readVarintGroups groups rest
      return (byte.toNat - 128 + 128 * high, rest)

def readVarint : Reader Nat := readVarintGroups 10

def readBytes (count : Nat) : Reader Bytes := fun bytes =>
  let taken := bytes.take count
  if taken.length < count then .error .unexpectedEnd else .ok (taken, bytes.drop count)

def readTimes {α : Type} (read : Reader α) : Nat → Reader (List α)
  | 0, bytes => .ok ([], bytes)
  | count + 1, bytes => do
    let (value, bytes) ← read bytes
    let (values, bytes) ← readTimes read count bytes
    return (value :: values, bytes)

namespace Codec

def byte : Codec UInt8 where
  write value := [value]
  read
    | [] => .error .unexpectedEnd
    | value :: rest => .ok (value, rest)

def word : Codec UInt64 where
  write value := writeVarint value.toNat
  read bytes := do
    let (value, rest) ← readVarint bytes
    return (UInt64.ofNat value, rest)

def digest : Codec Digest where
  write value := value.bytes
  read bytes :=
    if h : (bytes.take 32).length = 32 then .ok (⟨bytes.take 32, h⟩, bytes.drop 32)
    else .error .unexpectedEnd

def blob : Codec Bytes where
  write value := writeVarint value.length ++ value
  read bytes := do
    let (count, bytes) ← readVarint bytes
    readBytes count bytes

def optional {α : Type} (codec : Codec α) : Codec (Option α) where
  write
    | none => [0]
    | some value => 1 :: codec.write value
  read
    | [] => .error .unexpectedEnd
    | tag :: rest =>
      if tag = 0 then .ok (none, rest)
      else if tag = 1 then do
        let (value, rest) ← codec.read rest
        return (some value, rest)
      else .error .badOption

def list {α : Type} (codec : Codec α) : Codec (List α) where
  write values := writeVarint values.length ++ values.flatMap codec.write
  read bytes := do
    let (count, bytes) ← readVarint bytes
    readTimes codec.read count bytes

def pair {α β : Type} (first : Codec α) (second : Codec β) : Codec (α × β) where
  write value := first.write value.1 ++ second.write value.2
  read bytes := do
    let (left, bytes) ← first.read bytes
    let (right, bytes) ← second.read bytes
    return ((left, right), bytes)

def mapped {α β : Type} (codec : Codec α) (build : α → β) (fields : β → α) : Codec β where
  write value := codec.write (fields value)
  read bytes := do
    let (value, bytes) ← codec.read bytes
    return (build value, bytes)

end Codec

end VerifiableLog.Packed
