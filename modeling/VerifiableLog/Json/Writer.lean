import VerifiableLog.Digest
import VerifiableLog.Json.Lexeme

/-!
Writing JSON text: without blanks, or with an object's members on lines of their own. Byte strings
and digests are written as lowercase hexadecimal.
-/

namespace VerifiableLog.Json

def joinWith (separator : Bytes) : List Bytes → Bytes
  | [] => []
  | [last] => last
  | first :: rest => first ++ separator ++ joinWith separator rest

def writeNatural (value : Nat) : Bytes := Bytes.ofAscii (toString value)

def writeWord (value : UInt64) : Bytes := writeNatural value.toNat

def escapeByte (byte : UInt8) : Bytes :=
  match byte with
  | 0x22 => [backslash, 0x22]
  | 0x5c => [backslash, 0x5c]
  | 0x08 => [backslash, 0x62]
  | 0x09 => [backslash, 0x74]
  | 0x0a => [backslash, 0x6e]
  | 0x0c => [backslash, 0x66]
  | 0x0d => [backslash, 0x72]
  | _ => if byte < 0x20 then [backslash, 0x75, 0x30, 0x30] ++ Hex.encode [byte] else [byte]

def writeString (content : Bytes) : Bytes :=
  quoteMark :: content.flatMap escapeByte ++ [quoteMark]

def writeText (text : String) : Bytes := writeString (Bytes.ofText text)

def writeBlob (content : Bytes) : Bytes := quoteMark :: Hex.encode content ++ [quoteMark]

def writeDigest (digest : Digest) : Bytes := writeBlob digest.bytes

def writeOptional {α : Type} (write : α → Bytes) : Option α → Bytes
  | none => [0x6e, 0x75, 0x6c, 0x6c]
  | some value => write value

def writeList {α : Type} (write : α → Bytes) (values : List α) : Bytes :=
  openList :: joinWith [comma] (values.map write) ++ [closeList]

abbrev Members := List (Bytes × Bytes)

def writeObject (members : Members) : Bytes :=
  let member (name value : Bytes) : Bytes := writeString name ++ colon :: value
  openObject :: joinWith [comma] (members.map fun (name, value) => member name value) ++
    [closeObject]

def writeObjectLines (members : Members) : Bytes :=
  let line (member : Bytes × Bytes) : Bytes :=
    [0x20, 0x20] ++ writeString member.1 ++ [colon, 0x20] ++ member.2
  [openObject, 0x0a] ++ joinWith [comma, 0x0a] (members.map line) ++ [0x0a, closeObject]

end VerifiableLog.Json
