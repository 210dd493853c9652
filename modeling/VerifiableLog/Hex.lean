import VerifiableLog.Bytes
import VerifiableLog.Text.Quoted

/-!
Hexadecimal text of a byte string, two digits to a byte. Writing uses lowercase digits; reading
takes either case and says which byte of the text is at fault.
-/

namespace VerifiableLog.Hex

inductive Error where
  | oddLength
  | badDigit (byte : UInt8) (position : Nat)
  deriving DecidableEq, Repr

def Error.message : Error → String
  | .oddLength => "Odd number of digits"
  | .badDigit byte position =>
    s!"Invalid character {Text.quoteChar (Char.ofNat byte.toNat)} at position {position}"

def digit (value : Nat) : UInt8 :=
  if value < 10 then UInt8.ofNat (0x30 + value) else UInt8.ofNat (0x57 + value)

def digitValue? (byte : UInt8) : Option Nat :=
  if 0x30 ≤ byte ∧ byte ≤ 0x39 then some (byte.toNat - 0x30)
  else if 0x61 ≤ byte ∧ byte ≤ 0x66 then some (byte.toNat - 0x57)
  else if 0x41 ≤ byte ∧ byte ≤ 0x46 then some (byte.toNat - 0x37)
  else none

def encode (bytes : Bytes) : Bytes :=
  bytes.flatMap fun byte => [digit (byte.toNat / 16), digit (byte.toNat % 16)]

def decodePairs (position : Nat) (before : Bytes) : Bytes → Except Error Bytes
  | high :: low :: rest =>
    match digitValue? high, digitValue? low with
    | none, _ => .error (.badDigit high position)
    | some _, none => .error (.badDigit low (position + 1))
    | some highValue, some lowValue =>
      decodePairs (position + 2) (UInt8.ofNat (highValue * 16 + lowValue) :: before) rest
  | _ => .ok before.reverse

/-- An odd number of digits is reported before any digit is looked at. -/
def decode (text : Bytes) : Except Error Bytes :=
  if text.length % 2 = 1 then .error .oddLength else decodePairs 0 [] text

def toText (bytes : Bytes) : String := (encode bytes).toAscii

end VerifiableLog.Hex
