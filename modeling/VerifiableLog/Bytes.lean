/-!
Byte strings and fixed-width words.

A word is written most significant byte first (`bigEndian`) or least significant byte first
(`littleEndian`), and has the width that was asked for.
-/

namespace VerifiableLog

abbrev Bytes := List UInt8

namespace Bytes

def ofText (text : String) : Bytes := text.toUTF8.toList

def ofAscii (text : String) : Bytes := text.toList.map fun character => UInt8.ofNat character.toNat

def toAscii (bytes : Bytes) : String :=
  String.ofList (bytes.map fun byte => Char.ofNat byte.toNat)

def bigEndian : Nat → Nat → Bytes
  | 0, _ => []
  | width + 1, value => UInt8.ofNat (value >>> (8 * width)) :: bigEndian width value

def ofBigEndian (bytes : Bytes) : Nat :=
  bytes.foldl (fun value byte => value * 256 + byte.toNat) 0

def littleEndian : Nat → Nat → Bytes
  | 0, _ => []
  | width + 1, value => UInt8.ofNat value :: littleEndian width (value / 256)

def ofLittleEndian : Bytes → Nat
  | [] => 0
  | byte :: rest => byte.toNat + 256 * ofLittleEndian rest

def ofWord (word : UInt64) : Bytes := bigEndian 8 word.toNat

def toWord? (bytes : Bytes) : Option UInt64 :=
  if bytes.length = 8 then some (UInt64.ofNat (ofBigEndian bytes)) else none

@[simp] theorem length_bigEndian (width value : Nat) : (bigEndian width value).length = width := by
  induction width with
  | zero => rfl
  | succ width ih => simp [bigEndian, ih]

@[simp] theorem length_littleEndian (width value : Nat) :
    (littleEndian width value).length = width := by
  induction width generalizing value with
  | zero => rfl
  | succ width ih => simp [littleEndian, ih]

@[simp] theorem length_ofWord (word : UInt64) : (ofWord word).length = 8 :=
  length_bigEndian 8 word.toNat

def below : Bytes → Bytes → Bool
  | _, [] => false
  | [], _ :: _ => true
  | left :: leftRest, right :: rightRest =>
    left < right || (left == right && below leftRest rightRest)

end Bytes

end VerifiableLog
