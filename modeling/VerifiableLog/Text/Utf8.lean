import VerifiableLog.Bytes

/-!
UTF-8 as a set of byte strings: shortest forms only, no surrogates, nothing above `U+10FFFF`.
-/

namespace VerifiableLog.Text

def isContinuation (byte : UInt8) : Bool := 0x80 ≤ byte && byte ≤ 0xbf

def mayFollow (first second : UInt8) : Bool :=
  if first == 0xe0 then 0xa0 ≤ second && second ≤ 0xbf
  else if first == 0xed then 0x80 ≤ second && second ≤ 0x9f
  else if first == 0xf0 then 0x90 ≤ second && second ≤ 0xbf
  else if first == 0xf4 then 0x80 ≤ second && second ≤ 0x8f
  else isContinuation second

def isUtf8 : Bytes → Bool
  | [] => true
  | first :: rest =>
    if first < 0x80 then isUtf8 rest
    else
      match rest with
      | [] => false
      | second :: rest =>
        if 0xc2 ≤ first && first ≤ 0xdf then isContinuation second && isUtf8 rest
        else
          match rest with
          | [] => false
          | third :: rest =>
            if 0xe0 ≤ first && first ≤ 0xef then
              mayFollow first second && isContinuation third && isUtf8 rest
            else
              match rest with
              | [] => false
              | fourth :: rest =>
                0xf0 ≤ first && first ≤ 0xf4 && mayFollow first second && isContinuation third &&
                  isContinuation fourth && isUtf8 rest

def ofUtf8? (bytes : Bytes) : Option String := String.fromUTF8? (ByteArray.mk bytes.toArray)

end VerifiableLog.Text
