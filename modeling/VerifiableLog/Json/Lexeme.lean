import VerifiableLog.Text.Utf8

/-!
The lexemes of JSON text: blanks, literals, strings and numbers. Reading goes from left to right
and stops at the first byte that does not fit, so a fault is the first one in the text.
-/

namespace VerifiableLog.Json

/-- Why a text could not be read: it breaks the grammar, it ends too soon, or it holds a value of
another kind than the one asked for. -/
inductive Fault where
  | malformed
  | unfinished
  | mismatched
  deriving DecidableEq, Repr

abbrev Reader (α : Type) := Bytes → Except Fault (α × Bytes)

def isBlank (byte : UInt8) : Bool :=
  byte == 0x20 || byte == 0x0a || byte == 0x0d || byte == 0x09

def isDigit (byte : UInt8) : Bool := 0x30 ≤ byte && byte ≤ 0x39

def quoteMark : UInt8 := 0x22
def backslash : UInt8 := 0x5c
def comma : UInt8 := 0x2c
def colon : UInt8 := 0x3a
def openList : UInt8 := 0x5b
def closeList : UInt8 := 0x5d
def openObject : UInt8 := 0x7b
def closeObject : UInt8 := 0x7d
def minusSign : UInt8 := 0x2d

def skipBlanks (text : Bytes) : Bytes := text.dropWhile isBlank

def expect : Bytes → Bytes → Except Fault Bytes
  | [], text => .ok text
  | _ :: _, [] => .error .unfinished
  | expected :: more, byte :: text =>
    if byte = expected then expect more text else .error .malformed

/-! ### Strings -/

def hexValue? (byte : UInt8) : Option Nat :=
  if isDigit byte then some (byte.toNat - 0x30)
  else if 0x61 ≤ byte ∧ byte ≤ 0x66 then some (byte.toNat - 0x57)
  else if 0x41 ≤ byte ∧ byte ≤ 0x46 then some (byte.toNat - 0x37)
  else none

def readUnit : Bytes → Except Fault Nat
  | a :: b :: c :: d :: _ =>
    match hexValue? a, hexValue? b, hexValue? c, hexValue? d with
    | some a, some b, some c, some d => .ok (((a * 16 + b) * 16 + c) * 16 + d)
    | _, _, _, _ => .error .malformed
  | _ => .error .unfinished

def simpleEscape? (byte : UInt8) : Option UInt8 :=
  match byte with
  | 0x22 => some 0x22
  | 0x5c => some 0x5c
  | 0x2f => some 0x2f
  | 0x62 => some 0x08
  | 0x66 => some 0x0c
  | 0x6e => some 0x0a
  | 0x72 => some 0x0d
  | 0x74 => some 0x09
  | _ => none

def isHighSurrogate (unit : Nat) : Bool := 0xd800 ≤ unit && unit ≤ 0xdbff
def isLowSurrogate (unit : Nat) : Bool := 0xdc00 ≤ unit && unit ≤ 0xdfff

def codePointBytes (codePoint : Nat) : Bytes := String.utf8EncodeChar (Char.ofNat codePoint)

def readLowSurrogate : Bytes → Except Fault Nat
  | [] => .error .unfinished
  | first :: text =>
    if first ≠ backslash then .error .malformed
    else
      match text with
      | [] => .error .unfinished
      | second :: text =>
        if second ≠ 0x75 then .error .malformed
        else do
          let unit ← readUnit text
          if isLowSurrogate unit then return unit else .error .malformed

/-- What the escape after a backslash stands for, and how many bytes it takes up. -/
def readEscape : Bytes → Except Fault (Bytes × Nat)
  | [] => .error .unfinished
  | kind :: text =>
    match simpleEscape? kind with
    | some byte => .ok ([byte], 1)
    | none =>
      if kind ≠ 0x75 then .error .malformed
      else do
        let unit ← readUnit text
        if isLowSurrogate unit then .error .malformed
        else if isHighSurrogate unit then do
          let low ← readLowSurrogate (text.drop 4)
          return (codePointBytes (0x10000 + (unit - 0xd800) * 0x400 + (low - 0xdc00)), 11)
        else return (codePointBytes unit, 5)

/-- The bytes of a string whose opening quote has been read, after those in `before`, which are
held last first. -/
def readStringBytes (before : Bytes) : Reader Bytes
  | [] => .error .unfinished
  | byte :: text =>
    if byte = quoteMark then .ok (before.reverse, text)
    else if byte = backslash then do
      let (escaped, width) ← readEscape text
      readStringBytes (escaped.reverse ++ before) (text.drop width)
    else if byte < 0x20 then .error .malformed
    else readStringBytes (byte :: before) text
termination_by text => text.length
decreasing_by
  · simp only [List.length_drop, List.length_cons]
    omega
  · simp

def readString : Reader Bytes := fun text => do
  let (content, rest) ← readStringBytes [] text
  if Text.isUtf8 content then return (content, rest) else .error .malformed

def skipString : Bytes → Except Fault Bytes
  | [] => .error .unfinished
  | byte :: text =>
    if byte = quoteMark then .ok text
    else if byte = backslash then
      match text with
      | [] => .error .unfinished
      | kind :: text =>
        if (simpleEscape? kind).isSome then skipString text
        else if kind ≠ 0x75 then .error .malformed
        else do
          let _ ← readUnit text
          skipString (text.drop 4)
    else if byte < 0x20 then .error .malformed
    else skipString text
termination_by text => text.length
decreasing_by
  · simp only [List.length_cons]
    omega
  · simp only [List.length_drop, List.length_cons]
    omega
  · simp

end VerifiableLog.Json
