import VerifiableLog.Json.Lexeme

/-!
Numbers of JSON text. A number written as a plain natural number keeps its value. Every other
number is read only as far as its form goes, with one limit: a number that is too large for a
double-precision float is refused.

A number is collected as `significand * 10 ^ exponent`. The significand is a 64-bit word; once the
next digit would not fit, further digits count in the exponent alone.
-/

namespace VerifiableLog.Json

inductive Number where
  | natural (value : Nat)
  | other
  deriving DecidableEq, Repr

def largestWord : Nat := 0xffffffffffffffff
def largestExponent : Nat := 0x7fffffff

/-- The nearest number with 53 significant bits, a half going to the even neighbour. -/
def roundTo53Bits (value : Nat) : Nat :=
  let dropped := Nat.log2 value - 52
  let quotient := value >>> dropped
  let remainder := value % (1 <<< dropped)
  let half := (1 <<< dropped) / 2
  let roundsUp := remainder > half || (remainder == half && quotient % 2 == 1 && dropped > 0)
  (if roundsUp then quotient + 1 else quotient) <<< dropped

/-- Whether the product of the doubles nearest to the significand and to the power of ten, itself
rounded, is beyond the largest double. -/
def exceedsDouble (significand : Nat) (exponent : Int) : Bool :=
  significand ≠ 0 && exponent ≥ 0 &&
    (exponent > 308 ||
      roundTo53Bits significand * roundTo53Bits (Nat.pow 10 exponent.toNat) ≥
        (1 <<< 1024) - (1 <<< 970))

def finishReal (significand : Nat) (exponent : Int) (text : Bytes) :
    Except Fault (Number × Bytes) :=
  if exceedsDouble significand exponent then .error .malformed else .ok (.other, text)

/-- Digits taken into the significand as long as it fits; gives the significand, how many digits
were taken, and the rest of the text. -/
def takeDigits (significand taken : Nat) : Bytes → Nat × Nat × Bytes
  | [] => (significand, taken, [])
  | byte :: text =>
    if isDigit byte then
      let next := significand * 10 + (byte.toNat - 0x30)
      if next > largestWord then (significand, taken, byte :: text)
      else takeDigits next (taken + 1) text
    else (significand, taken, byte :: text)

/-- The digits of an exponent, of which one has been read. A value beyond 31 bits decides the
outcome at once. -/
def readExponentDigits (significand : Nat) (exponent : Int) (isNegative : Bool) (value : Nat) :
    Bytes → Except Fault (Number × Bytes)
  | byte :: text =>
    if isDigit byte then
      let next := value * 10 + (byte.toNat - 0x30)
      if next > largestExponent then
        if significand ≠ 0 && !isNegative then .error .malformed
        else .ok (.other, text.dropWhile isDigit)
      else readExponentDigits significand exponent isNegative next text
    else
      finishReal significand (if isNegative then exponent - value else exponent + value)
        (byte :: text)
  | [] => finishReal significand (if isNegative then exponent - value else exponent + value) []

def readExponent (significand : Nat) (exponent : Int) (text : Bytes) :
    Except Fault (Number × Bytes) :=
  let (isNegative, text) :=
    match text with
    | 0x2b :: text => (false, text)
    | 0x2d :: text => (true, text)
    | _ => (false, text)
  match text with
  | [] => .error .unfinished
  | byte :: text =>
    if isDigit byte then
      readExponentDigits significand exponent isNegative (byte.toNat - 0x30) text
    else .error .malformed

def readExponentOrEnd (significand : Nat) (exponent : Int) (text : Bytes) :
    Except Fault (Number × Bytes) :=
  match text with
  | byte :: rest =>
    if byte = 0x65 ∨ byte = 0x45 then readExponent significand exponent rest
    else finishReal significand exponent text
  | [] => finishReal significand exponent text

def readFraction (significand : Nat) (exponent : Int) (text : Bytes) :
    Except Fault (Number × Bytes) :=
  let (significand, taken, rest) := takeDigits significand 0 text
  match rest with
  | byte :: _ =>
    if isDigit byte then
      readExponentOrEnd significand (exponent - taken) (rest.dropWhile isDigit)
    else if taken = 0 then .error .malformed
    else readExponentOrEnd significand (exponent - taken) rest
  | [] =>
    if taken = 0 then .error .unfinished
    else readExponentOrEnd significand (exponent - taken) rest

def readAfterWhole (whole : Number) (significand : Nat) (exponent : Int) (text : Bytes) :
    Except Fault (Number × Bytes) :=
  match text with
  | byte :: rest =>
    if byte = 0x2e then readFraction significand exponent rest
    else if byte = 0x65 ∨ byte = 0x45 then readExponent significand exponent rest
    else if whole = .other then finishReal significand exponent text
    else .ok (whole, text)
  | [] => if whole = .other then finishReal significand exponent text else .ok (whole, text)

def readUnsigned (text : Bytes) : Except Fault (Number × Bytes) :=
  match text with
  | [] => .error .unfinished
  | first :: rest =>
    if first = 0x30 then
      match rest with
      | second :: _ =>
        if isDigit second then .error .malformed else readAfterWhole (.natural 0) 0 0 rest
      | [] => readAfterWhole (.natural 0) 0 0 rest
    else if isDigit first then
      let (significand, _, rest) := takeDigits 0 0 text
      let surplus := rest.takeWhile isDigit
      if surplus.isEmpty then readAfterWhole (.natural significand) significand 0 rest
      else readAfterWhole .other significand surplus.length (rest.dropWhile isDigit)
    else .error .malformed

def readNumber : Bytes → Except Fault (Number × Bytes)
  | byte :: text =>
    if byte = minusSign then do
      let (_, rest) ← readUnsigned text
      return (.other, rest)
    else readUnsigned (byte :: text)
  | [] => .error .unfinished

/-! ### Passing over numbers -/

/-- Passes over the digits after an exponent mark; a text that ends too soon is malformed here. -/
def skipExponent (text : Bytes) : Except Fault Bytes :=
  let text :=
    match text with
    | 0x2b :: text => text
    | 0x2d :: text => text
    | _ => text
  match text with
  | byte :: text => if isDigit byte then .ok (text.dropWhile isDigit) else .error .malformed
  | [] => .error .malformed

def skipExponentOrEnd (text : Bytes) : Except Fault Bytes :=
  match text with
  | byte :: rest => if byte = 0x65 ∨ byte = 0x45 then skipExponent rest else .ok text
  | [] => .ok text

def skipFraction (text : Bytes) : Except Fault Bytes :=
  match text with
  | byte :: rest =>
    if isDigit byte then skipExponentOrEnd (rest.dropWhile isDigit) else .error .malformed
  | [] => .error .malformed

def skipAfterWhole (text : Bytes) : Except Fault Bytes :=
  match text with
  | byte :: rest => if byte = 0x2e then skipFraction rest else skipExponentOrEnd text
  | [] => .ok text

def skipUnsigned (text : Bytes) : Except Fault Bytes :=
  match text with
  | [] => .error .malformed
  | first :: rest =>
    if first = 0x30 then
      match rest with
      | second :: _ => if isDigit second then .error .malformed else skipAfterWhole rest
      | [] => .ok rest
    else if isDigit first then skipAfterWhole (rest.dropWhile isDigit)
    else .error .malformed

end VerifiableLog.Json
