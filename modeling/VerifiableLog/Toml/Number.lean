import VerifiableLog.Toml.Lexeme

/-!
Integers, floats, dates and times of TOML text. Integers are of 64 bits. Of floats, dates and times
only the form is read, with the limits that go with it.
-/

namespace VerifiableLog.Toml

inductive Number where
  | integer (value : Int)
  | float
  deriving DecidableEq, Repr

def largestInteger : Nat := 0x7fffffffffffffff

def valueOf (base : Nat) (digits : List Nat) : Nat :=
  digits.foldl (fun value digit => value * base + digit) 0

def takeDigits (base : Nat) : List Char → List Nat × List Char
  | [] => ([], [])
  | character :: rest =>
    match digitValue? base character with
    | none => ([], character :: rest)
    | some digit =>
      let (digits, rest) :=
        match rest with
        | '_' :: next :: after =>
          if (digitValue? base next).isSome then takeDigits base (next :: after)
          else ([], '_' :: next :: after)
        | rest => takeDigits base rest
      (digit :: digits, rest)
termination_by text => text.length
decreasing_by all_goals simp_all only [List.length_cons]; omega

def readDigits (base : Nat) : Reader (List Nat) := fun text =>
  let (digits, rest) := takeDigits base text
  if digits.isEmpty then none else some (digits, rest)

def readPlainDigits : Reader (List Nat)
  | '0' :: rest => some ([0], rest)
  | text => readDigits 10 text

def readSign : List Char → Bool × List Char
  | '-' :: rest => (true, rest)
  | '+' :: rest => (false, rest)
  | text => (false, text)

def isInfinite (digits : List Nat) (exponent : Int) : Bool :=
  let digits := digits.dropWhile (· == 0)
  let magnitude := Int.ofNat digits.length + exponent
  let limit := (1 <<< 1024) - (1 <<< 970)
  if digits.isEmpty || magnitude < 300 then false
  else if magnitude > 320 then true
  else valueOf 10 digits * Nat.pow 10 exponent.toNat ≥ limit * Nat.pow 10 (-exponent).toNat

def readExponent : Reader Int
  | mark :: text =>
    if mark == 'e' || mark == 'E' then do
      let (isNegative, text) := readSign text
      let (digits, rest) ← readDigits 10 text
      let value := Int.ofNat (valueOf 10 digits)
      return (if isNegative then -value else value, rest)
    else none
  | [] => none

/-- A float is refused if it is too large to be one; a negative one never is. -/
def finishFloat (isNegative : Bool) (digits : List Nat) (exponent : Int) (rest : List Char) :
    Option (Number × List Char) :=
  if isNegative || !isInfinite digits exponent then some (.float, rest) else none

def readUnsigned (isNegative : Bool) : Reader Number := fun text => do
  let (digits, rest) ← readPlainDigits text
  match rest with
  | '.' :: rest => do
    let (fraction, rest) ← readDigits 10 rest
    let (exponent, rest) := (readExponent rest).getD (0, rest)
    finishFloat isNegative (digits ++ fraction) (exponent - Int.ofNat fraction.length) rest
  | rest =>
    match readExponent rest with
    | some (exponent, rest) => finishFloat isNegative digits exponent rest
    | none =>
      let value := valueOf 10 digits
      if isNegative then
        if value ≤ largestInteger + 1 then return (.integer (-Int.ofNat value), rest) else none
      else if value ≤ largestInteger then return (.integer (Int.ofNat value), rest)
      else none

def readBased (base : Nat) : Reader Number := fun text => do
  let (digits, rest) ← readDigits base text
  let value := valueOf base digits
  if value ≤ largestInteger then return (.integer (Int.ofNat value), rest) else none

def readNumber : Reader Number
  | '0' :: 'x' :: rest => readBased 16 rest
  | '0' :: 'o' :: rest => readBased 8 rest
  | '0' :: 'b' :: rest => readBased 2 rest
  | text =>
    match readSign text with
    | (_, 'i' :: 'n' :: 'f' :: rest) => some (.float, rest)
    | (_, 'n' :: 'a' :: 'n' :: rest) => some (.float, rest)
    | (isNegative, rest) => readUnsigned isNegative rest

/-! ### Dates and times -/

def readPart (width least greatest : Nat) : Reader Nat := fun text => do
  let digits ← (text.take width).mapM (digitValue? 10)
  let value := valueOf 10 digits
  if digits.length = width ∧ least ≤ value ∧ value ≤ greatest then return (value, text.drop width)
  else none

def passCharacter (character : Char) : List Char → Option (List Char)
  | first :: rest => if first = character then some rest else none
  | [] => none

def daysInMonth (year month : Nat) : Nat :=
  let isLeapYear := year % 4 == 0 && (year % 100 != 0 || year % 400 == 0)
  if month = 2 then if isLeapYear then 29 else 28
  else if month = 4 ∨ month = 6 ∨ month = 9 ∨ month = 11 then 30
  else 31

def passDate (text : List Char) : Option (List Char) := do
  let (year, text) ← readPart 4 0 9999 text
  let text ← passCharacter '-' text
  let (month, text) ← readPart 2 1 12 text
  let text ← passCharacter '-' text
  let (_, text) ← readPart 2 1 (daysInMonth year month) text
  return text

/-- A time of day. The last second of a day may be its sixty-first, and seconds may have decimal
places. -/
def passTime (text : List Char) : Option (List Char) := do
  let (_, text) ← readPart 2 0 23 text
  let text ← passCharacter ':' text
  let (_, text) ← readPart 2 0 59 text
  let text ← passCharacter ':' text
  let (_, text) ← readPart 2 0 60 text
  match text with
  | '.' :: places =>
    if (places.takeWhile Char.isDigit).isEmpty then return text
    else return places.dropWhile Char.isDigit
  | _ => return text

def passOffset (text : List Char) : Option (List Char) :=
  match text with
  | 'Z' :: rest => some rest
  | 'z' :: rest => some rest
  | sign :: rest =>
    if sign == '+' || sign == '-' then do
      let (_, rest) ← readPart 2 0 23 rest
      let rest ← passCharacter ':' rest
      let (_, rest) ← readPart 2 0 59 rest
      return rest
    else none
  | [] => none

def passDateTime (text : List Char) : Option (List Char) :=
  match passDate text with
  | none => passTime text
  | some rest =>
    match rest with
    | mark :: time =>
      if mark == 'T' || mark == 't' || mark == ' ' then
        match passTime time with
        | some rest => some ((passOffset rest).getD rest)
        | none => some (mark :: time)
      else some (mark :: time)
    | [] => some []

end VerifiableLog.Toml
