/-!
The lexemes of TOML text: blanks, line ends, comments, strings and keys. Control characters have no
place in a text, apart from tabs and line ends.
-/

namespace VerifiableLog.Toml

abbrev Reader (α : Type) := List Char → Option (α × List Char)

def isBlank (character : Char) : Bool := character == ' ' || character == '\t'

def isInline (character : Char) : Bool :=
  character == '\t' || (' ' ≤ character && character ≠ '\x7f')

def skipBlanks (text : List Char) : List Char := text.dropWhile isBlank

def passLineEnd? : List Char → Option (List Char)
  | '\n' :: rest => some rest
  | '\r' :: '\n' :: rest => some rest
  | _ => none

def skipComment : List Char → List Char
  | '#' :: rest => rest.dropWhile isInline
  | text => text

def finishLine? (text : List Char) : Option (List Char) :=
  match skipComment (skipBlanks text) with
  | [] => some []
  | text => passLineEnd? text

def skipFiller : List Char → List Char
  | [] => []
  | '\n' :: rest => skipFiller rest
  | '\r' :: '\n' :: rest => skipFiller rest
  | '#' :: rest => skipFiller (rest.dropWhile isInline)
  | character :: rest => if isBlank character then skipFiller rest else character :: rest
termination_by text => text.length
decreasing_by
  · simp
  · simp only [List.length_cons]
    omega
  · have := (List.dropWhile_suffix (l := rest) isInline).length_le
    simp only [List.length_cons]
    omega
  · simp

/-! ### Strings -/

def digitValue? (base : Nat) (character : Char) : Option Nat :=
  let value? :=
    if '0' ≤ character ∧ character ≤ '9' then some (character.toNat - '0'.toNat)
    else if 'a' ≤ character ∧ character ≤ 'f' then some (character.toNat - 'a'.toNat + 10)
    else if 'A' ≤ character ∧ character ≤ 'F' then some (character.toNat - 'A'.toNat + 10)
    else none
  value?.filter fun value => value < base

def codePoint? (width : Nat) (text : List Char) : Option Char := do
  let digits ← (text.take width).mapM (digitValue? 16)
  let value := digits.foldl (fun value digit => value * 16 + digit) 0
  if digits.length = width ∧ value.isValidChar then some (Char.ofNat value) else none

def escape? : List Char → Option (Char × Nat)
  | [] => none
  | kind :: text =>
    match kind with
    | 'b' => some ('\x08', 1)
    | 't' => some ('\t', 1)
    | 'n' => some ('\n', 1)
    | 'f' => some ('\x0c', 1)
    | 'r' => some ('\r', 1)
    | '"' => some ('"', 1)
    | '\\' => some ('\\', 1)
    | 'u' => (codePoint? 4 text).map fun character => (character, 5)
    | 'U' => (codePoint? 8 text).map fun character => (character, 9)
    | _ => none

def readEscaped (before : List Char) : Reader String
  | [] => none
  | '"' :: rest => some (String.ofList before.reverse, rest)
  | '\\' :: rest =>
    match escape? rest with
    | some (character, width) => readEscaped (character :: before) (rest.drop width)
    | none => none
  | character :: rest =>
    if isInline character then readEscaped (character :: before) rest else none
termination_by text => text.length
decreasing_by
  · simp only [List.length_drop, List.length_cons]
    omega
  · simp

/-- Up to two quotes may stand directly before the three that end a string of several lines. -/
def closeLines (quote : Char) (before rest : List Char) : Option (String × List Char) :=
  let extra := ((rest.take 2).takeWhile (· == quote)).length
  some (String.ofList (List.replicate extra quote ++ before).reverse, rest.drop extra)

/-- The rest of a string with escapes that may go over several lines. After a backslash at the end
of a line, all blanks and line ends are left out. -/
def readEscapedLines (isTrimming : Bool) (before : List Char) : Reader String
  | [] => none
  | '\n' :: rest => readEscapedLines isTrimming (if isTrimming then before else '\n' :: before) rest
  | '\r' :: '\n' :: rest =>
    readEscapedLines isTrimming (if isTrimming then before else '\n' :: before) rest
  | '"' :: '"' :: '"' :: rest => closeLines '"' before rest
  | '\\' :: rest =>
    if (passLineEnd? (skipBlanks rest)).isSome then readEscapedLines true before rest
    else
      match escape? rest with
      | some (character, width) => readEscapedLines false (character :: before) (rest.drop width)
      | none => none
  | character :: rest =>
    if isTrimming && isBlank character then readEscapedLines true before rest
    else if isInline character then readEscapedLines false (character :: before) rest
    else none
termination_by text => text.length
decreasing_by all_goals simp only [List.length_drop, List.length_cons]; omega

def readLiteral (text : List Char) : Option (String × List Char) :=
  let isContent (character : Char) : Bool := isInline character && character ≠ '\''
  match text.dropWhile isContent with
  | '\'' :: rest => some (String.ofList (text.takeWhile isContent), rest)
  | _ => none

def readLiteralLines (before : List Char) : Reader String
  | [] => none
  | '\n' :: rest => readLiteralLines ('\n' :: before) rest
  | '\r' :: '\n' :: rest => readLiteralLines ('\n' :: before) rest
  | '\'' :: '\'' :: '\'' :: rest => closeLines '\'' before rest
  | character :: rest =>
    if isInline character then readLiteralLines (character :: before) rest else none

def skipFirstLineEnd (text : List Char) : List Char := (passLineEnd? text).getD text

def readString : Reader String
  | '"' :: '"' :: '"' :: rest => readEscapedLines false [] (skipFirstLineEnd rest)
  | '\'' :: '\'' :: '\'' :: rest => readLiteralLines [] (skipFirstLineEnd rest)
  | '"' :: rest => readEscaped [] rest
  | '\'' :: rest => readLiteral rest
  | _ => none

/-! ### Keys -/

def isKeyCharacter (character : Char) : Bool :=
  character.isAlphanum || character == '_' || character == '-'

def readKeyPart : Reader String
  | '"' :: rest => readEscaped [] rest
  | '\'' :: rest => readLiteral rest
  | text =>
    let name := text.takeWhile isKeyCharacter
    if name.isEmpty then none else some (String.ofList name, text.dropWhile isKeyCharacter)

def readKeyParts : Nat → Reader (List String)
  | 0, _ => none
  | steps + 1, text => do
    let (part, rest) ← readKeyPart (skipBlanks text)
    match skipBlanks rest with
    | '.' :: rest => do
      let (parts, rest) ← readKeyParts steps rest
      return (part :: parts, rest)
    | rest => return ([part], rest)

def readKey : Reader (List String) := fun text => do
  let (parts, rest) ← readKeyParts (text.length + 1) text
  if parts.length < 80 then return (parts, rest) else none

end VerifiableLog.Toml
