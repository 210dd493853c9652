import VerifiableLog.Toml.Number
import VerifiableLog.Toml.Table

/-!
TOML documents: values, lines and headers. A document is read as a whole or not at all.
-/

namespace VerifiableLog.Toml

def readLiteralWord (word : String) (item : Item) : Reader Item := fun text =>
  if word.toList.isPrefixOf text then some (item, text.drop word.length) else none

def readNumberItem : Reader Item := fun text => do
  let (number, rest) ← readNumber text
  match number with
  | .integer value => return (.integer value, rest)
  | .float => return (.float, rest)

def readScalar : Reader Item := fun text =>
  match text with
  | '"' :: _ => (readString text).map fun (value, rest) => (.string value, rest)
  | '\'' :: _ => (readString text).map fun (value, rest) => (.string value, rest)
  | 't' :: _ => readLiteralWord "true" (.boolean true) text
  | 'f' :: _ => readLiteralWord "false" (.boolean false) text
  | _ =>
    match passDateTime text with
    | some rest => some (.dateTime, rest)
    | none => readNumberItem text

/-- The elements of a list after those in `before`, which are held last first. Each takes up at
least one character, so as many steps as there are characters are enough. -/
def readListItems (read : Reader Item) : Nat → List Item → Reader Item
  | 0, _, _ => none
  | steps + 1, before, text =>
    match skipFiller text with
    | ']' :: rest => some (.list before.reverse, rest)
    | text => do
      let (item, rest) ← read text
      match skipFiller rest with
      | ',' :: rest => readListItems read steps (item :: before) rest
      | ']' :: rest => return (.list (item :: before).reverse, rest)
      | _ => none

def readEntry (read : Reader Item) : Reader (List String × Item) := fun text => do
  let (key, rest) ← readKey text
  match rest with
  | '=' :: rest => do
    let (item, rest) ← read (skipBlanks rest)
    return ((key, item), rest)
  | _ => none

def addEntry? (entries : Entries) (key : List String) (item : Item) : Option Entries := do
  let last ← key.getLast?
  Entries.addBelow? key.dropLast last item entries

def readInlineEntries (read : Reader Item) : Nat → Entries → Reader Item
  | 0, _, _ => none
  | steps + 1, entries, text => do
    let ((key, item), rest) ← readEntry read text
    let entries ← addEntry? entries key item
    match skipBlanks rest with
    | ',' :: rest => readInlineEntries read steps entries rest
    | '}' :: rest => return (.table .inline entries, rest)
    | _ => none

def readInlineTable (read : Reader Item) : Reader Item := fun text =>
  match skipBlanks text with
  | '}' :: rest => some (.table .inline [], rest)
  | text => readInlineEntries read (text.length + 1) [] text

def readItem : Nat → Reader Item
  | 0, text => readScalar text
  | depth + 1, text =>
    match text with
    | '[' :: rest => readListItems (readItem depth) (rest.length + 1) [] rest
    | '\x7b' :: rest => readInlineTable (readItem depth) rest
    | _ => readScalar text

def nestingLimit : Nat := 79

/-! ### Lines -/

structure Document where
  entries : Entries
  current : List String

namespace Document

def empty : Document := ⟨[], []⟩

def begin? (document : Document) (isRow : Bool) (path : List String) : Option Document := do
  let last ← path.getLast?
  let start := if isRow then Entries.addRow? last else Entries.define? last
  let entries ← Entries.changeAt? start path.dropLast document.entries
  return ⟨entries, path⟩

def addEntry? (document : Document) (key : List String) (item : Item) : Option Document := do
  let add (entries : Entries) : Option Entries := Toml.addEntry? entries key item
  let entries ← Entries.changeAt? add document.current document.entries
  return { document with entries := entries }

def passHeader? (document : Document) (text : List Char) : Option (Document × List Char) := do
  match text with
  | '[' :: text => do
    let (path, rest) ← readKey text
    match rest with
    | ']' :: ']' :: rest => return (← document.begin? true path, rest)
    | _ => none
  | text => do
    let (path, rest) ← readKey text
    match rest with
    | ']' :: rest => return (← document.begin? false path, rest)
    | _ => none

def passLine? (document : Document) (text : List Char) : Option (Document × List Char) :=
  match text with
  | [] => some (document, [])
  | '#' :: _ => some (document, text)
  | '\n' :: _ => some (document, text)
  | '\r' :: _ => some (document, text)
  | '[' :: rest => document.passHeader? rest
  | _ => do
    let ((key, item), rest) ← readEntry (readItem nestingLimit) text
    return (← document.addEntry? key item, rest)

/-- Each line takes up at least one character, so as many steps as there are characters are
enough. -/
def readLines? : Nat → Document → List Char → Option Document
  | 0, _, _ => none
  | _ + 1, document, [] => some document
  | steps + 1, document, text => do
    let (document, rest) ← document.passLine? (skipBlanks text)
    readLines? steps document (← finishLine? rest)

end Document

def read? (text : String) : Option Entries :=
  let characters :=
    match text.toList with
    | '\ufeff' :: rest => rest
    | characters => characters
  (Document.empty.readLines? (characters.length + 1) characters).map Document.entries

end VerifiableLog.Toml
