/-!
Tables of TOML text while they are being filled, and the rules on who may add to which table.

A table that a header or an inline value has defined is complete as far as dotted keys go: these add
only to tables that dotted keys have made. A header defines a table once, and only one that so far
is implied by the headers of tables within it; it may stand below any table but an inline one.
-/

namespace VerifiableLog.Toml

inductive Origin where
  | header
  | implied
  | dotted
  | inline
  deriving DecidableEq, Repr

/-- What a key stands for. Of floats, dates and times nothing is kept. -/
inductive Item where
  | string (text : String)
  | integer (value : Int)
  | boolean (value : Bool)
  | float
  | dateTime
  | list (items : List Item)
  | table (origin : Origin) (entries : List (String × Item))
  | rows (tables : List (List (String × Item)))

abbrev Entries := List (String × Item)

namespace Entries

def lookup? (key : String) (entries : Entries) : Option Item :=
  (entries.find? fun entry => entry.1 = key).map Prod.snd

def put (key : String) (item : Item) : Entries → Entries
  | [] => [(key, item)]
  | entry :: entries =>
    if entry.1 = key then (key, item) :: entries else entry :: put key item entries

def add? (key : String) (item : Item) (entries : Entries) : Option Entries :=
  if (lookup? key entries).isSome then none else some (put key item entries)

def changeLast? (change : Entries → Option Entries) : List Entries → Option (List Entries)
  | [] => none
  | [row] => (change row).map fun row => [row]
  | row :: rows => (changeLast? change rows).map fun rows => row :: rows

/-- Adds an item under a key to the table that the dotted path leads to. The table at the end of the
path has to be one that dotted keys have made. -/
def addBelow? : List String → String → Item → Entries → Option Entries
  | [], key, item, entries => add? key item entries
  | [parent], key, item, entries =>
    match lookup? parent entries with
    | none => some (put parent (.table .dotted [(key, item)]) entries)
    | some (.table .dotted inner) => do
      let inner ← add? key item inner
      return put parent (.table .dotted inner) entries
    | some _ => none
  | parent :: path, key, item, entries =>
    let addTo (inner : Entries) : Option Entries := addBelow? path key item inner
    match lookup? parent entries with
    | none => do
      let inner ← addTo []
      return put parent (.table .dotted inner) entries
    | some (.table .dotted inner) => do
      let inner ← addTo inner
      return put parent (.table .dotted inner) entries
    | some (.table .implied inner) => do
      let inner ← addTo inner
      return put parent (.table .implied inner) entries
    | some (.rows rows) => do
      let rows ← changeLast? addTo rows
      return put parent (.rows rows) entries
    | some _ => none

/-- Changes the entries of the table that the path of a header leads to. Tables that are missing on
the way are implied, and of rows the last one is meant. -/
def changeAt? (change : Entries → Option Entries) : List String → Entries → Option Entries
  | [], entries => change entries
  | parent :: path, entries =>
    let changeIn (inner : Entries) : Option Entries := changeAt? change path inner
    match lookup? parent entries with
    | none => do
      let inner ← changeIn []
      return put parent (.table .implied inner) entries
    | some (.table .inline _) => none
    | some (.table origin inner) => do
      let inner ← changeIn inner
      return put parent (.table origin inner) entries
    | some (.rows rows) => do
      let rows ← changeLast? changeIn rows
      return put parent (.rows rows) entries
    | some _ => none

def define? (key : String) (entries : Entries) : Option Entries :=
  match lookup? key entries with
  | none => some (put key (.table .header []) entries)
  | some (.table .implied inner) => some (put key (.table .header inner) entries)
  | some _ => none

def addRow? (key : String) (entries : Entries) : Option Entries :=
  match lookup? key entries with
  | none => some (put key (.rows [[]]) entries)
  | some (.rows rows) => some (put key (.rows (rows ++ [[]])) entries)
  | some _ => none

end Entries

end VerifiableLog.Toml
