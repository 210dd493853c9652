import VerifiableLog.Bytes

/-!
Tables from byte strings to byte strings, kept in the order of their keys.
-/

namespace VerifiableLog

structure Table where
  entries : List (Bytes × Bytes)
  deriving DecidableEq

namespace Table

def empty : Table := ⟨[]⟩

def find? (table : Table) (key : Bytes) : Option Bytes :=
  (table.entries.find? fun entry => entry.1 = key).map Prod.snd

def insertSorted (key value : Bytes) : List (Bytes × Bytes) → List (Bytes × Bytes)
  | [] => [(key, value)]
  | entry :: entries =>
    if key = entry.1 then (key, value) :: entries
    else if key.below entry.1 then (key, value) :: entry :: entries
    else entry :: insertSorted key value entries

def insert (table : Table) (key value : Bytes) : Table := ⟨insertSorted key value table.entries⟩

/-- The entries with keys from `start` to, and not including, `stop`, in order. -/
def range (table : Table) (start stop : Bytes) : List (Bytes × Bytes) :=
  table.entries.filter fun entry => !entry.1.below start && entry.1.below stop

end Table

end VerifiableLog
