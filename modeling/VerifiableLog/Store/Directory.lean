import VerifiableLog.File.System
import VerifiableLog.Store.Packed

/-!
A disk store in a directory of its own, which holds its tables in one file.
-/

namespace VerifiableLog.DiskStore

inductive DirectoryFault where
  | file (fault : FileFault)
  | tables (cause : Packed.Error)
  deriving DecidableEq, Repr

def DirectoryFault.message : DirectoryFault → String
  | .file fault => s!"io error: {fault.message}"
  | .tables cause => s!"serialization error: {cause.message}"

def tablesFile (directory : String) : FilePath := .ofText (FilePath.join directory "tables")

variable {m : Type → Type} [Monad m] [FileSystem m]

/-- The store in a directory, which is made if need be. A directory without tables holds the empty
store. -/
def load (directory : String) : ExceptT DirectoryFault m DiskStore := do
  FileSystem.attempt .file (FileSystem.makeDirectories (m := m) (.ofText directory))
  if ← FileSystem.isPresent (m := m) (tablesFile directory) then
    let content ← FileSystem.attempt .file (FileSystem.read (m := m) (tablesFile directory))
    match packed.read content with
    | .ok (store, _) => return store
    | .error cause => throw (.tables cause)
  else return .empty

def save (directory : String) (store : DiskStore) : ExceptT DirectoryFault m Unit :=
  FileSystem.attempt .file (FileSystem.write (m := m) (tablesFile directory) (packed.write store))

end VerifiableLog.DiskStore
