import VerifiableLog.Bytes
import VerifiableLog.File.Path

/-!
What the daemon asks of the files around it.
-/

namespace VerifiableLog

inductive FileFault where
  | missing
  | taken
  | notDirectory
  | directory
  | nameTooLong
  | badName
  | notText
  | other (description : String)
  deriving DecidableEq, Repr

def FileFault.message : FileFault → String
  | .missing => "No such file or directory (os error 2)"
  | .taken => "File exists (os error 17)"
  | .notDirectory => "Not a directory (os error 20)"
  | .directory => "Is a directory (os error 21)"
  | .nameTooLong => "File name too long (os error 36)"
  | .badName => "file name contained an unexpected NUL byte"
  | .notText => "stream did not contain valid UTF-8"
  | .other description => description

class FileSystem (m : Type → Type) where
  isPresent : FilePath → m Bool
  isDirectory : FilePath → m Bool
  read : FilePath → m (Except FileFault Bytes)
  write : FilePath → Bytes → m (Except FileFault Unit)
  makeDirectory : FilePath → m (Except FileFault Unit)

namespace FileSystem

variable {m : Type → Type} [Monad m]

def attempt {ε α : Type} (cause : FileFault → ε) (action : m (Except FileFault α)) :
    ExceptT ε m α :=
  ExceptT.mk do return (← action).mapError cause

variable [FileSystem m]

def settle (path : FilePath) : Except FileFault Unit → m (Except FileFault Unit)
  | .ok () => return .ok ()
  | .error fault => return if ← isDirectory path then .ok () else .error fault

def makeDirectoriesWithin : Nat → FilePath → m (Except FileFault Unit)
  | 0, _ => return .ok ()
  | attempts + 1, path => do
    match ← makeDirectory path, path.parent? with
    | .error .missing, some parent =>
      match ← makeDirectoriesWithin attempts parent with
      | .error fault => return .error fault
      | .ok () => settle path (← makeDirectory path)
    | result, _ => settle path result

/-- Sees to it that there is a directory, and makes those on the way to it too. A parent has fewer
steps, so as many attempts as there are steps are enough; a path without steps is that of a
directory that is always there. -/
def makeDirectories (path : FilePath) : m (Except FileFault Unit) :=
  makeDirectoriesWithin path.steps.length path

end FileSystem

end VerifiableLog
