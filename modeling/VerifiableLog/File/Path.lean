/-!
Paths of files and directories.
-/

namespace VerifiableLog

/-- A path as the steps between its slashes. A step of one dot leads nowhere and a step of two dots
leads to the directory around; a slash behind the last step says that a directory is meant. -/
structure FilePath where
  isAbsolute : Bool
  steps : List String
  endsInSlash : Bool
  deriving DecidableEq, Repr

namespace FilePath

def ofText (text : String) : FilePath :=
  let steps := (text.splitOn "/").filter (· ≠ "")
  { isAbsolute := text.toList.head? = some '/'
    steps := steps
    endsInSlash := !steps.isEmpty && text.toList.getLast? = some '/' }

def toText (path : FilePath) : String :=
  (if path.isAbsolute then "/" else "") ++ "/".intercalate path.steps ++
    (if path.endsInSlash then "/" else "")

def dropDots (steps : List String) : List String :=
  (steps.reverse.dropWhile (· = ".")).reverse

def parent? (path : FilePath) : Option FilePath :=
  if path.steps.isEmpty || (path.isAbsolute && (dropDots path.steps).isEmpty) then none
  else some ⟨path.isAbsolute, dropDots (dropDots path.steps).dropLast, false⟩

/-- The path `child` as seen from `base`. An absolute path is the same from everywhere. -/
def join (base child : String) : String :=
  if child.toList.head? = some '/' then child
  else
    match base.toList.getLast? with
    | none => child
    | some '/' => base ++ child
    | some _ => base ++ "/" ++ child

end FilePath

end VerifiableLog
