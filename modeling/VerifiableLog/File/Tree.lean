import VerifiableLog.File.System

/-!
Files and directories as a value. Names are at most 255 bytes long and paths less than 4096; nothing
but a directory can be stepped through.
-/

namespace VerifiableLog

inductive FileEntry where
  | file (content : Bytes)
  | directory
  deriving DecidableEq, Repr

/-- The names of the directories from the root down to an entry, and its own. -/
abbrev FilePlace := List String

structure FileTree where
  entries : List (FilePlace × FileEntry)
  workingDirectory : FilePlace
  deriving DecidableEq, Repr

namespace FileTree

def entry? (tree : FileTree) (place : FilePlace) : Option FileEntry :=
  if place.isEmpty then some .directory else tree.entries.lookup place

def put (tree : FileTree) (place : FilePlace) (entry : FileEntry) : FileTree :=
  { tree with entries := (tree.entries.filter fun other => other.1 ≠ place) ++ [(place, entry)] }

/-! ### Finding places -/

def checkPath (path : FilePath) : Except FileFault Unit :=
  if path.steps.any fun step => step.toList.contains '\x00' then .error .badName
  else if 4096 ≤ path.toText.utf8ByteSize then .error .nameTooLong
  else if path.steps.isEmpty && !path.isAbsolute then .error .missing
  else .ok ()

/-- The place that the steps lead to from a given one. All but the place that is found have to be
directories. -/
def walk (tree : FileTree) (place : FilePlace) : List String → Except FileFault FilePlace
  | [] => .ok place
  | step :: steps =>
    match tree.entry? place with
    | none => .error .missing
    | some (.file _) => .error .notDirectory
    | some .directory =>
      if step = "." then tree.walk place steps
      else if step = ".." then tree.walk place.dropLast steps
      else if 255 < step.utf8ByteSize then .error .nameTooLong
      else tree.walk (place ++ [step]) steps

def placeOf (tree : FileTree) (path : FilePath) : Except FileFault FilePlace := do
  checkPath path
  tree.walk (if path.isAbsolute then [] else tree.workingDirectory) path.steps

def find (tree : FileTree) (path : FilePath) : Except FileFault FileEntry := do
  match tree.entry? (← tree.placeOf path) with
  | none => .error .missing
  | some .directory => .ok .directory
  | some (.file content) => if path.endsInSlash then .error .notDirectory else .ok (.file content)

def isDirectory (tree : FileTree) (path : FilePath) : Bool :=
  match tree.find path with
  | .ok .directory => true
  | _ => false

/-! ### Reading and writing -/

def read (tree : FileTree) (path : FilePath) : Except FileFault Bytes := do
  match ← tree.find path with
  | .directory => .error .directory
  | .file content => .ok content

def write (tree : FileTree) (path : FilePath) (content : Bytes) : Except FileFault FileTree := do
  let place ←
    tree.placeOf
      (if path.endsInSlash then { path with steps := path.steps.dropLast ++ ["."] } else path)
  match tree.entry? place with
  | some .directory => .error .directory
  | _ => .ok (tree.put place (.file content))

def makeDirectory (tree : FileTree) (path : FilePath) : Except FileFault FileTree := do
  let place ← tree.placeOf path
  match tree.entry? place with
  | some _ => .error .taken
  | none => .ok (tree.put place .directory)

def change (result : Except FileFault FileTree) : StateM FileTree (Except FileFault Unit) :=
  fun tree =>
    match result with
    | .ok changed => (.ok (), changed)
    | .error fault => (.error fault, tree)

end FileTree

instance : FileSystem (StateM FileTree) where
  isPresent path := return ((← get).find path).isOk
  isDirectory path := return (← get).isDirectory path
  read path := return (← get).read path
  write path content := do FileTree.change ((← get).write path content)
  makeDirectory path := do FileTree.change ((← get).makeDirectory path)

end VerifiableLog
