import VerifiableLog.File.System
import VerifiableLog.Http.Service
import VerifiableLog.Toml.Document

/-!
The daemon's settings and the TOML document that gives them. A setting that the document leaves out
keeps its standard value, and whatever the document says beside the settings is passed over.
-/

namespace VerifiableLog.Daemon

structure Config where
  dataDirectory : String
  listenAddress : String
  backend : String
  keyFile : String
  defaultSpan : UInt64
  maxSpan : UInt64
  requestTimeout : UInt64
  maxBodyLength : UInt64
  logLevel : String
  deriving DecidableEq, Repr

namespace Config

def standard (home : Option String) : Config where
  dataDirectory := (home.map fun home => FilePath.join home ".vellum").getD ".vellum"
  listenAddress := "0.0.0.0:6962"
  backend := "fjall"
  keyFile := "signing.key"
  defaultSpan := Http.RangePolicy.standard.defaultSpan
  maxSpan := Http.RangePolicy.standard.maxSpan
  requestTimeout := UInt64.ofNat Http.Service.standard.timeout
  maxBodyLength := UInt64.ofNat Http.Service.standard.maxBodyLength
  logLevel := "info"

/-! ### Reading a document -/

/-- Finds a setting of a section by its name, or by its place where the section is a list. -/
abbrev Section := String → Nat → Option Toml.Item

def textOf? : Toml.Item → Option String
  | .string text => some text
  | _ => none

def wordOf? : Toml.Item → Option UInt64
  | .integer value => if value < 0 then none else some (UInt64.ofNat value.toNat)
  | _ => none

/-- A section is a table or a list of its settings in order. A date counts as one without any. -/
def sectionOf? : Toml.Item → Option Section
  | .table _ entries => some fun name _ => Toml.Entries.lookup? name entries
  | .list items => some fun _ place => items[place]?
  | .rows rows => some fun _ place => rows[place]?.map (.table .header)
  | .dateTime => some fun _ _ => none
  | _ => none

def findSection? (document : Toml.Entries) (name : String) : Option Section :=
  match Toml.Entries.lookup? name document with
  | none => some fun _ _ => none
  | some item => sectionOf? item

def setting? {α : Type} (settings : Section) (name : String) (place : Nat)
    (read : Toml.Item → Option α) (standard : α) : Option α :=
  match settings name place with
  | none => some standard
  | some item => read item

def ofDocument? (document : Toml.Entries) (standard : Config) : Option Config := do
  let node ← findSection? document "node"
  let storage ← findSection? document "storage"
  let signer ← findSection? document "signer"
  let api ← findSection? document "api"
  let log ← findSection? document "log"
  return {
    dataDirectory := ← setting? node "data_dir" 0 textOf? standard.dataDirectory
    listenAddress := ← setting? node "listen_addr" 1 textOf? standard.listenAddress
    backend := ← setting? storage "backend" 0 textOf? standard.backend
    keyFile := ← setting? signer "key_path" 0 textOf? standard.keyFile
    defaultSpan := ← setting? api "default_range_span" 0 wordOf? standard.defaultSpan
    maxSpan := ← setting? api "max_range_span" 1 wordOf? standard.maxSpan
    requestTimeout := ← setting? api "request_timeout_ms" 2 wordOf? standard.requestTimeout
    maxBodyLength := ← setting? api "max_body_bytes" 3 wordOf? standard.maxBodyLength
    logLevel := ← setting? log "level" 0 textOf? standard.logLevel }

inductive LoadError where
  | file (fault : FileFault)
  | document
  deriving DecidableEq, Repr

def LoadError.message : LoadError → String
  | .file fault => fault.message
  | .document => "TOML parse error"

def ofBytes (standard : Config) (content : Bytes) : Except LoadError Config :=
  match Text.ofUtf8? content with
  | none => .error (.file .notText)
  | some text =>
    match (Toml.read? text).bind fun document => ofDocument? document standard with
    | some config => .ok config
    | none => .error .document

def load {m : Type → Type} [Monad m] [FileSystem m] (standard : Config) (path : Option String) :
    ExceptT LoadError m Config := do
  match path with
  | none => return standard
  | some path =>
    let content ← FileSystem.attempt .file (FileSystem.read (m := m) (.ofText path))
    ofBytes standard content

/-! ### What the settings mean -/

def isInMemory (config : Config) : Bool := config.backend = "memory"

def logDirectory (config : Config) : String := FilePath.join config.dataDirectory "log"

def keyPath (config : Config) : String := FilePath.join config.dataDirectory config.keyFile

def service (config : Config) : Http.Service :=
  ⟨⟨config.defaultSpan, config.maxSpan⟩, config.requestTimeout.toNat, config.maxBodyLength.toNat⟩

end Config

end VerifiableLog.Daemon
