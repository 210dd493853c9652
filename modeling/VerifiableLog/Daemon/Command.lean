import VerifiableLog.Daemon.Report
import VerifiableLog.Store.Backend
import VerifiableLog.Store.Directory

/-!
The daemon's commands, and a run of the daemon on the words of its command line.
-/

namespace VerifiableLog.Daemon

/-- What the settings become through a command and the listen address in the environment, which
yields to the command's own. -/
def Command.adjust (command : Command) (listenVariable : Option String) (config : Config) :
    Config :=
  match command with
  | .start dataDirectory listen memory =>
    { config with
      dataDirectory := dataDirectory.getD config.dataDirectory
      listenAddress := (listen.or listenVariable).getD config.listenAddress
      backend := if memory then "memory" else config.backend }
  | .status => config
  | .keygen => config

/-! ### Listen addresses -/

inductive AddressFault where
  | noPort
  | badPort
  deriving DecidableEq, Repr

def AddressFault.message : AddressFault → String
  | .noPort => "invalid socket address"
  | .badPort => "invalid port value"

def isPort (text : List Char) : Bool :=
  let digits :=
    match text with
    | '+' :: digits => digits
    | digits => digits
  !digits.isEmpty && digits.all Char.isDigit &&
    digits.foldl (fun value digit => value * 10 + (digit.toNat - '0'.toNat)) 0 < 65536

def checkAddress (address : String) : Except AddressFault Unit :=
  let reversed := address.toList.reverse
  if !reversed.contains ':' then .error .noPort
  else if isPort (reversed.takeWhile (· ≠ ':')).reverse then .ok ()
  else .error .badPort

/-! ### Commands -/

variable {m : Type → Type} [Monad m] [FileSystem m]

def loadKey (config : Config) (fresh : Signature.SecretKey) :
    ExceptT Failure m Signature.SecretKey :=
  (Signer.loadKey config.keyPath fresh).adapt fun cause =>
    ⟨"failed to load signing key", Failure.signerCauses cause⟩

def openLog (store : Backend) (key : Signature.SecretKey) (now : Moment) :
    Except Failure (Log Backend) :=
  (Log.openStore store (.ed25519 key) now).mapError fun cause =>
    ⟨"failed to open log", Failure.logCauses cause⟩

def prepare (config : Config) (fresh : Signature.SecretKey) (now : Moment) :
    ExceptT Failure m (Log Backend) := do
  if config.isInMemory then openLog (.memory .empty) fresh now
  else
    FileSystem.attempt (fun fault => ⟨"failed to create data directory", [fault.message]⟩)
      (FileSystem.makeDirectories (m := m) (.ofText config.dataDirectory))
    let key ← loadKey config fresh
    let unopened (fault : DiskStore.DirectoryFault) : Failure :=
      ⟨"failed to open log", [fault.message]⟩
    let store ← (DiskStore.load config.logDirectory).adapt unopened
    let log ← openLog (.disk store) key now
    (DiskStore.save config.logDirectory (log.store.disk?.getD store)).adapt unopened
    return log

/-- What becomes of a log that is ready where no connection can be accepted. -/
def noListener : Failure := ⟨"HTTP server failed", ["connections cannot be accepted here"]⟩

def start (config : Config) (fresh : Signature.SecretKey) (now : Moment) :
    ExceptT Failure m (Log Backend) := do
  let log ← prepare config fresh now
  match checkAddress config.listenAddress with
  | .error fault => throw ⟨"HTTP server failed", [fault.message]⟩
  | .ok () => return log

def describeHead (size : UInt64) : Option SignedTreeHead → String
  | none => "No signed tree head yet.\n"
  | some head =>
    let lag :=
      if head.treeSize < size then s!"(tree head lags by {size - head.treeSize} leaves)\n" else ""
    "Signed tree head:\n" ++ (Json.writeObjectLines head.members).toAscii ++ "\n" ++ lag

def statusOf (store : DiskStore) : Outcome :=
  let read : Except Failure (UInt64 × Digest) := do
    let size ← (LeafStore.size store).mapError .ofStore
    let nodes ← (LeafStore.nodes store).mapError .ofStore
    let root ← (Merkle.Accumulator.ofNodes nodes >>= Merkle.Accumulator.currentRoot).mapError
      fun cause => ⟨"corrupt node set", [cause.message]⟩
    return (size, root)
  match read with
  | .error failure => failure.outcome ""
  | .ok (size, root) =>
    let output := s!"Tree size: {size}\nRoot hash: {root.toHex}\n"
    match LeafStore.treeHead? store with
    | .error cause => (Failure.ofStore cause).outcome output
    | .ok head => .success (output ++ describeHead size head)

def status (config : Config) : ExceptT Failure m Outcome := do
  let directory := config.logDirectory
  if ← FileSystem.isPresent (m := m) (.ofText directory) then
    let store ← (DiskStore.load directory).adapt fun fault =>
      ⟨s!"cannot open log at {directory}. Is the daemon running? ({fault.message})", []⟩
    return statusOf store
  else throw ⟨s!"no log at {directory}. Has the daemon been started?", []⟩

def keygen (config : Config) (fresh : Signature.SecretKey) : ExceptT Failure m Outcome := do
  let signer := Signer.ed25519 (← loadKey config fresh)
  return .success (s!"Key file:   {config.keyPath}\n" ++ s!"Algorithm:  {signer.algorithm}\n" ++
    s!"Public key: {Hex.toText signer.publicKey}\n")

/-! ### Runs -/

structure Circumstances where
  home : Option String
  listenVariable : Option String
  now : Moment
  fresh : Signature.SecretKey

def Invocation.run (invocation : Invocation) (around : Circumstances) :
    ExceptT Failure m Outcome := do
  let loaded ← (Config.load (.standard around.home) invocation.configPath).adapt .ofConfig
  let config := invocation.command.adjust around.listenVariable loaded
  match invocation.command with
  | .start .. =>
    let _ ← start config around.fresh around.now
    throw noListener
  | .status => status config
  | .keygen => keygen config around.fresh

def run (words : List String) (around : Circumstances) : m Outcome := do
  match Invocation.ofWords words with
  | .error halt => return halt.outcome around.listenVariable
  | .ok invocation =>
    match ← (invocation.run around).run with
    | .error failure => return failure.outcome ""
    | .ok outcome => return outcome

end VerifiableLog.Daemon
