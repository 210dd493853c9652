import VerifiableLog.Daemon.CommandLine
import VerifiableLog.Daemon.Config
import VerifiableLog.Log.Error

/-!
What a run of the daemon says when it does not do what it was asked to: a failure with its chain of
causes, a complaint about the command line, or help.
-/

namespace VerifiableLog.Daemon

structure Outcome where
  exitCode : Nat
  output : String
  errors : String
  deriving DecidableEq, Repr

def Outcome.success (output : String) : Outcome := ⟨0, output, ""⟩

structure Failure where
  message : String
  causes : List String
  deriving DecidableEq, Repr

namespace Failure

def numberCauses (place : Nat) : List String → String
  | [] => ""
  | cause :: causes =>
    let number := toString place
    String.ofList (List.replicate (5 - number.length) ' ') ++ s!"{number}: {cause}\n" ++
      numberCauses (place + 1) causes

def report (failure : Failure) : String :=
  let causes :=
    match failure.causes with
    | [] => ""
    | [cause] => s!"\nCaused by:\n    {cause}\n"
    | causes => "\nCaused by:\n" ++ numberCauses 0 causes
  s!"Error: {failure.message}\n" ++ causes

def outcome (output : String) (failure : Failure) : Outcome := ⟨1, output, failure.report⟩

def storeCauses (cause : StoreError) : List String :=
  match cause with
  | .encoding fault => [cause.message, fault.message]
  | _ => [cause.message]

def logCauses (cause : LogError) : List String :=
  match cause with
  | .storage fault => cause.message :: storeCauses fault
  | _ => [cause.message]

def signerCauses (cause : SignerError) : List String :=
  match cause with
  | .keyFile fault => [cause.message, fault.message]
  | _ => [cause.message]

def ofStore (cause : StoreError) : Failure := ⟨cause.message, (storeCauses cause).drop 1⟩

def ofConfig (cause : Config.LoadError) : Failure := ⟨"failed to load config", [cause.message]⟩

end Failure

/-! ### Help -/

def HelpTopic.text (listenVariable : Option String) : HelpTopic → String
  | .daemon =>
    "Vellum transparency log daemon\n\n" ++
    "Usage: vellumd [OPTIONS] <COMMAND>\n\n" ++
    "Commands:\n" ++
    "  start   Open the log and serve the HTTP API\n" ++
    "  status  Show size, root hash and latest tree head of the on-disk log\n" ++
    "  keygen  Print the tree-head public key, creating the key file if needed\n" ++
    "  help    Print this message or the help of the given subcommand(s)\n\n" ++
    "Options:\n" ++
    "  -c, --config <CONFIG>  Path to TOML config file\n" ++
    "  -h, --help             Print help\n" ++
    "  -V, --version          Print version\n"
  | .command .start =>
    "Open the log and serve the HTTP API\n\n" ++
    "Usage: vellumd start [OPTIONS]\n\n" ++
    "Options:\n" ++
    "  -c, --config <CONFIG>      Path to TOML config file\n" ++
    "  -d, --data-dir <DATA_DIR>  " ++
    "Override data directory (useful for running multiple instances)\n" ++
    "  -l, --listen <LISTEN>      " ++
    "Override HTTP listen address (e.g. \"127.0.0.1:6962\") " ++
    "[env: VELLUM_LISTEN=" ++ listenVariable.getD "" ++ "]\n" ++
    "  -m, --memory               " ++
    "Run fully in-memory (no disk persistence, throwaway signing key)\n" ++
    "  -h, --help                 Print help\n"
  | .command .status =>
    "Show size, root hash and latest tree head of the on-disk log\n\n" ++
    "Usage: vellumd status [OPTIONS]\n\n" ++
    "Options:\n" ++
    "  -c, --config <CONFIG>  Path to TOML config file\n" ++
    "  -h, --help             Print help\n"
  | .command .keygen =>
    "Print the tree-head public key, creating the key file if needed\n\n" ++
    "Usage: vellumd keygen [OPTIONS]\n\n" ++
    "Options:\n" ++
    "  -c, --config <CONFIG>  Path to TOML config file\n" ++
    "  -h, --help             Print help\n"
  | .help =>
    "Print this message or the help of the given subcommand(s)\n\n" ++
    "Usage: vellumd help [COMMAND]...\n\n" ++
    "Arguments:\n" ++
    "  [COMMAND]...  Print help for the subcommand(s)\n"

def Halt.outcome (listenVariable : Option String) : Halt → Outcome
  | .usage fault =>
    ⟨2, "", s!"error: {fault.message}\n\nFor more information, try '--help'.\n"⟩
  | .help topic => .success (topic.text listenVariable)
  | .version => .success "vellumd 0.1.0\n"

end VerifiableLog.Daemon
