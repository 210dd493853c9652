import Std.Time.DateTime.Timestamp
import VerifiableLog.Daemon.Command

/-!
The daemon as a program, on the files and the clock of the machine.
-/

namespace VerifiableLog.Program

/-- Whether the system gave this number for what went wrong, with either sign. -/
def isCode (code : UInt32) (number : UInt32) : Bool := code = number || code = 0 - number

def faultOf (cause : IO.Error) : FileFault :=
  match cause with
  | .noFileOrDirectory .. => .missing
  | .alreadyExists .. => .taken
  | .inappropriateType _ code _ => if isCode code 21 then .directory else .notDirectory
  | .invalidArgument _ code _ =>
    if isCode code 36 then .nameTooLong
    else if isCode code 22 then .badName
    else .other cause.toString
  | _ => .other cause.toString

def attempt {α : Type} (action : IO α) : IO (Except FileFault α) := do
  try return .ok (← action)
  catch cause => return .error (faultOf cause)

instance : FileSystem IO where
  isPresent path := return (← attempt (IO.FS.realPath path.toText)).isOk
  isDirectory path := do
    match ← attempt (IO.FS.realPath path.toText) with
    | .ok real => real.isDir
    | .error _ => return false
  read path := attempt do return (← IO.FS.readBinFile path.toText).toList
  write path content := attempt (IO.FS.writeBinFile path.toText (ByteArray.mk content.toArray))
  makeDirectory path := attempt (IO.FS.createDir path.toText)

def readCircumstances : IO Daemon.Circumstances := do
  let elapsed ← IO.monoMsNow
  let timestamp ← Std.Time.Timestamp.now
  return {
    home := ← IO.getEnv "HOME"
    listenVariable := ← IO.getEnv "VELLUM_LISTEN"
    now := ⟨elapsed, UInt64.ofNat timestamp.toMillisecondsSinceUnixEpoch.toInt.toNat⟩
    fresh := ⟨(← IO.getRandomBytes 32).toList⟩ }

end VerifiableLog.Program

def main (words : List String) : IO UInt32 := do
  let outcome ← VerifiableLog.Daemon.run words (← VerifiableLog.Program.readCircumstances)
  IO.print outcome.output
  IO.eprint outcome.errors
  return UInt32.ofNat outcome.exitCode
