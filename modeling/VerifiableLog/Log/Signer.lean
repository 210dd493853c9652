import VerifiableLog.File.System
import VerifiableLog.Record
import VerifiableLog.Signature.Ed25519

/-!
Signers of tree heads, and the check that anyone holding the public key can make. The secret key of
the stock signer is a file of thirty-two bytes.
-/

namespace VerifiableLog

inductive SignerError where
  | keyLength (path : String) (found : Nat)
  | unavailable (reason : String)
  | badSignature
  | keyFile (fault : FileFault)
  deriving DecidableEq, Repr

def SignerError.message : SignerError → String
  | .keyLength path found =>
    s!"invalid key: {path} must be exactly 32 bytes, found {found}"
  | .unavailable reason => s!"signing failed: {reason}"
  | .badSignature => "signature verification failed"
  | .keyFile fault => s!"io error: {fault.message}"

structure Signer where
  sign : TreeHead → Except SignerError Bytes
  publicKey : Bytes
  algorithm : String

namespace Signer

def ed25519 (key : Signature.SecretKey) : Signer where
  sign head := .ok (key.sign head.signedMessage)
  publicKey := key.publicKey
  algorithm := "ed25519"

def withoutKey (signer : Signer) : Signer :=
  { signer with sign := fun _ => .error (.unavailable "signing key unavailable") }

end Signer

def SignedTreeHead.verify (signed : SignedTreeHead) (key : Signature.PublicKey) :
    Except SignerError Unit :=
  if key.verify signed.head.signedMessage signed.signature then .ok () else .error .badSignature

/-- The key in the file at `path`. If there is nothing, `fresh` is written there and is the key. -/
def Signer.loadKey {m : Type → Type} [Monad m] [FileSystem m] (path : String)
    (fresh : Signature.SecretKey) : ExceptT SignerError m Signature.SecretKey := do
  let file := FilePath.ofText path
  if ← FileSystem.isPresent (m := m) file then
    let content ← FileSystem.attempt .keyFile (FileSystem.read (m := m) file)
    if content.length = 32 then return ⟨content⟩ else throw (.keyLength path content.length)
  else
    match file.parent? with
    | some directory => FileSystem.attempt .keyFile (FileSystem.makeDirectories (m := m) directory)
    | none => pure ()
    FileSystem.attempt .keyFile (FileSystem.write (m := m) file fresh.seed)
    return fresh

end VerifiableLog
