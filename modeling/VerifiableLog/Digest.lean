import VerifiableLog.Hash.Sha256
import VerifiableLog.Hex

/-!
Digests: the 32-byte values that identify leaves, interior nodes and roots.
-/

namespace VerifiableLog

structure Digest where
  bytes : Bytes
  length_bytes : bytes.length = 32
  deriving DecidableEq, Hashable

namespace Digest

inductive ParseError where
  | hex (cause : Hex.Error)
  | length (found : Nat)
  deriving DecidableEq, Repr

def ParseError.message : ParseError → String
  | .hex cause => s!"invalid hex: {cause.message}"
  | .length found => s!"expected 32 bytes, got {found}"

def ofMessage (message : Bytes) : Digest := ⟨Sha256.hash message, Sha256.length_hash message⟩

def ofBytes (bytes : Bytes) : Except ParseError Digest :=
  if h : bytes.length = 32 then .ok ⟨bytes, h⟩ else .error (.length bytes.length)

/-- Bad digits are reported before a wrong length. -/
def parse (text : Bytes) : Except ParseError Digest :=
  match Hex.decode text with
  | .error cause => .error (.hex cause)
  | .ok bytes => ofBytes bytes

def toHex (digest : Digest) : String := Hex.toText digest.bytes

end Digest

end VerifiableLog
