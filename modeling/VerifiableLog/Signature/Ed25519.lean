import VerifiableLog.Hash.Sha512
import VerifiableLog.Signature.Curve

/-!
Ed25519 signatures. Signing is deterministic. Checking is strict: the scalar of a signature has to
be reduced, and neither the key nor the first half of the signature may be of small order.
-/

namespace VerifiableLog.Signature

def hashToScalar (message : Bytes) : Nat :=
  Bytes.ofLittleEndian (Sha512.hash message) % groupOrder

structure SecretKey where
  seed : Bytes
  deriving DecidableEq

namespace SecretKey

def scalar (key : SecretKey) : Nat :=
  let value := Bytes.ofLittleEndian ((Sha512.hash key.seed).take 32)
  (1 <<< 254) + value % (1 <<< 254) / 8 * 8

def nonceKey (key : SecretKey) : Bytes := (Sha512.hash key.seed).drop 32

def publicKey (key : SecretKey) : Bytes := (Point.times key.scalar Point.base).encode

def sign (key : SecretKey) (message : Bytes) : Bytes :=
  let nonce := hashToScalar (key.nonceKey ++ message)
  let commitment := (Point.times nonce Point.base).encode
  let challenge := hashToScalar (commitment ++ key.publicKey ++ message)
  commitment ++ Bytes.littleEndian 32 ((nonce + challenge * key.scalar) % groupOrder)

end SecretKey

/-- A public key: the bytes it came as, which enter the challenge, and their point. -/
structure PublicKey where
  bytes : Bytes
  point : Point

namespace PublicKey

def ofBytes? (bytes : Bytes) : Option PublicKey :=
  if bytes.length = 32 then (Point.decode? bytes).map (PublicKey.mk bytes) else none

def verify (key : PublicKey) (message signature : Bytes) : Bool :=
  let commitment := signature.take 32
  let response := Bytes.ofLittleEndian (signature.drop 32)
  if signature.length ≠ 64 || response ≥ groupOrder then false
  else
    match Point.decode? commitment with
    | none => false
    | some point =>
      if point.hasSmallOrder || key.point.hasSmallOrder then false
      else
        let challenge := hashToScalar (commitment ++ key.bytes ++ message)
        let expected := (Point.times response Point.base).plus
          (Point.times challenge key.point.minus)
        expected.encode == commitment

end PublicKey

end VerifiableLog.Signature
