import VerifiableLog.Bytes

/-!
SHA-512 on byte strings: the 64-bit relative of SHA-256, with 128-byte blocks and 80 rounds.
-/

namespace VerifiableLog.Sha512

structure Working where
  a : UInt64
  b : UInt64
  c : UInt64
  d : UInt64
  e : UInt64
  f : UInt64
  g : UInt64
  h : UInt64

def initial : Working :=
  ⟨0x6a09e667f3bcc908, 0xbb67ae8584caa73b, 0x3c6ef372fe94f82b, 0xa54ff53a5f1d36f1,
    0x510e527fade682d1, 0x9b05688c2b3e6c1f, 0x1f83d9abfb41bd6b, 0x5be0cd19137e2179⟩

def roundConstants : List UInt64 := [
  0x428a2f98d728ae22, 0x7137449123ef65cd, 0xb5c0fbcfec4d3b2f, 0xe9b5dba58189dbbc,
  0x3956c25bf348b538, 0x59f111f1b605d019, 0x923f82a4af194f9b, 0xab1c5ed5da6d8118,
  0xd807aa98a3030242, 0x12835b0145706fbe, 0x243185be4ee4b28c, 0x550c7dc3d5ffb4e2,
  0x72be5d74f27b896f, 0x80deb1fe3b1696b1, 0x9bdc06a725c71235, 0xc19bf174cf692694,
  0xe49b69c19ef14ad2, 0xefbe4786384f25e3, 0x0fc19dc68b8cd5b5, 0x240ca1cc77ac9c65,
  0x2de92c6f592b0275, 0x4a7484aa6ea6e483, 0x5cb0a9dcbd41fbd4, 0x76f988da831153b5,
  0x983e5152ee66dfab, 0xa831c66d2db43210, 0xb00327c898fb213f, 0xbf597fc7beef0ee4,
  0xc6e00bf33da88fc2, 0xd5a79147930aa725, 0x06ca6351e003826f, 0x142929670a0e6e70,
  0x27b70a8546d22ffc, 0x2e1b21385c26c926, 0x4d2c6dfc5ac42aed, 0x53380d139d95b3df,
  0x650a73548baf63de, 0x766a0abb3c77b2a8, 0x81c2c92e47edaee6, 0x92722c851482353b,
  0xa2bfe8a14cf10364, 0xa81a664bbc423001, 0xc24b8b70d0f89791, 0xc76c51a30654be30,
  0xd192e819d6ef5218, 0xd69906245565a910, 0xf40e35855771202a, 0x106aa07032bbd1b8,
  0x19a4c116b8d2d0c8, 0x1e376c085141ab53, 0x2748774cdf8eeb99, 0x34b0bcb5e19b48a8,
  0x391c0cb3c5c95a63, 0x4ed8aa4ae3418acb, 0x5b9cca4f7763e373, 0x682e6ff3d6b2b8a3,
  0x748f82ee5defb2fc, 0x78a5636f43172f60, 0x84c87814a1f0ab72, 0x8cc702081a6439ec,
  0x90befffa23631e28, 0xa4506cebde82bde9, 0xbef9a3f7b2c67915, 0xc67178f2e372532b,
  0xca273eceea26619c, 0xd186b8c721c0c207, 0xeada7dd6cde0eb1e, 0xf57d4f7fee6ed178,
  0x06f067aa72176fba, 0x0a637dc5a2c898a6, 0x113f9804bef90dae, 0x1b710b35131c471b,
  0x28db77f523047d84, 0x32caab7b40c72493, 0x3c9ebe0a15c9bebc, 0x431d67c49c100d4c,
  0x4cc5d4becb3e42b6, 0x597f299cfc657e2a, 0x5fcb6fab3ad6faec, 0x6c44198c4a475817]

def rotateRight (word amount : UInt64) : UInt64 := (word >>> amount) ||| (word <<< (64 - amount))

def padding (length : Nat) : Bytes :=
  0x80 :: List.replicate ((239 - length % 128) % 128) 0 ++ Bytes.bigEndian 16 (length * 8)

def words : Nat → Bytes → List UInt64
  | 0, _ => []
  | count + 1, bytes =>
    UInt64.ofNat (Bytes.ofBigEndian (bytes.take 8)) :: words count (bytes.drop 8)

def nextScheduleWord (schedule : Array UInt64) : UInt64 :=
  let back (distance : Nat) := schedule.getD (schedule.size - distance) 0
  let early := back 15
  let late := back 2
  back 16 + (rotateRight early 1 ^^^ rotateRight early 8 ^^^ (early >>> 7)) +
    back 7 + (rotateRight late 19 ^^^ rotateRight late 61 ^^^ (late >>> 6))

def schedule (block : List UInt64) : Array UInt64 :=
  (List.range 64).foldl (fun words _ => words.push (nextScheduleWord words)) block.toArray

def mixRound (w : Working) (constant word : UInt64) : Working :=
  let choice := (w.e &&& w.f) ^^^ (~~~w.e &&& w.g)
  let majority := (w.a &&& w.b) ^^^ (w.a &&& w.c) ^^^ (w.b &&& w.c)
  let first := w.h + (rotateRight w.e 14 ^^^ rotateRight w.e 18 ^^^ rotateRight w.e 41) +
    choice + constant + word
  let second := (rotateRight w.a 28 ^^^ rotateRight w.a 34 ^^^ rotateRight w.a 39) + majority
  ⟨first + second, w.a, w.b, w.c, w.d + first, w.e, w.f, w.g⟩

def compress (w : Working) (block : Bytes) : Working :=
  let mixed := (roundConstants.zip (schedule (words 16 block)).toList).foldl
    (fun state step => mixRound state step.1 step.2) w
  ⟨w.a + mixed.a, w.b + mixed.b, w.c + mixed.c, w.d + mixed.d,
    w.e + mixed.e, w.f + mixed.f, w.g + mixed.g, w.h + mixed.h⟩

def absorb : Nat → Working → Bytes → Working
  | 0, state, _ => state
  | blocks + 1, state, bytes => absorb blocks (compress state (bytes.take 128)) (bytes.drop 128)

def output (w : Working) : Bytes :=
  [w.a, w.b, w.c, w.d, w.e, w.f, w.g, w.h].flatMap fun word => Bytes.bigEndian 8 word.toNat

def hash (message : Bytes) : Bytes :=
  let padded := message ++ padding message.length
  output (absorb (padded.length / 128) initial padded)

end VerifiableLog.Sha512
