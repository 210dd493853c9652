import VerifiableLog.Bytes

/-!
SHA-256 on byte strings. The message is padded to whole 64-byte blocks, each block is spread into 64
schedule words, and the rounds mix them into eight working words.
-/

namespace VerifiableLog.Sha256

structure Working where
  a : UInt32
  b : UInt32
  c : UInt32
  d : UInt32
  e : UInt32
  f : UInt32
  g : UInt32
  h : UInt32

def initial : Working :=
  ⟨0x6a09e667, 0xbb67ae85, 0x3c6ef372, 0xa54ff53a, 0x510e527f, 0x9b05688c, 0x1f83d9ab, 0x5be0cd19⟩

def roundConstants : List UInt32 := [
  0x428a2f98, 0x71374491, 0xb5c0fbcf, 0xe9b5dba5, 0x3956c25b, 0x59f111f1, 0x923f82a4, 0xab1c5ed5,
  0xd807aa98, 0x12835b01, 0x243185be, 0x550c7dc3, 0x72be5d74, 0x80deb1fe, 0x9bdc06a7, 0xc19bf174,
  0xe49b69c1, 0xefbe4786, 0x0fc19dc6, 0x240ca1cc, 0x2de92c6f, 0x4a7484aa, 0x5cb0a9dc, 0x76f988da,
  0x983e5152, 0xa831c66d, 0xb00327c8, 0xbf597fc7, 0xc6e00bf3, 0xd5a79147, 0x06ca6351, 0x14292967,
  0x27b70a85, 0x2e1b2138, 0x4d2c6dfc, 0x53380d13, 0x650a7354, 0x766a0abb, 0x81c2c92e, 0x92722c85,
  0xa2bfe8a1, 0xa81a664b, 0xc24b8b70, 0xc76c51a3, 0xd192e819, 0xd6990624, 0xf40e3585, 0x106aa070,
  0x19a4c116, 0x1e376c08, 0x2748774c, 0x34b0bcb5, 0x391c0cb3, 0x4ed8aa4a, 0x5b9cca4f, 0x682e6ff3,
  0x748f82ee, 0x78a5636f, 0x84c87814, 0x8cc70208, 0x90befffa, 0xa4506ceb, 0xbef9a3f7, 0xc67178f2]

def rotateRight (word amount : UInt32) : UInt32 := (word >>> amount) ||| (word <<< (32 - amount))

def padding (length : Nat) : Bytes :=
  0x80 :: List.replicate ((119 - length % 64) % 64) 0 ++ Bytes.bigEndian 8 (length * 8)

def words : Bytes → List UInt32
  | a :: b :: c :: d :: rest =>
    ((a.toUInt32 <<< 24) ||| (b.toUInt32 <<< 16) ||| (c.toUInt32 <<< 8) ||| d.toUInt32) ::
      words rest
  | _ => []

def nextScheduleWord (schedule : Array UInt32) : UInt32 :=
  let back (distance : Nat) := schedule.getD (schedule.size - distance) 0
  let early := back 15
  let late := back 2
  back 16 + (rotateRight early 7 ^^^ rotateRight early 18 ^^^ (early >>> 3)) +
    back 7 + (rotateRight late 17 ^^^ rotateRight late 19 ^^^ (late >>> 10))

def schedule (block : List UInt32) : Array UInt32 :=
  (List.range 48).foldl (fun words _ => words.push (nextScheduleWord words)) block.toArray

def mixRound (w : Working) (constant word : UInt32) : Working :=
  let choice := (w.e &&& w.f) ^^^ (~~~w.e &&& w.g)
  let majority := (w.a &&& w.b) ^^^ (w.a &&& w.c) ^^^ (w.b &&& w.c)
  let first := w.h + (rotateRight w.e 6 ^^^ rotateRight w.e 11 ^^^ rotateRight w.e 25) +
    choice + constant + word
  let second := (rotateRight w.a 2 ^^^ rotateRight w.a 13 ^^^ rotateRight w.a 22) + majority
  ⟨first + second, w.a, w.b, w.c, w.d + first, w.e, w.f, w.g⟩

def compress (w : Working) (block : Bytes) : Working :=
  let mixed := (roundConstants.zip (schedule (words block)).toList).foldl
    (fun state step => mixRound state step.1 step.2) w
  ⟨w.a + mixed.a, w.b + mixed.b, w.c + mixed.c, w.d + mixed.d,
    w.e + mixed.e, w.f + mixed.f, w.g + mixed.g, w.h + mixed.h⟩

def absorb : Nat → Working → Bytes → Working
  | 0, state, _ => state
  | blocks + 1, state, bytes => absorb blocks (compress state (bytes.take 64)) (bytes.drop 64)

def output (w : Working) : Bytes :=
  [w.a, w.b, w.c, w.d, w.e, w.f, w.g, w.h].flatMap fun word => Bytes.bigEndian 4 word.toNat

def hash (message : Bytes) : Bytes :=
  let padded := message ++ padding message.length
  output (absorb (padded.length / 64) initial padded)

theorem length_hash (message : Bytes) : (hash message).length = 32 := by
  simp [hash, output]

end VerifiableLog.Sha256
