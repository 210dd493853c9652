import Mathlib.Algebra.Group.Nat.Defs
import VerifiableLog.Merkle.Address

/-!
Bytes, and words written most significant byte first. Words are read back as they were, and byte by
byte they compare as their values do, so sorted keys list what they stand for in order. Every string
of eight bytes is that of a word, and every string of nine is the key of a node.
-/

namespace VerifiableLog

namespace Bytes

theorem forall_byte {holds : UInt8 → Prop} (each : ∀ value < 256, holds (UInt8.ofNat value))
    (byte : UInt8) : holds byte := by
  rw [← UInt8.ofNat_toNat (x := byte)]
  exact each byte.toNat byte.toNat_lt

theorem toNat_highByte (width value : Nat) :
    (UInt8.ofNat (value >>> (8 * width))).toNat = value / 256 ^ width % 256 := by
  rw [UInt8.toNat_ofNat', Nat.shiftRight_eq_div_pow, Nat.pow_mul]

theorem mod_pow_succ (width value : Nat) :
    value % 256 ^ (width + 1) = value / 256 ^ width % 256 * 256 ^ width + value % 256 ^ width := by
  rw [Nat.pow_succ, Nat.mod_mul, Nat.mul_comm, Nat.add_comm]

theorem foldl_bigEndian (width value high : Nat) :
    (bigEndian width value).foldl (fun value byte => value * 256 + byte.toNat) high =
      high * 256 ^ width + value % 256 ^ width := by
  induction width generalizing high with
  | zero => simp [bigEndian, Nat.mod_one]
  | succ width ih =>
      rw [bigEndian, List.foldl_cons, ih, toNat_highByte, mod_pow_succ, Nat.pow_succ',
        Nat.add_mul, Nat.mul_assoc, Nat.add_assoc]

theorem ofBigEndian_bigEndian (width value : Nat) :
    ofBigEndian (bigEndian width value) = value % 256 ^ width := by
  rw [ofBigEndian, foldl_bigEndian, Nat.zero_mul, Nat.zero_add]

theorem below_iff_lt (left right : Bytes) : left.below right = true ↔ left < right := by
  fun_induction below left right with
  | case1 left => simp
  | case2 right rest => simp
  | case3 left leftRest right rightRest ih =>
      rw [Bool.or_eq_true, Bool.and_eq_true, decide_eq_true_eq, beq_iff_eq, ih,
        List.cons_lt_cons_iff]

theorem below_bigEndian (width left right : Nat) :
    below (bigEndian width left) (bigEndian width right) = true ↔
      left % 256 ^ width < right % 256 ^ width := by
  induction width with
  | zero => simp [bigEndian, below, Nat.mod_one]
  | succ width ih =>
      have leftRest := Nat.mod_lt left (Nat.pow_pos (n := width) (show 0 < 256 by decide))
      have rightRest := Nat.mod_lt right (Nat.pow_pos (n := width) (show 0 < 256 by decide))
      rw [bigEndian, bigEndian, below, Bool.or_eq_true, Bool.and_eq_true, decide_eq_true_eq,
        beq_iff_eq, ih, UInt8.lt_iff_toNat_lt, ← UInt8.toNat_inj, toNat_highByte, toNat_highByte,
        mod_pow_succ, mod_pow_succ]
      generalize left / 256 ^ width % 256 = leftHigh
      generalize right / 256 ^ width % 256 = rightHigh
      rcases Nat.lt_trichotomy leftHigh rightHigh with lower | same | higher
      · have room := Nat.mul_le_mul_right (256 ^ width) lower
        rw [Nat.succ_mul] at room
        omega
      · subst same
        omega
      · have room := Nat.mul_le_mul_right (256 ^ width) higher
        rw [Nat.succ_mul] at room
        omega

theorem toNat_mod_pow (word : UInt64) : word.toNat % 256 ^ 8 = word.toNat :=
  Nat.mod_eq_of_lt word.toNat_lt

theorem toWord?_ofWord (word : UInt64) : toWord? (ofWord word) = some word := by
  rw [toWord?, if_pos (length_ofWord word), ofWord, ofBigEndian_bigEndian, toNat_mod_pow,
    UInt64.ofNat_toNat]

theorem ofWord_inj {left right : UInt64} : ofWord left = ofWord right ↔ left = right := by
  constructor
  · intro same
    have words := congrArg toWord? same
    rwa [toWord?_ofWord, toWord?_ofWord, Option.some_inj] at words
  · rintro rfl
    rfl

theorem below_ofWord {left right : UInt64} :
    (ofWord left).below (ofWord right) = true ↔ left < right := by
  rw [ofWord, ofWord, below_bigEndian, toNat_mod_pow, toNat_mod_pow, UInt64.lt_iff_toNat_lt]

/-! ### Every string of eight bytes is a word -/

theorem foldl_div_pow (bytes : Bytes) (high : Nat) :
    bytes.foldl (fun value byte => value * 256 + byte.toNat) high / 256 ^ bytes.length = high := by
  induction bytes generalizing high with
  | nil => simp
  | cons byte rest ih =>
      have small := byte.toNat_lt
      rw [List.foldl_cons, List.length_cons, Nat.pow_succ, ← Nat.div_div_eq_div_mul, ih]
      omega

theorem bigEndian_foldl (bytes : Bytes) (high : Nat) :
    bigEndian bytes.length (bytes.foldl (fun value byte => value * 256 + byte.toNat) high) =
      bytes := by
  induction bytes generalizing high with
  | nil => rfl
  | cons byte rest ih =>
      have small := byte.toNat_lt
      have first : UInt8.ofNat (rest.foldl (fun value byte => value * 256 + byte.toNat)
          (high * 256 + byte.toNat) >>> (8 * rest.length)) = byte := by
        rw [← UInt8.toNat_inj, toNat_highByte, foldl_div_pow]
        omega
      rw [List.length_cons, bigEndian, List.foldl_cons, ih, first]

theorem ofWord_of_toWord? {bytes : Bytes} {word : UInt64} (read : toWord? bytes = some word) :
    ofWord word = bytes := by
  rw [toWord?] at read
  split at read
  · rename_i eight
    obtain rfl := Option.some_inj.mp read
    have bound : ofBigEndian bytes < 2 ^ 64 := by
      have small := foldl_div_pow bytes 0
      rw [eight] at small
      exact (Nat.div_eq_zero_iff_lt (by decide)).mp small
    rw [ofWord, UInt64.toNat_ofNat_of_lt' bound, ← eight]
    exact bigEndian_foldl bytes 0
  · simp at read

theorem toWord?_eq_some_iff {bytes : Bytes} {word : UInt64} :
    toWord? bytes = some word ↔ ofWord word = bytes := by
  constructor
  · exact ofWord_of_toWord?
  · rintro rfl
    exact toWord?_ofWord word

end Bytes

namespace Merkle.NodeAddress

theorem ofKey?_toKey (address : NodeAddress) : ofKey? address.toKey = some address := by
  rw [toKey, ofKey?, Bytes.toWord?_ofWord]
  rfl

theorem toKey_inj {left right : NodeAddress} : left.toKey = right.toKey ↔ left = right := by
  constructor
  · intro same
    have addresses := congrArg ofKey? same
    rwa [ofKey?_toKey, ofKey?_toKey, Option.some_inj] at addresses
  · rintro rfl
    rfl

theorem ofKey?_eq_some_iff {key : Bytes} {address : NodeAddress} :
    ofKey? key = some address ↔ address.toKey = key := by
  constructor
  · intro read
    cases key with
    | nil => simp [ofKey?] at read
    | cons level rest =>
        obtain ⟨index, found, rfl⟩ := Option.map_eq_some_iff.mp read
        rw [toKey, Bytes.toWord?_eq_some_iff.mp found]
  · rintro rfl
    exact ofKey?_toKey address

theorem isSome_ofKey?_iff (key : Bytes) : (ofKey? key).isSome = true ↔ key.length = 9 := by
  cases key with
  | nil => simp [ofKey?]
  | cons level rest => simp [ofKey?, Bytes.toWord?]

theorem toKey_lt_iff {left right : NodeAddress} :
    left.toKey < right.toKey ↔
      left.level < right.level ∨ (left.level = right.level ∧ left.index < right.index) := by
  rw [toKey, toKey, List.cons_lt_cons_iff, ← Bytes.below_iff_lt, Bytes.below_ofWord]

theorem le_eq_false_iff {left right : NodeAddress} :
    right.le left = false ↔
      left.level < right.level ∨ (left.level = right.level ∧ left.index < right.index) := by
  simp only [le, Bool.or_eq_false_iff, Bool.and_eq_false_iff, decide_eq_false_iff_not,
    beq_eq_false_iff_ne, ne_eq, UInt8.lt_iff_toNat_lt, ← UInt8.toNat_inj, UInt64.lt_iff_toNat_lt,
    UInt64.le_iff_toNat_le]
  omega

/-- Keys compare as the addresses do, by level and then by index, and that is the order in which a
set of nodes is sorted. A byte string is read as the address whose key it is, and the keys are the
strings of nine bytes. -/
theorem toKey_exact :
    (∀ left right : NodeAddress,
      (left.toKey < right.toKey ↔
        left.level < right.level ∨ (left.level = right.level ∧ left.index < right.index)) ∧
      (left.toKey < right.toKey ↔ right.le left = false)) ∧
      ∀ key : Bytes, (∀ address, ofKey? key = some address ↔ address.toKey = key) ∧
        ((∃ address, ofKey? key = some address) ↔ key.length = 9) := by
  constructor
  · intro left right
    exact ⟨toKey_lt_iff, toKey_lt_iff.trans le_eq_false_iff.symm⟩
  · intro key
    refine ⟨fun address => ofKey?_eq_some_iff, ?_⟩
    rw [← isSome_ofKey?_iff, Option.isSome_iff_exists]

end Merkle.NodeAddress

end VerifiableLog
