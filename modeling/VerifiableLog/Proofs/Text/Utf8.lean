import VerifiableLog.Text.Utf8

/-!
Texts as byte strings. The bytes of every text are UTF-8: the shortest form of each of its
characters, one after the other.
-/

namespace VerifiableLog

theorem toList_loop (bytes : ByteArray) (index : Nat) (before : List UInt8) :
    ByteArray.toList.loop bytes index before = before.reverse ++ bytes.data.toList.drop index := by
  induction index, before using ByteArray.toList.loop.induct bytes with
  | case1 index before inside ih =>
      have next : bytes.data.toList.drop index =
          bytes.get! index :: bytes.data.toList.drop (index + 1) := by
        rw [List.drop_eq_getElem_cons (by simpa using inside)]
        simp [ByteArray.get!, getElem!_pos, inside]
      rw [ByteArray.toList.loop, if_pos inside, ih, next]
      simp
  | case2 index before outside =>
      have none : bytes.data.toList.drop index = [] :=
        List.drop_of_length_le (by simpa using outside)
      rw [ByteArray.toList.loop, if_neg outside, none, List.append_nil]

theorem Bytes.ofText_eq_flatMap (text : String) :
    Bytes.ofText text = text.toList.flatMap String.utf8EncodeChar := by
  rw [Bytes.ofText, String.toUTF8, ← String.utf8Encode_toList, ByteArray.toList, toList_loop]
  simp [List.utf8Encode]

namespace Text

variable {first second third fourth : UInt8}

theorem isUtf8_one (small : first < 0x80) (rest : Bytes) :
    isUtf8 (first :: rest) = isUtf8 rest := by
  rw [isUtf8.eq_def]
  simp [small]

theorem isUtf8_two (starts : 0xc2 ≤ first ∧ first ≤ 0xdf) (continues : isContinuation second = true)
    (rest : Bytes) : isUtf8 (first :: second :: rest) = isUtf8 rest := by
  have notOne : ¬ first < 0x80 := UInt8.not_lt.mpr (UInt8.le_trans (by decide) starts.1)
  rw [isUtf8.eq_def]
  simp [notOne, starts, continues]

theorem isUtf8_three (starts : 0xe0 ≤ first ∧ first ≤ 0xef)
    (follows : mayFollow first second = true) (continues : isContinuation third = true)
    (rest : Bytes) :
    isUtf8 (first :: second :: third :: rest) = isUtf8 rest := by
  have notOne : ¬ first < 0x80 := UInt8.not_lt.mpr (UInt8.le_trans (by decide) starts.1)
  have notTwo : ¬ first ≤ 0xdf := UInt8.not_le.mpr (UInt8.lt_of_lt_of_le (by decide) starts.1)
  rw [isUtf8.eq_def]
  simp [notOne, notTwo, starts, follows, continues]

theorem isUtf8_four (starts : 0xf0 ≤ first ∧ first ≤ 0xf4) (follows : mayFollow first second = true)
    (continues : isContinuation third = true ∧ isContinuation fourth = true) (rest : Bytes) :
    isUtf8 (first :: second :: third :: fourth :: rest) = isUtf8 rest := by
  have notOne : ¬ first < 0x80 := UInt8.not_lt.mpr (UInt8.le_trans (by decide) starts.1)
  have notTwo : ¬ first ≤ 0xdf := UInt8.not_le.mpr (UInt8.lt_of_lt_of_le (by decide) starts.1)
  have notThree : ¬ first ≤ 0xef := UInt8.not_le.mpr (UInt8.lt_of_lt_of_le (by decide) starts.1)
  rw [isUtf8.eq_def]
  simp [notOne, notTwo, notThree, starts, follows, continues]

theorem isContinuation_ofNat (value : Nat) :
    isContinuation (UInt8.ofNat (value % 64 + 128)) = true := by
  have byte := UInt8.toNat_ofNat_of_lt' (show value % 64 + 128 < 256 by omega)
  simp only [isContinuation, UInt8.le_iff_toNat_le, byte, UInt8.reduceToNat, Bool.and_eq_true,
    decide_eq_true_eq]
  omega

theorem mayFollow_of_toNat {high low : Nat}
    (firstEq : first.toNat = high) (secondEq : second.toNat = low) (tail : 0x80 ≤ low ∧ low ≤ 0xbf)
    (notShorter : (high = 0xe0 → 0xa0 ≤ low) ∧ (high = 0xf0 → 0x90 ≤ low))
    (notBeyond : (high = 0xed → low ≤ 0x9f) ∧ (high = 0xf4 → low ≤ 0x8f)) :
    mayFollow first second = true := by
  simp only [mayFollow, isContinuation, beq_iff_eq, ← UInt8.toNat_inj, UInt8.le_iff_toNat_le,
    firstEq, secondEq, UInt8.reduceToNat]
  -- Each lead byte that narrows the range has a case of its own, and the others are last.
  repeat' split
  all_goals
    simp only [Bool.and_eq_true, decide_eq_true_eq]
    omega

theorem isUtf8_encodeChar_append (character : Char) (rest : Bytes) :
    isUtf8 (String.utf8EncodeChar character ++ rest) = isUtf8 rest := by
  have valid : character.val.toNat < 0xd800 ∨
      0xdfff < character.val.toNat ∧ character.val.toNat < 0x110000 := character.valid
  rw [String.utf8EncodeChar]
  generalize character.val.toNat = value at valid
  by_cases one : value ≤ 0x7f
  · rw [if_pos one]
    have byte := UInt8.toNat_ofNat_of_lt' (show value < 256 by omega)
    apply isUtf8_one
    simp only [UInt8.lt_iff_toNat_lt, byte, UInt8.reduceToNat]
    omega
  rw [if_neg one]
  by_cases two : value ≤ 0x7ff
  · rw [if_pos two]
    have high := UInt8.toNat_ofNat_of_lt' (show value / 64 % 32 + 192 < 256 by omega)
    apply isUtf8_two _ (isContinuation_ofNat value)
    simp only [UInt8.le_iff_toNat_le, high, UInt8.reduceToNat]
    omega
  rw [if_neg two]
  by_cases three : value ≤ 0xffff
  · rw [if_pos three]
    have high := UInt8.toNat_ofNat_of_lt' (show value / 4096 % 16 + 224 < 256 by omega)
    have low := UInt8.toNat_ofNat_of_lt' (show value / 64 % 64 + 128 < 256 by omega)
    apply isUtf8_three _ _ (isContinuation_ofNat value)
    · simp only [UInt8.le_iff_toNat_le, high, UInt8.reduceToNat]
      omega
    · apply mayFollow_of_toNat high low <;> omega
  · rw [if_neg three]
    have high := UInt8.toNat_ofNat_of_lt' (show value / 262144 % 8 + 240 < 256 by omega)
    have low := UInt8.toNat_ofNat_of_lt' (show value / 4096 % 64 + 128 < 256 by omega)
    apply isUtf8_four _ _ ⟨isContinuation_ofNat _, isContinuation_ofNat value⟩
    · simp only [UInt8.le_iff_toNat_le, high, UInt8.reduceToNat]
      omega
    · apply mayFollow_of_toNat high low <;> omega

theorem isUtf8_ofText (text : String) : isUtf8 (Bytes.ofText text) = true := by
  rw [Bytes.ofText_eq_flatMap]
  induction text.toList with
  | nil => rfl
  | cons character characters ih => rw [List.flatMap_cons, isUtf8_encodeChar_append, ih]

theorem isUtf8_of_ascii {content : Bytes} (ascii : ∀ byte ∈ content, byte < 0x80) :
    isUtf8 content = true := by
  induction content with
  | nil => rfl
  | cons byte content ih =>
      rw [isUtf8_one (ascii byte List.mem_cons_self)]
      exact ih fun later member => ascii later (List.mem_cons_of_mem _ member)

theorem isUtf8_of_all_ascii {contents : List Bytes} (ascii : contents.flatten.all (· < 0x80) = true)
    (content : Bytes) (member : content ∈ contents) : isUtf8 content = true := by
  rw [List.all_eq_true] at ascii
  apply isUtf8_of_ascii
  intro byte inside
  exact of_decide_eq_true (ascii byte (List.mem_flatten_of_mem member inside))

end Text

end VerifiableLog
