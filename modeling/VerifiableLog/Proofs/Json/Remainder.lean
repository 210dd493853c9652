import VerifiableLog.Json.Reader

/-!
What is left of a text. Whatever is passed over or read, the rest is never longer than the text that
it was read from, and a string has no more bytes than its text.
-/

namespace VerifiableLog.Json

variable {α β : Type}

theorem exists_of_bind_ok {result : Except Fault α} {next : α → Except Fault β} {value : β}
    (ran : (result >>= next) = .ok value) :
    ∃ found, result = .ok found ∧ next found = .ok value := by
  cases result with
  | error fault => cases ran
  | ok found => exact ⟨found, rfl, ran⟩

/-! ### Passing over values -/

section

variable {text rest : Bytes}

theorem length_of_skipBlanks {byte : UInt8} (starts : skipBlanks text = byte :: rest) :
    rest.length < text.length := by
  have shorter := (List.dropWhile_suffix (l := text) isBlank).length_le
  rw [skipBlanks] at starts
  rw [starts] at shorter
  exact shorter

theorem length_of_mark {mark : UInt8}
    (passed : (match skipBlanks text with
      | [] => .error .unfinished
      | byte :: text => if byte = mark then .ok text else .error .malformed) =
        (.ok rest : Except Fault Bytes)) :
    rest.length < text.length := by
  split at passed
  · cases passed
  · rename_i starts
    have shorter := length_of_skipBlanks starts
    split at passed
    · cases passed
      exact shorter
    · cases passed

theorem length_expect_le {word : Bytes} (met : expect word text = .ok rest) :
    rest.length ≤ text.length := by
  induction word generalizing text with
  | nil =>
      rw [expect] at met
      cases met
      exact Nat.le_refl _
  | cons expected more ih =>
      cases text with
      | nil => cases met
      | cons byte text =>
          rw [expect] at met
          split at met
          · exact Nat.le_succ_of_le (ih met)
          · cases met

theorem length_skipString_le (skipped : skipString text = .ok rest) :
    rest.length ≤ text.length := by
  fun_induction skipString text with
  | case1 => cases skipped
  | case2 =>
      cases skipped
      exact Nat.le_succ _
  | case3 => cases skipped
  | case4 kind text notClose known ih =>
      have shorter := ih skipped
      simp only [List.length_cons]
      omega
  | case5 => cases skipped
  | case6 kind text notClose unknown isUnit ih =>
      obtain ⟨unit, -, skipped⟩ := exists_of_bind_ok skipped
      have shorter := ih skipped
      simp only [List.length_cons, List.length_drop] at shorter ⊢
      omega
  | case7 => cases skipped
  | case8 byte text notClose notEscape plain ih =>
      exact Nat.le_succ_of_le (ih skipped)

theorem length_skipExponent_le (skipped : skipExponent text = .ok rest) :
    rest.length ≤ text.length := by
  unfold skipExponent at skipped
  dsimp only at skipped
  split at skipped
  · rename_i first digits starts
    have unsigned : (first :: digits).length ≤ text.length := by
      rw [← starts]
      split <;> simp
    have shorter := (List.dropWhile_suffix (l := digits) isDigit).length_le
    rw [List.length_cons] at unsigned
    split at skipped
    · cases skipped
      omega
    · cases skipped
  · cases skipped

theorem length_skipExponentOrEnd_le (skipped : skipExponentOrEnd text = .ok rest) :
    rest.length ≤ text.length := by
  unfold skipExponentOrEnd at skipped
  split at skipped
  · split at skipped
    · exact Nat.le_succ_of_le (length_skipExponent_le skipped)
    · cases skipped
      exact Nat.le_refl _
  · cases skipped
    exact Nat.le_refl _

theorem length_skipFraction_le (skipped : skipFraction text = .ok rest) :
    rest.length ≤ text.length := by
  unfold skipFraction at skipped
  split at skipped
  · split at skipped
    · rename_i digits _
      have shorter := (List.dropWhile_suffix (l := digits) isDigit).length_le
      have skippedShorter := length_skipExponentOrEnd_le skipped
      simp only [List.length_cons]
      omega
    · cases skipped
  · cases skipped

theorem length_skipAfterWhole_le (skipped : skipAfterWhole text = .ok rest) :
    rest.length ≤ text.length := by
  unfold skipAfterWhole at skipped
  split at skipped
  · split at skipped
    · exact Nat.le_succ_of_le (length_skipFraction_le skipped)
    · exact length_skipExponentOrEnd_le skipped
  · cases skipped
    exact Nat.le_refl _

theorem length_skipUnsigned_le (skipped : skipUnsigned text = .ok rest) :
    rest.length ≤ text.length := by
  unfold skipUnsigned at skipped
  split at skipped
  · cases skipped
  · rename_i first digits
    split at skipped
    · split at skipped
      · split at skipped
        · cases skipped
        · exact Nat.le_succ_of_le (length_skipAfterWhole_le skipped)
      · cases skipped
        exact Nat.le_succ _
    · split at skipped
      · have shorter := (List.dropWhile_suffix (l := digits) isDigit).length_le
        have skippedShorter := length_skipAfterWhole_le skipped
        simp only [List.length_cons]
        omega
      · cases skipped

theorem length_skipScalar_le {first : UInt8} (skipped : skipScalar first text = .ok rest) :
    rest.length ≤ text.length + 1 := by
  unfold skipScalar at skipped
  split at skipped
  · exact Nat.le_succ_of_le (length_skipString_le skipped)
  split at skipped
  · exact Nat.le_succ_of_le (length_skipUnsigned_le skipped)
  split at skipped
  · exact length_skipUnsigned_le skipped
  split at skipped
  · exact Nat.le_succ_of_le (length_expect_le skipped)
  split at skipped
  · exact Nat.le_succ_of_le (length_expect_le skipped)
  split at skipped
  · exact Nat.le_succ_of_le (length_expect_le skipped)
  · cases skipped

theorem length_skipName_le {container : Container} (skipped : container.skipName text = .ok rest) :
    rest.length ≤ text.length := by
  unfold Container.skipName at skipped
  split at skipped
  · cases skipped
    exact Nat.le_refl _
  · split at skipped
    · cases skipped
    · rename_i starts
      have opened := length_of_skipBlanks starts
      split at skipped
      · cases skipped
      · obtain ⟨named, passed, skipped⟩ := exists_of_bind_ok skipped
        have passedShorter := length_skipString_le passed
        have closed := length_of_mark skipped
        omega

def Progress.left : Progress → Bytes
  | .finished rest => rest
  | .member _ rest => rest

theorem length_afterValue_le {containers : List Container} {progress : Progress}
    (went : afterValue containers text = .ok progress) : progress.left.length ≤ text.length := by
  induction containers generalizing text with
  | nil =>
      cases went
      exact Nat.le_refl _
  | cons container outer ih =>
      unfold afterValue at went
      split at went
      · cases went
      · rename_i starts
        have shorter := length_of_skipBlanks starts
        split at went
        · obtain ⟨member, skipped, went⟩ := exists_of_bind_ok went
          have skippedShorter := length_skipName_le skipped
          cases went
          simp only [Progress.left]
          omega
        · split at went
          · have others := ih went
            omega
          · cases went

theorem length_startValue_le {containers : List Container} {progress : Progress}
    (went : startValue containers text = .ok progress) : progress.left.length ≤ text.length := by
  unfold startValue at went
  split at went
  · cases went
  · rename_i starts
    have shorter := length_of_skipBlanks starts
    split at went
    · obtain ⟨behind, skipped, went⟩ := exists_of_bind_ok went
      have skippedShorter := length_skipScalar_le skipped
      have wentShorter := length_afterValue_le went
      omega
    · split at went
      · cases went
      · rename_i inside
        have insideShorter := length_of_skipBlanks inside
        split at went
        · have wentShorter := length_afterValue_le went
          omega
        · obtain ⟨member, skipped, went⟩ := exists_of_bind_ok went
          have skippedShorter := length_skipName_le skipped
          simp only [List.length_cons] at skippedShorter
          cases went
          simp only [Progress.left]
          omega

theorem length_skipSteps_le {steps : Nat} {containers : List Container}
    (skipped : skipSteps steps containers text = .ok rest) : rest.length ≤ text.length := by
  induction steps generalizing containers text with
  | zero => cases skipped
  | succ steps ih =>
      rw [skipSteps] at skipped
      obtain ⟨progress, went, skipped⟩ := exists_of_bind_ok skipped
      have wentShorter := length_startValue_le went
      cases progress with
      | finished behind =>
          cases skipped
          exact wentShorter
      | member inner behind =>
          exact Nat.le_trans (ih skipped) wentShorter

theorem length_skipValue_le (skipped : skipValue text = .ok rest) : rest.length ≤ text.length :=
  length_skipSteps_le skipped

/-! ### Strings -/

theorem length_readUnit {unit : Nat} (read : readUnit text = .ok unit) : 4 ≤ text.length := by
  unfold readUnit at read
  split at read
  · simp
  · cases read

theorem length_codePointBytes_le (codePoint : Nat) : (codePointBytes codePoint).length ≤ 4 := by
  rw [codePointBytes, String.length_utf8EncodeChar]
  exact Char.utf8Size_le_four _

theorem length_readLowSurrogate {unit : Nat} (read : readLowSurrogate text = .ok unit) :
    6 ≤ text.length := by
  unfold readLowSurrogate at read
  split at read
  · cases read
  · split at read
    · cases read
    · split at read
      · cases read
      · split at read
        · cases read
        · obtain ⟨low, low, read⟩ := exists_of_bind_ok read
          have digits := length_readUnit low
          simp only [List.length_cons]
          omega

theorem length_readEscape {escaped : Bytes} {width : Nat}
    (read : readEscape text = .ok (escaped, width)) :
    escaped.length ≤ width ∧ width ≤ text.length := by
  unfold readEscape at read
  split at read
  · cases read
  · rename_i kind digits
    split at read
    · cases read
      simp
    · split at read
      · cases read
      · obtain ⟨unit, hasUnit, read⟩ := exists_of_bind_ok read
        have four := length_readUnit hasUnit
        split at read
        · cases read
        · split at read
          · obtain ⟨low, hasLow, read⟩ := exists_of_bind_ok read
            have six := length_readLowSurrogate hasLow
            rw [List.length_drop] at six
            obtain ⟨rfl, rfl⟩ := Prod.mk.inj (Except.ok.inj read)
            have bytes := length_codePointBytes_le
              (0x10000 + (unit - 0xd800) * 0x400 + (low - 0xdc00))
            simp only [List.length_cons]
            omega
          · cases read
            have bytes := length_codePointBytes_le unit
            simp only [List.length_cons]
            omega

theorem length_readStringBytes {before content : Bytes}
    (read : readStringBytes before text = .ok (content, rest)) :
    content.length + rest.length ≤ before.length + text.length := by
  fun_induction readStringBytes before text with
  | case1 => cases read
  | case2 before text =>
      cases read
      simp only [List.length_reverse, List.length_cons]
      omega
  | case3 before text notClose ih =>
      obtain ⟨⟨escaped, width⟩, hasEscape, read⟩ := exists_of_bind_ok read
      have others := ih escaped width read
      have bounds := length_readEscape hasEscape
      simp only [List.length_cons, List.length_append, List.length_reverse, List.length_drop]
        at others ⊢
      omega
  | case4 => cases read
  | case5 before byte text notClose notEscape plain ih =>
      have others := ih read
      simp only [List.length_cons] at others ⊢
      omega

theorem length_readString {content : Bytes} (read : readString text = .ok (content, rest)) :
    content.length + rest.length ≤ text.length := by
  obtain ⟨⟨bytes, behind⟩, hasBytes, read⟩ := exists_of_bind_ok read
  have bound := length_readStringBytes hasBytes
  simp only at read
  split at read
  · obtain ⟨rfl, rfl⟩ := Prod.mk.inj (Except.ok.inj read)
    simpa using bound
  · cases read

end

end VerifiableLog.Json
