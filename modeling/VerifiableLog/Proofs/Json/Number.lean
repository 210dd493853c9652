import VerifiableLog.Json.Number
import VerifiableLog.Proofs.Json.Lexeme

/-!
Numbers of JSON text. A natural number is read back from its digits, and a number of any form is
passed over as a whole.
-/

namespace VerifiableLog.Json

def AllDigits (text : Bytes) : Prop := ∀ byte ∈ text, isDigit byte = true

def PastDigits (rest : Bytes) : Prop := ∀ first ∈ rest.head?, isDigit first = false

theorem dropWhile_isDigit {digits rest : Bytes} (all : AllDigits digits)
    (past : PastDigits rest) : (digits ++ rest).dropWhile isDigit = rest := by
  rw [List.dropWhile_append_of_pos all]
  cases rest with
  | nil => rfl
  | cons first rest => exact List.dropWhile_cons_of_neg (by simp [past first rfl])

theorem delimiter_notInNumber : ∀ byte : UInt8,
    (isBlank byte = true ∨ byte = comma ∨ byte = closeList ∨ byte = closeObject) →
      isDigit byte = false ∧ byte ≠ 0x2e ∧ byte ≠ 0x65 ∧ byte ≠ 0x45 := by
  grind [isDigit, isBlank, comma, closeList, closeObject]

theorem Delimited.pastDigits {rest : Bytes} (delimited : Delimited rest) : PastDigits rest :=
  fun first present => (delimiter_notInNumber first (delimited first present)).1

/-! ### Natural numbers -/

def valueFrom (value : Nat) (digits : Bytes) : Nat :=
  digits.foldl (fun value byte => value * 10 + (byte.toNat - 0x30)) value

theorem le_valueFrom (value : Nat) (digits : Bytes) : value ≤ valueFrom value digits := by
  induction digits generalizing value with
  | nil => exact Nat.le_refl value
  | cons byte digits ih =>
      have later := ih (value * 10 + (byte.toNat - 0x30))
      rw [valueFrom, List.foldl_cons, ← valueFrom]
      omega

theorem takeDigits_append {digits rest : Bytes} (all : AllDigits digits) (past : PastDigits rest)
    (significand taken : Nat) (fits : valueFrom significand digits ≤ largestWord) :
    takeDigits significand taken (digits ++ rest) =
      (valueFrom significand digits, taken + digits.length, rest) := by
  induction digits generalizing significand taken with
  | nil =>
      cases rest with
      | nil => rfl
      | cons first rest => simp [takeDigits, past first rfl, valueFrom]
  | cons byte digits ih =>
      have bound := le_valueFrom (significand * 10 + (byte.toNat - 0x30)) digits
      rw [valueFrom, List.foldl_cons, ← valueFrom] at fits ⊢
      have others := ih (fun later member => all later (List.mem_cons_of_mem _ member)) _
        (taken + 1) fits
      rw [List.cons_append, takeDigits, if_pos (all byte List.mem_cons_self), if_neg (by omega),
        others, List.length_cons, Nat.add_assoc, Nat.add_comm 1]

theorem writeNatural_of_lt {value : Nat} (small : value < 10) :
    writeNatural value = [UInt8.ofNat (0x30 + value)] := by
  simp [writeNatural, Bytes.ofAscii, Nat.toDigits_of_lt_base small,
    Nat.toNat_digitChar_of_lt_ten small]

theorem writeNatural_of_le {value : Nat} (large : 10 ≤ value) :
    writeNatural value = writeNatural (value / 10) ++ [UInt8.ofNat (0x30 + value % 10)] := by
  simp [writeNatural, Bytes.ofAscii, Nat.toDigits_of_base_le (by omega) large,
    Nat.toNat_digitChar_of_lt_ten (Nat.mod_lt value (by omega))]

theorem isDigit_ofNat : ∀ value < 10, isDigit (UInt8.ofNat (0x30 + value)) = true := by
  decide

theorem toNat_digit {value : Nat} (small : value < 10) :
    (UInt8.ofNat (0x30 + value)).toNat - 0x30 = value := by
  rw [UInt8.toNat_ofNat_of_lt' (by show 0x30 + value < 256; omega)]
  omega

/-- Digits alone, with no zero in front of others, and the number that they stand for. -/
theorem writeNatural_spec (value : Nat) :
    AllDigits (writeNatural value) ∧ valueFrom 0 (writeNatural value) = value ∧
      ∃ first digits, writeNatural value = first :: digits ∧
        (first = 0x30 → value = 0 ∧ digits = []) := by
  induction value using Nat.strongRecOn with
  | ind value ih =>
      by_cases small : value < 10
      · rw [writeNatural_of_lt small]
        refine ⟨?_, ?_, ?_⟩
        · simpa [AllDigits] using isDigit_ofNat value small
        · simpa [valueFrom] using toNat_digit small
        · refine ⟨_, [], rfl, ?_⟩
          intro zero
          have digit := toNat_digit small
          rw [zero] at digit
          exact ⟨by simpa using digit.symm, rfl⟩
      · obtain ⟨all, whole, first, digits, starts, zero⟩ := ih (value / 10) (by omega)
        have last : value % 10 < 10 := by omega
        rw [writeNatural_of_le (by omega)]
        refine ⟨?_, ?_, ?_⟩
        · intro byte member
          rcases List.mem_append.mp member with earlier | final
          · exact all byte earlier
          · rw [List.mem_singleton.mp final]
            exact isDigit_ofNat _ last
        · rw [valueFrom] at whole ⊢
          rw [List.foldl_append, whole, List.foldl_cons, List.foldl_nil, toNat_digit last]
          omega
        · refine ⟨first, digits ++ [_], by rw [starts]; rfl, ?_⟩
          intro leading
          have none := (zero leading).1
          omega

theorem readAfterWhole_natural (value significand : Nat) (exponent : Int) {rest : Bytes}
    (delimited : Delimited rest) :
    readAfterWhole (.natural value) significand exponent rest = .ok (.natural value, rest) := by
  cases rest with
  | nil => rfl
  | cons first rest =>
      obtain ⟨-, notPoint, notMark, notCapital⟩ := delimiter_notInNumber first (delimited first rfl)
      simp [readAfterWhole, notPoint, notMark, notCapital]

theorem readUnsigned_writeNatural {value : Nat} (fits : value ≤ largestWord) {rest : Bytes}
    (delimited : Delimited rest) :
    readUnsigned (writeNatural value ++ rest) = .ok (.natural value, rest) := by
  obtain ⟨all, whole, first, digits, starts, zero⟩ := writeNatural_spec value
  have taken := takeDigits_append all delimited.pastDigits 0 0 (by rw [whole]; exact fits)
  rw [whole, starts, List.cons_append] at taken
  rw [starts, List.cons_append]
  unfold readUnsigned
  by_cases leading : first = 0x30
  · obtain ⟨rfl, rfl⟩ := zero leading
    subst leading
    cases rest with
    | nil => rfl
    | cons second rest =>
        simp [delimited.pastDigits second rfl, readAfterWhole_natural 0 0 0 delimited]
  · have isDigitFirst : isDigit first = true := all first (by rw [starts]; exact List.mem_cons_self)
    have noSurplus : rest.takeWhile isDigit = [] := by
      cases rest with
      | nil => rfl
      | cons second rest => simp [delimited.pastDigits second rfl]
    simp [leading, isDigitFirst, taken, noSurplus, readAfterWhole_natural _ _ _ delimited]

/-! ### Numbers of any form -/

inductive WholeText : Bytes → Prop
  | zero : WholeText [0x30]
  | digits {first : UInt8} {more : Bytes} : isDigit first = true → first ≠ 0x30 →
      AllDigits more → WholeText (first :: more)

inductive FractionText : Bytes → Prop
  | absent : FractionText []
  | digits {first : UInt8} {more : Bytes} : isDigit first = true → AllDigits more →
      FractionText (0x2e :: first :: more)

inductive ExponentText : Bytes → Prop
  | absent : ExponentText []
  | digits {mark first : UInt8} {sign more : Bytes} : mark = 0x65 ∨ mark = 0x45 →
      sign = [] ∨ sign = [0x2b] ∨ sign = [0x2d] → isDigit first = true → AllDigits more →
      ExponentText (mark :: (sign ++ first :: more))

inductive NumberText : Bytes → Prop
  | parts {sign whole fraction exponent : Bytes} : sign = [] ∨ sign = [minusSign] →
      WholeText whole → FractionText fraction → ExponentText exponent →
      NumberText (sign ++ (whole ++ (fraction ++ exponent)))

section Skipping

variable {whole fraction exponent rest : Bytes}

theorem ExponentText.pastDigits (form : ExponentText exponent) (delimited : Delimited rest) :
    PastDigits (exponent ++ rest) := by
  cases form with
  | absent => exact delimited.pastDigits
  | digits mark =>
      rcases mark with rfl | rfl <;> simp [PastDigits, isDigit]

theorem FractionText.pastDigits (form : FractionText fraction)
    (exponentForm : ExponentText exponent) (delimited : Delimited rest) :
    PastDigits (fraction ++ (exponent ++ rest)) := by
  cases form with
  | absent => exact exponentForm.pastDigits delimited
  | digits => simp [PastDigits, isDigit]

theorem skipExponentOrEnd_append (form : ExponentText exponent) (delimited : Delimited rest) :
    skipExponentOrEnd (exponent ++ rest) = .ok rest := by
  cases form with
  | absent =>
      cases rest with
      | nil => rfl
      | cons first rest =>
          obtain ⟨-, -, notMark, notCapital⟩ := delimiter_notInNumber first (delimited first rfl)
          simp [skipExponentOrEnd, notMark, notCapital]
  | @digits _ first _ _ mark sign digit more =>
      have dropped := dropWhile_isDigit more delimited.pastDigits
      have notSign : first ≠ 0x2b ∧ first ≠ 0x2d := by
        constructor
        · rintro rfl
          simp [isDigit] at digit
        · rintro rfl
          simp [isDigit] at digit
      rw [List.cons_append, skipExponentOrEnd, if_pos mark]
      rcases sign with rfl | rfl | rfl
      · simp [skipExponent, notSign, digit, dropped]
      · simp [skipExponent, digit, dropped]
      · simp [skipExponent, digit, dropped]

theorem skipAfterWhole_append (form : FractionText fraction) (exponentForm : ExponentText exponent)
    (delimited : Delimited rest) :
    skipAfterWhole (fraction ++ (exponent ++ rest)) = .ok rest := by
  have finished := skipExponentOrEnd_append exponentForm delimited
  cases form with
  | absent =>
      have noPoint : ∀ first ∈ (exponent ++ rest).head?, first ≠ 0x2e := by
        cases exponentForm with
        | absent =>
            intro first present
            exact (delimiter_notInNumber first (delimited first present)).2.1
        | digits mark => rcases mark with rfl | rfl <;> simp
      rw [List.nil_append]
      generalize exponent ++ rest = after at finished noPoint
      cases after with
      | nil => exact finished
      | cons first after => simp [skipAfterWhole, noPoint first rfl, finished]
  | digits first more =>
      have dropped := dropWhile_isDigit more (exponentForm.pastDigits delimited)
      simp [skipAfterWhole, skipFraction, first, dropped, finished]

theorem skipUnsigned_append (wholeForm : WholeText whole) (form : FractionText fraction)
    (exponentForm : ExponentText exponent) (delimited : Delimited rest) :
    skipUnsigned (whole ++ (fraction ++ (exponent ++ rest))) = .ok rest := by
  have finished := skipAfterWhole_append form exponentForm delimited
  have past := form.pastDigits exponentForm delimited
  cases wholeForm with
  | zero =>
      generalize fraction ++ (exponent ++ rest) = after at finished past
      cases after with
      | nil => exact finished
      | cons second after => simp [skipUnsigned, past second rfl, finished]
  | digits first notZero more =>
      simp [skipUnsigned, notZero, first, dropWhile_isDigit more past, finished]

end Skipping

end VerifiableLog.Json
