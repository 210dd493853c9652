import VerifiableLog.Json.Writer
import VerifiableLog.Proofs.Bytes

/-!
Blanks and strings of JSON text. A string may spell its content in many ways: a byte as it is, a
short escape, a code unit of UTF-16, or a pair of them. Whatever the spelling, the content is read,
and reading stops behind the closing quote.
-/

namespace VerifiableLog.Json

/-! ### Blanks -/

def AllBlank (text : Bytes) : Prop := ∀ byte ∈ text, isBlank byte = true

theorem allBlank_nil : AllBlank [] := by simp [AllBlank]

theorem skipBlanks_append {before : Bytes} (blank : AllBlank before) (text : Bytes) :
    skipBlanks (before ++ text) = skipBlanks text :=
  List.dropWhile_append_of_pos blank

theorem skipBlanks_cons {first : UInt8} (visible : isBlank first = false) (text : Bytes) :
    skipBlanks (first :: text) = first :: text :=
  List.dropWhile_cons_of_neg (by simp [visible])

theorem skipBlanks_between {before : Bytes} (blank : AllBlank before) {first : UInt8}
    (visible : isBlank first = false) (text : Bytes) :
    skipBlanks (before ++ first :: text) = first :: text := by
  rw [skipBlanks_append blank, skipBlanks_cons visible]

/-- What may stand behind a value without becoming part of it. -/
def Delimited (rest : Bytes) : Prop :=
  ∀ first ∈ rest.head?,
    isBlank first = true ∨ first = comma ∨ first = closeList ∨ first = closeObject

theorem delimited_nil : Delimited [] := by simp [Delimited]

theorem delimited_append {before : Bytes} (blank : AllBlank before) {rest : Bytes}
    (delimited : Delimited rest) : Delimited (before ++ rest) := by
  cases before with
  | nil => exact delimited
  | cons first before =>
      rintro _ ⟨⟩
      exact .inl (blank first List.mem_cons_self)

theorem expect_append (word rest : Bytes) : expect word (word ++ rest) = .ok rest := by
  induction word with
  | nil => rfl
  | cons byte word ih => rw [List.cons_append, expect, if_pos rfl, ih]

/-! ### Spellings of a string -/

def IsPlain (byte : UInt8) : Prop := byte ≠ quoteMark ∧ byte ≠ backslash ∧ ¬ byte < 0x20

def SpellsUnit (digits : Bytes) (unit : Nat) : Prop :=
  digits.length = 4 ∧ readUnit digits = .ok unit

theorem SpellsUnit.readUnit_append {digits : Bytes} {unit : Nat} (spells : SpellsUnit digits unit)
    (rest : Bytes) : readUnit (digits ++ rest) = .ok unit := by
  obtain ⟨length, read⟩ := spells
  match digits, length with
  | [a, b, c, d], _ => exact read

theorem SpellsUnit.drop_append {digits : Bytes} {unit : Nat} (spells : SpellsUnit digits unit)
    (rest : Bytes) : (digits ++ rest).drop 4 = rest := by
  rw [← spells.1, List.drop_left]

/-- The content of a string, and what stands for it between the quotes. -/
inductive Spells : Bytes → Bytes → Prop
  | nil : Spells [] []
  | plain {byte : UInt8} {content token : Bytes} : IsPlain byte → Spells content token →
      Spells (byte :: content) (byte :: token)
  | short {kind byte : UInt8} {content token : Bytes} : simpleEscape? kind = some byte →
      Spells content token → Spells (byte :: content) (backslash :: kind :: token)
  | coded {digits : Bytes} {unit : Nat} {content token : Bytes} : SpellsUnit digits unit →
      isHighSurrogate unit = false → isLowSurrogate unit = false → Spells content token →
      Spells (codePointBytes unit ++ content) (backslash :: 0x75 :: (digits ++ token))
  | paired {digits lowDigits : Bytes} {high low : Nat} {content token : Bytes} :
      SpellsUnit digits high → isHighSurrogate high = true → SpellsUnit lowDigits low →
      isLowSurrogate low = true → Spells content token →
      Spells (codePointBytes (0x10000 + (high - 0xd800) * 0x400 + (low - 0xdc00)) ++ content)
        (backslash :: 0x75 :: (digits ++ backslash :: 0x75 :: (lowDigits ++ token)))

theorem readEscape_coded {digits : Bytes} {unit : Nat} (spells : SpellsUnit digits unit)
    (notHigh : isHighSurrogate unit = false) (notLow : isLowSurrogate unit = false)
    (rest : Bytes) :
    readEscape (0x75 :: (digits ++ rest)) = .ok (codePointBytes unit, 5) := by
  simp [readEscape, simpleEscape?, spells.readUnit_append, notHigh, notLow, bind, Except.bind, pure,
    Except.pure]

theorem readEscape_paired {digits lowDigits : Bytes} {high low : Nat}
    (spellsHigh : SpellsUnit digits high) (isHigh : isHighSurrogate high = true)
    (spellsLow : SpellsUnit lowDigits low) (isLow : isLowSurrogate low = true) (rest : Bytes) :
    readEscape (0x75 :: (digits ++ backslash :: 0x75 :: (lowDigits ++ rest))) =
      .ok (codePointBytes (0x10000 + (high - 0xd800) * 0x400 + (low - 0xdc00)), 11) := by
  have notLow : isLowSurrogate high = false := by
    simp [isHighSurrogate] at isHigh
    simp [isLowSurrogate]
    omega
  simp [readEscape, simpleEscape?, spellsHigh.readUnit_append, spellsHigh.drop_append, notLow,
    isHigh, readLowSurrogate, spellsLow.readUnit_append, isLow, bind, Except.bind, pure,
    Except.pure]

theorem readStringBytes_of_spells {content token : Bytes} (spells : Spells content token)
    (before rest : Bytes) :
    readStringBytes before (token ++ quoteMark :: rest) =
      .ok (before.reverse ++ content, rest) := by
  induction spells generalizing before with
  | nil =>
      rw [List.nil_append, readStringBytes, if_pos rfl, List.append_nil]
  | plain isPlain _ ih =>
      rw [List.cons_append, readStringBytes, if_neg isPlain.1, if_neg isPlain.2.1,
        if_neg isPlain.2.2, ih]
      simp
  | short named _ ih =>
      rw [List.cons_append, readStringBytes, if_neg (by decide), if_pos rfl]
      simp [readEscape, named, bind, Except.bind, ih]
  | coded digits notHigh notLow _ ih =>
      rw [List.cons_append, readStringBytes, if_neg (by decide), if_pos rfl]
      simp [readEscape_coded digits notHigh notLow, digits.drop_append, bind, Except.bind, ih]
  | @paired digits lowDigits _ _ _ token spellsHigh isHigh spellsLow isLow _ ih =>
      have escape := readEscape_paired spellsHigh isHigh spellsLow isLow
        (token ++ quoteMark :: rest)
      have dropped : List.drop 10
          (digits ++ backslash :: 0x75 :: (lowDigits ++ (token ++ quoteMark :: rest))) =
          token ++ quoteMark :: rest := by
        rw [show 10 = 4 + 6 from rfl, ← List.drop_drop, spellsHigh.drop_append]
        exact spellsLow.drop_append _
      rw [List.cons_append, readStringBytes, if_neg (by decide), if_pos rfl]
      simp [escape, dropped, bind, Except.bind, ih]

theorem readString_of_spells {content token : Bytes} (spells : Spells content token)
    (isText : Text.isUtf8 content = true) (rest : Bytes) :
    readString (token ++ quoteMark :: rest) = .ok (content, rest) := by
  simp [readString, readStringBytes_of_spells spells, isText, bind, Except.bind, pure, Except.pure]

/-! ### Writing strings -/

theorem hexValue?_digit : ∀ value < 16, hexValue? (Hex.digit value) = some value := by
  decide

theorem spellsUnit_encode (byte : UInt8) :
    SpellsUnit ([0x30, 0x30] ++ Hex.encode [byte]) byte.toNat := by
  have bound := byte.toNat_lt
  have high := hexValue?_digit (byte.toNat / 16) (by omega)
  have low := hexValue?_digit (byte.toNat % 16) (by omega)
  have zero : hexValue? 0x30 = some 0 := rfl
  refine ⟨rfl, ?_⟩
  simp only [Hex.encode, List.flatMap_cons, List.flatMap_nil, List.cons_append, List.nil_append,
    readUnit, zero, high, low]
  congr 1
  omega

theorem codePointBytes_control : ∀ value < 0x20, codePointBytes value = [UInt8.ofNat value] := by
  decide

theorem spells_escapeByte (byte : UInt8) {content token : Bytes} (more : Spells content token) :
    Spells (byte :: content) (escapeByte byte ++ token) := by
  unfold escapeByte
  split
  · exact .short rfl more
  · exact .short rfl more
  · exact .short rfl more
  · exact .short rfl more
  · exact .short rfl more
  · exact .short rfl more
  · exact .short rfl more
  · rename_i notQuote notBackslash _ _ _ _ _
    split
    · rename_i control
      have small : byte.toNat < 0x20 := UInt8.lt_iff_toNat_lt.mp control
      have digits := spellsUnit_encode byte
      have coded := Spells.coded digits (by simp [isHighSurrogate]; omega)
        (by simp [isLowSurrogate]; omega) more
      rw [codePointBytes_control byte.toNat small, UInt8.ofNat_toNat] at coded
      exact coded
    · rename_i printable
      exact .plain ⟨notQuote, notBackslash, printable⟩ more

theorem spells_flatMap_escapeByte (content : Bytes) :
    Spells content (content.flatMap escapeByte) := by
  induction content with
  | nil => exact .nil
  | cons byte content ih => exact spells_escapeByte byte ih

theorem spells_of_plain {content : Bytes} (plain : ∀ byte ∈ content, IsPlain byte) :
    Spells content content := by
  induction content with
  | nil => exact .nil
  | cons byte content ih =>
      exact .plain (plain byte List.mem_cons_self)
        (ih fun later member => plain later (List.mem_cons_of_mem _ member))

end VerifiableLog.Json
