import VerifiableLog.Http.Query
import VerifiableLog.Proofs.Json.Reader

/-!
Queries as a client writes them that has nothing to escape. The pairs are read back from the query,
and a natural number from its digits, as far as signed integers of 64 bits go.
-/

namespace VerifiableLog.Http

open Json (AllDigits valueFrom writeNatural joinWith)

/-! ### Splitting -/

section

variable {mark : UInt8} {text : Bytes}

theorem splitFirst_of_notMem (absent : mark ∉ text) : splitFirst mark text = (text, none) := by
  induction text with
  | nil => rfl
  | cons byte text ih =>
      rw [List.mem_cons, not_or] at absent
      rw [splitFirst, if_neg (Ne.symm absent.1), ih absent.2]

theorem splitFirst_append (absent : mark ∉ text) (rest : Bytes) :
    splitFirst mark (text ++ mark :: rest) = (text, some rest) := by
  induction text with
  | nil => rw [List.nil_append, splitFirst, if_pos rfl]
  | cons byte text ih =>
      rw [List.mem_cons, not_or] at absent
      rw [List.cons_append, splitFirst, if_neg (Ne.symm absent.1), ih absent.2]

theorem splitAll_of_notMem (absent : mark ∉ text) : splitAll mark text = [text] := by
  induction text with
  | nil => rfl
  | cons byte text ih =>
      rw [List.mem_cons, not_or] at absent
      rw [splitAll, if_neg (Ne.symm absent.1), ih absent.2]

theorem splitAll_append (absent : mark ∉ text) (rest : Bytes) :
    splitAll mark (text ++ mark :: rest) = text :: splitAll mark rest := by
  induction text with
  | nil => rw [List.nil_append, splitAll, if_pos rfl]
  | cons byte text ih =>
      rw [List.mem_cons, not_or] at absent
      rw [List.cons_append, splitAll, if_neg (Ne.symm absent.1), ih absent.2]

theorem splitAll_joinWith {piece : Bytes} {pieces : List Bytes}
    (absent : ∀ member ∈ piece :: pieces, mark ∉ member) :
    splitAll mark (joinWith [mark] (piece :: pieces)) = piece :: pieces := by
  induction pieces generalizing piece with
  | nil => exact splitAll_of_notMem (absent piece List.mem_cons_self)
  | cons second pieces ih =>
      have others := ih fun member inside => absent member (List.mem_cons_of_mem _ inside)
      have join : joinWith [mark] (piece :: second :: pieces) =
          piece ++ mark :: joinWith [mark] (second :: pieces) := by simp [joinWith]
      rw [join, splitAll_append (absent piece List.mem_cons_self), others]

theorem notMem_joinWith {separator : Bytes} (separates : mark ∉ separator) {pieces : List Bytes}
    (absent : ∀ piece ∈ pieces, mark ∉ piece) : mark ∉ joinWith separator pieces := by
  cases pieces with
  | nil => simp [joinWith]
  | cons piece pieces =>
      rw [List.forall_mem_cons] at absent
      rw [Json.joinWith_cons, List.mem_append, List.mem_flatMap]
      rintro (first | ⟨later, member, inside⟩)
      · exact absent.1 first
      · exact (List.mem_append.mp inside).elim separates (absent.2 later member)

end

/-! ### Pairs -/

def IsPlain (byte : UInt8) : Prop :=
  byte ≠ 0x23 ∧ byte ≠ 0x26 ∧ byte ≠ 0x3d ∧ byte ≠ percentSign ∧ byte ≠ plusSign

def AllPlain (text : Bytes) : Prop := ∀ byte ∈ text, IsPlain byte

def writePair (pair : Bytes × Bytes) : Bytes := pair.1 ++ 0x3d :: pair.2

def writeQuery (pairs : List (Bytes × Bytes)) : Bytes := joinWith [0x26] (pairs.map writePair)

theorem decodePercent_of_plain {text : Bytes} (plain : AllPlain text) :
    decodePercent text = text := by
  induction text with
  | nil => rw [decodePercent]
  | cons byte text ih =>
      obtain ⟨⟨-, -, -, notPercent, -⟩, others⟩ := List.forall_mem_cons.mp plain
      rw [decodePercent, if_neg notPercent]
      simp only [ih others]

theorem map_plus_of_plain {text : Bytes} (plain : AllPlain text) :
    (text.map fun byte => if byte = plusSign then 0x20 else byte) = text := by
  have same : ∀ byte ∈ text, (if byte = plusSign then 0x20 else byte) = id byte := by
    intro byte member
    obtain ⟨-, -, -, -, notPlus⟩ := plain byte member
    exact if_neg notPlus
  rw [List.map_congr_left same, List.map_id]

theorem decode_of_plain {text : Bytes} (plain : AllPlain text) :
    decodePercent (text.map fun byte => if byte = plusSign then 0x20 else byte) = text := by
  rw [map_plus_of_plain plain, decodePercent_of_plain plain]

theorem notMem_writePair {mark : UInt8} (notEquals : mark ≠ 0x3d)
    (notPlain : ∀ byte, IsPlain byte → byte ≠ mark) {pairs : List (Bytes × Bytes)}
    (plain : ∀ pair ∈ pairs, AllPlain pair.1 ∧ AllPlain pair.2) :
    ∀ piece ∈ pairs.map writePair, mark ∉ piece := by
  rw [List.forall_mem_map]
  intro pair member inside
  obtain ⟨plainName, plainValue⟩ := plain pair member
  rcases List.mem_append.mp inside with inName | inValue
  · exact notPlain mark (plainName mark inName) rfl
  · rcases List.mem_cons.mp inValue with equals | inValue
    · exact notEquals equals
    · exact notPlain mark (plainValue mark inValue) rfl

theorem queryPairs_writeQuery {pairs : List (Bytes × Bytes)}
    (plain : ∀ pair ∈ pairs, AllPlain pair.1 ∧ AllPlain pair.2) :
    queryPairs (writeQuery pairs) = pairs := by
  have separate := notMem_writePair (by decide) (fun byte isPlain => isPlain.2.1) plain
  have pieces : (splitAll 0x26 (writeQuery pairs)).filter (fun piece => !piece.isEmpty) =
      pairs.map writePair := by
    cases pairs with
    | nil => rfl
    | cons pair pairs =>
        rw [writeQuery, List.map_cons, splitAll_joinWith separate, ← List.map_cons,
          List.filter_eq_self, List.forall_mem_map]
        intro other _
        simp [writePair]
  have each : ∀ pair ∈ pairs,
      (decodePercent ((splitFirst 0x3d (writePair pair)).1.map fun byte =>
          if byte = plusSign then 0x20 else byte),
        decodePercent (((splitFirst 0x3d (writePair pair)).2.getD []).map fun byte =>
          if byte = plusSign then 0x20 else byte)) = id pair := by
    intro pair member
    obtain ⟨plainName, plainValue⟩ := plain pair member
    have noEquals : 0x3d ∉ pair.1 := fun inside => (plainName _ inside).2.2.1 rfl
    rw [writePair, splitFirst_append noEquals, Option.getD_some, decode_of_plain plainName,
      decode_of_plain plainValue]
    rfl
  rw [queryPairs, pieces, List.map_map]
  exact (List.map_congr_left each).trans (List.map_id pairs)

theorem target_ofBytes {path : Bytes} (absolute : path.head? = some slash) (noMark : 0x3f ∉ path)
    (noFragment : 0x23 ∉ path) {pairs : List (Bytes × Bytes)}
    (plain : ∀ pair ∈ pairs, AllPlain pair.1 ∧ AllPlain pair.2) :
    Target.ofBytes (path ++ 0x3f :: writeQuery pairs) = ⟨path, writeQuery pairs⟩ := by
  have whole : 0x23 ∉ path ++ 0x3f :: writeQuery pairs := by
    rw [List.mem_append, List.mem_cons]
    rintro (inPath | mark | inQuery)
    · exact noFragment inPath
    · exact absurd mark (by decide)
    · exact notMem_joinWith (by decide)
        (notMem_writePair (by decide) (fun byte isPlain => isPlain.1) plain) inQuery
  obtain ⟨rest, rfl⟩ := List.head?_eq_some_iff.mp absolute
  simp only [Target.ofBytes, splitFirst_of_notMem whole, splitFirst_append noMark,
    Target.dropAuthority, if_true, Option.getD_some]

/-! ### Numbers -/

theorem digit_isPlain : ∀ byte : UInt8, Json.isDigit byte = true →
    IsPlain byte ∧ byte ≠ Json.minusSign ∧ 0x30 ≤ byte.toNat := by
  grind [IsPlain, Json.isDigit, Json.minusSign, percentSign, plusSign, UInt8.le_iff_toNat_le]

theorem allPlain_writeNatural (value : Nat) : AllPlain (writeNatural value) := by
  intro byte member
  exact (digit_isPlain byte ((Json.writeNatural_spec value).1 byte member)).1

theorem foldl_digits {digits : Bytes} (all : AllDigits digits) (value : Nat) :
    digits.foldl (fun (value : Int) digit => value * 10 + (digit.toNat - 0x30)) value =
      (valueFrom value digits : Int) := by
  induction digits generalizing value with
  | nil => rfl
  | cons digit digits ih =>
      obtain ⟨here, others⟩ := List.forall_mem_cons.mp all
      obtain ⟨-, -, large⟩ := digit_isPlain digit here
      have next : (value : Int) * 10 + (digit.toNat - 0x30) =
          ((value * 10 + (digit.toNat - 0x30) : Nat) : Int) := by omega
      rw [List.foldl_cons, next, ih others]
      rfl

theorem readInteger?_writeNatural {value : Nat} (fits : value < 2 ^ 63) :
    readInteger? (writeNatural value) = some (value : Int) := by
  obtain ⟨all, whole, first, digits, starts, -⟩ := Json.writeNatural_spec value
  have counted := foldl_digits all 0
  have allDigits : (writeNatural value).all Json.isDigit = true := List.all_eq_true.mpr all
  rw [starts] at all counted allDigits whole ⊢
  obtain ⟨⟨-, -, -, -, notPlus⟩, notMinus, -⟩ := digit_isPlain first (all first List.mem_cons_self)
  rw [whole] at counted
  have inRange : (-0x8000000000000000 ≤ (value : Int) && (value : Int) ≤ 0x7fffffffffffffff) =
      true := by
    simp only [Bool.and_eq_true, decide_eq_true_eq]
    omega
  rw [Int.natCast_zero] at counted
  simp only [readInteger?, if_neg notMinus, if_neg notPlus, List.isEmpty_cons, allDigits,
    Bool.not_true, Bool.or_self, Bool.false_eq_true, if_false, counted, Option.filter, inRange,
    if_true]

end VerifiableLog.Http
