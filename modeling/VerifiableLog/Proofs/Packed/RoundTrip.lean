import Mathlib.Algebra.Group.Nat.Defs
import VerifiableLog.Record.Packed

/-!
Reading back the packed form. What is written for a value is read as that value, and reading stops
where the value ends, whatever follows. Lengths are written as words of 64 bits, so the byte strings
and lists of a value have to be shorter than 2 ^ 64.
-/

namespace VerifiableLog.Packed

theorem writeVarint_of_lt {value : Nat} (small : value < 128) :
    writeVarint value = [UInt8.ofNat value] := by
  rw [writeVarint, dif_pos small]

theorem writeVarint_of_le {value : Nat} (large : 128 ≤ value) :
    writeVarint value = UInt8.ofNat (value % 128 + 128) :: writeVarint (value / 128) := by
  rw [writeVarint, dif_neg (by omega)]

theorem readVarintGroups_writeVarint (groups value : Nat) (rest : Bytes)
    (fits : value < 2 * 128 ^ groups) :
    readVarintGroups (groups + 1) (writeVarint value ++ rest) = .ok (value, rest) := by
  -- The last of the groups has room for one bit, each of the others for seven.
  induction groups generalizing value with
  | zero =>
      have byte : (UInt8.ofNat value).toNat = value :=
        UInt8.toNat_ofNat_of_lt' (by show value < 256; omega)
      rw [writeVarint_of_lt (by omega), List.singleton_append, readVarintGroups, byte,
        if_pos (by omega), if_neg (by omega)]
  | succ groups ih =>
      by_cases small : value < 128
      · have byte : (UInt8.ofNat value).toNat = value :=
          UInt8.toNat_ofNat_of_lt' (by show value < 256; omega)
        rw [writeVarint_of_lt small, List.singleton_append, readVarintGroups, byte, if_pos small,
          if_neg (by omega)]
      · have byte : (UInt8.ofNat (value % 128 + 128)).toNat = value % 128 + 128 :=
          UInt8.toNat_ofNat_of_lt' (by show value % 128 + 128 < 256; omega)
        have higher := ih (value / 128) (by rw [Nat.pow_succ] at fits; omega)
        have whole : value % 128 + 128 - 128 + 128 * (value / 128) = value := by omega
        rw [writeVarint_of_le (by omega), List.cons_append, readVarintGroups, byte,
          if_neg (by omega), higher]
        simp only [bind, Except.bind, pure, Except.pure, whole]

theorem readVarint_writeVarint {value : Nat} (fits : value < 2 ^ 64) (rest : Bytes) :
    readVarint (writeVarint value ++ rest) = .ok (value, rest) :=
  readVarintGroups_writeVarint 9 value rest fits

namespace Codec

variable {α β : Type}

/-- What is written for the value is read as the value, and nothing beyond it is read. -/
def ReadsBack (codec : Codec α) (value : α) : Prop :=
  ∀ rest, codec.read (codec.write value ++ rest) = .ok (value, rest)

theorem ReadsBack.eq_of_starts {codec : Codec α} {value other : α} (back : codec.ReadsBack value)
    (otherBack : codec.ReadsBack other) (starts : codec.write value <+: codec.write other) :
    value = other := by
  -- Reading stops where the first of the two ends, so both are read alike.
  obtain ⟨rest, whole⟩ := starts
  have read := back rest
  have otherRead := otherBack []
  rw [whole] at read
  rw [List.append_nil, read] at otherRead
  exact congrArg Prod.fst (Except.ok.inj otherRead)

theorem byte_readsBack (value : UInt8) : byte.ReadsBack value := fun _ => rfl

theorem word_readsBack (value : UInt64) : word.ReadsBack value := by
  intro rest
  simp only [word, readVarint_writeVarint value.toNat_lt, bind, Except.bind, pure, Except.pure,
    UInt64.ofNat_toNat]

theorem digest_readsBack (value : Digest) : digest.ReadsBack value := by
  intro rest
  have taken : (value.bytes ++ rest).take 32 = value.bytes := by
    rw [← value.length_bytes, List.take_left]
  have dropped : (value.bytes ++ rest).drop 32 = rest := by
    rw [← value.length_bytes, List.drop_left]
  simp only [digest, taken, dropped, value.length_bytes, dite_true]

theorem blob_readsBack {value : Bytes} (fits : value.length < 2 ^ 64) : blob.ReadsBack value := by
  intro rest
  simp only [blob, List.append_assoc, readVarint_writeVarint fits, bind, Except.bind, readBytes,
    List.take_left, List.drop_left, Nat.lt_irrefl, if_false]

theorem optional_readsBack {codec : Codec α} {value : Option α}
    (each : ∀ present ∈ value, codec.ReadsBack present) : (optional codec).ReadsBack value := by
  intro rest
  cases value with
  | none => rfl
  | some present =>
      have read := each present rfl rest
      simp [optional, read, bind, Except.bind, pure, Except.pure]

theorem readTimes_flatMap {codec : Codec α} {values : List α}
    (each : ∀ value ∈ values, codec.ReadsBack value) (rest : Bytes) :
    readTimes codec.read values.length (values.flatMap codec.write ++ rest) =
      .ok (values, rest) := by
  induction values with
  | nil => rfl
  | cons value values ih =>
      have first := each value List.mem_cons_self (values.flatMap codec.write ++ rest)
      have others := ih fun later member => each later (List.mem_cons_of_mem _ member)
      simp only [List.flatMap_cons, List.append_assoc, List.length_cons, readTimes, first, others,
        bind, Except.bind, pure, Except.pure]

theorem list_readsBack {codec : Codec α} {values : List α} (fits : values.length < 2 ^ 64)
    (each : ∀ value ∈ values, codec.ReadsBack value) : (list codec).ReadsBack values := by
  intro rest
  simp only [list, List.append_assoc, readVarint_writeVarint fits, bind, Except.bind,
    readTimes_flatMap each]

theorem pair_readsBack {first : Codec α} {second : Codec β} {value : α × β}
    (left : first.ReadsBack value.1) (right : second.ReadsBack value.2) :
    (first.pair second).ReadsBack value := by
  intro rest
  have leftRead := left (second.write value.2 ++ rest)
  have rightRead := right rest
  simp only [pair, List.append_assoc, leftRead, rightRead, bind, Except.bind, pure, Except.pure]

theorem mapped_readsBack {codec : Codec α} {build : α → β} {fields : β → α} {value : β}
    (whole : build (fields value) = value) (inside : codec.ReadsBack (fields value)) :
    (codec.mapped build fields).ReadsBack value := by
  intro rest
  have read := inside rest
  simp only [mapped, read, bind, Except.bind, pure, Except.pure, whole]

end Codec

end VerifiableLog.Packed

namespace VerifiableLog

open Packed.Codec

def LeafRecord.Storable (record : LeafRecord) : Prop :=
  record.leafValue.length < 2 ^ 64 ∧ ∀ extra ∈ record.extraData, extra.length < 2 ^ 64

theorem LeafRecord.packed_readsBack {record : LeafRecord} (storable : record.Storable) :
    LeafRecord.packed.ReadsBack record := by
  apply mapped_readsBack rfl
  apply pair_readsBack (word_readsBack _)
  apply pair_readsBack (digest_readsBack _)
  apply pair_readsBack (blob_readsBack storable.1)
  apply optional_readsBack
  intro extra present
  exact blob_readsBack (storable.2 extra present)

theorem SignedTreeHead.packed_readsBack {head : SignedTreeHead}
    (fits : head.signature.length < 2 ^ 64) : SignedTreeHead.packed.ReadsBack head := by
  apply mapped_readsBack rfl
  apply pair_readsBack (word_readsBack _)
  apply pair_readsBack (digest_readsBack _)
  apply pair_readsBack (word_readsBack _)
  exact blob_readsBack fits

end VerifiableLog
