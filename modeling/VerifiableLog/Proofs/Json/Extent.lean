import VerifiableLog.Proofs.Json.Remainder

/-!
How much a text can say. A list that is read from a text has no more elements than the text has
bytes, and every value in it, like every value of a record, has been read from a text that is no
longer than the whole.
-/

namespace VerifiableLog

namespace Hex

theorem length_decodePairs {position : Nat} {before text content : Bytes}
    (decoded : decodePairs position before text = .ok content) :
    content.length ≤ before.length + text.length := by
  fun_induction decodePairs position before text with
  | case1 => cases decoded
  | case2 => cases decoded
  | case3 position before high low rest highValue isHigh lowValue isLow ih =>
      have others := ih decoded
      simp only [List.length_cons] at others ⊢
      omega
  | case4 =>
      cases decoded
      simp

theorem length_decode_le {text content : Bytes} (decoded : (decode text).toOption = some content) :
    content.length ≤ text.length := by
  unfold decode at decoded
  split at decoded
  · cases decoded
  · cases pairs : decodePairs 0 [] text with
    | error cause =>
        rw [pairs] at decoded
        cases decoded
    | ok bytes =>
        rw [pairs] at decoded
        cases decoded
        simpa using length_decodePairs pairs

end Hex

namespace Json

variable {α β : Type}

/-! ### Readers -/

/-- What the reader leaves of a text is no longer than the text. -/
def Shrinks (read : Reader α) : Prop :=
  ∀ text value rest, read text = .ok (value, rest) → rest.length ≤ text.length

/-- The value has been read from a text that is no longer than that. -/
def ReadWithin (read : Reader α) (limit : Nat) (value : α) : Prop :=
  ∃ text rest, text.length ≤ limit ∧ read text = .ok (value, rest)

section

variable {text rest : Bytes}

theorem readWithin_of_readAll {read : Reader α} {value : α}
    (whole : readAll read text = .ok value) : ReadWithin read text.length value := by
  obtain ⟨⟨found, behind⟩, ran, whole⟩ := exists_of_bind_ok whole
  simp only at whole
  split at whole
  · cases whole
    exact ⟨text, behind, Nat.le_refl _, ran⟩
  · cases whole

theorem length_readText {content : Bytes} (read : readText text = .ok (content, rest)) :
    content.length + rest.length ≤ text.length := by
  unfold readText at read
  split at read
  · cases read
  · rename_i starts
    have shorter := length_of_skipBlanks starts
    split at read
    · have bound := length_readString read
      omega
    · cases read

theorem exists_of_mapReader {read : Reader α} {build : α → Option β} {built : β}
    (mapped : mapReader read build text = .ok (built, rest)) :
    ∃ value, read text = .ok (value, rest) ∧ build value = some built := by
  obtain ⟨⟨value, behind⟩, ran, mapped⟩ := exists_of_bind_ok mapped
  simp only at mapped
  split at mapped
  · rename_i whole
    obtain ⟨rfl, rfl⟩ := Prod.mk.inj (Except.ok.inj mapped)
    exact ⟨value, ran, whole⟩
  · cases mapped

theorem Shrinks.mapReader {read : Reader α} (shrinks : Shrinks read) (build : α → Option β) :
    Shrinks (mapReader read build) := by
  intro text built rest mapped
  obtain ⟨value, ran, -⟩ := exists_of_mapReader mapped
  exact shrinks text value rest ran

theorem length_readBlob {content : Bytes} (read : readBlob text = .ok (content, rest)) :
    content.length + rest.length ≤ text.length := by
  obtain ⟨digits, ran, whole⟩ := exists_of_mapReader read
  have bound := length_readText ran
  have decoded := Hex.length_decode_le whole
  omega

theorem shrinks_readBlob : Shrinks readBlob := by
  intro text content rest read
  have bound := length_readBlob read
  omega

theorem readOptional_cases {read : Reader α} {value : Option α}
    (ran : readOptional read text = .ok (value, rest)) :
    value = none ∧ rest.length ≤ text.length ∨
      ∃ given, value = some given ∧ read (skipBlanks text) = .ok (given, rest) := by
  unfold readOptional at ran
  split at ran
  · rename_i starts
    have shorter := length_of_skipBlanks starts
    obtain ⟨behind, met, ran⟩ := exists_of_bind_ok ran
    have metShorter := length_expect_le met
    obtain ⟨rfl, rfl⟩ := Prod.mk.inj (Except.ok.inj ran)
    exact .inl ⟨rfl, by omega⟩
  · obtain ⟨given, found, whole⟩ := exists_of_mapReader ran
    exact .inr ⟨given, (Option.some.inj whole).symm, found⟩

theorem Shrinks.readOptional {read : Reader α} (shrinks : Shrinks read) :
    Shrinks (readOptional read) := by
  intro text value rest ran
  rcases readOptional_cases ran with ⟨-, shorter⟩ | ⟨given, -, found⟩
  · exact shorter
  · exact Nat.le_trans (shrinks _ _ _ found) (List.dropWhile_suffix (l := text) isBlank).length_le

/-! ### Lists -/

theorem length_nextElement_le {isFirst : Bool} {element : Bytes}
    (next : nextElement isFirst text = .ok (some element)) : element.length ≤ text.length := by
  unfold nextElement at next
  split at next
  · cases next
  · rename_i starts
    have shorter := length_of_skipBlanks starts
    split at next
    · cases next
    · split at next
      · cases next
        exact shorter
      · split at next
        · split at next
          · cases next
          · rename_i behind
            have behindShorter := length_of_skipBlanks behind
            split at next
            · cases next
            · cases next
              simp only [List.length_cons]
              omega
        · cases next

theorem length_endList_le (ended : endList text = .ok rest) : rest.length ≤ text.length :=
  Nat.le_of_lt (length_of_mark ended)

theorem ReadWithin.mono {read : Reader α} {value : α} {limit larger : Nat}
    (within : ReadWithin read limit value) (bound : limit ≤ larger) :
    ReadWithin read larger value := by
  obtain ⟨text, rest, short, ran⟩ := within
  exact ⟨text, rest, Nat.le_trans short bound, ran⟩

theorem readElements_within {read : Reader α} (shrinks : Shrinks read) {steps : Nat}
    {before values : List α} (ran : readElements read steps before text = .ok (values, rest)) :
    rest.length ≤ text.length ∧ ∃ later, values = before.reverse ++ later ∧
      later.length ≤ steps ∧ ∀ value ∈ later, ReadWithin read text.length value := by
  -- One step for each element; each is read from what those before it have left of the text.
  induction steps generalizing before text with
  | zero => cases ran
  | succ steps ih =>
      rw [readElements] at ran
      obtain ⟨found, next, ran⟩ := exists_of_bind_ok ran
      cases found with
      | none =>
          obtain ⟨behind, ended, ran⟩ := exists_of_bind_ok ran
          obtain ⟨rfl, rfl⟩ := Prod.mk.inj (Except.ok.inj ran)
          exact ⟨length_endList_le ended, [], by simp⟩
      | some element =>
          have nextShorter := length_nextElement_le next
          obtain ⟨⟨value, behind⟩, given, ran⟩ := exists_of_bind_ok ran
          have behindShorter := shrinks _ _ _ given
          obtain ⟨restShorter, later, rfl, count, within⟩ := ih ran
          refine ⟨by omega, value :: later, by simp, by simpa using count, ?_⟩
          rw [List.forall_mem_cons]
          exact ⟨⟨element, behind, nextShorter, given⟩,
            fun other member => (within other member).mono (by omega)⟩

theorem readList_within {read : Reader α} (shrinks : Shrinks read) {values : List α}
    (ran : readList read text = .ok (values, rest)) :
    rest.length ≤ text.length ∧ values.length ≤ text.length ∧
      ∀ value ∈ values, ReadWithin read text.length value := by
  unfold readList at ran
  split at ran
  · cases ran
  · rename_i starts
    have shorter := length_of_skipBlanks starts
    split at ran
    · obtain ⟨restShorter, later, rfl, count, within⟩ := readElements_within shrinks ran
      exact ⟨by omega, by omega, fun value member => (within value member).mono (by omega)⟩
    · cases ran

theorem Shrinks.readList {read : Reader α} (shrinks : Shrinks read) : Shrinks (readList read) :=
  fun _ _ _ ran => (readList_within shrinks ran).1

end

/-! ### Records -/

namespace Fields

def Shrinking : {types : List Type} → Fields types → Prop
  | _, nil => True
  | _, cons field fields => Shrinks field.read ∧ fields.Shrinking

def Within (limit : Nat) : {types : List Type} → Fields types → Values types → Prop
  | _, nil, () => True
  | _, cons field fields, (value, values) =>
    (ReadWithin field.read limit value ∨ field.absent = some value) ∧ fields.Within limit values

def SlotsWithin (limit : Nat) : {types : List Type} → Fields types → Slots types → Prop
  | _, nil, () => True
  | _, cons field fields, (slot, slots) =>
    (∀ value ∈ slot, ReadWithin field.read limit value) ∧ fields.SlotsWithin limit slots

section

variable {types : List Type} {fields : Fields types} {text rest : Bytes} {limit : Nat}

theorem slotsWithin_noSlots (fields : Fields types) (limit : Nat) :
    fields.SlotsWithin limit fields.noSlots := by
  induction fields with
  | nil => trivial
  | cons field fields ih => exact ⟨by simp, ih⟩

theorem complete_within {slots : Slots types} {values : Values types}
    (within : fields.SlotsWithin limit slots) (whole : fields.complete slots = .ok values) :
    fields.Within limit values := by
  induction fields with
  | nil => trivial
  | cons field fields ih =>
      obtain ⟨slot, slots⟩ := slots
      obtain ⟨here, others⟩ := within
      rw [complete] at whole
      split at whole
      · rename_i value chosen
        obtain ⟨_, same, whole⟩ := exists_of_bind_ok whole
        obtain ⟨later, completed, whole⟩ := exists_of_bind_ok whole
        obtain rfl := Except.ok.inj same
        obtain rfl := Except.ok.inj whole
        refine ⟨?_, ih others completed⟩
        rcases Option.or_eq_some_iff.mp chosen with given | ⟨-, absent⟩
        · exact .inl (here value given)
        · exact .inr absent
      · cases whole

theorem length_passColon_le (passed : passColon text = .ok rest) : rest.length ≤ text.length :=
  Nat.le_of_lt (length_of_mark passed)

theorem readMember_within (shrinking : fields.Shrinking) {name : Bytes} {slots filled : Slots types}
    (within : fields.SlotsWithin limit slots) (short : text.length ≤ limit)
    (ran : fields.readMember name slots text = .ok (filled, rest)) :
    rest.length ≤ text.length ∧ fields.SlotsWithin limit filled := by
  induction fields generalizing rest with
  | nil =>
      obtain ⟨behind, passed, ran⟩ := exists_of_bind_ok ran
      obtain ⟨after, skipped, ran⟩ := exists_of_bind_ok ran
      have passedShorter := length_passColon_le passed
      have skippedShorter := length_skipValue_le skipped
      obtain ⟨-, rfl⟩ := Prod.mk.inj (Except.ok.inj ran)
      exact ⟨by omega, trivial⟩
  | cons field fields ih =>
      obtain ⟨slot, slots⟩ := slots
      simp only [readMember] at ran
      split at ran
      · cases slot with
        | some given => cases ran
        | none =>
            obtain ⟨behind, passed, ran⟩ := exists_of_bind_ok ran
            obtain ⟨⟨value, after⟩, given, ran⟩ := exists_of_bind_ok ran
            have passedShorter := length_passColon_le passed
            have afterShorter := shrinking.1 _ _ _ given
            obtain ⟨rfl, same⟩ := Prod.mk.inj (Except.ok.inj ran)
            simp only at same
            subst same
            refine ⟨by omega, ?_, within.2⟩
            rintro _ ⟨⟩
            exact ⟨behind, after, by omega, given⟩
      · obtain ⟨⟨others, after⟩, member, ran⟩ := exists_of_bind_ok ran
        obtain ⟨afterShorter, othersWithin⟩ := ih shrinking.2 within.2 member
        obtain ⟨rfl, rfl⟩ := Prod.mk.inj (Except.ok.inj ran)
        exact ⟨afterShorter, within.1, othersWithin⟩

theorem length_nextMember_le {isFirst : Bool} {opened : Bytes}
    (next : nextMember isFirst text = .ok (some opened)) : opened.length ≤ text.length := by
  unfold nextMember at next
  split at next
  · cases next
  · rename_i starts
    have shorter := length_of_skipBlanks starts
    split at next
    · cases next
    · split at next
      · split at next
        · cases next
          omega
        · cases next
      · split at next
        · split at next
          · cases next
          · rename_i behind
            have behindShorter := length_of_skipBlanks behind
            split at next
            · cases next
              omega
            · cases next
        · cases next

theorem length_endObject_le (ended : endObject text = .ok rest) : rest.length ≤ text.length :=
  Nat.le_of_lt (length_of_mark ended)

theorem readMembers_within (shrinking : fields.Shrinking) {steps : Nat} {isFirst : Bool}
    {slots : Slots types} {values : Values types} (within : fields.SlotsWithin limit slots)
    (short : text.length ≤ limit)
    (ran : fields.readMembers steps isFirst slots text = .ok (values, rest)) :
    rest.length ≤ text.length ∧ fields.Within limit values := by
  induction steps generalizing isFirst slots text with
  | zero => cases ran
  | succ steps ih =>
      rw [readMembers] at ran
      obtain ⟨found, next, ran⟩ := exists_of_bind_ok ran
      cases found with
      | none =>
          obtain ⟨whole, completed, ran⟩ := exists_of_bind_ok ran
          obtain ⟨behind, ended, ran⟩ := exists_of_bind_ok ran
          obtain ⟨rfl, rfl⟩ := Prod.mk.inj (Except.ok.inj ran)
          exact ⟨length_endObject_le ended, complete_within within completed⟩
      | some opened =>
          have nextShorter := length_nextMember_le next
          obtain ⟨⟨name, named⟩, spelled, ran⟩ := exists_of_bind_ok ran
          have namedShorter := length_readString spelled
          obtain ⟨⟨filled, behind⟩, member, ran⟩ := exists_of_bind_ok ran
          obtain ⟨behindShorter, filledWithin⟩ :=
            readMember_within shrinking within (by omega) member
          obtain ⟨restShorter, valuesWithin⟩ := ih filledWithin (by omega) ran
          exact ⟨by omega, valuesWithin⟩

theorem readPositions_within (shrinking : fields.Shrinking) {isFirst : Bool}
    {values : Values types} (short : text.length ≤ limit)
    (ran : fields.readPositions isFirst text = .ok (values, rest)) :
    rest.length ≤ text.length ∧ fields.Within limit values := by
  induction fields generalizing isFirst text rest with
  | nil =>
      obtain ⟨behind, ended, ran⟩ := exists_of_bind_ok ran
      obtain ⟨-, rfl⟩ := Prod.mk.inj (Except.ok.inj ran)
      exact ⟨length_endList_le ended, trivial⟩
  | cons field fields ih =>
      rw [readPositions] at ran
      obtain ⟨found, next, ran⟩ := exists_of_bind_ok ran
      cases found with
      | some element =>
          have nextShorter := length_nextElement_le next
          obtain ⟨⟨value, behind⟩, given, ran⟩ := exists_of_bind_ok ran
          have behindShorter := shrinking.1 _ _ _ given
          obtain ⟨⟨others, last⟩, later, ran⟩ := exists_of_bind_ok ran
          obtain ⟨lastShorter, othersWithin⟩ := ih shrinking.2 (by omega) later
          obtain ⟨rfl, rfl⟩ := Prod.mk.inj (Except.ok.inj ran)
          exact ⟨by omega, .inl ⟨element, behind, by omega, given⟩, othersWithin⟩
      | none =>
          cases absent : field.absent with
          | none =>
              simp only [absent] at ran
              cases ran
          | some standing =>
              simp only [absent] at ran
              obtain ⟨⟨others, last⟩, later, ran⟩ := exists_of_bind_ok ran
              obtain ⟨lastShorter, othersWithin⟩ := ih shrinking.2 short later
              obtain ⟨rfl, rfl⟩ := Prod.mk.inj (Except.ok.inj ran)
              exact ⟨lastShorter, .inr absent, othersWithin⟩

theorem readRecord_within (shrinking : fields.Shrinking) {values : Values types}
    (ran : fields.readRecord text = .ok (values, rest)) :
    rest.length ≤ text.length ∧ fields.Within text.length values := by
  unfold readRecord at ran
  split at ran
  · cases ran
  · rename_i starts
    have shorter := length_of_skipBlanks starts
    split at ran
    · obtain ⟨restShorter, within⟩ := readMembers_within shrinking
        (slotsWithin_noSlots fields text.length) (by omega) ran
      exact ⟨by omega, within⟩
    · split at ran
      · obtain ⟨restShorter, within⟩ := readPositions_within shrinking (Nat.le_of_lt shorter) ran
        exact ⟨by omega, within⟩
      · cases ran

theorem shrinks_readRecord (shrinking : fields.Shrinking) : Shrinks fields.readRecord :=
  fun _ _ _ ran => (readRecord_within shrinking ran).1

end

end Fields

end Json

end VerifiableLog
