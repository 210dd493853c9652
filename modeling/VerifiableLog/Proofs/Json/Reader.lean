import VerifiableLog.Json.Reader
import VerifiableLog.Proofs.Hex
import VerifiableLog.Proofs.Json.Skip
import VerifiableLog.Proofs.Text.Utf8

/-!
Reading values of a known type from their JSON text. A text is read as a value if it is so wherever
it stands: after any blanks, and before anything that ends it.
-/

namespace VerifiableLog.Json

variable {α β : Type}

def Reads (read : Reader α) (text : Bytes) (value : α) : Prop :=
  ∀ before rest, AllBlank before → Delimited rest →
    read (before ++ (text ++ rest)) = .ok (value, rest)

theorem readAll_of_reads {read : Reader α} {text : Bytes} {value : α}
    (reads : Reads read text value) : readAll read text = .ok value := by
  have whole := reads [] [] allBlank_nil delimited_nil
  rw [List.nil_append, List.append_nil] at whole
  simp [readAll, whole, skipBlanks, bind, Except.bind, pure, Except.pure]

theorem reads_mapReader {read : Reader α} {build : α → Option β} {text : Bytes} {value : α}
    {built : β} (reads : Reads read text value) (whole : build value = some built) :
    Reads (mapReader read build) text built := by
  intro before rest blank delimited
  simp [mapReader, reads before rest blank delimited, whole, bind, Except.bind, pure, Except.pure]

/-! ### Capital digits -/

/-- The text is read as the value even if some of its hexadecimal digits are capital letters. -/
def ReadsAnyCase (read : Reader α) (written : Bytes) (value : α) : Prop :=
  ∀ text, text.map Hex.lowerDigit = written → Reads read text value

theorem lowerDigit_letter : ∀ byte : UInt8,
    Hex.lowerDigit byte = byte ∨ 0x61 ≤ Hex.lowerDigit byte ∧ Hex.lowerDigit byte ≤ 0x66 := by
  grind [Hex.lowerDigit]

theorem eq_of_lowerDigit {byte other : UInt8} (notLetter : other < 0x61 ∨ 0x66 < other)
    (lowered : Hex.lowerDigit byte = other) : byte = other := by
  subst lowered
  rcases lowerDigit_letter byte with same | ⟨lower, upper⟩
  · exact same.symm
  · rcases notLetter with below | above
    · exact absurd below (UInt8.not_lt.mpr lower)
    · exact absurd above (UInt8.not_lt.mpr upper)

theorem eq_of_map_lowerDigit {text written : Bytes}
    (notLetters : ∀ byte ∈ written, byte < 0x61 ∨ 0x66 < byte)
    (lowered : text.map Hex.lowerDigit = written) : text = written := by
  subst lowered
  have same : ∀ byte ∈ text, Hex.lowerDigit byte = id byte := fun byte member =>
    (eq_of_lowerDigit (notLetters _ (List.mem_map_of_mem member)) rfl).symm
  rw [List.map_congr_left same, List.map_id]

theorem lowered_between {opener closer : UInt8} (openerKept : opener < 0x61 ∨ 0x66 < opener)
    (closerKept : closer < 0x61 ∨ 0x66 < closer) {text written : Bytes}
    (lowered : text.map Hex.lowerDigit = opener :: (written ++ [closer])) :
    ∃ inner, text = opener :: (inner ++ [closer]) ∧ inner.map Hex.lowerDigit = written := by
  obtain ⟨first, more, rfl, opening, others⟩ := List.map_eq_cons_iff.mp lowered
  obtain ⟨inner, last, rfl, same, closing⟩ := List.map_eq_append_iff.mp others
  obtain ⟨close, none, rfl, closed, empty⟩ := List.map_eq_cons_iff.mp closing
  obtain rfl := List.map_eq_nil_iff.mp empty
  rw [eq_of_lowerDigit openerKept opening, eq_of_lowerDigit closerKept closed]
  exact ⟨inner, rfl, same⟩

/-! ### Numbers -/

theorem reads_natural {value largest : Nat} (bound : value ≤ largest)
    (fits : largest ≤ largestWord) : Reads (readNatural largest) (writeNatural value) value := by
  intro before rest blank delimited
  have read := readUnsigned_writeNatural (Nat.le_trans bound fits) delimited
  obtain ⟨all, -, first, digits, starts, -⟩ := writeNatural_spec value
  have digit : isDigit first = true := all first (by rw [starts]; exact List.mem_cons_self)
  obtain ⟨visible, -, -, -, notMinus, -⟩ := digit_startsNumber first digit
  rw [starts, List.cons_append] at read ⊢
  simp [readNatural, skipBlanks_between blank visible, digit, readNumber, notMinus, read, bound,
    bind, Except.bind, pure, Except.pure]

theorem lowerDigit_isDigit : ∀ byte : UInt8, isDigit byte = true → Hex.lowerDigit byte = byte := by
  grind [isDigit, Hex.lowerDigit]

theorem map_lowerDigit_writeNatural (value : Nat) :
    (writeNatural value).map Hex.lowerDigit = writeNatural value := by
  have same : ∀ byte ∈ writeNatural value, Hex.lowerDigit byte = id byte := fun byte member =>
    lowerDigit_isDigit byte ((writeNatural_spec value).1 byte member)
  rw [List.map_congr_left same, List.map_id]

theorem digit_notLetter : ∀ byte : UInt8, isDigit byte = true → byte < 0x61 := by
  grind [isDigit]

theorem eq_of_lowered_natural {value : Nat} {text : Bytes}
    (lowered : text.map Hex.lowerDigit = writeNatural value) : text = writeNatural value := by
  apply eq_of_map_lowerDigit _ lowered
  intro byte member
  exact .inl (digit_notLetter byte ((writeNatural_spec value).1 byte member))

theorem readsAnyCase_byte (value : UInt8) :
    ReadsAnyCase readByte (writeNatural value.toNat) value := by
  intro text lowered
  have bound := value.toNat_lt
  rw [eq_of_lowered_natural lowered]
  exact reads_mapReader (reads_natural (by omega) (by decide)) (by simp)

theorem readsAnyCase_word (value : UInt64) : ReadsAnyCase readWord (writeWord value) value := by
  intro text lowered
  have bound := value.toNat_lt
  rw [eq_of_lowered_natural lowered]
  exact reads_mapReader (reads_natural (by rw [largestWord]; omega) (Nat.le_refl _)) (by simp)

/-! ### Strings -/

theorem reads_text {content token : Bytes} (spells : Spells content token)
    (isText : Text.isUtf8 content = true) :
    Reads readText (quoteMark :: (token ++ [quoteMark])) content := by
  intro before rest blank _
  have read := readString_of_spells spells isText rest
  simp [readText, skipBlanks_between blank (show isBlank quoteMark = false from rfl), read]

theorem hexDigit_isPlain : ∀ byte : UInt8, (Hex.digitValue? byte).isSome = true →
    (byte ≠ quoteMark ∧ byte ≠ backslash ∧ ¬ byte < 0x20) ∧ byte < 0x80 := by
  grind [Hex.digitValue?, quoteMark, backslash]

theorem reads_hexText {digits content : Bytes}
    (lowered : digits.map Hex.lowerDigit = Hex.encode content) :
    Reads readText (quoteMark :: (digits ++ [quoteMark])) digits := by
  have digit : ∀ byte ∈ digits, IsPlain byte ∧ byte < 0x80 := fun byte member =>
    hexDigit_isPlain byte (Hex.isSome_digitValue?_of_mem lowered member)
  exact reads_text (spells_of_plain fun byte member => (digit byte member).1)
    (Text.isUtf8_of_ascii fun byte member => (digit byte member).2)

theorem map_lowerDigit_writeBlob (content : Bytes) :
    (writeBlob content).map Hex.lowerDigit = writeBlob content := by
  simp [writeBlob, Hex.map_lowerDigit_encode, show Hex.lowerDigit quoteMark = quoteMark from rfl]

theorem lowered_blob {text content : Bytes}
    (lowered : text.map Hex.lowerDigit = writeBlob content) :
    ∃ digits, text = quoteMark :: (digits ++ [quoteMark]) ∧
      digits.map Hex.lowerDigit = Hex.encode content :=
  lowered_between (by decide) (by decide) lowered

theorem readsAnyCase_blob (content : Bytes) :
    ReadsAnyCase readBlob (writeBlob content) content := by
  intro text lowered
  obtain ⟨digits, rfl, same⟩ := lowered_blob lowered
  exact reads_mapReader (reads_hexText same) (by rw [Hex.decode_of_lowered same]; rfl)

theorem readsAnyCase_digest (digest : Digest) :
    ReadsAnyCase readDigest (writeDigest digest) digest := by
  intro text lowered
  obtain ⟨digits, rfl, same⟩ := lowered_blob lowered
  refine reads_mapReader (reads_hexText same) ?_
  simp [Digest.parse, Hex.decode_of_lowered same, Digest.ofBytes, digest.length_bytes,
    Except.toOption]

/-! ### Values that may be absent -/

theorem reads_none (read : Reader α) : Reads (readOptional read) [0x6e, 0x75, 0x6c, 0x6c] none := by
  intro before rest blank _
  have read := expect_append [0x75, 0x6c, 0x6c] rest
  rw [List.cons_append, readOptional, skipBlanks_between blank (by decide)]
  simp only [read, bind, Except.bind, pure, Except.pure]

theorem reads_some {read : Reader α} {first : UInt8} {more : Bytes} {value : α}
    (visible : isBlank first = false) (notNull : first ≠ 0x6e)
    (reads : Reads read (first :: more) value) :
    Reads (readOptional read) (first :: more) (some value) := by
  intro before rest blank delimited
  have present : Reads (mapReader read fun value => some (some value)) (first :: more)
      (some value) :=
    reads_mapReader reads rfl
  have mapped := present [] rest allBlank_nil delimited
  rw [List.nil_append, List.cons_append] at mapped
  rw [List.cons_append, readOptional, skipBlanks_between blank visible]
  simp [notNull, mapped]

theorem map_lowerDigit_writeOptional (content : Option Bytes) :
    (writeOptional writeBlob content).map Hex.lowerDigit = writeOptional writeBlob content := by
  cases content with
  | none => rfl
  | some content => exact map_lowerDigit_writeBlob content

theorem readsAnyCase_optionalBlob (content : Option Bytes) :
    ReadsAnyCase (readOptional readBlob) (writeOptional writeBlob content) content := by
  intro text lowered
  cases content with
  | none =>
      rw [eq_of_map_lowerDigit (by simp [writeOptional]) lowered]
      exact reads_none readBlob
  | some content =>
      obtain ⟨digits, rfl, -⟩ := lowered_blob lowered
      exact reads_some (by decide) (by decide) (readsAnyCase_blob content _ lowered)

/-! ### Lists -/

def elementsTail (elements : List (Bytes × α)) : Bytes :=
  elements.flatMap fun element => comma :: element.1

theorem joinWith_cons (separator first : Bytes) (rest : List Bytes) :
    joinWith separator (first :: rest) = first ++ rest.flatMap (separator ++ ·) := by
  induction rest generalizing first with
  | nil => simp [joinWith]
  | cons second rest ih =>
      have join : joinWith separator (first :: second :: rest) =
          first ++ separator ++ joinWith separator (second :: rest) := rfl
      rw [join, ih, List.flatMap_cons, List.append_assoc, List.append_assoc]

theorem joinWith_elements (element : Bytes × α) (elements : List (Bytes × α)) :
    joinWith [comma] ((element :: elements).map Prod.fst) = element.1 ++ elementsTail elements := by
  rw [List.map_cons, joinWith_cons, List.flatMap_map]
  rfl

section Elements

variable {read : Reader α} {elements : List (Bytes × α)}

theorem delimited_elementsTail (elements : List (Bytes × α)) (rest : Bytes) :
    Delimited (elementsTail elements ++ closeList :: rest) := by
  cases elements with
  | nil => exact delimited_closer .list rest
  | cons => exact delimited_comma _

theorem length_elementsTail (elements : List (Bytes × α)) :
    elements.length ≤ (elementsTail elements).length := by
  induction elements with
  | nil => exact Nat.le_refl 0
  | cons element elements ih =>
      rw [elementsTail, List.flatMap_cons, ← elementsTail]
      simp only [List.length_append, List.length_cons]
      omega

theorem readElements_tail
    (each : ∀ element ∈ elements, StartsValue element.1 ∧ Reads read element.1 element.2)
    {before : List α} (notFirst : before ≠ []) (rest : Bytes) (steps : Nat) :
    readElements read (elements.length + 1 + steps) before
        (elementsTail elements ++ closeList :: rest) =
      .ok (before.reverse ++ elements.map Prod.snd, rest) := by
  have isLater : before.isEmpty = false := by simpa using notFirst
  have visible : isBlank closeList = false := rfl
  -- The induction is on the elements that are left, with those before them already read.
  induction elements generalizing before with
  | nil =>
      rw [List.length_nil, Nat.zero_add, Nat.add_comm, readElements]
      simp [elementsTail, nextElement, endList, skipBlanks_cons visible, bind, Except.bind, pure,
        Except.pure]
  | cons element elements ih =>
      obtain ⟨⟨first, more, starts, visible, notClose, -⟩, reads⟩ := each element List.mem_cons_self
      have value := reads [] _ allBlank_nil (delimited_elementsTail elements rest)
      have others := @ih (fun later member => each later (List.mem_cons_of_mem _ member))
        (element.2 :: before) (by simp) rfl
      have commaVisible : isBlank comma = false := rfl
      have commaOpen : comma ≠ closeList := by decide
      rw [List.nil_append, starts, List.cons_append] at value
      rw [List.length_cons, Nat.add_right_comm, readElements, elementsTail,
        List.flatMap_cons, ← elementsTail, starts]
      simp only [nextElement, List.cons_append, List.append_assoc, skipBlanks_cons commaVisible,
        skipBlanks_cons visible, isLater, commaOpen, notClose, if_false, if_true, bind, Except.bind,
        value, Bool.false_eq_true]
      rw [others, List.map_cons, List.reverse_cons, List.append_assoc]
      rfl

theorem reads_list
    (each : ∀ element ∈ elements, StartsValue element.1 ∧ Reads read element.1 element.2) :
    Reads (readList read) (openList :: (joinWith [comma] (elements.map Prod.fst) ++ [closeList]))
      (elements.map Prod.snd) := by
  intro before rest blank _
  have opened : isBlank openList = false := rfl
  cases elements with
  | nil =>
      have visible : isBlank closeList = false := rfl
      simp [readList, skipBlanks_between blank opened, joinWith, readElements, nextElement, endList,
        skipBlanks_cons visible, bind, Except.bind, pure, Except.pure]
  | cons element elements =>
      obtain ⟨⟨first, more, starts, visible, notClose, -⟩, reads⟩ := each element List.mem_cons_self
      have value := reads [] _ allBlank_nil (delimited_elementsTail elements rest)
      have others := readElements_tail
        (fun later member => each later (List.mem_cons_of_mem _ member))
        (List.cons_ne_nil element.2 []) rest
      have short := length_elementsTail elements
      obtain ⟨steps, enough⟩ : ∃ steps, (element.1 ++ (elementsTail elements ++
          closeList :: rest)).length = elements.length + 1 + steps := by
        apply Nat.exists_eq_add_of_le
        simp only [List.length_append, List.length_cons]
        omega
      rw [joinWith_elements, List.cons_append, readList, skipBlanks_between blank opened]
      simp only [List.append_assoc, List.cons_append, List.nil_append, if_true, enough]
      rw [List.nil_append, starts, List.cons_append] at value
      rw [readElements, starts]
      simp only [nextElement, List.cons_append, skipBlanks_cons visible, notClose, if_false,
        if_true, List.isEmpty_nil, bind, Except.bind, value, others]
      rfl

end Elements

theorem lowered_elementsTail {write : α → Bytes} (values : List α) {text : Bytes}
    (lowered : text.map Hex.lowerDigit = values.flatMap fun value => comma :: write value) :
    ∃ elements : List (Bytes × α), text = elementsTail elements ∧ elements.map Prod.snd = values ∧
      ∀ element ∈ elements, element.1.map Hex.lowerDigit = write element.2 := by
  induction values generalizing text with
  | nil => exact ⟨[], List.map_eq_nil_iff.mp lowered, rfl, by simp⟩
  | cons value values ih =>
      rw [List.flatMap_cons, List.cons_append, List.map_eq_cons_iff] at lowered
      obtain ⟨first, more, rfl, separator, others⟩ := lowered
      obtain ⟨element, later, rfl, same, laterLowered⟩ := List.map_eq_append_iff.mp others
      obtain ⟨elements, rfl, rfl, each⟩ := ih laterLowered
      rw [eq_of_lowerDigit (.inl (by decide)) separator]
      exact ⟨(element, value) :: elements, rfl, rfl, List.forall_mem_cons.mpr ⟨same, each⟩⟩

theorem lowered_list {write : α → Bytes} {values : List α} {text : Bytes}
    (lowered : text.map Hex.lowerDigit = writeList write values) :
    ∃ elements : List (Bytes × α),
      text = openList :: (joinWith [comma] (elements.map Prod.fst) ++ [closeList]) ∧
      elements.map Prod.snd = values ∧
      ∀ element ∈ elements, element.1.map Hex.lowerDigit = write element.2 := by
  obtain ⟨inner, rfl, same⟩ := lowered_between (by decide) (by decide) lowered
  cases values with
  | nil => exact ⟨[], by rw [List.map_eq_nil_iff.mp same]; rfl, rfl, by simp⟩
  | cons value values =>
      rw [List.map_cons, joinWith_cons, List.flatMap_map] at same
      obtain ⟨element, later, rfl, here, laterLowered⟩ := List.map_eq_append_iff.mp same
      obtain ⟨elements, rfl, rfl, each⟩ := lowered_elementsTail values laterLowered
      refine ⟨(element, value) :: elements, ?_, rfl, List.forall_mem_cons.mpr ⟨here, each⟩⟩
      rw [joinWith_elements]

theorem map_lowerDigit_writeList {write : α → Bytes}
    (each : ∀ value, (write value).map Hex.lowerDigit = write value) (values : List α) :
    (writeList write values).map Hex.lowerDigit = writeList write values := by
  have separator : Hex.lowerDigit comma = comma := rfl
  have joined : (joinWith [comma] (values.map write)).map Hex.lowerDigit =
      joinWith [comma] (values.map write) := by
    cases values with
    | nil => rfl
    | cons value values =>
        simp [joinWith_cons, List.map_flatMap, List.flatMap_map, each, separator]
  simp [writeList, joined, show Hex.lowerDigit openList = openList from rfl,
    show Hex.lowerDigit closeList = closeList from rfl]

theorem readsAnyCase_words (values : List UInt64) :
    ReadsAnyCase (readList readWord) (writeList writeWord values) values := by
  intro text lowered
  obtain ⟨elements, rfl, rfl, each⟩ := lowered_list lowered
  apply reads_list
  intro element member
  have same := each element member
  refine ⟨?_, readsAnyCase_word element.2 element.1 same⟩
  obtain ⟨all, -, first, more, starts, -⟩ := writeNatural_spec element.2.toNat
  obtain ⟨visible, notList, notObject, -⟩ := digit_startsNumber first
    (all first (by rw [starts]; exact List.mem_cons_self))
  exact ⟨first, more, (eq_of_lowered_natural same).trans starts, visible, notList, notObject⟩

theorem readsAnyCase_digests (values : List Digest) :
    ReadsAnyCase (readList readDigest) (writeList writeDigest values) values := by
  intro text lowered
  obtain ⟨elements, rfl, rfl, each⟩ := lowered_list lowered
  apply reads_list
  intro element member
  have same := each element member
  refine ⟨?_, readsAnyCase_digest element.2 element.1 same⟩
  obtain ⟨digits, starts, -⟩ := lowered_blob same
  exact ⟨quoteMark, _, starts, by decide, by decide, by decide⟩

end VerifiableLog.Json
