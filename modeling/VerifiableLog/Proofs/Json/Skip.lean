import VerifiableLog.Json.Skip
import VerifiableLog.Proofs.Json.Number

/-!
Passing over a value of JSON. The grammar of values is the one of lists and objects of any depth,
with blanks between the tokens. A value is passed over whole, whatever it holds, and in no more
steps than it has bytes.
-/

namespace VerifiableLog.Json

/-! ### The grammar of values -/

/-- What may stand between the quotes of a string. Half of a surrogate pair may stand alone. -/
inductive StringText : Bytes → Prop
  | nil : StringText []
  | plain {byte : UInt8} {token : Bytes} : IsPlain byte → StringText token →
      StringText (byte :: token)
  | short {kind : UInt8} {token : Bytes} : (simpleEscape? kind).isSome = true →
      StringText token → StringText (backslash :: kind :: token)
  | coded {digits : Bytes} {unit : Nat} {token : Bytes} : SpellsUnit digits unit →
      StringText token → StringText (backslash :: 0x75 :: (digits ++ token))

inductive ScalarText : Bytes → Prop
  | null : ScalarText [0x6e, 0x75, 0x6c, 0x6c]
  | true : ScalarText [0x74, 0x72, 0x75, 0x65]
  | false : ScalarText [0x66, 0x61, 0x6c, 0x73, 0x65]
  | number {text : Bytes} : NumberText text → ScalarText text
  | string {token : Bytes} : StringText token → ScalarText (quoteMark :: (token ++ [quoteMark]))

def Container.opener : Container → UInt8
  | .list => openList
  | .object => openObject

inductive NameText : Container → Bytes → Prop
  | list : NameText .list []
  | object {before token between : Bytes} : AllBlank before → StringText token →
      AllBlank between →
      NameText .object (before ++ quoteMark :: (token ++ quoteMark :: (between ++ [colon])))

mutual

inductive ValueText : Bytes → Prop
  | scalar {text : Bytes} : ScalarText text → ValueText text
  | empty {container : Container} {between : Bytes} : AllBlank between →
      ValueText (container.opener :: (between ++ [container.closer]))
  | filled {container : Container} {items : Bytes} : ItemsText container items →
      ValueText (container.opener :: items)

inductive ItemsText : Container → Bytes → Prop
  | last {container : Container} {name before value after : Bytes} : NameText container name →
      AllBlank before → ValueText value → AllBlank after →
      ItemsText container (name ++ (before ++ (value ++ (after ++ [container.closer]))))
  | more {container : Container} {name before value after items : Bytes} :
      NameText container name → AllBlank before → ValueText value → AllBlank after →
      ItemsText container items →
      ItemsText container (name ++ (before ++ (value ++ (after ++ comma :: items))))

end

/-! ### Scalars -/

theorem skipString_append {token : Bytes} (form : StringText token) (rest : Bytes) :
    skipString (token ++ quoteMark :: rest) = .ok rest := by
  have notQuote : backslash ≠ quoteMark := by decide
  induction form with
  | nil =>
      unfold skipString
      simp
  | plain isPlain _ ih =>
      unfold skipString
      simp [isPlain.1, isPlain.2.1, UInt8.not_lt.mp isPlain.2.2, ih]
  | short named _ ih =>
      unfold skipString
      simp [notQuote, named, ih]
  | coded digits _ ih =>
      unfold skipString
      simp [notQuote, simpleEscape?, digits.readUnit_append, digits.drop_append, bind, Except.bind,
        ih]

def StartsValue (text : Bytes) : Prop :=
  ∃ first more, text = first :: more ∧ isBlank first = false ∧ first ≠ closeList ∧
    first ≠ closeObject

theorem digit_startsNumber : ∀ byte : UInt8, isDigit byte = true →
    isBlank byte = false ∧ byte ≠ closeList ∧ byte ≠ closeObject ∧ byte ≠ quoteMark ∧
      byte ≠ minusSign ∧ openedBy? byte = none := by
  grind [isDigit, isBlank, closeList, closeObject, quoteMark, minusSign, openedBy?, openList,
    openObject]

theorem WholeText.starts {whole : Bytes} (form : WholeText whole) :
    ∃ first more, whole = first :: more ∧ isDigit first = true := by
  cases form with
  | zero => exact ⟨_, _, rfl, rfl⟩
  | digits first => exact ⟨_, _, rfl, first⟩

theorem skipScalar_append {text : Bytes} (form : ScalarText text) :
    ∃ first more, text = first :: more ∧ isBlank first = false ∧ first ≠ closeList ∧
      first ≠ closeObject ∧ openedBy? first = none ∧
      ∀ rest, Delimited rest → skipScalar first (more ++ rest) = .ok rest := by
  cases form with
  | null => exact ⟨_, _, rfl, rfl, by decide, by decide, rfl, fun rest _ => expect_append _ rest⟩
  | true => exact ⟨_, _, rfl, rfl, by decide, by decide, rfl, fun rest _ => expect_append _ rest⟩
  | false => exact ⟨_, _, rfl, rfl, by decide, by decide, rfl, fun rest _ => expect_append _ rest⟩
  | string token =>
      refine ⟨_, _, rfl, rfl, by decide, by decide, rfl, fun rest _ => ?_⟩
      rw [List.append_assoc]
      exact skipString_append token rest
  | number number =>
      obtain ⟨sign, whole, fraction, exponent⟩ := number
      rename_i signText wholeText fractionText exponentText
      rcases sign with rfl | rfl
      · obtain ⟨first, more, rfl, digit⟩ := whole.starts
        obtain ⟨visible, notList, notObject, notQuote, notMinus, scalar⟩ :=
          digit_startsNumber first digit
        refine ⟨first, _, rfl, visible, notList, notObject, scalar, fun rest delimited => ?_⟩
        have skipped := skipUnsigned_append whole fraction exponent delimited
        simpa [skipScalar, notQuote, notMinus, digit] using skipped
      · refine ⟨_, _, rfl, rfl, by decide, by decide, rfl, fun rest delimited => ?_⟩
        have skipped := skipUnsigned_append whole fraction exponent delimited
        simpa [skipScalar, minusSign, quoteMark] using skipped

theorem ValueText.starts {text : Bytes} (form : ValueText text) : StartsValue text := by
  cases form with
  | scalar scalar =>
      obtain ⟨first, more, rfl, visible, notList, notObject, -⟩ := skipScalar_append scalar
      exact ⟨first, more, rfl, visible, notList, notObject⟩
  | @empty container => cases container <;> exact ⟨_, _, rfl, rfl, by decide, by decide⟩
  | @filled container => cases container <;> exact ⟨_, _, rfl, rfl, by decide, by decide⟩

/-! ### Containers -/

theorem skipBlanks_skipBlanks (text : Bytes) : skipBlanks (skipBlanks text) = skipBlanks text := by
  induction text with
  | nil => rfl
  | cons byte text ih =>
      cases visible : isBlank byte with
      | true =>
          have skipped : skipBlanks (byte :: text) = skipBlanks text :=
            List.dropWhile_cons_of_pos visible
          rw [skipped, ih]
      | false => rw [skipBlanks_cons visible, skipBlanks_cons visible]

theorem skipName_append {container : Container} {name : Bytes} (form : NameText container name)
    {start rest : Bytes} (here : skipBlanks start = skipBlanks (name ++ rest)) :
    ∃ text, container.skipName start = .ok text ∧ skipBlanks text = skipBlanks rest := by
  cases form with
  | list => exact ⟨start, rfl, here⟩
  | object before token between =>
      rw [List.append_assoc, skipBlanks_append before, List.cons_append,
        skipBlanks_cons (by decide)] at here
      refine ⟨rest, ?_, rfl⟩
      simp [Container.skipName, here, skipString_append token, skipBlanks_between between, colon,
        isBlank, bind, Except.bind, pure, Except.pure]

theorem NameText.items_start {container : Container} {name before value : Bytes}
    (form : NameText container name) (blank : AllBlank before) (valueForm : ValueText value)
    (rest : Bytes) :
    ∃ first more, skipBlanks (name ++ (before ++ (value ++ rest))) = first :: more ∧
      first ≠ container.closer := by
  cases form with
  | list =>
      obtain ⟨first, more, rfl, visible, notList, -⟩ := valueForm.starts
      exact ⟨first, more ++ rest, skipBlanks_between blank visible _, notList⟩
  | object blankBefore =>
      rw [List.append_assoc, List.cons_append]
      exact ⟨_, _, skipBlanks_between blankBefore (by decide) _, by decide⟩

theorem ItemsText.starts {container : Container} {items : Bytes} (form : ItemsText container items)
    (rest : Bytes) :
    ∃ first more, skipBlanks (items ++ rest) = first :: more ∧ first ≠ container.closer := by
  cases form with
  | last name before value after | more name before value after =>
      simp only [List.append_assoc]
      exact name.items_start before value _

theorem delimited_closer (container : Container) (rest : Bytes) :
    Delimited (container.closer :: rest) := by
  rintro _ ⟨⟩
  cases container
  · exact .inr (.inr (.inl rfl))
  · exact .inr (.inr (.inr rfl))

theorem delimited_comma (rest : Bytes) : Delimited (comma :: rest) := by
  rintro _ ⟨⟩
  exact .inr (.inl rfl)

theorem afterValue_closer {after : Bytes} (blank : AllBlank after) (container : Container)
    (outer : List Container) (rest : Bytes) :
    afterValue (container :: outer) (after ++ container.closer :: rest) =
      afterValue outer rest := by
  have visible : isBlank container.closer = false := by cases container <;> rfl
  have notComma : container.closer ≠ comma := by cases container <;> decide
  simp [afterValue, skipBlanks_between blank visible, notComma]

theorem afterValue_comma {after : Bytes} (blank : AllBlank after) (container : Container)
    (outer : List Container) {rest text : Bytes} (named : container.skipName rest = .ok text) :
    afterValue (container :: outer) (after ++ comma :: rest) =
      .ok (.member (container :: outer) text) := by
  simp [afterValue, skipBlanks_between blank (show isBlank comma = false from rfl), named, bind,
    Except.bind, pure, Except.pure]

/-! ### Steps -/

def goOn (steps : Nat) (progress : Except Fault Progress) : Except Fault Bytes := do
  match ← progress with
  | .finished rest => return rest
  | .member containers text => skipSteps steps containers text

theorem skipSteps_succ (steps : Nat) (containers : List Container) (text : Bytes) :
    skipSteps (steps + 1) containers text = goOn steps (startValue containers text) := rfl

/-- A value takes some number of steps, after which the outer containers go on behind it. -/
def PassesOver (text : Bytes) : Prop :=
  ∃ count ≤ text.length, ∀ steps containers start rest, Delimited rest →
    skipBlanks start = skipBlanks (text ++ rest) →
    skipSteps (count + steps) containers start = goOn steps (afterValue containers rest)

def ItemsPassOver (container : Container) (items : Bytes) : Prop :=
  ∃ count ≤ items.length, ∀ steps outer start rest, Delimited rest →
    skipBlanks start = skipBlanks (items ++ rest) →
    ∃ text, container.skipName start = .ok text ∧
      skipSteps (count + steps) (container :: outer) text = goOn steps (afterValue outer rest)

theorem passesOver_scalar {text : Bytes} (form : ScalarText text) : PassesOver text := by
  obtain ⟨first, more, rfl, visible, -, -, scalar, skipped⟩ := skipScalar_append form
  refine ⟨1, by simp, ?_⟩
  intro steps containers start rest delimited here
  rw [List.cons_append, skipBlanks_cons visible] at here
  rw [Nat.add_comm, skipSteps_succ, startValue, here]
  simp [scalar, skipped rest delimited, bind, Except.bind]

theorem openedBy?_opener (container : Container) : openedBy? container.opener = some container := by
  cases container <;> rfl

theorem isBlank_opener (container : Container) : isBlank container.opener = false := by
  cases container <;> rfl

theorem passesOver_empty (container : Container) {between : Bytes} (blank : AllBlank between) :
    PassesOver (container.opener :: (between ++ [container.closer])) := by
  refine ⟨1, by simp, ?_⟩
  intro steps containers start rest delimited here
  have visible : isBlank container.closer = false := by cases container <;> rfl
  rw [List.cons_append, skipBlanks_cons (isBlank_opener container), List.append_assoc] at here
  rw [Nat.add_comm, skipSteps_succ, startValue, here]
  simp [openedBy?_opener, skipBlanks_between blank visible]

theorem passesOver_filled {container : Container} {items : Bytes}
    (form : ItemsText container items) (passes : ItemsPassOver container items) :
    PassesOver (container.opener :: items) := by
  obtain ⟨count, short, passed⟩ := passes
  refine ⟨count + 1, by simpa using short, ?_⟩
  intro steps containers start rest delimited here
  obtain ⟨next, more, starts, notCloser⟩ := form.starts rest
  obtain ⟨text, named, skipped⟩ := passed steps containers (next :: more) rest delimited
    (by rw [← starts, skipBlanks_skipBlanks])
  rw [List.cons_append, skipBlanks_cons (isBlank_opener container)] at here
  rw [Nat.add_right_comm, skipSteps_succ, startValue, here]
  simp [openedBy?_opener, starts, notCloser, named, goOn, skipped, bind, Except.bind, pure,
    Except.pure]

theorem itemsPassOver_last {container : Container} {name before value after : Bytes}
    (form : NameText container name) (blankBefore : AllBlank before) (passes : PassesOver value)
    (blankAfter : AllBlank after) :
    ItemsPassOver container (name ++ (before ++ (value ++ (after ++ [container.closer])))) := by
  obtain ⟨count, short, passed⟩ := passes
  refine ⟨count, by simp; omega, ?_⟩
  intro steps outer start rest delimited here
  simp only [List.append_assoc] at here
  obtain ⟨text, named, found⟩ := skipName_append form here
  rw [skipBlanks_append blankBefore] at found
  refine ⟨text, named, ?_⟩
  rw [passed steps (container :: outer) text _ (delimited_append blankAfter
    (delimited_closer container rest)) found]
  exact congrArg (goOn steps) (afterValue_closer blankAfter container outer rest)

theorem itemsPassOver_more {container : Container} {name before value after items : Bytes}
    (form : NameText container name) (blankBefore : AllBlank before) (passes : PassesOver value)
    (blankAfter : AllBlank after) (others : ItemsPassOver container items) :
    ItemsPassOver container (name ++ (before ++ (value ++ (after ++ comma :: items)))) := by
  obtain ⟨count, short, passed⟩ := passes
  obtain ⟨otherCount, otherShort, othersPassed⟩ := others
  refine ⟨count + otherCount, by simp; omega, ?_⟩
  intro steps outer start rest delimited here
  simp only [List.append_assoc, List.cons_append] at here
  obtain ⟨text, named, found⟩ := skipName_append form here
  rw [skipBlanks_append blankBefore] at found
  obtain ⟨next, nextNamed, skipped⟩ :=
    othersPassed steps outer (items ++ rest) rest delimited rfl
  refine ⟨text, named, ?_⟩
  rw [Nat.add_assoc, passed (otherCount + steps) (container :: outer) text _ (delimited_append
    blankAfter (delimited_comma _)) found, afterValue_comma blankAfter container outer nextNamed]
  exact skipped

mutual

theorem ValueText.passesOver {text : Bytes} : ValueText text → PassesOver text
  | .scalar form => passesOver_scalar form
  | .empty blank => passesOver_empty _ blank
  | .filled form => passesOver_filled form form.passOver

theorem ItemsText.passOver {container : Container} {items : Bytes} :
    ItemsText container items → ItemsPassOver container items
  | .last name before value after => itemsPassOver_last name before value.passesOver after
  | .more name before value after others =>
    itemsPassOver_more name before value.passesOver after others.passOver

end

theorem skipValue_append {value : Bytes} (form : ValueText value) {before rest : Bytes}
    (blank : AllBlank before) (delimited : Delimited rest) :
    skipValue (before ++ (value ++ rest)) = .ok rest := by
  obtain ⟨count, short, passed⟩ := form.passesOver
  have enough : (before ++ (value ++ rest)).length + 1 =
      count + ((before ++ (value ++ rest)).length + 1 - count) := by
    simp only [List.length_append]
    omega
  rw [skipValue, enough, passed _ [] _ rest delimited (skipBlanks_append blank _)]
  rfl

end VerifiableLog.Json
