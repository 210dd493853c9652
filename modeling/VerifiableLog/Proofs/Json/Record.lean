import VerifiableLog.Proofs.Json.Reader

/-!
Reading a record from an object. Its members may stand in any order, with blanks anywhere between
the tokens and with names spelled in any way; members with other names may hold any value of JSON.
What has been read at any point is told by the names that have been met so far.
-/

namespace VerifiableLog.Json

/-! ### Objects -/

inductive MemberText : Bytes × Bytes → Bytes → Prop
  | spelled {name value token before between lead after : Bytes} : Spells name token →
      Text.isUtf8 name = true → AllBlank before → AllBlank between → AllBlank lead →
      AllBlank after →
      MemberText (name, value) (before ++ quoteMark ::
        (token ++ quoteMark :: (between ++ colon :: (lead ++ (value ++ after)))))

inductive MembersText : Members → Bytes → Prop
  | last {member : Bytes × Bytes} {text : Bytes} : MemberText member text →
      MembersText [member] (text ++ [closeObject])
  | more {member : Bytes × Bytes} {members : Members} {text items : Bytes} :
      MemberText member text → MembersText members items →
      MembersText (member :: members) (text ++ comma :: items)

inductive ObjectText : Members → Bytes → Prop
  | filled {members : Members} {items : Bytes} : MembersText members items →
      ObjectText members (openObject :: items)

theorem memberText_written {name : Bytes} (isText : Text.isUtf8 name = true) (value : Bytes) :
    MemberText (name, value) (writeString name ++ colon :: value) := by
  have member := @MemberText.spelled name value _ [] [] [] [] (spells_flatMap_escapeByte name)
    isText allBlank_nil allBlank_nil allBlank_nil allBlank_nil
  simpa [writeString] using member

theorem objectText_writeObject {members : Members} (notEmpty : members ≠ [])
    (isText : ∀ member ∈ members, Text.isUtf8 member.1 = true) :
    ObjectText members (writeObject members) := by
  rw [writeObject, List.cons_append]
  apply ObjectText.filled
  induction members with
  | nil => exact absurd rfl notEmpty
  | cons member members ih =>
      have first := memberText_written (isText member List.mem_cons_self) member.2
      cases members with
      | nil => exact .last first
      | cons second members =>
          have others := ih (by simp) fun later inside =>
            isText later (List.mem_cons_of_mem _ inside)
          have whole := MembersText.more first others
          simpa [joinWith] using whole

/-! ### Fields -/

namespace Fields

def names : {types : List Type} → Fields types → List Bytes
  | _, nil => []
  | _, cons field fields => field.name :: fields.names

/-- The slots once the members with the names `met` have been read. -/
def filled : {types : List Type} → Fields types → Values types → List Bytes → Slots types
  | _, nil, (), _ => ()
  | _, cons field fields, (value, values), met =>
    (if field.name ∈ met then some value else none, fields.filled values met)

def Takes : {types : List Type} → Fields types → Values types → Bytes × Bytes → Prop
  | _, nil, (), member => ValueText member.2
  | _, cons field fields, (value, values), member =>
    if field.name = member.1 then Reads field.read member.2 value else fields.Takes values member

def Covered : {types : List Type} → Fields types → Values types → List Bytes → Prop
  | _, nil, (), _ => True
  | _, cons field fields, (value, values), met =>
    (field.name ∈ met ∨ field.absent = some value) ∧ fields.Covered values met

section

variable {types : List Type} {fields : Fields types} {values : Values types}

theorem filled_none (fields : Fields types) (values : Values types) :
    fields.filled values [] = fields.noSlots := by
  induction fields with
  | nil => rfl
  | cons field fields ih =>
      obtain ⟨value, values⟩ := values
      simp only [filled, noSlots, ih, List.not_mem_nil, if_false]
      rfl

theorem filled_unknown {name : Bytes} (unknown : name ∉ fields.names) (met : List Bytes) :
    fields.filled values (name :: met) = fields.filled values met := by
  induction fields with
  | nil => rfl
  | cons field fields ih =>
      obtain ⟨value, values⟩ := values
      rw [names, List.mem_cons, not_or] at unknown
      simp only [filled, ih unknown.2, List.mem_cons, Ne.symm unknown.1, false_or]
      rfl

theorem complete_filled {met : List Bytes} (covered : fields.Covered values met) :
    fields.complete (fields.filled values met) = .ok values := by
  induction fields with
  | nil => rfl
  | cons field fields ih =>
      obtain ⟨value, values⟩ := values
      obtain ⟨here, others⟩ := covered
      have slot : (if field.name ∈ met then some value else none).or field.absent = some value := by
        by_cases given : field.name ∈ met
        · rw [if_pos given]
          rfl
        · rw [if_neg given, Option.none_or]
          exact here.resolve_left given
      simp only [filled, complete, slot, ih others, bind, Except.bind, pure, Except.pure]
      rfl

theorem passColon_append {between : Bytes} (blank : AllBlank between) (text : Bytes) :
    passColon (between ++ colon :: text) = .ok text := by
  simp [passColon, skipBlanks_between blank (show isBlank colon = false from rfl)]

theorem readMember_filled (distinct : fields.names.Nodup) {member : Bytes × Bytes}
    (takes : fields.Takes values member) {met : List Bytes}
    (fresh : member.1 ∈ fields.names → member.1 ∉ met) {between lead rest : Bytes}
    (blankBetween : AllBlank between) (blankLead : AllBlank lead) (delimited : Delimited rest) :
    fields.readMember member.1 (fields.filled values met)
        (between ++ colon :: (lead ++ (member.2 ++ rest))) =
      .ok (fields.filled values (member.1 :: met), rest) := by
  induction fields with
  | nil =>
      obtain ⟨⟩ := values
      simp only [readMember, filled, passColon_append blankBetween,
        skipValue_append takes blankLead delimited, bind, Except.bind, pure, Except.pure]
  | cons field fields ih =>
      obtain ⟨value, values⟩ := values
      rw [names, List.nodup_cons] at distinct
      rw [Takes] at takes
      rw [names] at fresh
      by_cases here : field.name = member.1
      · rw [if_pos here] at takes
        have notMet : member.1 ∉ met := fresh (here ▸ List.mem_cons_self)
        have read := takes lead rest blankLead delimited
        have unknown : member.1 ∉ fields.names := here ▸ distinct.1
        simp only [readMember, filled, notMet, here, passColon_append blankBetween, read,
          bind, Except.bind, pure, Except.pure, filled_unknown unknown, List.mem_cons_self, if_true,
          if_false]
      · rw [if_neg here] at takes
        have others := ih distinct.2 takes fun inside => fresh (List.mem_cons_of_mem _ inside)
        simp [readMember, filled, here, others, bind, Except.bind, pure, Except.pure]

/-! ### Members -/

theorem Covered.mono {met more : List Bytes} (covered : fields.Covered values met)
    (included : met ⊆ more) : fields.Covered values more := by
  induction fields with
  | nil => trivial
  | cons field fields ih =>
      obtain ⟨value, values⟩ := values
      exact ⟨covered.1.imp_left fun given => included given, ih covered.2⟩

theorem nextMember_true {text opened : Bytes} (starts : skipBlanks text = quoteMark :: opened) :
    nextMember true text = .ok (some opened) := by
  simp [nextMember, starts, quoteMark, closeObject]

theorem nextMember_comma {after text opened : Bytes} (blank : AllBlank after)
    (starts : skipBlanks text = quoteMark :: opened) :
    nextMember false (after ++ comma :: text) = .ok (some opened) := by
  have notClose : comma ≠ closeObject := by decide
  simp [nextMember, skipBlanks_between blank (show isBlank comma = false from rfl), starts,
    notClose]

theorem readMembers_closed {after : Bytes} (blank : AllBlank after) {met : List Bytes}
    (covered : fields.Covered values met) (rest : Bytes) (steps : Nat) :
    fields.readMembers (steps + 1) false (fields.filled values met)
      (after ++ closeObject :: rest) = .ok (values, rest) := by
  simp [readMembers, nextMember, endObject,
    skipBlanks_between blank (show isBlank closeObject = false from rfl), complete_filled covered,
    bind, Except.bind, pure, Except.pure]

theorem skipBlanks_memberText {member : Bytes × Bytes} {text : Bytes}
    (form : MemberText member text) (rest : Bytes) :
    ∃ opened, skipBlanks (text ++ rest) = quoteMark :: opened := by
  cases form with
  | spelled _ _ before =>
      rw [List.append_assoc, List.cons_append]
      exact ⟨_, skipBlanks_between before (by decide) _⟩

theorem skipBlanks_membersText {members : Members} {items : Bytes}
    (form : MembersText members items) (rest : Bytes) :
    ∃ opened, skipBlanks (items ++ rest) = quoteMark :: opened := by
  cases form with
  | last member | more member =>
      rw [List.append_assoc]
      exact skipBlanks_memberText member _

theorem readMembers_step (distinct : fields.names.Nodup) {member : Bytes × Bytes} {text : Bytes}
    (form : MemberText member text) (takes : fields.Takes values member) {met : List Bytes}
    (fresh : member.1 ∈ fields.names → member.1 ∉ met) {rest opened : Bytes}
    (delimited : Delimited rest) (starts : skipBlanks (text ++ rest) = quoteMark :: opened)
    {isFirst : Bool} {start : Bytes} (here : nextMember isFirst start = .ok (some opened)) :
    ∃ after, AllBlank after ∧ ∀ steps,
      fields.readMembers (steps + 1) isFirst (fields.filled values met) start =
        fields.readMembers steps false (fields.filled values (member.1 :: met))
          (after ++ rest) := by
  cases form with
  | @spelled name value token before between lead after spells isText before between lead blank =>
      rw [List.append_assoc, List.cons_append, skipBlanks_between before (by decide),
        List.cons.injEq] at starts
      obtain ⟨-, rfl⟩ := starts
      refine ⟨after, blank, fun steps => ?_⟩
      have read := readMember_filled distinct takes fresh between lead
        (delimited_append blank delimited)
      simp only [List.append_assoc, List.cons_append] at here
      rw [readMembers]
      simp only [here, readString_of_spells spells isText, read, bind, Except.bind]

theorem readMembers_text (distinct : fields.names.Nodup) {members : Members} {items : Bytes}
    (form : MembersText members items) (takes : ∀ member ∈ members, fields.Takes values member)
    (once : members.Pairwise fun earlier later =>
      earlier.1 = later.1 → earlier.1 ∉ fields.names)
    {met : List Bytes} (fresh : ∀ member ∈ members, member.1 ∈ fields.names → member.1 ∉ met)
    (covered : fields.Covered values (members.map Prod.fst ++ met)) {rest opened : Bytes}
    (starts : skipBlanks (items ++ rest) = quoteMark :: opened) {isFirst : Bool} {start : Bytes}
    (here : nextMember isFirst start = .ok (some opened)) (steps : Nat) :
    fields.readMembers (members.length + 1 + steps) isFirst (fields.filled values met) start =
      .ok (values, rest) := by
  induction form generalizing met isFirst start opened with
  | @last member text form =>
      rw [List.append_assoc] at starts
      obtain ⟨after, blank, step⟩ := readMembers_step distinct form
        (takes member List.mem_cons_self) (fresh member List.mem_cons_self)
        (delimited_closer .object rest) starts here
      rw [List.length_singleton, Nat.add_comm, ← Nat.add_assoc, step]
      exact readMembers_closed blank covered rest steps
  | @more member members text items form others ih =>
      rw [List.append_assoc] at starts
      rw [List.pairwise_cons] at once
      obtain ⟨after, blank, step⟩ := readMembers_step distinct form
        (takes member List.mem_cons_self) (fresh member List.mem_cons_self)
        (delimited_comma (items ++ rest)) starts here
      obtain ⟨next, nextStarts⟩ := skipBlanks_membersText others rest
      have enough : (member :: members).length + 1 + steps = members.length + 1 + steps + 1 := by
        simp only [List.length_cons]
        omega
      rw [enough, step]
      refine ih (fun later inside => takes later (List.mem_cons_of_mem _ inside)) once.2 ?_ ?_
        nextStarts (nextMember_comma blank nextStarts)
      · intro later inside known met
        rcases List.mem_cons.mp met with same | earlier
        · exact once.1 later inside same.symm (same ▸ known)
        · exact fresh later (List.mem_cons_of_mem _ inside) known earlier
      · apply covered.mono
        intro name
        simp only [List.map_cons, List.cons_append, List.mem_cons, List.mem_append]
        exact or_left_comm.mp

theorem length_membersText {members : Members} {items : Bytes} (form : MembersText members items) :
    members.length ≤ items.length := by
  induction form with
  | last => simp
  | more _ _ ih =>
      simp only [List.length_append, List.length_cons]
      omega

/-- A record is read from any object that has each of its fields once, or not at all where the
field may be absent. -/
theorem reads_record (distinct : fields.names.Nodup) {members : Members} {text : Bytes}
    (form : ObjectText members text) (takes : ∀ member ∈ members, fields.Takes values member)
    (once : members.Pairwise fun earlier later =>
      earlier.1 = later.1 → earlier.1 ∉ fields.names)
    (covered : fields.Covered values (members.map Prod.fst)) :
    Reads fields.readRecord text values := by
  intro before rest blank _
  cases form with
  | @filled items form =>
      obtain ⟨opened, starts⟩ := skipBlanks_membersText form rest
      have short := length_membersText form
      obtain ⟨steps, enough⟩ :
          ∃ steps, (items ++ rest).length + 1 = members.length + 1 + steps := by
        apply Nat.exists_eq_add_of_le
        simp only [List.length_append]
        omega
      rw [List.cons_append, readRecord, skipBlanks_between blank (by decide)]
      simp only [if_true, enough, ← filled_none fields values]
      exact readMembers_text distinct form takes once (by simp) (by simpa using covered) starts
        (nextMember_true starts) steps

/-! ### Objects as they are written -/

def Given : {types : List Type} → Fields types → Values types → Members → Prop
  | _, nil, (), members => members = []
  | _, cons field fields, (value, values), members =>
    ∃ text later, members = (field.name, text) :: later ∧ Reads field.read text value ∧
      fields.Given values later

theorem Given.names_eq {members : Members} (given : fields.Given values members) :
    members.map Prod.fst = fields.names := by
  induction fields generalizing members with
  | nil =>
      obtain ⟨⟩ := values
      rw [show members = [] from given]
      rfl
  | cons field fields ih =>
      obtain ⟨value, values⟩ := values
      obtain ⟨text, later, rfl, -, others⟩ := given
      rw [List.map_cons, ih others, names]

theorem Given.takes {members : Members} (given : fields.Given values members)
    (distinct : fields.names.Nodup) : ∀ member ∈ members, fields.Takes values member := by
  induction fields generalizing members with
  | nil =>
      obtain ⟨⟩ := values
      rw [show members = [] from given]
      simp
  | cons field fields ih =>
      obtain ⟨value, values⟩ := values
      obtain ⟨text, later, rfl, reads, others⟩ := given
      rw [names, List.nodup_cons] at distinct
      rw [List.forall_mem_cons]
      refine ⟨?_, ?_⟩
      · rw [Takes, if_pos rfl]
        exact reads
      · intro member inside
        have otherName : field.name ≠ member.1 := by
          intro same
          apply distinct.1
          rw [same, ← others.names_eq]
          exact List.mem_map_of_mem inside
        rw [Takes, if_neg otherName]
        exact ih others distinct.2 member inside

theorem covered_names (fields : Fields types) (values : Values types) {met : List Bytes}
    (all : fields.names ⊆ met) : fields.Covered values met := by
  induction fields with
  | nil => trivial
  | cons field fields ih =>
      obtain ⟨value, values⟩ := values
      rw [names, List.cons_subset] at all
      exact ⟨.inl all.1, ih values all.2⟩

theorem reads_writeObject (distinct : fields.names.Nodup) {members : Members}
    (given : fields.Given values members) (notEmpty : members ≠ [])
    (isText : ∀ name ∈ fields.names, Text.isUtf8 name = true) :
    Reads fields.readRecord (writeObject members) values := by
  have namesEq := given.names_eq
  rw [← namesEq, List.forall_mem_map] at isText
  apply reads_record distinct (objectText_writeObject notEmpty isText) (given.takes distinct)
  · rw [← namesEq, List.Nodup, List.pairwise_map] at distinct
    exact distinct.imp fun apart same => absurd same apart
  · apply covered_names
    rw [namesEq]
    exact List.Subset.refl _

end

end Fields

end VerifiableLog.Json
