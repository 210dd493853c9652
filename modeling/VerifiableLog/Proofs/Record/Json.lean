import Mathlib.Data.List.Perm.Basic
import VerifiableLog.Proofs.Json.Record
import VerifiableLog.Proofs.Record.Kind
import VerifiableLog.Record.Json

/-!
Reading the JSON form of every kind of value back, and the other forms that are read alike: an
object's members in another order, members with unknown names among them, capital hexadecimal
digits, and extra data left out instead of `null`.
-/

namespace VerifiableLog

open Json

/-! ### Restating a record -/

def absentExtraData : Bytes × Bytes := (Bytes.ofAscii "extra_data", [0x6e, 0x75, 0x6c, 0x6c])

/-- The text restates the record that is written with the members `written`. -/
def Json.Restates (written : Members) (text : Bytes) : Prop :=
  ∃ members kept : Members, ObjectText members text ∧
    (kept = written ∨ kept = written.filter fun member => member ≠ absentExtraData) ∧
    ((members.filter fun member => (written.map Prod.fst).contains member.1).map fun member =>
      (member.1, member.2.map Hex.lowerDigit)).Perm kept ∧
    ∀ member ∈ members, member.1 ∉ written.map Prod.fst → ValueText member.2

def Json.Fields.Writes : {types : List Type} → Fields types → Values types → Members → Prop
  | _, nil, (), written => written = []
  | _, cons field fields, (value, values), written =>
    ∃ text later, written = (field.name, text) :: later ∧
      text.map Hex.lowerDigit = text ∧ ReadsAnyCase field.read text value ∧
      ((field.name, text) = absentExtraData → field.absent = some value) ∧
      fields.Writes values later

namespace Json.Fields

variable {types : List Type} {fields : Fields types} {values : Values types} {written : Members}

theorem Writes.names_eq (writes : fields.Writes values written) :
    fields.names = written.map Prod.fst := by
  induction fields generalizing written with
  | nil =>
      obtain ⟨⟩ := values
      rw [show written = [] from writes]
      rfl
  | cons field fields ih =>
      obtain ⟨value, values⟩ := values
      obtain ⟨text, later, rfl, -, -, -, others⟩ := writes
      rw [names, ih others]
      rfl

theorem Writes.lowered (writes : fields.Writes values written) :
    ∀ member ∈ written, member.2.map Hex.lowerDigit = member.2 := by
  induction fields generalizing written with
  | nil =>
      obtain ⟨⟩ := values
      rw [show written = [] from writes]
      simp
  | cons field fields ih =>
      obtain ⟨value, values⟩ := values
      obtain ⟨text, later, rfl, same, -, -, others⟩ := writes
      exact List.forall_mem_cons.mpr ⟨same, ih others⟩

theorem Writes.takes_known (writes : fields.Writes values written)
    (distinct : fields.names.Nodup) {member : Bytes × Bytes}
    (known : (member.1, member.2.map Hex.lowerDigit) ∈ written) : fields.Takes values member := by
  induction fields generalizing written with
  | nil =>
      obtain ⟨⟩ := values
      rw [show written = [] from writes] at known
      simp at known
  | cons field fields ih =>
      obtain ⟨value, values⟩ := values
      obtain ⟨text, later, rfl, -, reads, -, others⟩ := writes
      rw [names, List.nodup_cons] at distinct
      rw [Takes]
      rcases List.mem_cons.mp known with here | there
      · obtain ⟨sameName, lowered⟩ := Prod.mk.inj here
        rw [if_pos sameName.symm]
        exact reads member.2 lowered
      · have otherName : field.name ≠ member.1 := by
          intro same
          apply distinct.1
          rw [same, others.names_eq]
          exact List.mem_map.mpr ⟨_, there, rfl⟩
        rw [if_neg otherName]
        exact ih others distinct.2 there

theorem takes_unknown {member : Bytes × Bytes} (unknown : member.1 ∉ fields.names)
    (form : ValueText member.2) : fields.Takes values member := by
  induction fields with
  | nil =>
      obtain ⟨⟩ := values
      exact form
  | cons field fields ih =>
      obtain ⟨value, values⟩ := values
      rw [names, List.mem_cons, not_or] at unknown
      rw [Takes, if_neg (Ne.symm unknown.1)]
      exact ih unknown.2

theorem Writes.covered (writes : fields.Writes values written) {met : List Bytes}
    (each : ∀ member ∈ written, member.1 ∈ met ∨ member = absentExtraData) :
    fields.Covered values met := by
  induction fields generalizing written with
  | nil => trivial
  | cons field fields ih =>
      obtain ⟨value, values⟩ := values
      obtain ⟨text, later, rfl, -, -, absent, others⟩ := writes
      obtain ⟨here, there⟩ := List.forall_mem_cons.mp each
      exact ⟨here.imp_right absent, ih others there⟩

theorem reads_restated (writes : fields.Writes values written) (distinct : fields.names.Nodup)
    {text : Bytes} (restates : Restates written text) : Reads fields.readRecord text values := by
  obtain ⟨members, kept, form, keptFrom, same, unknown⟩ := restates
  have namesEq := writes.names_eq
  apply reads_record distinct form
  · intro member inside
    by_cases known : member.1 ∈ written.map Prod.fst
    · have keptMember := same.subset (List.mem_map_of_mem
        (List.mem_filter.mpr ⟨inside, List.contains_iff_mem.mpr known⟩))
      apply writes.takes_known distinct
      rcases keptFrom with rfl | rfl
      · exact keptMember
      · exact List.mem_of_mem_filter keptMember
    · exact takes_unknown (namesEq ▸ known) (unknown member inside known)
  · have keptNames : (kept.map Prod.fst).Nodup := by
      rw [namesEq] at distinct
      rcases keptFrom with rfl | rfl
      · exact distinct
      · exact distinct.sublist (List.filter_sublist.map Prod.fst)
    have knownNames := (same.map Prod.fst).nodup_iff.mpr keptNames
    rw [List.map_map, List.Nodup, List.pairwise_map, List.pairwise_filter] at knownNames
    refine knownNames.imp ?_
    intro earlier later apart sameName known
    rw [namesEq] at known
    exact apart (List.contains_iff_mem.mpr known) (List.contains_iff_mem.mpr (sameName ▸ known))
      sameName
  · apply writes.covered
    intro member inside
    by_cases absent : member = absentExtraData
    · exact .inr absent
    · have keptMember : member ∈ kept := by
        rcases keptFrom with rfl | rfl
        · exact inside
        · exact List.mem_filter.mpr ⟨inside, decide_eq_true absent⟩
      obtain ⟨given, known, rfl⟩ := List.mem_map.mp (same.symm.subset keptMember)
      exact .inl (List.mem_map.mpr ⟨given, List.mem_of_mem_filter known, rfl⟩)

theorem Writes.restates (writes : fields.Writes values written) (notEmpty : written ≠ [])
    (ascii : fields.names.flatten.all (· < 0x80) = true) :
    Restates written (writeObject written) := by
  have isText := Text.isUtf8_of_all_ascii ascii
  rw [writes.names_eq, List.forall_mem_map] at isText
  refine ⟨written, written, objectText_writeObject notEmpty isText, .inl rfl, ?_, ?_⟩
  · have all : (written.filter fun member => (written.map Prod.fst).contains member.1) = written :=
      List.filter_eq_self.mpr fun member inside =>
        List.contains_iff_mem.mpr (List.mem_map_of_mem inside)
    have lowered : ∀ member ∈ written, (member.1, member.2.map Hex.lowerDigit) = id member :=
      fun member inside => Prod.ext rfl (writes.lowered member inside)
    rw [all, List.map_congr_left lowered, List.map_id]
  · intro member inside unknown
    exact absurd (List.mem_map_of_mem inside) unknown

theorem reads_mapped {α : Type} {build : Values types → Option α} {value : α}
    (writes : fields.Writes values written) (distinct : fields.names.Nodup)
    (whole : build values = some value) {text : Bytes} (restates : Restates written text) :
    Reads (mapReader fields.readRecord build) text value :=
  reads_mapReader (reads_restated writes distinct restates) whole

theorem writes_required {α : Type} {name text : Bytes} {read : Reader α} {value : α}
    (notExtraData : name ≠ absentExtraData.1) (lowered : text.map Hex.lowerDigit = text)
    (reads : ReadsAnyCase read text value) (others : fields.Writes values written) :
    (cons ⟨name, read, none⟩ fields).Writes (value, values) ((name, text) :: written) := by
  refine ⟨text, written, rfl, lowered, reads, ?_, others⟩
  intro same
  exact absurd (congrArg Prod.fst same) notExtraData

theorem writes_word {name : Bytes} (notExtraData : name ≠ absentExtraData.1) (value : UInt64)
    (others : fields.Writes values written) :
    (cons ⟨name, readWord, none⟩ fields).Writes (value, values)
      ((name, writeWord value) :: written) :=
  writes_required notExtraData (map_lowerDigit_writeNatural _) (readsAnyCase_word value) others

theorem writes_digest {name : Bytes} (notExtraData : name ≠ absentExtraData.1) (value : Digest)
    (others : fields.Writes values written) :
    (cons ⟨name, readDigest, none⟩ fields).Writes (value, values)
      ((name, writeDigest value) :: written) :=
  writes_required notExtraData (map_lowerDigit_writeBlob _) (readsAnyCase_digest value) others

theorem writes_blob {name : Bytes} (notExtraData : name ≠ absentExtraData.1) (value : Bytes)
    (others : fields.Writes values written) :
    (cons ⟨name, readBlob, none⟩ fields).Writes (value, values)
      ((name, writeBlob value) :: written) :=
  writes_required notExtraData (map_lowerDigit_writeBlob _) (readsAnyCase_blob value) others

theorem writes_digests {name : Bytes} (notExtraData : name ≠ absentExtraData.1)
    (value : List Digest) (others : fields.Writes values written) :
    (cons ⟨name, readList readDigest, none⟩ fields).Writes (value, values)
      ((name, writeList writeDigest value) :: written) :=
  writes_required notExtraData (map_lowerDigit_writeList (fun _ => map_lowerDigit_writeBlob _) _)
    (readsAnyCase_digests value) others

theorem writes_extraData (content : Option Bytes) :
    (cons ⟨absentExtraData.1, readOptional readBlob, some none⟩ nil).Writes (content, ())
      [(absentExtraData.1, writeOptional writeBlob content)] := by
  refine ⟨_, [], rfl, map_lowerDigit_writeOptional content, readsAnyCase_optionalBlob content, ?_,
    rfl⟩
  intro same
  cases content with
  | none => rfl
  | some content =>
      have text := congrArg Prod.snd same
      simp [writeOptional, writeBlob, absentExtraData, quoteMark] at text

end Json.Fields

/-! ### The kinds of values -/

namespace ValueKind

open Json.Fields

def readJson : (kind : ValueKind) → Reader kind.Value
  | .digest => Digest.readJson
  | .newLeaf => NewLeaf.readJson
  | .leafRecord => LeafRecord.readJson
  | .nodeAddress => Merkle.NodeAddress.readJson
  | .treeState => TreeState.readJson
  | .treeHead => TreeHead.readJson
  | .signedTreeHead => SignedTreeHead.readJson
  | .inclusionProof => InclusionProof.readJson
  | .consistencyProof => ConsistencyProof.readJson
  | .appendReceipt => AppendReceipt.readJson

def writeJson : (kind : ValueKind) → kind.Value → Bytes
  | .digest => Digest.writeJson
  | .newLeaf => NewLeaf.writeJson
  | .leafRecord => LeafRecord.writeJson
  | .nodeAddress => Merkle.NodeAddress.writeJson
  | .treeState => TreeState.writeJson
  | .treeHead => TreeHead.writeJson
  | .signedTreeHead => SignedTreeHead.writeJson
  | .inclusionProof => InclusionProof.writeJson
  | .consistencyProof => ConsistencyProof.writeJson
  | .appendReceipt => AppendReceipt.writeJson

def members : (kind : ValueKind) → kind.Value → Members
  | .digest, _ => []
  | .newLeaf, leaf =>
    [(Bytes.ofAscii "leaf_value", writeBlob leaf.leafValue),
      (Bytes.ofAscii "extra_data", writeOptional writeBlob leaf.extraData)]
  | .leafRecord, record =>
    [(Bytes.ofAscii "sequence", writeWord record.sequence),
      (Bytes.ofAscii "leaf_hash", writeDigest record.leafHash),
      (Bytes.ofAscii "leaf_value", writeBlob record.leafValue),
      (Bytes.ofAscii "extra_data", writeOptional writeBlob record.extraData)]
  | .nodeAddress, address =>
    [(Bytes.ofAscii "level", writeNatural address.level.toNat),
      (Bytes.ofAscii "index", writeWord address.index)]
  | .treeState, state =>
    [(Bytes.ofAscii "size", writeWord state.size),
      (Bytes.ofAscii "root_hash", writeDigest state.rootHash)]
  | .treeHead, head =>
    [(Bytes.ofAscii "tree_size", writeWord head.treeSize),
      (Bytes.ofAscii "timestamp", writeWord head.timestamp),
      (Bytes.ofAscii "root_hash", writeDigest head.rootHash)]
  | .signedTreeHead, head => head.members
  | .inclusionProof, proof =>
    [(Bytes.ofAscii "leaf_index", writeWord proof.leafIndex),
      (Bytes.ofAscii "tree_size", writeWord proof.treeSize),
      (Bytes.ofAscii "audit_path", writeList writeDigest proof.auditPath)]
  | .consistencyProof, proof =>
    [(Bytes.ofAscii "first_size", writeWord proof.firstSize),
      (Bytes.ofAscii "second_size", writeWord proof.secondSize),
      (Bytes.ofAscii "path", writeList writeDigest proof.path)]
  | .appendReceipt, receipt =>
    [(Bytes.ofAscii "tree_size", writeWord receipt.treeSize),
      (Bytes.ofAscii "leaf_indexes", writeList writeWord receipt.leafIndexes),
      (Bytes.ofAscii "root_hash", writeDigest receipt.rootHash)]

def Restates : (kind : ValueKind) → kind.Value → Bytes → Prop
  | .digest, hash, text => text.map Hex.lowerDigit = hash.writeJson
  | kind, value, text => Json.Restates (kind.members value) text

theorem newLeaf_writes (leaf : NewLeaf) :
    NewLeaf.fields.Writes (leaf.leafValue, leaf.extraData, ()) (newLeaf.members leaf) :=
  writes_blob (by decide) _ <| writes_extraData _

theorem leafRecord_writes (record : LeafRecord) :
    LeafRecord.fields.Writes
      (record.sequence, record.leafHash, record.leafValue, record.extraData, ())
      (leafRecord.members record) :=
  writes_word (by decide) _ <| writes_digest (by decide) _ <| writes_blob (by decide) _ <|
    writes_extraData _

theorem nodeAddress_writes (address : Merkle.NodeAddress) :
    Merkle.NodeAddress.fields.Writes (address.level, address.index, ())
      (nodeAddress.members address) :=
  writes_required (by decide) (map_lowerDigit_writeNatural _) (readsAnyCase_byte _) <|
    writes_word (by decide) _ rfl

theorem treeState_writes (state : TreeState) :
    TreeState.fields.Writes (state.size, state.rootHash, ()) (treeState.members state) :=
  writes_word (by decide) _ <| writes_digest (by decide) _ rfl

theorem treeHead_writes (head : TreeHead) :
    TreeHead.fields.Writes (head.treeSize, head.timestamp, head.rootHash, ())
      (treeHead.members head) :=
  writes_word (by decide) _ <| writes_word (by decide) _ <| writes_digest (by decide) _ rfl

theorem signedTreeHead_writes (head : SignedTreeHead) :
    SignedTreeHead.fields.Writes (head.treeSize, head.rootHash, head.timestamp, head.signature, ())
      (signedTreeHead.members head) :=
  writes_word (by decide) _ <| writes_digest (by decide) _ <| writes_word (by decide) _ <|
    writes_blob (by decide) _ rfl

theorem inclusionProof_writes (proof : InclusionProof) :
    InclusionProof.fields.Writes (proof.leafIndex, proof.treeSize, proof.auditPath, ())
      (inclusionProof.members proof) :=
  writes_word (by decide) _ <| writes_word (by decide) _ <| writes_digests (by decide) _ rfl

theorem consistencyProof_writes (proof : ConsistencyProof) :
    ConsistencyProof.fields.Writes (proof.firstSize, proof.secondSize, proof.path, ())
      (consistencyProof.members proof) :=
  writes_word (by decide) _ <| writes_word (by decide) _ <| writes_digests (by decide) _ rfl

theorem appendReceipt_writes (receipt : AppendReceipt) :
    AppendReceipt.fields.Writes (receipt.treeSize, receipt.leafIndexes, receipt.rootHash, ())
      (appendReceipt.members receipt) :=
  writes_word (by decide) _ <| writes_required (by decide)
    (map_lowerDigit_writeList (fun _ => map_lowerDigit_writeNatural _) _) (readsAnyCase_words _) <|
    writes_digest (by decide) _ rfl

theorem reads_restated {kind : ValueKind} {value : kind.Value} {text : Bytes}
    (restates : kind.Restates value text) : Reads kind.readJson text value := by
  cases kind with
  | digest => exact readsAnyCase_digest value text restates
  | newLeaf =>
      unfold readJson NewLeaf.readJson
      refine reads_mapped (newLeaf_writes value) (by decide) ?_ restates
      rfl
  | leafRecord =>
      unfold readJson LeafRecord.readJson
      refine reads_mapped (leafRecord_writes value) (by decide) ?_ restates
      rfl
  | nodeAddress =>
      unfold readJson Merkle.NodeAddress.readJson
      refine reads_mapped (nodeAddress_writes value) (by decide) ?_ restates
      rfl
  | treeState =>
      unfold readJson TreeState.readJson
      refine reads_mapped (treeState_writes value) (by decide) ?_ restates
      rfl
  | treeHead =>
      unfold readJson TreeHead.readJson
      refine reads_mapped (treeHead_writes value) (by decide) ?_ restates
      rfl
  | signedTreeHead =>
      unfold readJson SignedTreeHead.readJson
      refine reads_mapped (signedTreeHead_writes value) (by decide) ?_ restates
      rfl
  | inclusionProof =>
      unfold readJson InclusionProof.readJson
      refine reads_mapped (inclusionProof_writes value) (by decide) ?_ restates
      rfl
  | consistencyProof =>
      unfold readJson ConsistencyProof.readJson
      refine reads_mapped (consistencyProof_writes value) (by decide) ?_ restates
      rfl
  | appendReceipt =>
      unfold readJson AppendReceipt.readJson
      refine reads_mapped (appendReceipt_writes value) (by decide) ?_ restates
      rfl

theorem restates_writeJson (kind : ValueKind) (value : kind.Value) :
    kind.Restates value (kind.writeJson value) := by
  cases kind with
  | digest => exact map_lowerDigit_writeBlob _
  | newLeaf => exact (newLeaf_writes value).restates (by simp [members]) (by decide)
  | leafRecord => exact (leafRecord_writes value).restates (by simp [members]) (by decide)
  | nodeAddress => exact (nodeAddress_writes value).restates (by simp [members]) (by decide)
  | treeState => exact (treeState_writes value).restates (by simp [members]) (by decide)
  | treeHead => exact (treeHead_writes value).restates (by simp [members]) (by decide)
  | signedTreeHead =>
      exact (signedTreeHead_writes value).restates (by simp [members, SignedTreeHead.members])
        (by decide)
  | inclusionProof =>
      exact (inclusionProof_writes value).restates (by simp [members]) (by decide)
  | consistencyProof =>
      exact (consistencyProof_writes value).restates (by simp [members]) (by decide)
  | appendReceipt =>
      exact (appendReceipt_writes value).restates (by simp [members]) (by decide)

/-- The JSON form of a value is read as that value, and so is every text that restates it. -/
theorem json_readsBack (kind : ValueKind) (value : kind.Value) :
    readAll kind.readJson (kind.writeJson value) = .ok value ∧
      ∀ text, kind.Restates value text → readAll kind.readJson text = .ok value := by
  have each : ∀ text, kind.Restates value text → readAll kind.readJson text = .ok value :=
    fun _ restates => readAll_of_reads (reads_restated restates)
  exact ⟨each _ (restates_writeJson kind value), each⟩

theorem json_readsBack_unknownMember :
    let text := Bytes.ofAscii "\x7b\"x\":[\x7b\x7d,-1.5E3], \"leaf_value\":\"aB\"\x7d"
    newLeaf.Restates ⟨[0xab], none⟩ text ∧ readAll NewLeaf.readJson text = .ok ⟨[0xab], none⟩ := by
  intro text
  have blank : AllBlank [0x20] := by simp [AllBlank, isBlank]
  have noDigits : AllDigits [] := by simp [AllDigits]
  have number : ValueText [0x2d, 0x31, 0x2e, 0x35, 0x45, 0x33] :=
    .scalar (.number (.parts (.inr rfl) (@WholeText.digits 0x31 [] rfl (by decide) noDigits)
      (@FractionText.digits 0x35 [] rfl noDigits)
      (@ExponentText.digits 0x45 0x33 [] [] (.inr rfl) (.inl rfl) rfl noDigits)))
  have list := ValueText.filled (.more .list allBlank_nil (@ValueText.empty .object [] allBlank_nil)
    allBlank_nil (.last .list allBlank_nil number allBlank_nil))
  have unknownMember := @MemberText.spelled (Bytes.ofAscii "x")
    (Bytes.ofAscii "[\x7b\x7d,-1.5E3]") _ [] [] [] [] (spells_flatMap_escapeByte _)
    (by decide +kernel) allBlank_nil allBlank_nil allBlank_nil allBlank_nil
  have leafValue := @MemberText.spelled (Bytes.ofAscii "leaf_value") (Bytes.ofAscii "\"aB\"") _
    [0x20] [] [] [] (spells_flatMap_escapeByte _) (by decide +kernel) blank allBlank_nil
    allBlank_nil allBlank_nil
  have form := ObjectText.filled (.more unknownMember (.last leafValue))
  have restates : newLeaf.Restates ⟨[0xab], none⟩ text := by
    refine ⟨_, _, form, .inr rfl, ?_, ?_⟩
    · decide +kernel
    · intro member inside unknown
      rcases List.mem_cons.mp inside with rfl | later
      · exact list
      · rw [List.mem_singleton.mp later] at unknown
        exact absurd (by decide +kernel) unknown
  exact ⟨restates, (json_readsBack .newLeaf ⟨[0xab], none⟩).2 text restates⟩

end ValueKind

end VerifiableLog
