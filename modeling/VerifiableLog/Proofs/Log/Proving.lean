import VerifiableLog.Proofs.Log.Consistency
import VerifiableLog.Proofs.Log.Opening
import VerifiableLog.Proofs.Store.Ledger

/-!
What a log can prove of its leaves. It is asked for a leaf by its index or by its hash, and for a
tree by its size, where zero means the tree as it is now; it makes a proof for everything that the
list of its leaves has, says of anything else what is wrong with the question, and every proof
verifies against the roots that it gives for the same sizes.
-/

namespace VerifiableLog

open LawfulStore (Holds)
open Merkle (rootOf verifyInclusion verifyConsistency)
open Merkle.Accumulator (ofLeaves)

def askedSize (leaves : List NewLeaf) (treeSize : UInt64) : Nat :=
  if treeSize = 0 then leaves.length else treeSize.toNat

def InclusionProof.Verifies (proof : InclusionProof) (hash : Digest) (state : TreeState) : Prop :=
  verifyInclusion hash proof.leafIndex.toNat proof.treeSize.toNat proof.auditPath state.rootHash =
    .ok ()

def ConsistencyProof.Verifies (proof : ConsistencyProof) (first second : TreeState) : Prop :=
  verifyConsistency proof.firstSize.toNat proof.secondSize.toNat first.rootHash second.rootHash
    proof.path = .ok ()

structure Log.Proves {σ : Type} [LeafStore σ] (log : Log σ) (leaves : List NewLeaf) : Prop where
  byIndex : ∀ now deadline index treeSize, deadline.isExpired now = false →
    if index.toNat < askedSize leaves treeSize ∧ askedSize leaves treeSize ≤ leaves.length then
      ∃ proof, log.inclusionProof now (.index index) treeSize deadline = .ok proof ∧
        proof.leafIndex = index ∧ proof.treeSize.toNat = askedSize leaves treeSize
    else
      ∃ fault, log.inclusionProof now (.index index) treeSize deadline =
        .error (.invalidTreeSize fault)
  byHash : ∀ now deadline hash treeSize, deadline.isExpired now = false →
    log.inclusionProof now (.hash hash) treeSize deadline =
      match (leafHashes leaves).findIdx? fun present => present = hash with
      | some earliest => log.inclusionProof now (.index (UInt64.ofNat earliest)) treeSize deadline
      | none => .error (.notFound hash)
  consistency : ∀ now deadline first second, deadline.isExpired now = false →
    if first.toNat ≤ second.toNat ∧ second.toNat ≤ leaves.length then
      ∃ proof, log.consistencyProof now first second deadline = .ok proof ∧
        proof.firstSize = first ∧ proof.secondSize = second
    else
      ∃ fault, log.consistencyProof now first second deadline = .error (.invalidRange fault)
  inclusion_verifies : ∀ now deadline leaf treeSize proof,
    log.inclusionProof now leaf treeSize deadline = .ok proof →
    ∀ later within, Deadline.isExpired within later = false →
      ∃ hash state, (leafHashes leaves)[proof.leafIndex.toNat]? = some hash ∧
        log.rootHash later (some proof.treeSize) within = .ok state ∧ proof.Verifies hash state
  consistency_verifies : ∀ now deadline first second proof,
    log.consistencyProof now first second deadline = .ok proof →
    ∀ later within, Deadline.isExpired within later = false →
      ∃ earlier grown, log.rootHash later (some first) within = .ok earlier ∧
        log.rootHash later (some second) within = .ok grown ∧ proof.Verifies earlier grown
  intact : ∀ now deadline leaf treeSize first second,
    Intact (log.inclusionProof now leaf treeSize deadline) ∧
      Intact (log.consistencyProof now first second deadline)

theorem inclusionPath_verifies {leaves : List Digest} {index treeSize : Nat}
    (inside : index < treeSize) (reached : treeSize ≤ leaves.length) :
    ∃ hash path, leaves[index]? = some hash ∧
      (ofLeaves leaves).inclusionPath index treeSize = .ok path ∧
      verifyInclusion hash index treeSize path (rootOf (leaves.take treeSize)) = .ok () := by
  have found : leaves[index]? = some leaves[index] := List.getElem?_eq_getElem (by omega)
  have followed := Merkle.follow_siblingPath (leaves.take treeSize) index leaves[index]
    (by rw [List.getElem?_take_of_lt inside]; exact found)
  rw [List.length_take_of_le reached] at followed
  exact ⟨_, _, found, Merkle.Accumulator.inclusionPath_ofLeaves inside reached,
    Merkle.verifyInclusion_ok_iff.mpr ⟨inside, followed⟩⟩

section

variable {σ : Type} [LeafStore σ] [LawfulStore σ] {log : Log σ} {leaves : List NewLeaf}
  {stored : Option SignedTreeHead} {now : Moment} {deadline : Deadline}

theorem Log.Reflects.toNat_size (reflects : log.Reflects leaves stored) :
    log.size.toNat = leaves.length := by
  rw [reflects.size_eq, toNat_ofNat_length reflects.keeps.fits]

theorem toNat_askedSize (reflects : log.Reflects leaves stored) (treeSize : UInt64) :
    (if treeSize = 0 then log.size else treeSize).toNat = askedSize leaves treeSize := by
  rw [askedSize]
  split
  · exact reflects.toNat_size
  · rfl

theorem sequenceOf_eq (reflects : log.Reflects leaves stored) (hash : Digest) :
    log.sequenceOf hash =
      match (leafHashes leaves).findIdx? fun present => present = hash with
      | some earliest => .ok (UInt64.ofNat earliest)
      | none => .error (.notFound hash) := by
  obtain ⟨nodes, same, holds⟩ := reflects.keeps.content
  have fits := reflects.keeps.fits
  have place := (numbered_recordsOf leaves).find?_map_sequence fun record => record.leafHash = hash
  simp only [Log.sequenceOf, LawfulStore.sequenceOf?_eq holds, place, Log.fromStore,
    Except.mapError, bind, Except.bind, ← map_leafHash_recordsOf, List.findIdx?_map,
    Function.comp_def]
  cases found : (recordsOf leaves).findIdx? fun record => record.leafHash = hash with
  | none => rfl
  | some earliest =>
      have inside := (List.findIdx?_eq_some_iff_getElem.mp found).1
      rw [length_recordsOf] at inside
      have before : UInt64.ofNat earliest < log.size := by
        rw [UInt64.lt_iff_toNat_lt, reflects.toNat_size,
          UInt64.toNat_ofNat_of_lt' (by show earliest < 2 ^ 64; omega)]
        exact inside
      simp only [Option.map_some, Nat.zero_add, before, if_true]
      rfl

theorem inclusionProof_of_index (reflects : log.Reflects leaves stored)
    (inTime : deadline.isExpired now = false) {index treeSize : UInt64}
    (inside : index.toNat < askedSize leaves treeSize)
    (reached : askedSize leaves treeSize ≤ leaves.length) :
    ∃ hash proof, (leafHashes leaves)[index.toNat]? = some hash ∧
      log.inclusionProof now (.index index) treeSize deadline = .ok proof ∧
      proof.leafIndex = index ∧ proof.treeSize.toNat = askedSize leaves treeSize ∧
      verifyInclusion hash index.toNat proof.treeSize.toNat proof.auditPath
        (rootOf ((leafHashes leaves).take proof.treeSize.toNat)) = .ok () := by
  have meant := toNat_askedSize reflects treeSize
  obtain ⟨hash, path, found, made, verified⟩ :=
    @inclusionPath_verifies (leafHashes leaves) _ _ inside (by rwa [length_leafHashes])
  rw [← meant] at inside reached made verified
  refine ⟨hash, ⟨index, if treeSize = 0 then log.size else treeSize, path⟩, found, ?_, rfl, meant,
    verified⟩
  have within : ¬(if treeSize = 0 then log.size else treeSize) > log.size := by
    rw [gt_iff_lt, UInt64.lt_iff_toNat_lt, reflects.toNat_size]
    omega
  have before : ¬(if treeSize = 0 then log.size else treeSize) ≤ index := by
    rw [UInt64.le_iff_toNat_le]
    omega
  simp only [Log.inclusionProof, Log.locate, Log.checkDeadline, inTime, Bool.false_eq_true,
    if_false, bind, Except.bind, within, before, reflects.tree, made, Log.fromTree,
    Except.mapError, pure, Except.pure]

theorem inclusionProof_of_outside (reflects : log.Reflects leaves stored)
    (inTime : deadline.isExpired now = false) {index treeSize : UInt64}
    (outside : ¬(index.toNat < askedSize leaves treeSize ∧
      askedSize leaves treeSize ≤ leaves.length)) :
    ∃ fault, log.inclusionProof now (.index index) treeSize deadline =
      .error (.invalidTreeSize fault) := by
  rw [← toNat_askedSize reflects, ← reflects.toNat_size, ← UInt64.lt_iff_toNat_lt,
    ← UInt64.le_iff_toNat_le] at outside
  simp only [Log.inclusionProof, Log.locate, Log.checkDeadline, inTime, Bool.false_eq_true,
    if_false, bind, Except.bind]
  generalize (if treeSize = 0 then log.size else treeSize) = asked at outside ⊢
  by_cases beyond : asked > log.size
  · exact ⟨_, if_pos beyond⟩
  · have behind : asked ≤ index :=
      UInt64.not_lt.mp fun inside => outside ⟨inside, UInt64.not_lt.mp beyond⟩
    rw [if_neg beyond, if_pos behind]
    exact ⟨_, rfl⟩

theorem inclusionProof_of_hash (reflects : log.Reflects leaves stored) (now : Moment)
    (deadline : Deadline) (inTime : deadline.isExpired now = false) (hash : Digest)
    (treeSize : UInt64) :
    log.inclusionProof now (.hash hash) treeSize deadline =
      match (leafHashes leaves).findIdx? fun present => present = hash with
      | some earliest => log.inclusionProof now (.index (UInt64.ofNat earliest)) treeSize deadline
      | none => .error (.notFound hash) := by
  simp only [Log.inclusionProof, Log.locate, sequenceOf_eq reflects, Log.checkDeadline, inTime,
    Bool.false_eq_true, if_false, bind, Except.bind]
  cases (leafHashes leaves).findIdx? fun present => present = hash <;> rfl

theorem consistencyProof_of_reached (reflects : log.Reflects leaves stored)
    (inTime : deadline.isExpired now = false) {first second : UInt64}
    (ordered : first.toNat ≤ second.toNat) (reached : second.toNat ≤ leaves.length) :
    ∃ proof, log.consistencyProof now first second deadline = .ok proof ∧
      proof.firstSize = first ∧ proof.secondSize = second ∧
      verifyConsistency first.toNat second.toNat (rootOf ((leafHashes leaves).take first.toNat))
        (rootOf ((leafHashes leaves).take second.toNat)) proof.path = .ok () := by
  obtain ⟨path, made, verified⟩ :=
    @consistencyPath_verifies (leafHashes leaves) _ _ ordered (by rwa [length_leafHashes])
  refine ⟨⟨first, second, path⟩, ?_, rfl, rfl, verified⟩
  have notAfter : ¬first > second := by
    rw [gt_iff_lt, UInt64.lt_iff_toNat_lt]
    omega
  have within : ¬second > log.size := by
    rw [gt_iff_lt, UInt64.lt_iff_toNat_lt, reflects.toNat_size]
    omega
  simp only [Log.consistencyProof, Log.checkDeadline, inTime, Bool.false_eq_true, if_false, bind,
    Except.bind, notAfter, within, reflects.tree, made, Log.fromTree, Except.mapError, pure,
    Except.pure]

theorem consistencyProof_of_outside (reflects : log.Reflects leaves stored)
    (inTime : deadline.isExpired now = false) {first second : UInt64}
    (outside : ¬(first.toNat ≤ second.toNat ∧ second.toNat ≤ leaves.length)) :
    ∃ fault, log.consistencyProof now first second deadline = .error (.invalidRange fault) := by
  rw [← reflects.toNat_size, ← UInt64.le_iff_toNat_le, ← UInt64.le_iff_toNat_le] at outside
  simp only [Log.consistencyProof, Log.checkDeadline, inTime, Bool.false_eq_true, if_false, bind,
    Except.bind]
  by_cases reversed : first > second
  · exact ⟨_, if_pos reversed⟩
  · have beyond : second > log.size :=
      UInt64.not_le.mp fun reached => outside ⟨UInt64.not_lt.mp reversed, reached⟩
    rw [if_neg reversed, if_pos beyond]
    exact ⟨_, rfl⟩

end

theorem inTime_of_ok {α : Type} {now : Moment} {deadline : Deadline}
    {rest : Unit → Except LogError α} {value : α}
    (answered : (Log.checkDeadline deadline now >>= rest) = .ok value) :
    deadline.isExpired now = false := by
  rw [Log.checkDeadline] at answered
  cases expired : deadline.isExpired now with
  | false => rfl
  | true =>
      rw [expired] at answered
      cases answered

section

variable {σ : Type} [LeafStore σ] [LawfulStore σ] {log : Log σ} {leaves : List NewLeaf}
  {stored : Option SignedTreeHead}

theorem exists_index_of_ok (reflects : log.Reflects leaves stored) {now : Moment}
    {deadline : Deadline} {leaf : Log.Locator} {treeSize : UInt64} {proof : InclusionProof}
    (answered : log.inclusionProof now leaf treeSize deadline = .ok proof) :
    ∃ index, log.inclusionProof now (.index index) treeSize deadline = .ok proof := by
  cases leaf with
  | index index => exact ⟨index, answered⟩
  | hash hash =>
      rw [inclusionProof_of_hash reflects now deadline (inTime_of_ok answered)] at answered
      split at answered
      · exact ⟨_, answered⟩
      · cases answered

theorem inclusionProof_verifies (reflects : log.Reflects leaves stored) {now : Moment}
    {deadline : Deadline} {leaf : Log.Locator} {treeSize : UInt64} {proof : InclusionProof}
    (answered : log.inclusionProof now leaf treeSize deadline = .ok proof) {later : Moment}
    {within : Deadline} (inTime : within.isExpired later = false) :
    ∃ hash state, (leafHashes leaves)[proof.leafIndex.toNat]? = some hash ∧
      log.rootHash later (some proof.treeSize) within = .ok state ∧ proof.Verifies hash state := by
  obtain ⟨index, answered⟩ := exists_index_of_ok reflects answered
  have asked := inTime_of_ok answered
  by_cases provable : index.toNat < askedSize leaves treeSize ∧
      askedSize leaves treeSize ≤ leaves.length
  · obtain ⟨hash, made, found, makes, rfl, meant, verified⟩ :=
      inclusionProof_of_index reflects asked provable.1 provable.2
    rw [makes] at answered
    obtain rfl := Except.ok.inj answered
    rw [← meant] at provable
    exact ⟨hash, _, found, rootHash_eq reflects inTime provable.2, verified⟩
  · obtain ⟨fault, refused⟩ := inclusionProof_of_outside reflects asked provable
    rw [refused] at answered
    cases answered

theorem consistencyProof_verifies_roots (reflects : log.Reflects leaves stored) {now : Moment}
    {deadline : Deadline} {first second : UInt64} {proof : ConsistencyProof}
    (answered : log.consistencyProof now first second deadline = .ok proof) {later : Moment}
    {within : Deadline} (inTime : within.isExpired later = false) :
    ∃ earlier grown, log.rootHash later (some first) within = .ok earlier ∧
      log.rootHash later (some second) within = .ok grown ∧ proof.Verifies earlier grown := by
  have asked := inTime_of_ok answered
  by_cases provable : first.toNat ≤ second.toNat ∧ second.toNat ≤ leaves.length
  · obtain ⟨made, makes, rfl, rfl, verified⟩ :=
      consistencyProof_of_reached reflects asked provable.1 provable.2
    rw [makes] at answered
    obtain rfl := Except.ok.inj answered
    exact ⟨_, _, rootHash_eq reflects inTime (Nat.le_trans provable.1 provable.2),
      rootHash_eq reflects inTime provable.2, verified⟩
  · obtain ⟨fault, refused⟩ := consistencyProof_of_outside reflects asked provable
    rw [refused] at answered
    cases answered

theorem Log.Reflects.complete (reflects : log.Reflects leaves stored) :
    log.tree.Complete ∧ log.tree.size < 2 ^ 64 := by
  have fits := reflects.keeps.fits
  have size : log.tree.size = leaves.length := by
    rw [reflects.tree, Merkle.Accumulator.size_ofLeaves, length_leafHashes]
  refine ⟨?_, by omega⟩
  rw [reflects.tree]
  exact Merkle.Accumulator.complete_ofLeaves _

theorem Log.Reflects.proves (reflects : log.Reflects leaves stored) : log.Proves leaves where
  byIndex := by
    intro now deadline index treeSize inTime
    split
    · rename_i provable
      obtain ⟨hash, proof, _, made, carries, meant, _⟩ :=
        inclusionProof_of_index reflects inTime provable.1 provable.2
      exact ⟨proof, made, carries, meant⟩
    · rename_i outside
      exact inclusionProof_of_outside reflects inTime outside
  byHash _ _ hash treeSize inTime := inclusionProof_of_hash reflects _ _ inTime hash treeSize
  consistency := by
    intro now deadline first second inTime
    split
    · rename_i provable
      obtain ⟨proof, made, carriesFirst, carriesSecond, _⟩ :=
        consistencyProof_of_reached reflects inTime provable.1 provable.2
      exact ⟨proof, made, carriesFirst, carriesSecond⟩
    · rename_i outside
      exact consistencyProof_of_outside reflects inTime outside
  inclusion_verifies _ _ _ _ _ answered _ _ inTime :=
    inclusionProof_verifies reflects answered inTime
  consistency_verifies _ _ _ _ _ answered _ _ inTime :=
    consistencyProof_verifies_roots reflects answered inTime
  intact := by
    intro now deadline leaf treeSize first second
    obtain ⟨complete, fits⟩ := reflects.complete
    exact ⟨Log.intact_inclusionProof complete fits now leaf treeSize deadline,
      Log.intact_consistencyProof complete fits now first second deadline⟩

end

/-- The log of any run over an empty store proves of the leaves that the run has appended whatever
can be proved of them, and nothing else. -/
theorem Run.proves_leaves {storage : Storage} (fresh : storage.Fresh) {signer : Signer}
    (signs : signer.Storable) (opened : Moment) {calls : List (Moment × Call)}
    (fits : ∀ call ∈ calls, call.2.Fits)
    (short : (acceptedLeaves (Run.ofCalls storage signer opened calls).events).length < 2 ^ 63) :
    ∃ log, (Run.ofCalls storage signer opened calls).log = .ok log ∧
      log.Proves (acceptedLeaves (Run.ofCalls storage signer opened calls).events) := by
  obtain ⟨log, stored, sound⟩ := Run.ofCalls_sound fresh signs opened fits short
  exact ⟨log, sound.log_eq, sound.reflects.proves⟩

def repeatedLeafCalls : List (Moment × Call) :=
  [(⟨1, 1001⟩, .append [⟨[1], none⟩, ⟨[2], some [3]⟩, ⟨[1], none⟩] .never),
    (⟨2, 1002⟩, .inject (.commits 1)), (⟨3, 1003⟩, .append [⟨[4], none⟩] .never),
    (⟨4, 1004⟩, .append [⟨[2], none⟩] .never), (⟨5, 1005⟩, .close), (⟨6, 900⟩, .reopen)]

theorem Run.proves_leaves_repeatedLeaf :
    ∃ log, (Run.ofCalls (.faulty (.wrap (.disk .empty))) (.ed25519 ⟨List.replicate 32 42⟩)
        ⟨0, 1000⟩ repeatedLeafCalls).log = .ok log ∧
      log.Proves (acceptedLeaves (Run.ofCalls (.faulty (.wrap (.disk .empty)))
        (.ed25519 ⟨List.replicate 32 42⟩) ⟨0, 1000⟩ repeatedLeafCalls).events) :=
  @Run.proves_leaves (.faulty (.wrap (.disk .empty))) (.inr rfl)
    (.ed25519 ⟨List.replicate 32 42⟩) (Signer.ed25519_storable _) ⟨0, 1000⟩ repeatedLeafCalls
    (by simp [repeatedLeafCalls, Call.Fits, NewLeaf.Storable])
    (Nat.lt_of_le_of_lt (length_acceptedLeaves_ofCalls_le _ _ _ _)
      (by simp [repeatedLeafCalls, Call.leaves]))

end VerifiableLog
