import VerifiableLog.Proofs.Log.Refinement

/-!
What a log says of itself by a tree head. A head that is served is that of the tree as it is, and
the head in the store is one of an earlier tree or of this one, dated no later than the one in
memory. After an append whose head could not be signed all heads at hand are too small, so none is
served until another is signed.
-/

namespace VerifiableLog

open Merkle (rootOf)

/-! ### What has held since -/

/-- Some event was of the one kind, and all that came after it were of the other. -/
def Since (keep mark : Event → Prop) (events : List Event) : Prop :=
  ∃ before event after, events = before ++ event :: after ∧ mark event ∧ ∀ later ∈ after, keep later

theorem not_since_nil (keep mark : Event → Prop) : ¬Since keep mark [] := by
  rintro ⟨before, event, after, split, _⟩
  simp at split

theorem since_concat {keep mark : Event → Prop} {events : List Event} {event : Event} :
    Since keep mark (events ++ [event]) ↔ mark event ∨ keep event ∧ Since keep mark events := by
  constructor
  · rintro ⟨before, found, after, split, marked, kept⟩
    rcases List.eq_nil_or_concat after with rfl | ⟨rest, last, rfl⟩
    · obtain ⟨rfl, rfl⟩ := List.append_singleton_inj.mp split
      exact .inl marked
    · rw [List.concat_eq_append, ← List.cons_append, ← List.append_assoc] at split
      obtain ⟨rfl, rfl⟩ := List.append_singleton_inj.mp split
      refine .inr ⟨kept event (by simp), before, found, rest, rfl, marked, ?_⟩
      intro later member
      exact kept later (by simp [member])
  · rintro (marked | ⟨kept, before, found, after, rfl, marked, keptBefore⟩)
    · exact ⟨events, event, [], rfl, marked, by simp⟩
    · refine ⟨before, found, after ++ [event], by simp, marked, ?_⟩
      intro later member
      rcases List.mem_append.mp member with earlier | last
      · exact keptBefore later earlier
      · rwa [List.mem_singleton.mp last]

def Event.Signs (event : Event) : Prop := event.head = .kept ∨ event.head = .lost

/-! ### The head in memory and the head in the store -/

theorem History.stored_not_later {events : List Event} {heads : Heads}
    (history : History events heads) :
    ∀ old ∈ heads.stored, ∃ latest ∈ heads.latest, old.timestamp ≤ latest.timestamp := by
  induction history with
  | start => simp [Heads.none]
  | @next events event before after history move serves ih =>
      have ofBase : ∀ old ∈ before.stored,
          ∃ latest ∈ before.base event, old.timestamp ≤ latest.timestamp := by
        intro old stored
        rw [Heads.base]
        split
        · exact ⟨old, stored, UInt64.le_refl _⟩
        · exact ih old stored
      intro old stored
      rcases move.stored_cases with unchanged | ⟨latest, _⟩
      · rw [unchanged] at stored
        exact move.keeps_date (ofBase old stored)
      · rw [latest] at stored
        exact ⟨old, stored, UInt64.le_refl _⟩

theorem HeadMove.inUse_of_not_signs {event : Event} {before after : Heads} {head : SignedTreeHead}
    (move : HeadMove event before after) (unsigned : ¬event.Signs) (inUse : after.InUse head) :
    before.InUse head := by
  have ofBase : head ∈ before.stored ∨ head ∈ before.base event → before.InUse head := by
    rintro (stored | base)
    · exact .inl stored
    · exact Heads.inUse_of_base base
  cases move with
  | rest quiet => exact ofBase inUse
  | due grows published ahead =>
      rcases published.cases_outcome with
        ⟨_, stored, latest⟩ | ⟨_, _, _, _, ⟨kept, _⟩ | ⟨lost, _⟩⟩
      · rw [Heads.InUse, stored, latest] at inUse
        exact ofBase inUse
      · exact absurd (.inl kept) unsigned
      · exact absurd (.inr lost) unsigned

section

variable {log : Log Storage} {leaves : List NewLeaf} {stored : Option SignedTreeHead}

theorem Log.Reflects.describes_of_inUse (reflects : log.Reflects leaves stored)
    {head : SignedTreeHead} (inUse : (log.heads leaves stored).InUse head) :
    head.Describes leaves := by
  rcases inUse with present | present
  · exact reflects.keeps.head head present
  · exact reflects.latest head present

theorem Log.Reflects.rootHash_none (reflects : log.Reflects leaves stored) {now : Moment}
    {deadline : Deadline} (inTime : deadline.isExpired now = false) :
    log.rootHash now none deadline = .ok ⟨log.size, rootOf (leafHashes leaves)⟩ := by
  have size : log.size.toNat = leaves.length := by
    rw [reflects.size_eq, toNat_ofNat_length reflects.keeps.fits]
  have whole := rootHash_eq reflects inTime (Nat.le_of_eq size)
  rw [size, ← length_leafHashes, List.take_length] at whole
  exact whole

theorem Log.Reflects.latestHead_current (reflects : log.Reflects leaves stored)
    {head : SignedTreeHead} (served : log.latestHead = .ok head) :
    log.size = head.treeSize ∧ head.rootHash = rootOf (leafHashes leaves) := by
  obtain ⟨unfailed, latest⟩ := latestHead_ok_iff.mp served
  have size := reflects.newest unfailed head latest
  have root := (reflects.latest head latest).root
  rw [size, ← length_leafHashes, List.take_length] at root
  refine ⟨?_, root⟩
  rw [reflects.size_eq, ← UInt64.toNat_inj, toNat_ofNat_length reflects.keeps.fits, size]

theorem Log.Reflects.stored_leaves (reflects : log.Reflects leaves stored) {head : SignedTreeHead}
    (present : head ∈ stored) :
    LeafStore.size log.store = .ok log.size ∧ head.treeSize ≤ log.size ∧
      ∃ records, LeafStore.leaves log.store 0 head.treeSize = .ok records ∧
        head.rootHash = rootOf (records.map LeafRecord.leafHash) := by
  obtain ⟨nodes, _, holds⟩ := reflects.keeps.content
  have describes := reflects.keeps.head head present
  have size := reflects.keeps.size_eq
  rw [← reflects.size_eq] at size
  refine ⟨size, ?_, _, LawfulStore.leaves_eq holds _ _, ?_⟩
  · rw [UInt64.le_iff_toNat_le, reflects.size_eq, toNat_ofNat_length reflects.keeps.fits]
    exact describes.reached
  · rw [describes.root, UInt64.toNat_zero, List.drop_zero, List.map_take, map_leafHash_recordsOf]

end

/-! ### The head that is missing -/

def Event.LeavesUnsigned (event : Event) : Prop := event.accepted ≠ [] ∧ event.head = .unsigned

theorem Log.signedTreeHead_eq_error {σ : Type} {log : Log σ} {now : Moment} {deadline : Deadline}
    (inTime : deadline.isExpired now = false) (none : ∀ head, log.latestHead ≠ .ok head) :
    ∃ fault, log.signedTreeHead now deadline = .error (.signing fault) := by
  rw [signedTreeHead_of_inTime inTime]
  rw [Log.latestHead] at none ⊢
  split
  · exact ⟨_, rfl⟩
  · exact ⟨_, rfl⟩
  · rename_i head unfailed latest
    simp only [unfailed, latest] at none
    exact absurd rfl (none head)

theorem Run.Sound.inUse_lt {events : List Event} {log after : Log Storage}
    {stored storedAfter : Option SignedTreeHead} {event : Event}
    (sound : Run.Sound ⟨events, .ok log⟩ log stored)
    (leaves : Leaves event (acceptedLeaves events) (log.heads (acceptedLeaves events) stored) after
      storedAfter)
    (earlier : Since (¬·.Signs) Event.LeavesUnsigned events →
      ∀ head, (log.heads (acceptedLeaves events) stored).InUse head →
        head.treeSize.toNat < (acceptedLeaves events).length)
    (since : Since (¬·.Signs) Event.LeavesUnsigned (events ++ [event])) (head : SignedTreeHead)
    (inUse : (after.heads (acceptedLeaves (events ++ [event])) storedAfter).InUse head) :
    head.treeSize.toNat < (acceptedLeaves (events ++ [event])).length := by
  rw [acceptedLeaves_concat] at inUse ⊢
  rw [List.length_append]
  rcases since_concat.mp since with ⟨appended, unsigned⟩ | ⟨unsigned, before⟩
  · have old := leaves.move.inUse_of_not_signs (by simp [Event.Signs, unsigned]) inUse
    have reached := (sound.reflects.describes_of_inUse old).reached
    have grown := List.length_pos_iff.mpr appended
    change head.treeSize.toNat ≤ (acceptedLeaves events).length at reached
    omega
  · have old := leaves.move.inUse_of_not_signs unsigned inUse
    have small := earlier before head old
    omega

/-- At the end of every run over an empty store the head that is served, if one is, is that of the
whole tree. The store has no head or one of a tree that the log has had, dated no later than the one
in memory. As long as the last leaves have no signature, no head is served. -/
theorem Run.servedHead_current {storage : Storage} (fresh : storage.Fresh) {signer : Signer}
    (signs : signer.Storable) (opened : Moment) {calls : List (Moment × Call)}
    (fits : ∀ call ∈ calls, call.2.Fits)
    (short : (acceptedLeaves (Run.ofCalls storage signer opened calls).events).length < 2 ^ 63) :
    ∃ log stored, (Run.ofCalls storage signer opened calls).log = .ok log ∧
      (∀ now deadline head, log.signedTreeHead now deadline = .ok head →
        ∀ later limit, limit.isExpired later = false →
          log.treeSize later limit = .ok head.treeSize ∧
          log.rootHash later none limit = .ok ⟨head.treeSize, head.rootHash⟩) ∧
      LeafStore.treeHead? log.store = .ok stored ∧
      (∀ head ∈ stored, ∃ size records, LeafStore.size log.store = .ok size ∧
        head.treeSize ≤ size ∧ LeafStore.leaves log.store 0 head.treeSize = .ok records ∧
        head.rootHash = rootOf (records.map LeafRecord.leafHash) ∧
        ∃ latest ∈ log.head.latest, head.timestamp ≤ latest.timestamp) ∧
      (Since (¬·.Signs) Event.LeavesUnsigned (Run.ofCalls storage signer opened calls).events →
        ∀ now deadline, deadline.isExpired now = false →
          ∃ fault, log.signedTreeHead now deadline = .error (.signing fault)) := by
  obtain ⟨log, stored, sound, small⟩ := Run.ofCalls_induction
    (motive := fun events log stored => Since (¬·.Signs) Event.LeavesUnsigned events →
      ∀ head, (log.heads (acceptedLeaves events) stored).InUse head →
        head.treeSize.toNat < (acceptedLeaves events).length)
    fresh signs opened fits short
    (by
      intro log stored _ _ since
      rw [← List.nil_append [_], since_concat] at since
      rcases since with ⟨appended, _⟩ | ⟨_, before⟩
      · exact absurd (accepted_openLog storage signer opened) appended
      · exact absurd before (not_since_nil _ _))
    (fun events log stored now call after storedAfter sound earlier _ _ leaves =>
      sound.inUse_lt leaves earlier)
  have reflects := sound.reflects
  refine ⟨log, stored, sound.log_eq, ?_, reflects.keeps.treeHead?_eq, ?_, ?_⟩
  · intro now deadline head served later limit inTime
    obtain ⟨size, root⟩ := reflects.latestHead_current (latestHead_of_signedTreeHead served)
    rw [← size, root, reflects.size_eq]
    refine ⟨reflects.lists.treeSize later limit inTime, ?_⟩
    rw [← reflects.size_eq]
    exact reflects.rootHash_none inTime
  · intro head present
    obtain ⟨size, reached, records, found, root⟩ := reflects.stored_leaves present
    exact ⟨_, records, size, reached, found, root, sound.history.stored_not_later head present⟩
  · intro since now deadline inTime
    refine Log.signedTreeHead_eq_error inTime ?_
    intro head served
    obtain ⟨unfailed, latest⟩ := latestHead_ok_iff.mp served
    have behind := small since head (.inr latest)
    have covers := reflects.newest unfailed head latest
    omega

theorem Run.servedHead_current_throughOutage :
    let signer := Signer.ed25519 ⟨List.replicate 32 42⟩
    let storage := Storage.faulty (.wrap (.disk .empty))
    let outage := [(⟨1, 1001⟩, Call.append [⟨[1], none⟩] .never)]
    let recovery := outage ++ [(⟨2, 900⟩, .useSigner signer), (⟨3, 901⟩, .inject (.treeHeads true)),
      (⟨4, 902⟩, .append [⟨[2], none⟩, ⟨[1], some [3]⟩] .never)]
    (∃ log fault, (Run.ofCalls storage signer.withoutKey ⟨0, 1000⟩ outage).log = .ok log ∧
      log.signedTreeHead ⟨5, 903⟩ .never = .error (.signing fault)) ∧
    ∃ log, (Run.ofCalls storage signer.withoutKey ⟨0, 1000⟩ recovery).log = .ok log ∧
      ∀ head, log.signedTreeHead ⟨5, 903⟩ .never = .ok head →
        log.treeSize ⟨5, 903⟩ .never = .ok head.treeSize := by
  intro signer storage outage recovery
  constructor
  · obtain ⟨log, stored, opened, _, _, _, missing⟩ := @servedHead_current storage (.inr rfl)
      signer.withoutKey (Signer.withoutKey_storable _) ⟨0, 1000⟩ outage
      (by simp [outage, Call.Fits, NewLeaf.Storable])
      (Nat.lt_of_le_of_lt (length_acceptedLeaves_ofCalls_le _ _ _ _)
        (by simp [outage, Call.leaves]))
    have last : (Run.ofCalls storage signer.withoutKey ⟨0, 1000⟩ outage).events.getLast?.any
        (fun event => !event.accepted.isEmpty && event.head = .unsigned) = true := by
      decide +kernel
    obtain ⟨event, isLast, unsigned⟩ := Option.any_eq_true _ _ |>.mp last
    obtain ⟨before, split⟩ := List.getLast?_eq_some_iff.mp isLast
    obtain ⟨fault, failed⟩ := missing
      (by
        rw [split, since_concat]
        left
        simpa [Event.LeavesUnsigned] using unsigned)
      ⟨5, 903⟩ .never rfl
    exact ⟨log, fault, opened, failed⟩
  · obtain ⟨log, stored, opened, current, _⟩ := @servedHead_current storage (.inr rfl)
      signer.withoutKey (Signer.withoutKey_storable _) ⟨0, 1000⟩ recovery
      (by simp [recovery, outage, signer, Call.Fits, NewLeaf.Storable, Signer.ed25519_storable])
      (Nat.lt_of_le_of_lt (length_acceptedLeaves_ofCalls_le _ _ _ _)
        (by simp [recovery, outage, Call.leaves]))
    refine ⟨log, opened, ?_⟩
    intro head served
    exact (current _ _ head served _ _ rfl).1

end VerifiableLog
