import VerifiableLog.Proofs.Log.Step

/-!
A log is an append-only list. Whatever is called in whatever order, whatever fails and however often
the log is opened again, its leaves are those of the appends that succeeded, and everything it
answers about leaves, sizes and roots is read off that list.
-/

namespace VerifiableLog

open LawfulStore (Holds)
open Merkle (Accumulator rootOf)
open Merkle.Accumulator (ofLeaves)

/-! ### Reading -/

/-- Whatever the log answers in time about leaves, sizes and roots is read off the list. -/
structure Log.Lists {σ : Type} [LeafStore σ] (log : Log σ) (leaves : List NewLeaf) : Prop where
  treeSize : ∀ now deadline, deadline.isExpired now = false →
    log.treeSize now deadline = .ok (UInt64.ofNat leaves.length)
  leavesByRange : ∀ now deadline start stop, deadline.isExpired now = false → start ≤ stop →
    log.leavesByRange now start stop deadline =
      .ok (((recordsOf leaves).take (stop.toNat + 1)).drop start.toNat)
  leafByHash : ∀ now deadline hash, deadline.isExpired now = false →
    log.leafByHash now hash deadline =
      match (recordsOf leaves).find? fun record => record.leafHash = hash with
      | some record => .ok record
      | none => .error (.notFound hash)
  rootHash : ∀ now deadline treeSize, deadline.isExpired now = false →
    treeSize.toNat ≤ leaves.length →
    log.rootHash now (some treeSize) deadline =
      .ok ⟨treeSize, rootOf ((leafHashes leaves).take treeSize.toNat)⟩
  rootHash_beyond : ∀ now deadline treeSize, deadline.isExpired now = false →
    leaves.length < treeSize.toNat →
    log.rootHash now (some treeSize) deadline =
      .error (.invalidTreeSize (.beyondSize treeSize (UInt64.ofNat leaves.length)))

section

variable {σ : Type} [LeafStore σ] [LawfulStore σ] {log : Log σ} {leaves : List NewLeaf}
  {stored : Option SignedTreeHead} {now : Moment} {deadline : Deadline}

theorem toNat_rangeLimit (size stop : UInt64) :
    (if stop < size then stop + 1 else size).toNat = min (stop.toNat + 1) size.toNat := by
  by_cases inside : stop < size
  · have bound := UInt64.lt_iff_toNat_lt.mp inside
    have room := size.toNat_lt
    rw [if_pos inside, UInt64.toNat_add, UInt64.toNat_one, Nat.mod_eq_of_lt (by omega)]
    omega
  · rw [if_neg inside]
    rw [UInt64.lt_iff_toNat_lt] at inside
    omega

theorem leavesByRange_eq (reflects : log.Reflects leaves stored)
    (inTime : deadline.isExpired now = false) {start stop : UInt64} (ordered : start ≤ stop) :
    log.leavesByRange now start stop deadline =
      .ok (((recordsOf leaves).take (stop.toNat + 1)).drop start.toNat) := by
  obtain ⟨nodes, same, holds⟩ := reflects.keeps.content
  have notAfter : ¬start > stop := UInt64.not_lt.mpr ordered
  have limit := toNat_rangeLimit log.size stop
  have size : log.size.toNat = (recordsOf leaves).length := by
    rw [reflects.size_eq, toNat_ofNat_length reflects.keeps.fits, length_recordsOf]
  rw [size] at limit
  have taken : (recordsOf leaves).take (if stop < log.size then stop + 1 else log.size).toNat =
      (recordsOf leaves).take (stop.toNat + 1) := by
    rw [limit, ← List.take_eq_take_min]
  simp only [Log.leavesByRange, Log.checkDeadline, inTime, Bool.false_eq_true, if_false, bind,
    Except.bind, notAfter]
  by_cases none : start ≥ if stop < log.size then stop + 1 else log.size
  · have nothing : ((recordsOf leaves).take (stop.toNat + 1)).drop start.toNat = [] := by
      rw [ge_iff_le, UInt64.le_iff_toNat_le, limit] at none
      rw [List.drop_eq_nil_iff, List.length_take]
      exact none
    rw [if_pos none, nothing]
    rfl
  · rw [if_neg none, LawfulStore.leaves_eq holds, taken]
    rfl

theorem leafByHash_eq (reflects : log.Reflects leaves stored)
    (inTime : deadline.isExpired now = false) (hash : Digest) :
    log.leafByHash now hash deadline =
      match (recordsOf leaves).find? fun record => record.leafHash = hash with
      | some record => .ok record
      | none => .error (.notFound hash) := by
  obtain ⟨nodes, same, holds⟩ := reflects.keeps.content
  have fits := reflects.keeps.fits
  simp only [Log.leafByHash, Log.sequenceOf, Log.checkDeadline, inTime, Bool.false_eq_true,
    if_false, bind, Except.bind, LawfulStore.sequenceOf?_eq holds, Log.fromStore, Except.mapError]
  cases found : (recordsOf leaves).find? fun record => record.leafHash = hash with
  | none => rfl
  | some record =>
      have place := (numbered_recordsOf leaves).getElem?_sequence
        (by rw [length_recordsOf]; omega) (List.mem_of_find?_eq_some found)
      rw [Nat.sub_zero] at place
      have inside := (List.getElem?_eq_some_iff.mp place.2).1
      rw [length_recordsOf] at inside
      have before : record.sequence < log.size := by
        rw [reflects.size_eq, UInt64.lt_iff_toNat_lt, toNat_ofNat_length fits]
        exact inside
      simp only [Option.map_some, before, if_true, pure, Except.pure, LawfulStore.leaf?_eq holds,
        place.2]

theorem rootHash_eq (reflects : log.Reflects leaves stored)
    (inTime : deadline.isExpired now = false) {treeSize : UInt64}
    (reached : treeSize.toNat ≤ leaves.length) :
    log.rootHash now (some treeSize) deadline =
      .ok ⟨treeSize, rootOf ((leafHashes leaves).take treeSize.toNat)⟩ := by
  have within : ¬treeSize > log.size := by
    rw [gt_iff_lt, reflects.size_eq, UInt64.lt_iff_toNat_lt,
      toNat_ofNat_length reflects.keeps.fits]
    omega
  have root := @Accumulator.root_ofLeaves (leafHashes leaves) treeSize.toNat
    (by rwa [length_leafHashes])
  simp only [Log.rootHash, Log.checkDeadline, inTime, Bool.false_eq_true, if_false, bind,
    Except.bind, Option.getD_some, within, reflects.tree, root, Log.fromTree, Except.mapError,
    pure, Except.pure]

theorem rootHash_eq_error (reflects : log.Reflects leaves stored)
    (inTime : deadline.isExpired now = false) {treeSize : UInt64}
    (beyond : leaves.length < treeSize.toNat) :
    log.rootHash now (some treeSize) deadline =
      .error (.invalidTreeSize (.beyondSize treeSize (UInt64.ofNat leaves.length))) := by
  have outside : treeSize > UInt64.ofNat leaves.length := by
    rw [gt_iff_lt, UInt64.lt_iff_toNat_lt, toNat_ofNat_length reflects.keeps.fits]
    exact beyond
  simp only [Log.rootHash, Log.checkDeadline, inTime, Bool.false_eq_true, if_false, bind,
    Except.bind, Option.getD_some, reflects.size_eq, outside, if_true]

theorem Log.Reflects.lists (reflects : log.Reflects leaves stored) : log.Lists leaves where
  treeSize now deadline inTime := by
    rw [Log.treeSize, Log.checkDeadline, inTime, reflects.size_eq]
    rfl
  leavesByRange _ _ _ _ inTime ordered := leavesByRange_eq reflects inTime ordered
  leafByHash _ _ hash inTime := leafByHash_eq reflects inTime hash
  rootHash _ _ _ inTime reached := rootHash_eq reflects inTime reached
  rootHash_beyond _ _ _ inTime beyond := rootHash_eq_error reflects inTime beyond

end

/-! ### Runs -/

theorem acceptedLeaves_concat (events : List Event) (event : Event) :
    acceptedLeaves (events ++ [event]) = acceptedLeaves events ++ event.accepted := by
  simp [acceptedLeaves]

structure Truthful (events : List Event) : Prop where
  describes : ∀ event ∈ events, ∀ head, event.servedHead? = some head →
    head.Describes (acceptedLeaves events)
  receipt : ∀ before event after, events = before ++ event :: after →
    ∀ receipt, event.answer = .ok (.receipt receipt) →
      receipt = receiptOf (acceptedLeaves before) event.accepted

theorem Truthful.nil : Truthful [] where
  describes := by simp
  receipt := by simp

theorem Truthful.next {events : List Event} {event : Event} {before : Heads} {after : Log Storage}
    {stored : Option SignedTreeHead} (truthful : Truthful events)
    (leaves : Leaves event (acceptedLeaves events) before after stored) :
    Truthful (events ++ [event]) where
  describes := by
    intro past member head served
    rw [acceptedLeaves_concat]
    rcases List.mem_append.mp member with earlier | now
    · exact (truthful.describes past earlier head served).append event.accepted
    · obtain rfl := List.mem_singleton.mp now
      exact leaves.reflects.latest head (leaves.serves head served).latest
  receipt := by
    intro earlier past later split receipt answered
    rcases List.eq_nil_or_concat later with rfl | ⟨rest, last, rfl⟩
    · obtain ⟨rfl, rfl⟩ := List.append_singleton_inj.mp split
      exact leaves.receipt receipt answered
    · rw [List.concat_eq_append, ← List.cons_append, ← List.append_assoc] at split
      exact truthful.receipt earlier past rest (List.append_singleton_inj.mp split).1 receipt
        answered

/-- The log as it is now and all that has happened agree on the leaves. -/
structure Run.Sound (run : Run) (log : Log Storage) (stored : Option SignedTreeHead) : Prop where
  log_eq : run.log = .ok log
  reflects : log.Reflects (acceptedLeaves run.events) stored
  history : History run.events (log.heads (acceptedLeaves run.events) stored)
  truthful : Truthful run.events

theorem Run.sound_of_leaves {events : List Event} {event : Event} {before : Heads}
    {after : Log Storage} {stored : Option SignedTreeHead} (history : History events before)
    (truthful : Truthful events)
    (leaves : Leaves event (acceptedLeaves events) before after stored) :
    Run.Sound ⟨events ++ [event], .ok after⟩ after stored := by
  refine ⟨rfl, ?_, ?_, truthful.next leaves⟩
  · rw [acceptedLeaves_concat]
    exact leaves.reflects
  · rw [acceptedLeaves_concat]
    exact history.next leaves.move leaves.serves

theorem Run.Sound.step {run : Run} {log : Log Storage} {stored : Option SignedTreeHead}
    (sound : run.Sound log stored) {call : Moment × Call} (fits : call.2.Fits)
    (short : (acceptedLeaves (run.call call).events).length < 2 ^ 63) :
    ∃ after storedAfter, (log.step call.1 call.2).2 = .ok after ∧
      run.call call = ⟨run.events ++ [(log.step call.1 call.2).1], .ok after⟩ ∧
      Leaves (log.step call.1 call.2).1 (acceptedLeaves run.events)
        (log.heads (acceptedLeaves run.events) stored) after storedAfter := by
  simp only [Run.call, sound.log_eq] at short ⊢
  rw [acceptedLeaves_concat] at short
  obtain ⟨after, storedAfter, result, leaves⟩ := step_leaves sound.reflects fits short
  rw [result]
  exact ⟨after, storedAfter, rfl, rfl, leaves⟩

theorem events_foldl_call (calls : List (Moment × Call)) (run : Run) :
    ∃ more, (calls.foldl Run.call run).events = run.events ++ more := by
  induction calls generalizing run with
  | nil => exact ⟨[], by simp⟩
  | cons call calls ih =>
      obtain ⟨more, later⟩ := ih (run.call call)
      rw [List.foldl_cons, later, Run.call]
      cases run.log with
      | error cause => exact ⟨more, rfl⟩
      | ok log => exact ⟨(log.step call.1 call.2).1 :: more, by simp⟩

section

variable {motive : List Event → Log Storage → Option SignedTreeHead → Prop}

theorem Run.Sound.foldl_call
    (steps : ∀ events log stored now call after storedAfter,
      Run.Sound ⟨events, .ok log⟩ log stored → motive events log stored → call.Fits →
      (log.step now call).2 = .ok after →
      Leaves (log.step now call).1 (acceptedLeaves events)
        (log.heads (acceptedLeaves events) stored) after storedAfter →
      motive (events ++ [(log.step now call).1]) after storedAfter)
    {run : Run} {log : Log Storage} {stored : Option SignedTreeHead}
    (sound : run.Sound log stored) (holds : motive run.events log stored)
    {calls : List (Moment × Call)} (fits : ∀ call ∈ calls, call.2.Fits)
    (short : (acceptedLeaves (calls.foldl Run.call run).events).length < 2 ^ 63) :
    ∃ after storedAfter, (calls.foldl Run.call run).Sound after storedAfter ∧
      motive (calls.foldl Run.call run).events after storedAfter := by
  induction calls generalizing run log stored with
  | nil => exact ⟨log, stored, sound, holds⟩
  | cons call calls ih =>
      rw [List.foldl_cons] at short ⊢
      obtain ⟨more, later⟩ := events_foldl_call calls (run.call call)
      have shortNow : (acceptedLeaves (run.call call).events).length < 2 ^ 63 := by
        rw [later, acceptedLeaves, List.flatMap_append, List.length_append] at short
        exact Nat.lt_of_le_of_lt (Nat.le_add_right _ _) short
      have fitsNow := fits call List.mem_cons_self
      obtain ⟨after, storedAfter, result, called, leaves⟩ := sound.step fitsNow shortNow
      have soundNow : Run.Sound ⟨run.events, .ok log⟩ log stored :=
        ⟨rfl, sound.reflects, sound.history, sound.truthful⟩
      have holdsAfter := steps _ _ _ _ _ _ _ soundNow holds fitsNow result leaves
      have soundAfter := sound_of_leaves sound.history sound.truthful leaves
      rw [called] at short ⊢
      exact ih soundAfter holdsAfter (fun later member => fits later (List.mem_cons_of_mem _ member))
        short

end

theorem accepted_openLog (storage : Storage) (signer : Signer) (now : Moment) :
    (storage.openLog signer now).1.accepted = [] := by
  rw [Storage.openLog]
  split <;> rfl

theorem length_accepted_step_le (log : Log Storage) (now : Moment) (call : Call) :
    (log.step now call).1.accepted.length ≤ call.leaves.length := by
  cases call with
  | append leaves deadline =>
      rcases result : log.append now leaves deadline with ⟨answer | receipt, after⟩
      · simp [Log.step, result, Event.accepted]
      · simp [Log.step, result, Event.accepted, Call.leaves]
  | reopen => simp [Log.step, accepted_openLog]
  | refresh deadline | close | read question deadline | useSigner signer | inject fault =>
      exact Nat.zero_le _

theorem length_acceptedLeaves_foldl_le (calls : List (Moment × Call)) (run : Run) :
    (acceptedLeaves (calls.foldl Run.call run).events).length ≤
      (acceptedLeaves run.events).length + (calls.flatMap fun call => call.2.leaves).length := by
  induction calls generalizing run with
  | nil => simp
  | cons call calls ih =>
      have later := ih (run.call call)
      have now : (acceptedLeaves (run.call call).events).length ≤
          (acceptedLeaves run.events).length + call.2.leaves.length := by
        rw [Run.call]
        cases run.log with
        | error cause => exact Nat.le_add_right _ _
        | ok log =>
            have accepted := length_accepted_step_le log call.1 call.2
            simp only [acceptedLeaves_concat, List.length_append]
            omega
      rw [List.foldl_cons, List.flatMap_cons, List.length_append]
      omega

theorem length_acceptedLeaves_ofCalls_le (storage : Storage) (signer : Signer) (opened : Moment)
    (calls : List (Moment × Call)) :
    (acceptedLeaves (Run.ofCalls storage signer opened calls).events).length ≤
      (calls.flatMap fun call => call.2.leaves).length := by
  have none : acceptedLeaves [(storage.openLog signer opened).1] = [] := by
    simp [acceptedLeaves, accepted_openLog]
  have each := length_acceptedLeaves_foldl_le calls
    ⟨[(storage.openLog signer opened).1], (storage.openLog signer opened).2⟩
  rw [none] at each
  simpa [Run.ofCalls] using each

theorem Storage.Fresh.keeps {storage : Storage} (fresh : storage.Fresh) :
    Keeps storage [] none where
  fits := by simp
  storable := by simp
  content := by
    refine ⟨[], ?_, fresh.holds_empty⟩
    simp [leafHashes, Accumulator.ofLeaves_nil, Accumulator.nodes, Accumulator.empty]
  head := by simp

/-- Every run over an empty store is sound, as long as words of 64 bits count its leaves; and what
holds when the log has been opened and is kept by each call holds at the end. -/
theorem Run.ofCalls_induction {motive : List Event → Log Storage → Option SignedTreeHead → Prop}
    {storage : Storage} (fresh : storage.Fresh) {signer : Signer} (signs : signer.Storable)
    (opened : Moment) {calls : List (Moment × Call)} (fits : ∀ call ∈ calls, call.2.Fits)
    (short : (acceptedLeaves (Run.ofCalls storage signer opened calls).events).length < 2 ^ 63)
    (opens : ∀ log stored, (storage.openLog signer opened).2 = .ok log →
      Leaves (storage.openLog signer opened).1 [] .none log stored →
      motive [(storage.openLog signer opened).1] log stored)
    (steps : ∀ events log stored now call after storedAfter,
      Run.Sound ⟨events, .ok log⟩ log stored → motive events log stored → call.Fits →
      (log.step now call).2 = .ok after →
      Leaves (log.step now call).1 (acceptedLeaves events)
        (log.heads (acceptedLeaves events) stored) after storedAfter →
      motive (events ++ [(log.step now call).1]) after storedAfter) :
    ∃ log stored, (Run.ofCalls storage signer opened calls).Sound log stored ∧
      motive (Run.ofCalls storage signer opened calls).events log stored := by
  obtain ⟨log, stored, result, leaves⟩ := openLog_leaves fresh.keeps signs opened none
  have start := sound_of_leaves .start .nil leaves
  rw [← result] at start
  exact start.foldl_call steps (opens log stored result leaves) fits short

theorem Run.ofCalls_sound {storage : Storage} (fresh : storage.Fresh) {signer : Signer}
    (signs : signer.Storable) (opened : Moment) {calls : List (Moment × Call)}
    (fits : ∀ call ∈ calls, call.2.Fits)
    (short : (acceptedLeaves (Run.ofCalls storage signer opened calls).events).length < 2 ^ 63) :
    ∃ log stored, (Run.ofCalls storage signer opened calls).Sound log stored := by
  obtain ⟨log, stored, sound, _⟩ := Run.ofCalls_induction (motive := fun _ _ _ => True) fresh signs
    opened fits short (fun _ _ _ _ => trivial) fun _ _ _ _ _ _ _ _ _ _ _ _ => trivial
  exact ⟨log, stored, sound⟩

/-- The log refines the list of the leaves that its appends were given and took: at the end of every
run over an empty store there is a log, its answers are read off that list, and each receipt named
the place of its batch in it. What is asked of the calls is that their lengths are words of a
machine. -/
theorem Run.refines_list {storage : Storage} (fresh : storage.Fresh) {signer : Signer}
    (signs : signer.Storable) (opened : Moment) {calls : List (Moment × Call)}
    (fits : ∀ call ∈ calls, call.2.Fits)
    (short : (acceptedLeaves (Run.ofCalls storage signer opened calls).events).length < 2 ^ 63) :
    ∃ log, (Run.ofCalls storage signer opened calls).log = .ok log ∧
      log.Lists (acceptedLeaves (Run.ofCalls storage signer opened calls).events) ∧
      ∀ before event after,
        (Run.ofCalls storage signer opened calls).events = before ++ event :: after →
        ∀ receipt, event.answer = .ok (.receipt receipt) →
          receipt = receiptOf (acceptedLeaves before) event.accepted := by
  obtain ⟨log, stored, sound⟩ := Run.ofCalls_sound fresh signs opened fits short
  exact ⟨log, sound.log_eq, sound.reflects.lists, sound.truthful.receipt⟩

theorem Run.refines_list_throughFaults :
    ∃ log, (Run.ofCalls (.faulty (.wrap (.disk .empty))) (.ed25519 ⟨List.replicate 32 42⟩) ⟨0, 1000⟩
        [(⟨1, 1001⟩, .append [⟨[1], none⟩, ⟨[2], some [3]⟩] .never),
          (⟨2, 1002⟩, .inject (.commits 1)), (⟨3, 1003⟩, .append [⟨[4], none⟩] .never),
          (⟨4, 900⟩, .append [⟨[1], none⟩] .never), (⟨5, 901⟩, .reopen)]).log = .ok log ∧
      log.Lists (acceptedLeaves (Run.ofCalls (.faulty (.wrap (.disk .empty)))
        (.ed25519 ⟨List.replicate 32 42⟩) ⟨0, 1000⟩
        [(⟨1, 1001⟩, .append [⟨[1], none⟩, ⟨[2], some [3]⟩] .never),
          (⟨2, 1002⟩, .inject (.commits 1)), (⟨3, 1003⟩, .append [⟨[4], none⟩] .never),
          (⟨4, 900⟩, .append [⟨[1], none⟩] .never), (⟨5, 901⟩, .reopen)]).events) := by
  obtain ⟨log, opened, lists, _⟩ := @Run.refines_list (.faulty (.wrap (.disk .empty)))
    (.inr rfl) (.ed25519 ⟨List.replicate 32 42⟩) (Signer.ed25519_storable _) ⟨0, 1000⟩
    [(⟨1, 1001⟩, .append [⟨[1], none⟩, ⟨[2], some [3]⟩] .never),
      (⟨2, 1002⟩, .inject (.commits 1)), (⟨3, 1003⟩, .append [⟨[4], none⟩] .never),
      (⟨4, 900⟩, .append [⟨[1], none⟩] .never), (⟨5, 901⟩, .reopen)]
    (by simp [Call.Fits, NewLeaf.Storable])
    (Nat.lt_of_le_of_lt (length_acceptedLeaves_ofCalls_le _ _ _ _) (by simp [Call.leaves]))
  exact ⟨log, opened, lists⟩

end VerifiableLog
