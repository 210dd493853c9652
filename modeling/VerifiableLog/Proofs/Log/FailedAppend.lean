import VerifiableLog.Proofs.Log.Reading
import VerifiableLog.Proofs.Log.Refinement
import VerifiableLog.Proofs.Store.Ledger

/-!
Appends that fail. An append that is refused, wherever on its way, leaves the log and its store as
they were; of the failures that the store was told to make, one may be used up. Once the store has
taken the batch nothing can turn the append into a failure. All of this holds over any store that is
put under the log, one that has moved on without it included.
-/

namespace VerifiableLog

open LawfulStore (Holds)
open Merkle (Accumulator rootOf)
open Merkle.Accumulator (ofLeaves)

/-! ### Refused batches -/

theorem Backend.commit_error_same {backend after : Backend} {batch : Batch} {cause : StoreError}
    (refused : LeafStore.commit backend batch = (.error cause, after)) : after = backend := by
  cases backend with
  | memory store =>
      simp only [LeafStore.commit] at refused
      cases committed : store.commit batch with
      | ok next => simp [committed] at refused
      | error fault =>
          simp only [committed, Prod.map_apply, id_eq, Prod.mk.injEq] at refused
          exact refused.2.symm
  | disk store =>
      simp only [LeafStore.commit] at refused
      cases committed : store.commit batch with
      | ok next => simp [committed] at refused
      | error fault =>
          simp only [committed, Prod.map_apply, id_eq, Prod.mk.injEq] at refused
          exact refused.2.symm

theorem Backend.commit_error_kind {backend : Backend} {content : Content} {batch : Batch}
    {cause : StoreError} (holds : Holds backend content)
    (refused : (LeafStore.commit backend batch).1 = .error cause) :
    ∃ expected found, cause = .sequenceMismatch expected found := by
  rw [commit_result holds, content.validate_eq] at refused
  cases mismatch : content.mismatch? batch with
  | none => simp [mismatch] at refused
  | some places =>
      simp only [mismatch, Except.error.injEq] at refused
      exact ⟨places.1, places.2, refused.symm⟩

namespace Storage

def pendingFailures : Storage → Nat
  | .bare _ => 0
  | .faulty store => store.failingCommits

theorem commit_error_cases {storage after : Storage} {batch : Batch} {cause : StoreError}
    (refused : LeafStore.commit storage batch = (.error cause, after)) :
    (after = storage ∧ (LeafStore.commit storage.backend batch).1 = .error cause) ∨
      cause = .injected .commit ∧ ∃ count, storage.pendingFailures = count + 1 ∧
        after = storage.inject (.commits count) := by
  cases storage with
  | bare backend =>
      have under : (LeafStore.commit backend batch).map id bare = (.error cause, after) := refused
      rcases inner : LeafStore.commit backend batch with ⟨result, next⟩
      rw [inner] at under
      obtain ⟨rfl, rfl⟩ := Prod.mk.inj under
      refine .inl ⟨congrArg bare (Backend.commit_error_same inner), ?_⟩
      exact congrArg Prod.fst inner
  | faulty store =>
      have under : (LeafStore.commit store batch).map id faulty = (.error cause, after) := refused
      by_cases pending : store.failingCommits > 0
      · rw [FaultyStore.commit_of_pending pending] at under
        obtain ⟨failed, rfl⟩ := Prod.mk.inj under
        refine .inr ⟨(Except.error.inj failed).symm, store.failingCommits - 1, ?_, rfl⟩
        exact (Nat.sub_add_cancel pending).symm
      · rw [FaultyStore.commit_of_none_pending pending] at under
        rcases inner : LeafStore.commit store.inner batch with ⟨result, next⟩
        rw [inner] at under
        obtain ⟨rfl, rfl⟩ := Prod.mk.inj under
        refine .inl ⟨?_, congrArg Prod.fst inner⟩
        rw [Backend.commit_error_same inner]

/-! ### Failures to come -/

theorem size_inject (storage : Storage) (fault : Fault) :
    LeafStore.size (storage.inject fault) = LeafStore.size storage := by
  cases storage <;> cases fault <;> rfl

theorem nodes_inject (storage : Storage) (fault : Fault) :
    LeafStore.nodes (storage.inject fault) = LeafStore.nodes storage := by
  cases storage <;> cases fault <;> rfl

theorem treeHead?_inject (storage : Storage) (fault : Fault) :
    LeafStore.treeHead? (storage.inject fault) = LeafStore.treeHead? storage := by
  cases storage <;> cases fault <;> rfl

theorem needsHead_inject (storage : Storage) (fault : Fault) :
    (storage.inject fault).needsHead = storage.needsHead := by
  rw [needsHead, needsHead, treeHead?_inject, size_inject]

theorem refusesHeads_inject_commits (storage : Storage) (count : Nat) :
    (storage.inject (.commits count)).refusesHeads = storage.refusesHeads := by
  cases storage <;> rfl

theorem inject_inject_commits (storage : Storage) (count others : Nat) :
    (storage.inject (.commits count)).inject (.commits others) =
      storage.inject (.commits others) := by
  cases storage <;> rfl

theorem inject_treeHeads_inject_commits (storage : Storage) (fails : Bool) (count : Nat) :
    (storage.inject (.commits count)).inject (.treeHeads fails) =
      (storage.inject (.treeHeads fails)).inject (.commits count) := by
  cases storage <;> rfl

theorem putTreeHead_inject_commits (storage : Storage) (count : Nat) (head : SignedTreeHead) :
    LeafStore.putTreeHead (storage.inject (.commits count)) head =
      (LeafStore.putTreeHead storage head).map (·.inject (.commits count)) := by
  cases storage with
  | bare backend =>
      obtain ⟨after, written⟩ := backend.putTreeHead_ok head
      change (LeafStore.putTreeHead backend head).map bare =
        ((LeafStore.putTreeHead backend head).map bare).map _
      rw [written]
      rfl
  | faulty store =>
      obtain ⟨inner, failing, fails⟩ := store
      obtain ⟨after, written⟩ := inner.putTreeHead_ok head
      change (LeafStore.putTreeHead (FaultyStore.mk inner count fails) head).map faulty =
        ((LeafStore.putTreeHead (FaultyStore.mk inner failing fails) head).map faulty).map _
      cases fails with
      | true => rfl
      | false =>
          rw [FaultyStore.putTreeHead_of_works rfl, FaultyStore.putTreeHead_of_works rfl]
          simp only [written]
          rfl

end Storage

namespace Log

def withPending (log : Log Storage) (count : Nat) : Log Storage :=
  { log with store := log.store.inject (.commits count) }

theorem publishHead_withPending (log : Log Storage) (count : Nat) (now : Moment)
    (state : TreeState) :
    (log.withPending count).publishHead now state =
      (log.publishHead now state).withPending count := by
  simp only [publishHead, withPending]
  cases log.signer.sign _ with
  | error cause => rfl
  | ok signature =>
      dsimp only
      rw [Storage.putTreeHead_inject_commits]
      cases LeafStore.putTreeHead log.store _ <;> rfl

theorem headOutcome_withPending (log : Log Storage) (count : Nat) :
    (log.withPending count).headOutcome = log.headOutcome := by
  simp only [headOutcome, withPending, Storage.refusesHeads_inject_commits]

theorem ask_withPending (log : Log Storage) (count : Nat) (now : Moment) (deadline : Deadline)
    (question : Question) : (log.withPending count).ask now deadline question =
      log.ask now deadline question := by
  have tree : (log.withPending count).tree = log.tree := rfl
  have same : SameLeaves (log.withPending count).store log.store :=
    Storage.sameLeaves_of_backend (log.store.backend_inject _)
  by_cases asksHead : question = .signedTreeHead
  · subst asksHead
    rfl
  · exact ask_eq tree same now deadline asksHead

theorem openStore_inject_commits (storage : Storage) (count : Nat) (signer : Signer)
    (now : Moment) :
    openStore (storage.inject (.commits count)) signer now =
      (openStore storage signer now).map (·.withPending count) := by
  change _ = (·.withPending count) <$> openStore storage signer now
  simp only [openStore, Storage.size_inject, Storage.nodes_inject, Storage.treeHead?_inject,
    map_bind]
  refine bind_congr fun size => bind_congr fun nodes => bind_congr fun tree => ?_
  by_cases uncovered : tree.size ≠ size.toNat
  · simp only [if_pos uncovered]
    rfl
  · simp only [if_neg uncovered, map_bind]
    refine bind_congr fun stored => bind_congr fun _ => bind_congr fun state => ?_
    split
    · exact congrArg Except.ok (publishHead_withPending
        ⟨storage, signer, tree, ⟨stored, none⟩, false⟩ count now state)
    · rfl

theorem refresh_withPending (log : Log Storage) (count : Nat) (now : Moment)
    (deadline : Deadline) :
    (log.withPending count).refresh now deadline =
      (log.refresh now deadline).map id (·.withPending count) := by
  have tree : (log.withPending count).tree = log.tree := rfl
  simp only [refresh, publishHead_withPending, tree]
  cases treeState log.tree <;> rfl

end Log

def Call.appends : Call → Bool
  | .append _ _ => true
  | _ => false

theorem Log.step_withPending (log : Log Storage) (count : Nat) (now : Moment) {call : Call}
    (quiet : call.appends = false) :
    ∃ next, (log.withPending count).step now call =
      ((log.step now call).1, (log.step now call).2.map (·.withPending next)) := by
  cases call with
  | append leaves deadline => simp [Call.appends] at quiet
  | refresh deadline =>
      refine ⟨count, ?_⟩
      rcases refreshed : log.refresh now deadline with ⟨answer, after⟩
      simp only [step, refresh_withPending, refreshed, Prod.map_apply, id_eq,
        headOutcome_withPending]
      rfl
  | close => exact ⟨count, rfl⟩
  | read question deadline =>
      refine ⟨count, ?_⟩
      simp only [step, ask_withPending]
      rfl
  | useSigner signer => exact ⟨count, rfl⟩
  | inject fault =>
      cases fault with
      | commits others =>
          refine ⟨others, ?_⟩
          simp only [step, withPending, Except.map, Storage.inject_inject_commits]
      | treeHeads fails =>
          refine ⟨count, ?_⟩
          simp only [step, withPending, Except.map, Storage.inject_treeHeads_inject_commits]
  | reopen =>
      refine ⟨count, ?_⟩
      change (log.store.inject (.commits count)).openLog log.signer now = _
      simp only [step, Storage.openLog, Storage.needsHead_inject, openStore_inject_commits]
      cases openStore log.store log.signer now with
      | error cause => rfl
      | ok reopened => simp only [Except.map, headOutcome_withPending]

theorem Run.foldl_call_withPending (events : List Event) (result : Except LogError (Log Storage))
    (count : Nat) {calls : List (Moment × Call)} (quiet : ∀ call ∈ calls, call.2.appends = false) :
    (calls.foldl Run.call ⟨events, result.map (·.withPending count)⟩).events =
      (calls.foldl Run.call ⟨events, result⟩).events := by
  induction calls generalizing events result count with
  | nil => rfl
  | cons call calls ih =>
      simp only [List.mem_cons, forall_eq_or_imp] at quiet
      cases result with
      | error cause => exact ih events (.error cause) count quiet.2
      | ok log =>
          obtain ⟨next, stepped⟩ := log.step_withPending count call.1 quiet.1
          simp only [List.foldl_cons, Run.call, Except.map, stepped]
          exact ih _ _ next quiet.2

/-! ### Appending -/

namespace Log

def eventsOf (log : Log Storage) (calls : List (Moment × Call)) : List Event :=
  (calls.foldl Run.call ⟨[], .ok log⟩).events

/-- Nothing has changed but, maybe, that one of the failures to come is used up. -/
structure AsBefore (log after : Log Storage) : Prop where
  others : after = { log with store := after.store }
  backend : after.store.backend = log.store.backend
  store : after.store = log.store ∨ ∃ count, log.store.pendingFailures = count + 1 ∧
    after.store = log.store.inject (.commits count)

theorem AsBefore.refl (log : Log Storage) : log.AsBefore log := ⟨rfl, rfl, .inl rfl⟩

theorem asBefore_of_commit_error {log : Log Storage} {batch : Batch} {fault : StoreError}
    {store : Storage} (refused : LeafStore.commit log.store batch = (.error fault, store)) :
    log.AsBefore { log with store := store } := by
  rcases Storage.commit_error_cases refused with ⟨rfl, _⟩ | ⟨_, count, pending, rfl⟩
  · exact .refl log
  · exact ⟨rfl, log.store.backend_inject _, .inr ⟨count, pending, rfl⟩⟩

theorem AsBefore.eventsOf_eq {log after : Log Storage} (same : log.AsBefore after)
    {calls : List (Moment × Call)} (quiet : ∀ call ∈ calls, call.2.appends = false) :
    after.eventsOf calls = log.eventsOf calls := by
  rw [same.others]
  rcases same.store with unchanged | ⟨count, _, used⟩
  · rw [unchanged]
  · rw [used]
    exact Run.foldl_call_withPending [] (.ok log) count quiet

structure AllOrNothing (log : Log Storage) (leaves : List NewLeaf) (now : Moment)
    (batch : List NewLeaf) (deadline : Deadline) : Prop where
  causes : ∀ cause after, log.append now batch deadline = (.error cause, after) →
    cause = .emptyBatch ∨ cause = .closed ∨ cause = .timeout ∨
      ∃ fault, cause = .storage fault ∧
        (LeafStore.commit log.store (log.batchFor batch)).1 = .error fault ∧
        ∀ content, Holds log.store content →
          fault = .injected .commit ∨ ∃ expected found, fault = .sequenceMismatch expected found
  untouched : ∀ cause after, log.append now batch deadline = (.error cause, after) →
    log.AsBefore after
  unnoticed : ∀ cause after, log.append now batch deadline = (.error cause, after) →
    ∀ calls, (∀ call ∈ calls, call.2.appends = false) → after.eventsOf calls = log.eventsOf calls
  next : ∀ cause after, log.append now batch deadline = (.error cause, after) →
    ∀ later others limit receipt last, others.length < 2 ^ 63 →
      after.append later others limit = (.ok receipt, last) → receipt = receiptOf leaves others
  taken : batch ≠ [] → log.isClosed = false → deadline.isExpired now = false →
    (LeafStore.commit log.store (log.batchFor batch)).1 = .ok () →
    ∃ after, log.append now batch deadline = (.ok (receiptOf leaves batch), after)

section

variable {log : Log Storage} {leaves batch : List NewLeaf} {now : Moment} {deadline : Deadline}

theorem append_of_taken (tree : log.tree = ofLeaves (leafHashes leaves))
    (room : (leaves ++ batch).length < 2 ^ 64) (nonempty : batch ≠ [])
    (writable : log.isClosed = false) (inTime : deadline.isExpired now = false)
    (taken : (LeafStore.commit log.store (log.batchFor batch)).1 = .ok ()) :
    ∃ after, log.append now batch deadline = (.ok (receiptOf leaves batch), after) := by
  rw [batchFor_eq tree] at taken
  rw [append_eq_commit nonempty writable inTime, batchFor_eq tree, tree,
    commit_of_taken tree now room taken]
  exact ⟨_, rfl⟩

theorem append_error (tree : log.tree = ofLeaves (leafHashes leaves))
    (room : (leaves ++ batch).length < 2 ^ 64) {cause : LogError} {after : Log Storage}
    (failed : log.append now batch deadline = (.error cause, after)) :
    (cause = .emptyBatch ∨ cause = .closed ∨ cause = .timeout) ∧ after = log ∨
      ∃ fault store, cause = .storage fault ∧ after = { log with store := store } ∧
        LeafStore.commit log.store (log.batchFor batch) = (.error fault, store) := by
  rcases append_split log now batch deadline with ⟨early, causes, turnedAway⟩ | ⟨_, committed⟩
  · obtain ⟨same, rfl⟩ := Prod.mk.inj (turnedAway.symm.trans failed)
    obtain rfl := Except.error.inj same
    exact .inl ⟨causes, rfl⟩
  · right
    rw [committed] at failed
    rcases result : LeafStore.commit log.store (log.batchFor batch) with ⟨fault | _, store⟩
    · rw [commit_of_refused log now _ (congrArg Prod.fst result), result] at failed
      obtain ⟨same, rfl⟩ := Prod.mk.inj failed
      exact ⟨fault, store, (Except.error.inj same).symm, rfl, rfl⟩
    · rw [batchFor_eq tree] at result failed
      rw [tree, commit_of_taken tree now room (congrArg Prod.fst result)] at failed
      cases failed

theorem append_receipt (tree : log.tree = ofLeaves (leafHashes leaves))
    (room : (leaves ++ batch).length < 2 ^ 64) {receipt : AppendReceipt} {after : Log Storage}
    (succeeded : log.append now batch deadline = (.ok receipt, after)) :
    receipt = receiptOf leaves batch := by
  rcases append_split log now batch deadline with ⟨early, _, turnedAway⟩ | ⟨_, committed⟩
  · cases turnedAway.symm.trans succeeded
  · rw [committed] at succeeded
    rcases result : LeafStore.commit log.store (log.batchFor batch) with ⟨fault | _, store⟩
    · rw [commit_of_refused log now _ (congrArg Prod.fst result)] at succeeded
      cases succeeded
    · rw [batchFor_eq tree] at result succeeded
      rw [tree, commit_of_taken tree now room (congrArg Prod.fst result)] at succeeded
      exact (Except.ok.inj (Prod.mk.inj succeeded).1).symm

theorem asBefore_of_append_error (tree : log.tree = ofLeaves (leafHashes leaves))
    (room : (leaves ++ batch).length < 2 ^ 64) {cause : LogError} {after : Log Storage}
    (failed : log.append now batch deadline = (.error cause, after)) : log.AsBefore after := by
  rcases append_error tree room failed with ⟨_, rfl⟩ | ⟨fault, store, _, rfl, refused⟩
  · exact .refl after
  · exact asBefore_of_commit_error refused

theorem allOrNothing (tree : log.tree = ofLeaves (leafHashes leaves))
    (fits : leaves.length < 2 ^ 63) (batchFits : batch.length < 2 ^ 63) :
    log.AllOrNothing leaves now batch deadline := by
  have room : ∀ others : List NewLeaf, others.length < 2 ^ 63 →
      (leaves ++ others).length < 2 ^ 64 := by
    intro others othersFit
    rw [List.length_append]
    omega
  constructor
  · intro cause after failed
    rcases append_error tree (room batch batchFits) failed with
      ⟨early | early | early, _⟩ | ⟨fault, store, blamed, _, refused⟩
    · exact .inl early
    · exact .inr (.inl early)
    · exact .inr (.inr (.inl early))
    · refine .inr (.inr (.inr ⟨fault, blamed, congrArg Prod.fst refused, ?_⟩))
      intro content holds
      rcases Storage.commit_error_cases refused with ⟨_, under⟩ | ⟨injected, _⟩
      · exact .inr (Backend.commit_error_kind holds under)
      · exact .inl injected
  · intro cause after failed
    exact asBefore_of_append_error tree (room batch batchFits) failed
  · intro cause after failed calls quiet
    exact (asBefore_of_append_error tree (room batch batchFits) failed).eventsOf_eq quiet
  · intro cause after failed later others limit receipt last othersFit succeeded
    have same := asBefore_of_append_error tree (room batch batchFits) failed
    have treeAfter : after.tree = ofLeaves (leafHashes leaves) := by
      rw [same.others]
      exact tree
    exact append_receipt treeAfter (room others othersFit) succeeded
  · intro nonempty writable inTime taken
    exact append_of_taken tree (room batch batchFits) nonempty writable inTime taken

end

end Log

/-- An append is all or nothing, at the end of every run over an empty store, whatever store and
whatever signer the log has by then. And in the run itself, the next append that succeeds after one
that failed has the sequences that the failed one would have had. -/
theorem Run.append_all_or_nothing {storage : Storage} (fresh : storage.Fresh) {signer : Signer}
    (signs : signer.Storable) (opened : Moment) {calls : List (Moment × Call)}
    (fits : ∀ call ∈ calls, call.2.Fits)
    (short : (acceptedLeaves (Run.ofCalls storage signer opened calls).events).length < 2 ^ 63) :
    ∃ log, (Run.ofCalls storage signer opened calls).log = .ok log ∧
      (∀ store nextSigner now batch deadline, batch.length < 2 ^ 63 →
        Log.AllOrNothing { log with store := store, signer := nextSigner }
          (acceptedLeaves (Run.ofCalls storage signer opened calls).events) now batch deadline) ∧
      ∀ before failed between next rest cause receipt,
        (Run.ofCalls storage signer opened calls).events =
          before ++ failed :: (between ++ next :: rest) →
        failed.answer = .error cause → acceptedLeaves between = [] →
        next.answer = .ok (.receipt receipt) →
          receipt = receiptOf (acceptedLeaves before) next.accepted := by
  obtain ⟨log, stored, sound⟩ := Run.ofCalls_sound fresh signs opened fits short
  refine ⟨log, sound.log_eq, ?_, ?_⟩
  · intro store nextSigner now batch deadline batchFits
    exact Log.allOrNothing sound.reflects.tree short batchFits
  · intro before failed between next rest cause receipt split error none answered
    have taken : failed.accepted = [] := by
      rw [Event.accepted, error]
      cases failed.call <;> rfl
    have leaves : acceptedLeaves (before ++ failed :: between) = acceptedLeaves before := by
      simp only [acceptedLeaves, List.flatMap_append, List.flatMap_cons, taken] at none ⊢
      simp [none]
    rw [← leaves]
    exact sound.truthful.receipt _ next rest (by rw [split]; simp) receipt answered

theorem Run.append_all_or_nothing_injectedFault :
    ∃ log, (Run.ofCalls (.faulty (.wrap (.memory .empty))) (.ed25519 ⟨List.replicate 32 42⟩)
        ⟨0, 1000⟩ [(⟨1, 1001⟩, .append [⟨[1], none⟩, ⟨[2], none⟩] .never)]).log = .ok log ∧
      ∀ cause after, Log.append
          { log with
            store := log.store.inject (.commits 1)
            signer := (Signer.ed25519 ⟨List.replicate 32 42⟩).withoutKey }
          ⟨2, 1002⟩ [⟨[3], none⟩] .never = (.error cause, after) →
        after.store.backend = log.store.backend ∧ after.tree = log.tree ∧ after.head = log.head := by
  obtain ⟨log, last, whole, _⟩ := @Run.append_all_or_nothing (.faulty (.wrap (.memory .empty)))
    (.inl rfl) (.ed25519 ⟨List.replicate 32 42⟩) (Signer.ed25519_storable _) ⟨0, 1000⟩
    [(⟨1, 1001⟩, .append [⟨[1], none⟩, ⟨[2], none⟩] .never)]
    (by simp [Call.Fits, NewLeaf.Storable])
    (Nat.lt_of_le_of_lt (length_acceptedLeaves_ofCalls_le _ _ _ _) (by simp [Call.leaves]))
  refine ⟨log, last, ?_⟩
  intro cause after failed
  have same := (whole _ _ _ [⟨[3], none⟩] _ (by simp)).untouched cause after failed
  rw [same.others]
  exact ⟨same.backend.trans (log.store.backend_inject _), rfl, rfl⟩

end VerifiableLog
