import VerifiableLog.Proofs.Log.Reading
import VerifiableLog.Proofs.Log.Refinement

/-!
Opening a log again. Whatever a run over an empty store has gone through, what it leaves in its
store is enough: a log opened over that store answers as the one before did, and the only thing it
may have to write is a head for the leaves that the stored one does not cover.
-/

namespace VerifiableLog

open Merkle (Accumulator rootOf)
open Merkle.Accumulator (ofLeaves)

def TreeState.dueHead (state : TreeState) (now : Moment) (stored : Option SignedTreeHead) :
    TreeHead :=
  ⟨state.size, max now.sinceEpoch ((stored.map SignedTreeHead.timestamp).getD 0), state.rootHash⟩

/-- The log opened over `storage` goes on where `log` left off, as a log of the given leaves. -/
structure Log.Recovers (log : Log Storage) (leaves : List NewLeaf) (storage : Storage)
    (signer : Signer) (now : Moment) (reopened : Log Storage) : Prop where
  answers : ∀ moment deadline question, question ≠ .signedTreeHead →
    reopened.ask moment deadline question = log.ask moment deadline question
  covered : ∀ head, LeafStore.treeHead? storage = .ok (some head) →
    LeafStore.size storage = .ok head.treeSize →
    reopened.store = storage ∧ reopened.latestHead = .ok head
  replaced : ∀ stored signature, LeafStore.treeHead? storage = .ok stored →
    (∀ head ∈ stored, LeafStore.size storage ≠ .ok head.treeSize) →
    signer.sign ((stateOf leaves).dueHead now stored) = .ok signature →
    storage.refusesHeads = false →
    let signed := ((stateOf leaves).dueHead now stored).withSignature signature
    LeafStore.putTreeHead storage signed = .ok reopened.store ∧
      LeafStore.treeHead? reopened.store = .ok (some signed) ∧
      reopened.latestHead = .ok signed ∧
      ∀ nextSigner later, ∃ next, Log.openStore reopened.store nextSigner later = .ok next ∧
        next.store = reopened.store ∧ next.latestHead = .ok signed

theorem publishHead_of_written {σ : Type} [LeafStore σ] {log : Log σ} {now : Moment}
    {state : TreeState} {signature : Bytes} {after : σ}
    (signed : log.signer.sign (log.nextHead now state) = .ok signature)
    (written : LeafStore.putTreeHead log.store
      ((log.nextHead now state).withSignature signature) = .ok after) :
    log.publishHead now state =
      { log with
        store := after
        head := ⟨some ((log.nextHead now state).withSignature signature), none⟩ } := by
  simp only [Log.nextHead] at signed written ⊢
  simp only [Log.publishHead, signed, written]

def Log.opening (storage : Storage) (signer : Signer) (leaves : List NewLeaf)
    (stored : Option SignedTreeHead) : Log Storage :=
  ⟨storage, signer, ofLeaves (leafHashes leaves), ⟨stored, none⟩, false⟩

theorem Keeps.reopens_covered {storage : Storage} {leaves : List NewLeaf} {head : SignedTreeHead}
    (keeps : Keeps storage leaves (some head)) (covers : head.treeSize.toNat = leaves.length)
    (signer : Signer) (now : Moment) :
    ∃ log, Log.openStore storage signer now = .ok log ∧ log.store = storage ∧
      log.latestHead = .ok head :=
  ⟨_, openStore_of_covered keeps covers signer now, rfl, rfl⟩

theorem Log.Reflects.reopens {log : Log Storage} {leaves : List NewLeaf}
    {stored : Option SignedTreeHead} (reflects : log.Reflects leaves stored) {storage : Storage}
    (left : storage.backend = log.store.backend) {signer : Signer} (signs : signer.Storable)
    (now : Moment) :
    ∃ reopened, Log.openStore storage signer now = .ok reopened ∧
      log.Recovers leaves storage signer now reopened := by
  have keeps := reflects.keeps.of_backend left
  have fits := keeps.fits
  by_cases due : (stored.all fun head => head.treeSize < UInt64.ofNat leaves.length) = true
  · obtain ⟨storedAfter, reflectsAfter, _⟩ := @publishHead_reflects
      (.opening storage signer leaves stored) leaves stored keeps rfl signs keeps.head now
    have opens : Log.openStore storage signer now =
        .ok ((Log.opening storage signer leaves stored).publishHead now (stateOf leaves)) := by
      rw [openStore_eq keeps]
      exact congrArg Except.ok (if_pos due)
    refine ⟨_, opens, ?_, ?_, ?_⟩
    · intro moment deadline question headless
      exact Log.ask_eq (reflectsAfter.tree.trans reflects.tree.symm)
        (reflectsAfter.keeps.sameLeaves reflects.keeps) moment deadline headless
    · intro head present covers
      obtain rfl := Except.ok.inj (keeps.treeHead?_eq.symm.trans present)
      have size := Except.ok.inj (keeps.size_eq.symm.trans covers)
      simp [size] at due
    · intro known signature present _ signed takes
      obtain rfl := Except.ok.inj (keeps.treeHead?_eq.symm.trans present)
      rcases storage.putTreeHead_cases
          (((stateOf leaves).dueHead now stored).withSignature signature) with
        ⟨refuses, _⟩ | ⟨_, after, written, _, _⟩
      · rw [takes] at refuses
        contradiction
      have published := @publishHead_of_written _ _ (.opening storage signer leaves stored) now
        (stateOf leaves) signature after signed written
      have describes := @nextHead_describes _ (.opening storage signer leaves stored) leaves now
        signature signs fits signed
      have keepsAfter := keeps.putTreeHead describes written
      rw [published]
      refine ⟨written, keepsAfter.treeHead?_eq, rfl, ?_⟩
      exact keepsAfter.reopens_covered (toNat_ofNat_length fits)
  · cases stored with
    | none => simp at due
    | some head =>
        simp only [Option.all_some, decide_eq_true_eq, keeps.behind_iff, ne_eq,
          Decidable.not_not] at due
        refine ⟨_, openStore_of_covered keeps due signer now, ?_, ?_, ?_⟩
        · intro moment deadline question headless
          exact Log.ask_eq reflects.tree.symm (keeps.sameLeaves reflects.keeps) moment deadline
            headless
        · intro served present _
          obtain ⟨⟩ := Except.ok.inj (keeps.treeHead?_eq.symm.trans present)
          exact ⟨rfl, rfl⟩
        · intro known signature present behind
          obtain rfl := Except.ok.inj (keeps.treeHead?_eq.symm.trans present)
          refine absurd ?_ (behind head rfl)
          rw [keeps.size_eq, ← UInt64.toNat_inj.mp (due.trans (toNat_ofNat_length fits).symm)]

/-- Whatever a run over an empty store has gone through, its store can be opened again, as it is or
wrapped to fail in another way, and the log goes on where the last one left off. A stored head for
all leaves is served as it is, with nothing written; another is replaced by one new head, if it can
be signed and written, and that is all that any later opening needs. -/
theorem Run.recovers {storage : Storage} (fresh : storage.Fresh) {signer : Signer}
    (signs : signer.Storable) (opened : Moment) {calls : List (Moment × Call)}
    (fits : ∀ call ∈ calls, call.2.Fits)
    (short : (acceptedLeaves (Run.ofCalls storage signer opened calls).events).length < 2 ^ 63) :
    ∃ log, (Run.ofCalls storage signer opened calls).log = .ok log ∧
      ∀ left nextSigner now, left.backend = log.store.backend → nextSigner.Storable →
        ∃ reopened, Log.openStore left nextSigner now = .ok reopened ∧
          log.Recovers (acceptedLeaves (Run.ofCalls storage signer opened calls).events) left
            nextSigner now reopened := by
  obtain ⟨log, stored, sound⟩ := Run.ofCalls_sound fresh signs opened fits short
  refine ⟨log, sound.log_eq, ?_⟩
  intro left nextSigner now backend storable
  exact sound.reflects.reopens backend storable now

theorem Run.recovers_lostHead :
    ∃ log, (Run.ofCalls (.faulty (.wrap (.disk .empty))) (.ed25519 ⟨List.replicate 32 42⟩) ⟨0, 1000⟩
        [(⟨1, 1001⟩, .inject (.treeHeads true)), (⟨2, 1002⟩, .append [⟨[1], none⟩] .never),
          (⟨3, 1003⟩, .inject (.commits 1)), (⟨4, 1004⟩, .append [⟨[2], none⟩] .never)]).log =
        .ok log ∧
      ∃ reopened, Log.openStore (Storage.bare log.store.backend) (.ed25519 ⟨List.replicate 32 7⟩)
          ⟨5, 900⟩ = .ok reopened ∧
        ∀ moment deadline question, question ≠ .signedTreeHead →
          reopened.ask moment deadline question = log.ask moment deadline question := by
  obtain ⟨log, last, recovers⟩ := @Run.recovers (.faulty (.wrap (.disk .empty)))
    (.inr rfl) (.ed25519 ⟨List.replicate 32 42⟩) (Signer.ed25519_storable _) ⟨0, 1000⟩
    [(⟨1, 1001⟩, .inject (.treeHeads true)), (⟨2, 1002⟩, .append [⟨[1], none⟩] .never),
      (⟨3, 1003⟩, .inject (.commits 1)), (⟨4, 1004⟩, .append [⟨[2], none⟩] .never)]
    (by simp [Call.Fits, NewLeaf.Storable])
    (Nat.lt_of_le_of_lt (length_acceptedLeaves_ofCalls_le _ _ _ _) (by simp [Call.leaves]))
  obtain ⟨reopened, opens, goesOn⟩ := recovers (.bare log.store.backend)
    (.ed25519 ⟨List.replicate 32 7⟩) ⟨5, 900⟩ rfl (Signer.ed25519_storable _)
  exact ⟨log, last, reopened, opens, goesOn.answers⟩

end VerifiableLog
