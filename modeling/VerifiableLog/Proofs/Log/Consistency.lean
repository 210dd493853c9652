import VerifiableLog.Proofs.Log.Refinement
import VerifiableLog.Proofs.Merkle.Completeness

/-!
Any two heads that a log has served are of one history: the tree of the later one extends the tree
of the earlier one, and the log can prove it ever after. Their dates follow the same order, with one
exception. A head that only memory held is forgotten when the log is dropped, and a log that is
opened over a store with an older head of the same tree serves that one.
-/

namespace VerifiableLog

open Merkle (Accumulator rootOf verifyConsistency)
open Merkle.Accumulator (ofLeaves)

theorem consistencyPath_verifies {leaves : List Digest} {first second : Nat}
    (ordered : first ≤ second) (reached : second ≤ leaves.length) :
    ∃ path, (ofLeaves leaves).consistencyPath first second = .ok path ∧
      verifyConsistency first second (rootOf (leaves.take first)) (rootOf (leaves.take second))
        path = .ok () := by
  by_cases trivial : first = 0 ∨ first = second
  · refine ⟨[], Accumulator.consistencyPath_of_trivial trivial ordered reached, ?_⟩
    rw [Merkle.verifyConsistency_trivial_ok_iff ordered trivial]
    exact ⟨rfl, fun same => by rw [same]⟩
  · have inhabited : 0 < first := by omega
    have smaller : first < second := by omega
    have takeLength := List.length_take_of_le reached
    have verified := @Merkle.verifyConsistency_growthPath (leaves.take second) first inhabited
      (by omega)
    rw [takeLength, List.take_take, Nat.min_eq_left ordered] at verified
    exact ⟨_, Accumulator.consistencyPath_ofLeaves inhabited smaller reached, verified⟩

theorem consistencyProof_verifies {log : Log Storage} {leaves : List NewLeaf}
    {stored : Option SignedTreeHead} {now : Moment} {deadline : Deadline}
    (reflects : log.Reflects leaves stored) (inTime : deadline.isExpired now = false)
    {first second : SignedTreeHead} (firstDescribes : first.Describes leaves)
    (secondDescribes : second.Describes leaves) (ordered : first.treeSize ≤ second.treeSize) :
    ∃ proof, log.consistencyProof now first.treeSize second.treeSize deadline = .ok proof ∧
      verifyConsistency first.treeSize.toNat second.treeSize.toNat first.rootHash second.rootHash
        proof.path = .ok () := by
  have reached := secondDescribes.reached
  have notAfter : ¬first.treeSize > second.treeSize := UInt64.not_lt.mpr ordered
  have within : ¬second.treeSize > log.size := by
    rw [gt_iff_lt, reflects.size_eq, UInt64.lt_iff_toNat_lt,
      toNat_ofNat_length reflects.keeps.fits]
    omega
  obtain ⟨path, made, verified⟩ := @consistencyPath_verifies (leafHashes leaves)
    first.treeSize.toNat second.treeSize.toNat (UInt64.le_iff_toNat_le.mp ordered)
    (by rwa [length_leafHashes])
  rw [← firstDescribes.root, ← secondDescribes.root] at verified
  refine ⟨⟨first.treeSize, second.treeSize, path⟩, ?_, verified⟩
  simp only [Log.consistencyProof, Log.checkDeadline, inTime, Bool.false_eq_true, if_false, bind,
    Except.bind, notAfter, within, reflects.tree, made, Log.fromTree, Except.mapError, pure,
    Except.pure]

/-! ### A head that is lost for good

A store that takes no heads keeps the one it has. If the log signs its tree anew meanwhile, the old
head still covers the tree, so a log that is opened again has no head to sign and serves the old
one, though a later one was handed out. -/

section LostHead

def emptyTreeHead (key : Signature.SecretKey) (timestamp : UInt64) : SignedTreeHead :=
  let head : TreeHead := ⟨0, timestamp, rootOf []⟩
  head.withSignature (key.sign head.signedMessage)

def headOnly (head : SignedTreeHead) : DiskStore :=
  { DiskStore.empty with
    info := Table.empty.insert DiskStore.treeHeadKey (SignedTreeHead.packed.write head) }

/-- A log without leaves, and when the heads were dated that its store and its memory hold. -/
def emptyLog (key : Signature.SecretKey) (stored latest : UInt64) (fails : Bool) : Log Storage where
  store := .faulty ⟨.disk (headOnly (emptyTreeHead key stored)), 0, fails⟩
  signer := .ed25519 key
  tree := ofLeaves []
  head := ⟨some (emptyTreeHead key latest), none⟩
  isClosed := false

variable (key : Signature.SecretKey) (now : Moment) (stored latest : UInt64)

theorem keeps_emptyLog (fails : Bool) :
    Keeps (emptyLog key stored latest fails).store [] (some (emptyTreeHead key stored)) := by
  have nothing : Keeps (Storage.bare (.disk .empty)) [] none := Storage.Fresh.keeps (.inr rfl)
  have describes : (emptyTreeHead key stored).Describes [] :=
    ⟨Nat.le_refl _, rfl, Signer.ed25519_storable key _ _ rfl⟩
  have written : Keeps (Storage.bare (.disk (headOnly (emptyTreeHead key stored)))) [] _ :=
    nothing.putTreeHead describes rfl
  exact ⟨written.fits, written.storable, written.content, written.head⟩

theorem openLog_empty :
    (Storage.faulty (.wrap (.disk .empty))).openLog (.ed25519 key) now =
      let dated := max now.sinceEpoch 0
      (⟨now, .reopen, .ok .done, .kept⟩, .ok (emptyLog key dated dated false)) := by
  have keeps : Keeps (Storage.faulty (.wrap (.disk .empty))) [] none :=
    Storage.Fresh.keeps (.inr rfl)
  simp only [Storage.openLog, openStore_eq keeps, needsHead_eq keeps, Option.all_none, if_true]
  rfl

theorem step_refresh_emptyLog :
    (emptyLog key stored latest true).step now (.refresh .never) =
      let dated := max now.sinceEpoch latest
      (⟨now, .refresh .never, .ok (.head (emptyTreeHead key dated)), .lost⟩,
        .ok (emptyLog key stored dated true)) := by
  have state : Log.treeState (ofLeaves []) = .ok (stateOf []) := treeState_ofLeaves []
  simp only [Log.step, Log.refresh, emptyLog, state]
  rfl

theorem step_reopen_emptyLog (fails : Bool) :
    (emptyLog key stored latest fails).step now .reopen =
      (⟨now, .reopen, .ok .done, .notDue⟩, .ok (emptyLog key stored stored fails)) :=
  openLog_of_covered (keeps_emptyLog key stored latest fails) rfl (.ed25519 key) now

def lostHeadCalls : List (Moment × Call) :=
  [(⟨1, 6⟩, .inject (.treeHeads true)), (⟨2, 7⟩, .refresh .never), (⟨3, 8⟩, .reopen),
    (⟨4, 9⟩, .read .signedTreeHead .never)]

theorem ofCalls_lostHeadCalls :
    Run.ofCalls (.faulty (.wrap (.disk .empty))) (.ed25519 key) ⟨0, 5⟩ lostHeadCalls =
      ⟨[⟨⟨0, 5⟩, .reopen, .ok .done, .kept⟩,
          ⟨⟨1, 6⟩, .inject (.treeHeads true), .ok .done, .notDue⟩,
          ⟨⟨2, 7⟩, .refresh .never, .ok (.head (emptyTreeHead key 7)), .lost⟩,
          ⟨⟨3, 8⟩, .reopen, .ok .done, .notDue⟩,
          ⟨⟨4, 9⟩, .read .signedTreeHead .never, .ok (.head (emptyTreeHead key 5)), .notDue⟩],
        .ok (emptyLog key 5 5 true)⟩ := by
  have opened := openLog_empty key ⟨0, 5⟩
  have injected : (emptyLog key 5 5 false).step ⟨1, 6⟩ (.inject (.treeHeads true)) =
      (⟨⟨1, 6⟩, .inject (.treeHeads true), .ok .done, .notDue⟩, .ok (emptyLog key 5 5 true)) := rfl
  have refreshed := step_refresh_emptyLog key ⟨2, 7⟩ 5 5
  have reopened := step_reopen_emptyLog key ⟨3, 8⟩ 5 7 true
  rw [show max (5 : UInt64) 0 = 5 by decide] at opened
  rw [show max (7 : UInt64) 5 = 7 by decide] at refreshed
  simp only [Run.ofCalls, lostHeadCalls, opened, List.foldl_cons, List.foldl_nil, Run.call,
    injected, refreshed, reopened]
  rfl

end LostHead

/-! ### Any two heads -/

/-- Of any two heads served in a run, the later is of a tree that extends the tree of the earlier,
which the log proves at the end of the run. If no head was lost on the way to the store, or if the
clock went forward alone, the later head is dated no earlier either, unless a refresh had handed
out the earlier one, the store did not take it and the log was opened again in between. -/
theorem Run.heads_consistent {storage : Storage} (fresh : storage.Fresh) {signer : Signer}
    (signs : signer.Storable) (opened : Moment) {calls : List (Moment × Call)}
    (fits : ∀ call ∈ calls, call.2.Fits)
    (short : (acceptedLeaves (Run.ofCalls storage signer opened calls).events).length < 2 ^ 63) :
    ∃ log, (Run.ofCalls storage signer opened calls).log = .ok log ∧
      ∀ before earlier between later after first second,
        (Run.ofCalls storage signer opened calls).events =
          before ++ earlier :: between ++ later :: after →
        earlier.servedHead? = some first → later.servedHead? = some second →
        first.treeSize ≤ second.treeSize ∧
        (∀ now deadline, deadline.isExpired now = false →
          ∃ proof, log.consistencyProof now first.treeSize second.treeSize deadline = .ok proof ∧
            verifyConsistency first.treeSize.toNat second.treeSize.toNat first.rootHash
              second.rootHash proof.path = .ok ()) ∧
        (NoneLost (Run.ofCalls storage signer opened calls).events ∨
            ClockForward (Run.ofCalls storage signer opened calls).events →
          first.timestamp ≤ second.timestamp ∨
            first.treeSize = second.treeSize ∧ LostByRefresh (before ++ [earlier]) first ∧
              ∃ event ∈ between, event.reopens = true) := by
  obtain ⟨log, stored, sound⟩ := Run.ofCalls_sound fresh signs opened fits short
  refine ⟨log, sound.log_eq, ?_⟩
  intro before earlier between later after first second split earlierServes laterServes
  have history := sound.history
  have firstDescribes := sound.truthful.describes earlier (by simp [split]) first earlierServes
  have secondDescribes := sound.truthful.describes later (by simp [split]) second laterServes
  rw [split] at history ⊢
  obtain ⟨ordered, dated⟩ := history.heads_in_order earlierServes laterServes
  refine ⟨ordered, ?_, dated⟩
  intro now deadline inTime
  exact consistencyProof_verifies sound.reflects inTime firstDescribes secondDescribes ordered

theorem Run.heads_consistent_lostHead :
    ∃ (log : Log Storage) (first second : SignedTreeHead),
      (Run.ofCalls (.faulty (.wrap (.disk .empty))) (.ed25519 ⟨List.replicate 32 42⟩) ⟨0, 5⟩
        lostHeadCalls).log = .ok log ∧
      first.timestamp = 7 ∧ second.timestamp = 5 ∧
      (∃ proof, log.consistencyProof ⟨5, 10⟩ first.treeSize second.treeSize .never = .ok proof ∧
        verifyConsistency first.treeSize.toNat second.treeSize.toNat first.rootHash
          second.rootHash proof.path = .ok ()) ∧
      LostByRefresh (Run.ofCalls (.faulty (.wrap (.disk .empty)))
        (.ed25519 ⟨List.replicate 32 42⟩) ⟨0, 5⟩ lostHeadCalls).events first := by
  have evaluated := ofCalls_lostHeadCalls ⟨List.replicate 32 42⟩
  obtain ⟨log, opened, consistent⟩ := @Run.heads_consistent (.faulty (.wrap (.disk .empty)))
    (.inr rfl) (.ed25519 ⟨List.replicate 32 42⟩) (Signer.ed25519_storable _) ⟨0, 5⟩ lostHeadCalls
    (by simp [lostHeadCalls, Call.Fits])
    (Nat.lt_of_le_of_lt (length_acceptedLeaves_ofCalls_le _ _ _ _)
      (by simp [lostHeadCalls, Call.leaves]))
  rw [evaluated] at opened consistent ⊢
  obtain ⟨-, proved, dated⟩ := consistent [_, _] _ [_] _ [] (emptyTreeHead _ 7)
    (emptyTreeHead _ 5) rfl rfl rfl
  rcases dated (.inr (by simp [ClockForward])) with inOrder | ⟨_, ⟨event, member, lost⟩, _⟩
  · exact absurd inOrder (by decide : ¬(7 : UInt64) ≤ 5)
  · exact ⟨log, emptyTreeHead _ 7, emptyTreeHead _ 5, opened, rfl, rfl, proved _ _ rfl,
      event, List.mem_append_left [_, _] member, lost⟩

/-- The exception is real: the clock went forward, and the second of these heads is dated before the
first. -/
theorem Run.timestamp_goes_back :
    ∃ before earlier between later after first second,
      (Run.ofCalls (.faulty (.wrap (.disk .empty))) (.ed25519 ⟨List.replicate 32 42⟩) ⟨0, 5⟩
        lostHeadCalls).events = before ++ earlier :: between ++ later :: after ∧
      ClockForward (before ++ earlier :: between ++ later :: after) ∧
      earlier.servedHead? = some first ∧ later.servedHead? = some second ∧
      first.treeSize = second.treeSize ∧ ¬first.timestamp ≤ second.timestamp := by
  rw [ofCalls_lostHeadCalls]
  refine ⟨[_, _], _, [_], _, [], emptyTreeHead _ 7, emptyTreeHead _ 5, rfl, ?_, rfl, rfl,
    (rfl : (0 : UInt64) = 0), (by decide : ¬(7 : UInt64) ≤ 5)⟩
  simp [ClockForward]

end VerifiableLog
