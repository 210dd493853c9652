import VerifiableLog.Proofs.Log.Consistency
import VerifiableLog.Proofs.Log.HeadSignature
import VerifiableLog.Proofs.Log.ServedHead

/-!
Deadlines that have passed. A read or an append whose deadline has passed is refused, and the log
goes on as if it had never been asked. A refresh waits for its turn only as long as its deadline
says; where it has not to wait, it signs a head and stores it, however long ago the deadline was.
-/

namespace VerifiableLog

open Merkle.Accumulator (ofLeaves)

/-! ### Calls that are refused -/

def Call.givesUp (call : Call) (now : Moment) : Bool :=
  match call with
  | .append _ deadline => deadline.isExpired now
  | .read _ deadline => deadline.isExpired now
  | _ => false

/-- Why a call that gives up is refused. A batch without leaves and a log that is closed are noticed
before the time is. -/
def Call.RefusedFor (closed : Prop) (call : Call) (cause : LogError) : Prop :=
  match call with
  | .append [] _ => cause = .emptyBatch
  | .append (_ :: _) _ => closed ∧ cause = .closed ∨ ¬closed ∧ cause = .timeout
  | _ => cause = .timeout

namespace Log

variable {σ : Type} [LeafStore σ]

theorem ask_of_expired (log : Log σ) {now : Moment} {deadline : Deadline}
    (expired : deadline.isExpired now = true) (question : Question) :
    log.ask now deadline question = .error .timeout := by
  have checked : checkDeadline deadline now = .error .timeout := if_pos expired
  cases question <;>
    simp only [ask, treeSize, signedTreeHead, rootHash, leafByHash, leavesByRange, inclusionProof,
      consistencyProof, checked, bind, Except.bind, Except.map]

theorem append_of_expired (log : Log σ) {now : Moment} (leaves : List NewLeaf) {deadline : Deadline}
    (expired : deadline.isExpired now = true) :
    ∃ cause, (Call.append leaves deadline).RefusedFor (log.isClosed = true) cause ∧
      log.append now leaves deadline = (.error cause, log) := by
  cases leaves with
  | nil => exact ⟨.emptyBatch, rfl, rfl⟩
  | cons leaf leaves =>
      by_cases closed : log.isClosed = true
      · refine ⟨.closed, .inl ⟨closed, rfl⟩, ?_⟩
        simp [append, closed]
      · refine ⟨.timeout, .inr ⟨closed, rfl⟩, ?_⟩
        simp [append, closed, expired]

theorem step_of_givesUp (log : Log Storage) {now : Moment} {call : Call}
    (late : call.givesUp now = true) :
    ∃ cause, call.RefusedFor (log.isClosed = true) cause ∧
      log.step now call = (⟨now, call, .error cause, .notDue⟩, .ok log) := by
  cases call with
  | append leaves deadline =>
      obtain ⟨cause, refused, same⟩ := log.append_of_expired leaves late
      exact ⟨cause, refused, by simp only [step, same]⟩
  | read question deadline =>
      exact ⟨.timeout, rfl, by simp only [step, log.ask_of_expired late question]⟩
  | refresh _ | close | useSigner _ | inject _ | reopen => cases late

/-! ### Open and closed -/

theorem publishHead_isClosed (log : Log σ) (now : Moment) (state : TreeState) :
    (log.publishHead now state).isClosed = log.isClosed := by
  simp only [publishHead]
  split <;> rfl

theorem append_isClosed (log : Log σ) (now : Moment) (leaves : List NewLeaf) (deadline : Deadline) :
    (log.append now leaves deadline).2.isClosed = log.isClosed := by
  rcases append_split log now leaves deadline with ⟨cause, _, turnedAway⟩ | ⟨_, committed⟩
  · rw [turnedAway]
  · rw [committed, commit]
    split
    · rfl
    · dsimp only
      split
      · rfl
      · exact publishHead_isClosed _ _ _

theorem refresh_isClosed (log : Log σ) (now : Moment) (deadline : Deadline) :
    (log.refresh now deadline).2.isClosed = log.isClosed := by
  rw [refresh]
  split
  · rfl
  · exact publishHead_isClosed _ _ _

theorem openStore_isClosed {store : σ} {signer : Signer} {now : Moment} {log : Log σ}
    (opened : openStore store signer now = .ok log) : log.isClosed = false := by
  obtain ⟨size, nodes, stored, tree, _, _, signed | found⟩ := openStore_cases opened
  · obtain ⟨_, state, rfl⟩ := signed
    exact publishHead_isClosed _ _ _
  · obtain ⟨head, rfl, rfl, rfl⟩ := found
    rfl

end Log

theorem openLog_event (storage : Storage) (signer : Signer) (now : Moment) :
    (storage.openLog signer now).1.now = now ∧ (storage.openLog signer now).1.call = .reopen := by
  rw [Storage.openLog]
  split <;> exact ⟨rfl, rfl⟩

theorem step_event (log : Log Storage) (now : Moment) (call : Call) :
    (log.step now call).1.now = now ∧ (log.step now call).1.call = call := by
  cases call with
  | append leaves deadline =>
      rw [Log.step]
      split <;> exact ⟨rfl, rfl⟩
  | reopen => exact openLog_event log.store log.signer now
  | refresh _ | close | read _ _ | useSigner _ | inject _ => exact ⟨rfl, rfl⟩

theorem openLog_isClosed {storage : Storage} {signer : Signer} {now : Moment} {log : Log Storage}
    (opened : (storage.openLog signer now).2 = .ok log) : log.isClosed = false := by
  rw [Storage.openLog] at opened
  split at opened
  · cases opened
  · rename_i found opening
    obtain rfl := Except.ok.inj opened
    exact Log.openStore_isClosed opening

def Event.closes (event : Event) : Bool :=
  match event.call with
  | .close => true
  | _ => false

def ClosedAfter (events : List Event) : Prop :=
  Since (fun event => event.reopens = false) (fun event => event.closes = true) events

theorem closedAfter_opening (storage : Storage) (signer : Signer) (now : Moment)
    (events : List Event) : ¬ClosedAfter (events ++ [(storage.openLog signer now).1]) := by
  simp [ClosedAfter, since_concat, Event.closes, Event.reopens,
    (openLog_event storage signer now).2]

theorem step_isClosed {log after : Log Storage} {now : Moment} {call : Call} {events : List Event}
    (stepped : (log.step now call).2 = .ok after)
    (earlier : log.isClosed = true ↔ ClosedAfter events) :
    after.isClosed = true ↔ ClosedAfter (events ++ [(log.step now call).1]) := by
  cases call with
  | reopen =>
      have opened : (log.store.openLog log.signer now).2 = .ok after := stepped
      simp [openLog_isClosed opened, Log.step, closedAfter_opening]
  | append leaves deadline =>
      have same := log.append_isClosed now leaves deadline
      rcases appended : log.append now leaves deadline with ⟨cause | receipt, next⟩ <;>
        simp only [Log.step, appended] at stepped same ⊢ <;>
        · obtain rfl := Except.ok.inj stepped
          simpa [ClosedAfter, since_concat, Event.closes, Event.reopens, same] using earlier
  | refresh deadline =>
      have made : (log.refresh now deadline).2 = after := Except.ok.inj stepped
      rw [← made, log.refresh_isClosed]
      simpa [ClosedAfter, since_concat, Log.step, Event.closes, Event.reopens] using earlier
  | close =>
      obtain rfl := Except.ok.inj stepped
      simp [ClosedAfter, since_concat, Log.step, Event.closes, Log.close]
  | read question deadline | useSigner signer | inject fault =>
      obtain rfl := Except.ok.inj stepped
      simpa [ClosedAfter, since_concat, Log.step, Event.closes, Event.reopens] using earlier

/-! ### Runs -/

def Run.TellsClosed (run : Run) : Prop :=
  ∀ log, run.log = .ok log → (log.isClosed = true ↔ ClosedAfter run.events)

theorem Run.TellsClosed.call {run : Run} (tells : run.TellsClosed) (call : Moment × Call) :
    (run.call call).TellsClosed := by
  intro after reached
  rw [Run.call] at reached ⊢
  cases current : run.log with
  | error cause =>
      rw [current] at reached
      cases current.symm.trans reached
  | ok log =>
      rw [current] at reached
      exact step_isClosed reached (tells log current)

theorem Run.TellsClosed.foldl_call {run : Run} (tells : run.TellsClosed)
    (calls : List (Moment × Call)) : (calls.foldl Run.call run).TellsClosed := by
  induction calls generalizing run with
  | nil => exact tells
  | cons call calls ih => exact ih (tells.call call)

theorem Run.ofCalls_tellsClosed (storage : Storage) (signer : Signer) (opened : Moment)
    (calls : List (Moment × Call)) : (Run.ofCalls storage signer opened calls).TellsClosed := by
  apply Run.TellsClosed.foldl_call
  intro log reached
  refine iff_of_false ?_ (closedAfter_opening storage signer opened [])
  exact Bool.eq_false_iff.mp (openLog_isClosed reached)

def Event.isLate (event : Event) : Bool := event.call.givesUp event.now

def Run.withoutLate (run : Run) : Run :=
  { run with events := run.events.filter fun event => !event.isLate }

theorem isLate_step (log : Log Storage) (now : Moment) (call : Call) :
    (log.step now call).1.isLate = call.givesUp now := by
  rw [Event.isLate, (step_event log now call).1, (step_event log now call).2]

theorem Run.withoutLate_call (run : Run) (call : Moment × Call) :
    (run.call call).withoutLate =
      if call.2.givesUp call.1 then run.withoutLate else run.withoutLate.call call := by
  simp only [Run.call, withoutLate]
  cases current : run.log with
  | error cause =>
      simp only [current]
      split <;> rfl
  | ok log =>
      have late := isLate_step log call.1 call.2
      by_cases refused : call.2.givesUp call.1 = true
      · obtain ⟨cause, _, same⟩ := log.step_of_givesUp refused
        rw [refused] at late
        simp only [same] at late ⊢
        simp [late, refused]
      · simp [late, refused]

theorem Run.withoutLate_foldl_call (run : Run) (calls : List (Moment × Call)) :
    (calls.foldl Run.call run).withoutLate =
      (calls.filter fun call => !call.2.givesUp call.1).foldl Run.call run.withoutLate := by
  induction calls generalizing run with
  | nil => rfl
  | cons call calls ih =>
      rw [List.foldl_cons, ih, withoutLate_call]
      by_cases late : call.2.givesUp call.1 = true
      · rw [if_pos late, List.filter_cons_of_neg (by simp [late])]
      · rw [if_neg late, List.filter_cons_of_pos (by simp [late]), List.foldl_cons]

theorem Log.refresh_ne_timeout {σ : Type} [LeafStore σ] (log : Log σ) (now : Moment)
    (deadline : Deadline) : (log.refresh now deadline).1 ≠ .error .timeout := by
  intro timedOut
  rcases refresh_publishes log now deadline with ⟨state, published⟩ | ⟨fault, corrupt⟩
  · rw [published] at timedOut
    simp only [latestHead] at timedOut
    split at timedOut <;> cases timedOut
  · rw [corrupt] at timedOut
    cases timedOut

theorem Run.ofCalls_eq (storage : Storage) (signer : Signer) (opened : Moment)
    (calls : List (Moment × Call)) :
    Run.ofCalls storage signer opened calls = calls.foldl Run.call
      ⟨[(storage.openLog signer opened).1], (storage.openLog signer opened).2⟩ := rfl

/-! ### A refresh after its deadline

A log is opened at 5 and signs the head of its empty tree. It is asked at 6 to sign another, by a
time that has passed: it signs it, and the store has it in place of the first. -/

section PastDeadline

def pastDeadline : Deadline := ⟨some 3⟩

variable (key : Signature.SecretKey)

theorem openLog_atFive :
    (Storage.faulty (.wrap (.disk .empty))).openLog (.ed25519 key) ⟨0, 5⟩ =
      (⟨⟨0, 5⟩, .reopen, .ok .done, .kept⟩, .ok (emptyLog key 5 5 false)) := by
  have opened := openLog_empty key ⟨0, 5⟩
  rwa [show max (5 : UInt64) 0 = 5 by decide] at opened

theorem refresh_pastDeadline :
    (emptyLog key 5 5 false).refresh ⟨10, 6⟩ pastDeadline =
      (.ok (emptyTreeHead key 6), emptyLog key 6 6 false) := by
  have state : Log.treeState (ofLeaves []) = .ok (stateOf []) := treeState_ofLeaves []
  simp only [Log.refresh, emptyLog, state]
  rfl

end PastDeadline

/-! ### Every other call after its deadline -/

/-- Over any store, a run is the same with and without the calls that gave up. In every state that
is reached, such a call is refused and leaves the log, its store, tree and head, as it is.
The deadline of a refresh makes no difference: one that has passed does not stop it. -/
theorem Run.late_calls_unnoticed (storage : Storage) (signer : Signer) (opened : Moment)
    (calls : List (Moment × Call)) :
    (Run.ofCalls storage signer opened calls).withoutLate =
        Run.ofCalls storage signer opened (calls.filter fun call => !call.2.givesUp call.1) ∧
      ∀ log, (Run.ofCalls storage signer opened calls).log = .ok log → ∀ now,
        (∀ call : Call, call.givesUp now = true →
          ∃ cause,
            call.RefusedFor (ClosedAfter (Run.ofCalls storage signer opened calls).events) cause ∧
              log.step now call = (⟨now, call, .error cause, .notDue⟩, .ok log)) ∧
        ∀ deadline, log.refresh now deadline = log.refresh now .never ∧
          (log.refresh now deadline).1 ≠ .error .timeout := by
  constructor
  · have inTime : (storage.openLog signer opened).1.isLate = false := by
      rw [Event.isLate, (openLog_event storage signer opened).2]
      rfl
    rw [Run.ofCalls_eq, Run.ofCalls_eq, withoutLate_foldl_call, withoutLate]
    simp only [List.filter_cons, inTime, Bool.not_false, if_true, List.filter_nil]
  · intro log reached now
    refine ⟨?_, fun deadline => ⟨rfl, log.refresh_ne_timeout now deadline⟩⟩
    intro call late
    obtain ⟨cause, refused, same⟩ := log.step_of_givesUp late
    rw [propext (Run.ofCalls_tellsClosed storage signer opened calls log reached)] at refused
    exact ⟨cause, refused, same⟩

theorem Run.late_calls_unnoticed_closedLog :
    let run := Run.ofCalls (.faulty (.wrap (.disk .empty))) (.ed25519 ⟨List.replicate 32 42⟩) ⟨0, 5⟩
      [(⟨1, 6⟩, .close)]
    ∃ log, run.log = .ok log ∧
      log.step ⟨10, 7⟩ (.append [⟨[1], none⟩] pastDeadline) =
        (⟨⟨10, 7⟩, .append [⟨[1], none⟩] pastDeadline, .error .closed, .notDue⟩, .ok log) ∧
      log.step ⟨10, 7⟩ (.read .treeSize pastDeadline) =
        (⟨⟨10, 7⟩, .read .treeSize pastDeadline, .error .timeout, .notDue⟩, .ok log) := by
  intro run
  have opened := openLog_atFive ⟨List.replicate 32 42⟩
  have made : run = ⟨[⟨⟨0, 5⟩, .reopen, .ok .done, .kept⟩, ⟨⟨1, 6⟩, .close, .ok .done, .notDue⟩],
      .ok (emptyLog ⟨List.replicate 32 42⟩ 5 5 false).close⟩ := by
    simp only [run, Run.ofCalls_eq, opened]
    rfl
  have closed : ClosedAfter run.events := by
    rw [made]
    exact ⟨[_], _, [], rfl, rfl, by simp⟩
  have reached := congrArg Run.log made
  have late := ((Run.late_calls_unnoticed (.faulty (.wrap (.disk .empty)))
    (.ed25519 ⟨List.replicate 32 42⟩) ⟨0, 5⟩ [(⟨1, 6⟩, .close)]).2 _ reached ⟨10, 7⟩).1
  refine ⟨_, reached, ?_, ?_⟩
  · obtain ⟨cause, refused, same⟩ := late (.append [⟨[1], none⟩] pastDeadline) rfl
    rcases refused with ⟨_, rfl⟩ | ⟨unclosed, _⟩
    · exact same
    · exact absurd closed unclosed
  · obtain ⟨cause, refused, same⟩ := late (.read .treeSize pastDeadline) rfl
    obtain rfl : cause = .timeout := refused
    exact same

/-- The exception is real: the deadline of the refresh passed before the call, and yet it answers
with a head, and the head in the store is another than before. -/
theorem Run.refresh_past_deadline :
    let run := Run.ofCalls (.faulty (.wrap (.disk .empty))) (.ed25519 ⟨List.replicate 32 42⟩) ⟨0, 5⟩
      []
    ∃ log after head, run.log = .ok log ∧ pastDeadline.isExpired ⟨10, 6⟩ = true ∧
      log.refresh ⟨10, 6⟩ pastDeadline = (.ok head, after) ∧
      LeafStore.treeHead? after.store = .ok (some head) ∧
      LeafStore.treeHead? log.store ≠ .ok (some head) := by
  intro run
  let key : Signature.SecretKey := ⟨List.replicate 32 42⟩
  refine ⟨emptyLog key 5 5 false, emptyLog key 6 6 false, emptyTreeHead key 6,
    congrArg Prod.snd (openLog_atFive key), rfl, refresh_pastDeadline key,
    (keeps_emptyLog key 6 6 false).treeHead?_eq, ?_⟩
  rw [(keeps_emptyLog key 5 5 false).treeHead?_eq]
  intro same
  have dated := congrArg SignedTreeHead.timestamp (Option.some_inj.mp (Except.ok.inj same))
  exact absurd dated (by decide : ¬(5 : UInt64) = 6)

end VerifiableLog
