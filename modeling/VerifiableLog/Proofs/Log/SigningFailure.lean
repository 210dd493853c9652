import VerifiableLog.Proofs.Log.Consistency
import VerifiableLog.Proofs.Log.HeadSignature
import VerifiableLog.Proofs.Log.ServedHead

/-!
When a log reports that it has no signed head. It remembers the last failure to sign until a head
is signed or the log is opened anew, and serves nothing meanwhile. So a refresh that fails hides a
head that the tree has had.
-/

namespace VerifiableLog

/-! ### What an event does for the head -/

namespace Event

/-- A head was signed, or the log was opened over one of the whole tree. -/
def BringsHead (event : Event) : Prop :=
  event.Signs ∨ event.reopens = true ∧ event.head = .notDue

def KeepsTree (event : Event) : Prop := event.reopens = false ∧ event.accepted = []

def FailsRefresh (event : Event) : Prop := event.refreshes = true ∧ event.head = .unsigned

theorem not_bringsHead_of_unsigned {event : Event} (unsigned : event.head = .unsigned) :
    ¬event.BringsHead := by
  simp [BringsHead, Signs, unsigned]

theorem BringsHead.not_failsRefresh {event : Event} (brings : event.BringsHead) :
    ¬event.FailsRefresh :=
  fun fails => not_bringsHead_of_unsigned fails.2 brings

end Event

def HeadState.Serves (state : HeadState) : Prop := ∃ head, state = ⟨some head, none⟩

theorem Log.serves_iff {σ : Type} {log : Log σ} :
    log.head.Serves ↔ ∃ head, log.latestHead = .ok head := by
  simp only [HeadState.Serves, latestHead_ok_iff]
  refine exists_congr fun head => ?_
  constructor
  · intro state
    rw [state]
    exact ⟨rfl, rfl⟩
  · rintro ⟨unfailed, latest⟩
    rw [← unfailed, ← latest]

inductive HeadTurn (before : HeadState) (event : Event) (after : HeadState) : Prop
  | rests (keeps : event.KeepsTree) (quiet : event.head = .notDue) (same : after = before)
  | fails (unsigned : event.head = .unsigned)
      (attempt : event.refreshes = true ∨ ¬event.KeepsTree) (missing : ¬after.Serves)
  | brings (brings : event.BringsHead) (serves : after.Serves)

/-- A head is served if one was signed or loaded for the tree, and no refresh has failed since. -/
def Event.HeadServed (events : List Event) : Prop :=
  Since KeepsTree BringsHead events ∧ ¬Since (¬·.BringsHead) FailsRefresh events

theorem HeadTurn.serves_iff {events : List Event} {event : Event} {before after : HeadState}
    (turn : HeadTurn before event after)
    (earlier : before.Serves ↔ Event.HeadServed events) :
    after.Serves ↔ Event.HeadServed (events ++ [event]) := by
  rw [Event.HeadServed, since_concat, since_concat]
  cases turn with
  | rests keeps quiet same =>
      have unsigned : ¬event.BringsHead := by simp [Event.BringsHead, Event.Signs, quiet, keeps.1]
      have unfailed : ¬event.FailsRefresh := by simp [Event.FailsRefresh, quiet]
      rw [same, earlier]
      simp [unsigned, unfailed, keeps, Event.HeadServed]
  | fails unsigned attempt missing =>
      have nothing := Event.not_bringsHead_of_unsigned unsigned
      rcases attempt with refreshes | grows
      · have failed : event.FailsRefresh := ⟨refreshes, unsigned⟩
        simp [missing, failed]
      · simp [missing, nothing, grows]
  | brings brings serves =>
      have unfailed := brings.not_failsRefresh
      simp [serves, brings, unfailed]

/-! ### One call -/

theorem headOutcome_of_unfailed {log : Log Storage} (unfailed : log.head.failure = none) :
    log.headOutcome = .kept ∨ log.headOutcome = .lost := by
  rw [Log.headOutcome, unfailed]
  dsimp only
  split
  · exact .inr rfl
  · exact .inl rfl

theorem publishHead_turn (log : Log Storage) (now : Moment) (state : TreeState) {event : Event}
    (before : HeadState) (attempt : event.refreshes = true ∨ ¬event.KeepsTree)
    (due : event.head = (log.publishHead now state).headOutcome) :
    HeadTurn before event (log.publishHead now state).head := by
  rcases Log.publishHead_head log now state with ⟨cause, failed⟩ | ⟨signature, _, published⟩
  · have unsigned : event.head = .unsigned := by rw [due, Log.headOutcome, failed]
    exact .fails unsigned attempt (by simp [HeadState.Serves, failed])
  · have signs : event.Signs := by
      rw [Event.Signs, due]
      apply headOutcome_of_unfailed
      rw [published]
    exact .brings (.inl signs) ⟨_, published⟩

theorem openLog_turn {storage : Storage} {signer : Signer} {now : Moment} {log : Log Storage}
    (opened : (storage.openLog signer now).2 = .ok log) (before : HeadState) :
    HeadTurn before (storage.openLog signer now).1 log.head := by
  cases result : Log.openStore storage signer now with
  | error cause =>
      rw [Storage.openLog, result] at opened
      cases opened
  | ok found =>
      have made : storage.openLog signer now = (⟨now, .reopen, .ok .done,
          if storage.needsHead then found.headOutcome else .notDue⟩, .ok found) := by
        rw [Storage.openLog, result]
      rw [made] at opened ⊢
      obtain rfl := Except.ok.inj opened
      obtain ⟨size, nodes, stored, tree, shows, _, signed | covered⟩ := Log.openStore_cases result
      · obtain ⟨behind, state, rfl⟩ := signed
        have needed : storage.needsHead = true := by
          rw [Storage.needsHead, shows.treeHead, shows.size]
          exact behind
        apply publishHead_turn
        · right
          intro keeps
          cases keeps.1
        · exact if_pos needed
      · obtain ⟨head, rfl, rfl, rfl⟩ := covered
        have current : storage.needsHead = false := by
          simp [Storage.needsHead, shows.treeHead, shows.size]
        refine .brings (.inr ⟨rfl, ?_⟩) ⟨head, rfl⟩
        rw [current]
        rfl

theorem step_turn {log after : Log Storage} {now : Moment} {call : Call}
    (stepped : (log.step now call).2 = .ok after) :
    HeadTurn log.head (log.step now call).1 after.head := by
  cases call with
  | append leaves deadline =>
      rcases Log.append_publishes log now leaves deadline with
        ⟨nonempty, receipt, grown, state, _, appended⟩ | ⟨cause, failed, same, _, refused⟩
      · simp only [Log.step, appended] at stepped ⊢
        obtain rfl := Except.ok.inj stepped
        apply publishHead_turn _ _ _ _ _ rfl
        right
        intro keeps
        exact nonempty keeps.2
      · simp only [Log.step, refused] at stepped ⊢
        obtain rfl := Except.ok.inj stepped
        exact .rests ⟨rfl, rfl⟩ rfl same
  | refresh deadline =>
      obtain rfl := Except.ok.inj stepped
      cases found : Log.treeState log.tree with
      | error cause =>
          simp only [Log.step, Log.refresh, found]
          exact .rests ⟨rfl, rfl⟩ rfl rfl
      | ok state =>
          simp only [Log.step, Log.refresh, found]
          exact publishHead_turn _ _ _ _ (.inl rfl) rfl
  | close | read question deadline | useSigner signer | inject fault =>
      obtain rfl := Except.ok.inj stepped
      exact .rests ⟨rfl, rfl⟩ rfl rfl
  | reopen => exact openLog_turn stepped log.head

/-! ### Runs -/

def Run.TellsHead (run : Run) : Prop :=
  ∀ log, run.log = .ok log → (log.head.Serves ↔ Event.HeadServed run.events)

theorem Run.TellsHead.call {run : Run} (tells : run.TellsHead) (call : Moment × Call) :
    (run.call call).TellsHead := by
  intro after reached
  rw [Run.call] at reached ⊢
  cases current : run.log with
  | error cause =>
      rw [current] at reached
      cases current.symm.trans reached
  | ok log =>
      rw [current] at reached
      exact (step_turn reached).serves_iff (tells log current)

theorem Run.TellsHead.foldl_call {run : Run} (tells : run.TellsHead)
    (calls : List (Moment × Call)) : (calls.foldl Run.call run).TellsHead := by
  induction calls generalizing run with
  | nil => exact tells
  | cons call calls ih => exact ih (tells.call call)

theorem Run.ofCalls_tellsHead (storage : Storage) (signer : Signer) (opened : Moment)
    (calls : List (Moment × Call)) : (Run.ofCalls storage signer opened calls).TellsHead := by
  apply Run.TellsHead.foldl_call
  intro log reached
  have nothing : (⟨none, none⟩ : HeadState).Serves ↔ Event.HeadServed [] := by
    simp [HeadState.Serves, Event.HeadServed, not_since_nil]
  exact (openLog_turn reached ⟨none, none⟩).serves_iff nothing

theorem Log.signing_iff {log : Log Storage} {now : Moment} {deadline : Deadline}
    (inTime : deadline.isExpired now = false) :
    (∃ fault, log.signedTreeHead now deadline = .error (.signing fault)) ↔ ¬log.head.Serves := by
  rw [serves_iff]
  constructor
  · rintro ⟨fault, failed⟩ ⟨head, served⟩
    rw [signedTreeHead_of_inTime inTime, served] at failed
    cases failed
  · intro missing
    exact signedTreeHead_eq_error inTime (not_exists.mp missing)

theorem Log.refresh_hides {log : Log Storage} {now : Moment} {deadline : Deadline}
    {fault : HeadFault} (failed : (log.refresh now deadline).1 = .error (.signing fault)) :
    (log.refresh now deadline).2.head.latest = log.head.latest ∧
      (log.refresh now deadline).2.latestHead = .error (.signing fault) := by
  rcases refresh_publishes log now deadline with ⟨state, published⟩ | ⟨fault, corrupt⟩
  · rw [published] at failed ⊢
    refine ⟨?_, failed⟩
    rcases publishHead_head log now state with ⟨cause, unsigned⟩ | ⟨signature, _, signed⟩
    · rw [unsigned]
    · rw [latestHead, signed] at failed
      cases failed
  · rw [corrupt] at failed
    cases failed

/-! ### A head that is hidden

A log signs the head of its empty tree and serves it. Then the signer fails for a refresh: the tree
and its head are as before, and the head is no longer served. -/

def unavailable : SignerError := .unavailable "signing key unavailable"

def emptyLogWithoutKey (key : Signature.SecretKey) (failure : Option SignerError) : Log Storage :=
  { emptyLog key 5 5 false with
    signer := (Signer.ed25519 key).withoutKey
    head := ⟨some (emptyTreeHead key 5), failure⟩ }

def hiddenHeadCalls (key : Signature.SecretKey) : List (Moment × Call) :=
  [(⟨1, 6⟩, .read .signedTreeHead .never), (⟨2, 7⟩, .useSigner (Signer.ed25519 key).withoutKey),
    (⟨3, 8⟩, .refresh .never), (⟨4, 9⟩, .read .signedTreeHead .never)]

theorem ofCalls_hiddenHeadCalls (key : Signature.SecretKey) :
    Run.ofCalls (.faulty (.wrap (.disk .empty))) (.ed25519 key) ⟨0, 5⟩ (hiddenHeadCalls key) =
      ⟨[⟨⟨0, 5⟩, .reopen, .ok .done, .kept⟩,
          ⟨⟨1, 6⟩, .read .signedTreeHead .never, .ok (.head (emptyTreeHead key 5)), .notDue⟩,
          ⟨⟨2, 7⟩, .useSigner (Signer.ed25519 key).withoutKey, .ok .done, .notDue⟩,
          ⟨⟨3, 8⟩, .refresh .never, .error (.signing (.signer unavailable)), .unsigned⟩,
          ⟨⟨4, 9⟩, .read .signedTreeHead .never, .error (.signing (.signer unavailable)), .notDue⟩],
        .ok (emptyLogWithoutKey key (some unavailable))⟩ := by
  have opened := openLog_empty key ⟨0, 5⟩
  rw [show max (5 : UInt64) 0 = 5 by decide] at opened
  have read : (emptyLog key 5 5 false).step ⟨1, 6⟩ (.read .signedTreeHead .never) =
      (⟨⟨1, 6⟩, .read .signedTreeHead .never, .ok (.head (emptyTreeHead key 5)), .notDue⟩,
        .ok (emptyLog key 5 5 false)) := rfl
  have failed : (emptyLog key 5 5 false).step ⟨2, 7⟩ (.useSigner (Signer.ed25519 key).withoutKey) =
      (⟨⟨2, 7⟩, .useSigner (Signer.ed25519 key).withoutKey, .ok .done, .notDue⟩,
        .ok (emptyLogWithoutKey key none)) := rfl
  have state : Log.treeState (emptyLogWithoutKey key none).tree = .ok (stateOf []) :=
    treeState_ofLeaves []
  have refreshed : (emptyLogWithoutKey key none).step ⟨3, 8⟩ (.refresh .never) =
      (⟨⟨3, 8⟩, .refresh .never, .error (.signing (.signer unavailable)), .unsigned⟩,
        .ok (emptyLogWithoutKey key (some unavailable))) := by
    simp only [Log.step, Log.refresh, state]
    rfl
  simp only [Run.ofCalls, hiddenHeadCalls, opened, List.foldl_cons, List.foldl_nil, Run.call, read,
    failed, refreshed]
  rfl

/-! ### The failure that is reported -/

/-- Over any store, a log reports a failure to sign in the following two cases. It has neither
signed nor loaded a head for its tree since it was opened; or a refresh has failed, and no head was
signed or loaded since. So a refresh that fails hides the head, though it is still at hand. -/
theorem Run.signingFailure_iff {storage : Storage} {signer : Signer} {opened : Moment}
    {calls : List (Moment × Call)} {log : Log Storage}
    (reached : (Run.ofCalls storage signer opened calls).log = .ok log) :
    (∀ now deadline, deadline.isExpired now = false →
      ((∃ fault, log.signedTreeHead now deadline = .error (.signing fault)) ↔
        ¬Since Event.KeepsTree Event.BringsHead (Run.ofCalls storage signer opened calls).events ∨
          Since (¬·.BringsHead) Event.FailsRefresh
            (Run.ofCalls storage signer opened calls).events)) ∧
    ∀ now deadline head, log.signedTreeHead now deadline = .ok head →
      ∀ tried limit fault, (log.refresh tried limit).1 = .error (.signing fault) →
        (log.refresh tried limit).2.head.latest = some head ∧
          ∀ later patience, patience.isExpired later = false →
            (log.refresh tried limit).2.signedTreeHead later patience = .error (.signing fault) := by
  have tells := Run.ofCalls_tellsHead storage signer opened calls log reached
  constructor
  · intro now deadline inTime
    rw [Log.signing_iff inTime, tells, Event.HeadServed, not_and_or, not_not]
  · intro now deadline head served tried limit fault failed
    obtain ⟨kept, hidden⟩ := Log.refresh_hides failed
    obtain ⟨_, latest⟩ := latestHead_ok_iff.mp (latestHead_of_signedTreeHead served)
    refine ⟨kept.trans latest, ?_⟩
    intro later patience inTime
    rwa [signedTreeHead_of_inTime inTime]

theorem Run.signingFailure_iff_hiddenHead :
    let key : Signature.SecretKey := ⟨List.replicate 32 42⟩
    let run := Run.ofCalls (.faulty (.wrap (.disk .empty))) (.ed25519 key) ⟨0, 5⟩
      (hiddenHeadCalls key)
    ∃ log, run.log = .ok log ∧
      ((∃ fault, log.signedTreeHead ⟨5, 10⟩ .never = .error (.signing fault)) ↔
        ¬Since Event.KeepsTree Event.BringsHead run.events ∨
          Since (¬·.BringsHead) Event.FailsRefresh run.events) := by
  intro key run
  have reached := congrArg Run.log (ofCalls_hiddenHeadCalls key)
  exact ⟨_, reached, (Run.signingFailure_iff reached).1 ⟨5, 10⟩ .never rfl⟩

/-- A head was signed for the tree and served. The tree has not changed since, and yet the log
reports that it could not sign one. -/
theorem Run.served_head_hidden :
    let key : Signature.SecretKey := ⟨List.replicate 32 42⟩
    let run := Run.ofCalls (.faulty (.wrap (.disk .empty))) (.ed25519 key) ⟨0, 5⟩
      (hiddenHeadCalls key)
    ∃ log head fault, run.log = .ok log ∧ Since Event.KeepsTree Event.BringsHead run.events ∧
      run.events.map Event.answer =
        [.ok .done, .ok (.head head), .ok .done, .error (.signing fault), .error (.signing fault)] ∧
      log.signedTreeHead ⟨5, 10⟩ .never = .error (.signing fault) := by
  intro key run
  have made : run = _ := ofCalls_hiddenHeadCalls key
  rw [made]
  refine ⟨_, _, _, rfl, ?_, rfl, rfl⟩
  refine ⟨[], _, _, rfl, .inl (.inl rfl), ?_⟩
  simp [Event.KeepsTree, Event.reopens, Event.accepted]

end VerifiableLog
