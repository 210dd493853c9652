import VerifiableLog.Log.State
import VerifiableLog.Proofs.Store.Storage

/-!
Runs of a log. A log is opened over a store and then called, each time at a moment of its own; what
it is asked and what it answers is written down. Between the calls the signer may be exchanged and
the store be made to fail, and a log may be dropped and opened again over the same store.
-/

namespace VerifiableLog

inductive Question where
  | treeSize
  | signedTreeHead
  | rootHash (treeSize : Option UInt64)
  | leafByHash (hash : Digest)
  | leavesByRange (start stop : UInt64)
  | inclusionProof (leaf : Log.Locator) (treeSize : UInt64)
  | consistencyProof (first second : UInt64)

inductive Answer where
  | done
  | receipt (receipt : AppendReceipt)
  | head (head : SignedTreeHead)
  | size (size : UInt64)
  | state (state : TreeState)
  | leaf (record : LeafRecord)
  | leaves (records : List LeafRecord)
  | inclusion (proof : InclusionProof)
  | consistency (proof : ConsistencyProof)

inductive Call where
  | append (leaves : List NewLeaf) (deadline : Deadline)
  | refresh (deadline : Deadline)
  | close
  | read (question : Question) (deadline : Deadline)
  | useSigner (signer : Signer)
  | inject (fault : Fault)
  | reopen

def Call.leaves : Call → List NewLeaf
  | .append leaves _ => leaves
  | _ => []

/-- What became of the head that a call had to publish, if it had to. The clock is read for a head
alone: to date it before it is signed. -/
inductive HeadOutcome where
  | notDue
  | unsigned
  | kept
  | lost
  deriving DecidableEq

structure Event where
  now : Moment
  call : Call
  answer : Except LogError Answer
  head : HeadOutcome

namespace Event

def accepted (event : Event) : List NewLeaf :=
  match event.call, event.answer with
  | .append leaves _, .ok _ => leaves
  | _, _ => []

def servedHead? (event : Event) : Option SignedTreeHead :=
  match event.answer with
  | .ok (.head head) => some head
  | _ => none

theorem servedHead?_eq_some_iff {event : Event} {head : SignedTreeHead} :
    event.servedHead? = some head ↔ event.answer = .ok (.head head) := by
  rw [servedHead?]
  split <;> simp_all

def reopens (event : Event) : Bool :=
  match event.call with
  | .reopen => true
  | _ => false

def refreshes (event : Event) : Bool :=
  match event.call with
  | .refresh _ => true
  | _ => false

end Event

def acceptedLeaves (events : List Event) : List NewLeaf := events.flatMap Event.accepted

namespace Log

def ask {σ : Type} [LeafStore σ] (log : Log σ) (now : Moment) (deadline : Deadline) :
    Question → Except LogError Answer
  | .treeSize => (log.treeSize now deadline).map .size
  | .signedTreeHead => (log.signedTreeHead now deadline).map .head
  | .rootHash treeSize => (log.rootHash now treeSize deadline).map .state
  | .leafByHash hash => (log.leafByHash now hash deadline).map .leaf
  | .leavesByRange start stop => (log.leavesByRange now start stop deadline).map .leaves
  | .inclusionProof leaf treeSize => (log.inclusionProof now leaf treeSize deadline).map .inclusion
  | .consistencyProof first second =>
    (log.consistencyProof now first second deadline).map .consistency

def headOutcome (log : Log Storage) : HeadOutcome :=
  match log.head.failure with
  | some _ => .unsigned
  | none => if log.store.refusesHeads then .lost else .kept

end Log

namespace Storage

def needsHead (storage : Storage) : Bool :=
  match LeafStore.treeHead? storage, LeafStore.size storage with
  | .ok stored, .ok size => stored.all fun head => head.treeSize < size
  | _, _ => false

def openLog (storage : Storage) (signer : Signer) (now : Moment) :
    Event × Except LogError (Log Storage) :=
  match Log.openStore storage signer now with
  | .error cause => (⟨now, .reopen, .error cause, .notDue⟩, .error cause)
  | .ok log =>
    (⟨now, .reopen, .ok .done, if storage.needsHead then log.headOutcome else .notDue⟩, .ok log)

end Storage

/-- One call. What is left is a log, unless it could not be opened again. -/
def Log.step (log : Log Storage) (now : Moment) : Call → Event × Except LogError (Log Storage)
  | .append leaves deadline =>
    match log.append now leaves deadline with
    | (.error cause, after) =>
      (⟨now, .append leaves deadline, .error cause, .notDue⟩, .ok after)
    | (.ok receipt, after) =>
      (⟨now, .append leaves deadline, .ok (.receipt receipt), after.headOutcome⟩, .ok after)
  | .refresh deadline =>
    let (answer, after) := log.refresh now deadline
    let outcome :=
      match treeState log.tree with
      | .ok _ => after.headOutcome
      | .error _ => .notDue
    (⟨now, .refresh deadline, answer.map .head, outcome⟩, .ok after)
  | .close => (⟨now, .close, .ok .done, .notDue⟩, .ok log.close)
  | .read question deadline =>
    (⟨now, .read question deadline, log.ask now deadline question, .notDue⟩, .ok log)
  | .useSigner signer =>
    (⟨now, .useSigner signer, .ok .done, .notDue⟩, .ok { log with signer := signer })
  | .inject fault =>
    (⟨now, .inject fault, .ok .done, .notDue⟩, .ok { log with store := log.store.inject fault })
  | .reopen => log.store.openLog log.signer now

structure Run where
  events : List Event
  log : Except LogError (Log Storage)

namespace Run

def call (run : Run) (call : Moment × Call) : Run :=
  match run.log with
  | .error _ => run
  | .ok log =>
    let (event, after) := log.step call.1 call.2
    ⟨run.events ++ [event], after⟩

def ofCalls (storage : Storage) (signer : Signer) (opened : Moment) (calls : List (Moment × Call)) :
    Run :=
  let (event, log) := storage.openLog signer opened
  calls.foldl call ⟨[event], log⟩

end Run

/-! ### Machine limits -/

def NewLeaf.Storable (leaf : NewLeaf) : Prop :=
  leaf.leafValue.length < 2 ^ 64 ∧ ∀ extra ∈ leaf.extraData, extra.length < 2 ^ 64

def Signer.Storable (signer : Signer) : Prop :=
  ∀ head signature, signer.sign head = .ok signature → signature.length < 2 ^ 64

theorem Signer.ed25519_storable (key : Signature.SecretKey) : (Signer.ed25519 key).Storable := by
  rintro head _ ⟨⟩
  simp [Signature.SecretKey.sign, Signature.Point.encode]

theorem Signer.withoutKey_storable (signer : Signer) : signer.withoutKey.Storable := by
  intro head signature signed
  simp [Signer.withoutKey] at signed

/-- Words of 64 bits count what a call hands over: half their range for the leaves of a batch, as
for the leaves of a log. -/
def Call.Fits : Call → Prop
  | .append leaves _ => leaves.length < 2 ^ 63 ∧ ∀ leaf ∈ leaves, leaf.Storable
  | .useSigner signer => signer.Storable
  | _ => True

end VerifiableLog
