import VerifiableLog.Proofs.Store.Disk
import VerifiableLog.Store.Backend
import VerifiableLog.Store.Faulty

/-!
The stores that a log is run over: one of either kind, as it is or wrapped to fail on demand.
Failures decide which batches and heads a store takes, and never touch what it holds.
-/

namespace VerifiableLog

open LawfulStore (Holds)

namespace FaultyStore

variable {σ : Type} [LeafStore σ]

theorem commit_of_pending {store : FaultyStore σ} (pending : store.failingCommits > 0)
    (batch : Batch) :
    LeafStore.commit store batch =
      (.error (.injected .commit), { store with failingCommits := store.failingCommits - 1 }) :=
  if_pos pending

theorem commit_of_none_pending {store : FaultyStore σ} (nonePending : ¬store.failingCommits > 0)
    (batch : Batch) :
    LeafStore.commit store batch =
      (LeafStore.commit store.inner batch).map id fun inner => { store with inner := inner } :=
  if_neg nonePending

theorem putTreeHead_of_fails {store : FaultyStore σ} (fails : store.failsTreeHeads = true)
    (head : SignedTreeHead) : LeafStore.putTreeHead store head = .error (.injected .treeHead) :=
  if_pos fails

theorem putTreeHead_of_works {store : FaultyStore σ} (works : store.failsTreeHeads = false)
    (head : SignedTreeHead) :
    LeafStore.putTreeHead store head =
      (LeafStore.putTreeHead store.inner head).map fun inner => { store with inner := inner } := by
  simp only [LeafStore.putTreeHead, works]
  cases LeafStore.putTreeHead store.inner head <;> rfl

end FaultyStore

instance {σ : Type} [LeafStore σ] [LawfulStore σ] : LawfulStore (FaultyStore σ) where
  Holds store := Holds store.inner
  size_eq holds := LawfulStore.size_eq (σ := σ) holds
  leaf?_eq holds := LawfulStore.leaf?_eq (σ := σ) holds
  leaves_eq holds := LawfulStore.leaves_eq (σ := σ) holds
  sequenceOf?_eq holds := LawfulStore.sequenceOf?_eq (σ := σ) holds
  nodes_eq holds := LawfulStore.nodes_eq (σ := σ) holds
  treeHead?_eq holds := LawfulStore.treeHead?_eq (σ := σ) holds
  commit_ok := by
    intro store content batch holds storable taken
    by_cases pending : store.failingCommits > 0
    · simp [FaultyStore.commit_of_pending pending] at taken
    · rw [FaultyStore.commit_of_none_pending pending] at taken ⊢
      exact LawfulStore.commit_ok holds storable taken
  commit_error := by
    intro store content batch cause holds refused
    by_cases pending : store.failingCommits > 0
    · rw [FaultyStore.commit_of_pending pending]
      exact holds
    · rw [FaultyStore.commit_of_none_pending pending] at refused ⊢
      exact LawfulStore.commit_error holds refused
  putTreeHead_ok := by
    intro store after content head holds storable written
    cases fails : store.failsTreeHeads with
    | true => simp [FaultyStore.putTreeHead_of_fails fails] at written
    | false =>
        rw [FaultyStore.putTreeHead_of_works fails] at written
        cases inner : LeafStore.putTreeHead store.inner head with
        | error cause => simp [inner, Except.map] at written
        | ok innerAfter =>
            simp only [inner, Except.map, Except.ok.injEq] at written
            subst written
            exact LawfulStore.putTreeHead_ok holds storable inner

namespace Backend

def Represents : Backend → Content → Prop
  | .memory store => Holds store
  | .disk store => Holds store

theorem putTreeHead_ok (backend : Backend) (head : SignedTreeHead) :
    ∃ after, LeafStore.putTreeHead backend head = .ok after := by
  cases backend <;> exact ⟨_, rfl⟩

instance : LawfulStore Backend where
  Holds := Represents
  size_eq := by
    rintro (store | store) content holds
    · exact LawfulStore.size_eq (σ := MemoryStore) holds
    · exact LawfulStore.size_eq (σ := DiskStore) holds
  leaf?_eq := by
    rintro (store | store) content holds
    · exact LawfulStore.leaf?_eq (σ := MemoryStore) holds
    · exact LawfulStore.leaf?_eq (σ := DiskStore) holds
  leaves_eq := by
    rintro (store | store) content holds
    · exact LawfulStore.leaves_eq (σ := MemoryStore) holds
    · exact LawfulStore.leaves_eq (σ := DiskStore) holds
  sequenceOf?_eq := by
    rintro (store | store) content holds
    · exact LawfulStore.sequenceOf?_eq (σ := MemoryStore) holds
    · exact LawfulStore.sequenceOf?_eq (σ := DiskStore) holds
  nodes_eq := by
    rintro (store | store) content holds
    · exact LawfulStore.nodes_eq (σ := MemoryStore) holds
    · exact LawfulStore.nodes_eq (σ := DiskStore) holds
  treeHead?_eq := by
    rintro (store | store) content holds
    · exact LawfulStore.treeHead?_eq (σ := MemoryStore) holds
    · exact LawfulStore.treeHead?_eq (σ := DiskStore) holds
  commit_ok := by
    rintro (store | store) content batch holds storable taken
    · exact LawfulStore.commit_ok (σ := MemoryStore) holds storable taken
    · exact LawfulStore.commit_ok (σ := DiskStore) holds storable taken
  commit_error := by
    rintro (store | store) content batch cause holds refused
    · exact LawfulStore.commit_error (σ := MemoryStore) holds refused
    · exact LawfulStore.commit_error (σ := DiskStore) holds refused
  putTreeHead_ok := by
    rintro (store | store) after content head holds storable written
    · cases written
      exact LawfulStore.putTreeHead_ok (σ := MemoryStore) holds storable rfl
    · cases written
      exact LawfulStore.putTreeHead_ok (σ := DiskStore) holds storable rfl

end Backend

inductive Storage where
  | bare (backend : Backend)
  | faulty (store : FaultyStore Backend)

inductive Fault where
  | commits (count : Nat)
  | treeHeads (fails : Bool)

namespace Storage

instance : LeafStore Storage where
  commit
    | .bare store, batch => (LeafStore.commit store batch).map id .bare
    | .faulty store, batch => (LeafStore.commit store batch).map id .faulty
  size
    | .bare store => LeafStore.size store
    | .faulty store => LeafStore.size store
  leaf?
    | .bare store => LeafStore.leaf? store
    | .faulty store => LeafStore.leaf? store
  leaves
    | .bare store => LeafStore.leaves store
    | .faulty store => LeafStore.leaves store
  sequenceOf?
    | .bare store => LeafStore.sequenceOf? store
    | .faulty store => LeafStore.sequenceOf? store
  nodes
    | .bare store => LeafStore.nodes store
    | .faulty store => LeafStore.nodes store
  putTreeHead
    | .bare store, head => (LeafStore.putTreeHead store head).map .bare
    | .faulty store, head => (LeafStore.putTreeHead store head).map .faulty
  treeHead?
    | .bare store => LeafStore.treeHead? store
    | .faulty store => LeafStore.treeHead? store

def backend : Storage → Backend
  | .bare backend => backend
  | .faulty store => store.inner

/-- Empty, and ready to fail in any way if it is wrapped. -/
def Fresh (storage : Storage) : Prop :=
  storage.backend = .memory .empty ∨ storage.backend = .disk .empty

def inject : Storage → Fault → Storage
  | .bare backend, _ => .bare backend
  | .faulty store, .commits count => .faulty { store with failingCommits := count }
  | .faulty store, .treeHeads fails => .faulty { store with failsTreeHeads := fails }

def refusesHeads : Storage → Bool
  | .bare _ => false
  | .faulty store => store.failsTreeHeads

theorem backend_inject (storage : Storage) (fault : Fault) :
    (storage.inject fault).backend = storage.backend := by
  cases storage with
  | bare backend => rfl
  | faulty store => cases fault <;> rfl

theorem putTreeHead_cases (storage : Storage) (head : SignedTreeHead) :
    (storage.refusesHeads = true ∧
        ∃ cause, LeafStore.putTreeHead storage head = .error cause) ∨
      (storage.refusesHeads = false ∧
        ∃ after, LeafStore.putTreeHead storage head = .ok after ∧ after.refusesHeads = false ∧
          LeafStore.putTreeHead storage.backend head = .ok after.backend) := by
  cases storage with
  | bare backend =>
      obtain ⟨after, written⟩ := backend.putTreeHead_ok head
      exact .inr ⟨rfl, .bare after, congrArg (Except.map bare) written, rfl, written⟩
  | faulty store =>
      cases fails : store.failsTreeHeads with
      | true =>
          exact .inl ⟨fails, _,
            congrArg (Except.map faulty) (FaultyStore.putTreeHead_of_fails fails head)⟩
      | false =>
          obtain ⟨after, written⟩ := store.inner.putTreeHead_ok head
          have taken := FaultyStore.putTreeHead_of_works fails head
          rw [written] at taken
          exact .inr ⟨fails, .faulty { store with inner := after },
            congrArg (Except.map faulty) taken, fails, written⟩

theorem refusesHeads_of_error {storage : Storage} {head : SignedTreeHead} {cause : StoreError}
    (refused : LeafStore.putTreeHead storage head = .error cause) :
    storage.refusesHeads = true := by
  rcases storage.putTreeHead_cases head with ⟨refuses, _⟩ | ⟨_, _, taken, _⟩
  · exact refuses
  · simp [taken] at refused

theorem refusesHeads_of_ok {storage after : Storage} {head : SignedTreeHead}
    (written : LeafStore.putTreeHead storage head = .ok after) : after.refusesHeads = false := by
  rcases storage.putTreeHead_cases head with ⟨_, _, refused⟩ | ⟨_, _, taken, takes, _⟩
  · simp [refused] at written
  · obtain rfl := Except.ok.inj (taken.symm.trans written)
    exact takes

instance : LawfulStore Storage where
  Holds storage := Holds storage.backend
  size_eq := by
    rintro (store | store) content holds
    · exact LawfulStore.size_eq (σ := Backend) holds
    · exact LawfulStore.size_eq (σ := FaultyStore Backend) holds
  leaf?_eq := by
    rintro (store | store) content holds
    · exact LawfulStore.leaf?_eq (σ := Backend) holds
    · exact LawfulStore.leaf?_eq (σ := FaultyStore Backend) holds
  leaves_eq := by
    rintro (store | store) content holds
    · exact LawfulStore.leaves_eq (σ := Backend) holds
    · exact LawfulStore.leaves_eq (σ := FaultyStore Backend) holds
  sequenceOf?_eq := by
    rintro (store | store) content holds
    · exact LawfulStore.sequenceOf?_eq (σ := Backend) holds
    · exact LawfulStore.sequenceOf?_eq (σ := FaultyStore Backend) holds
  nodes_eq := by
    rintro (store | store) content holds
    · exact LawfulStore.nodes_eq (σ := Backend) holds
    · exact LawfulStore.nodes_eq (σ := FaultyStore Backend) holds
  treeHead?_eq := by
    rintro (store | store) content holds
    · exact LawfulStore.treeHead?_eq (σ := Backend) holds
    · exact LawfulStore.treeHead?_eq (σ := FaultyStore Backend) holds
  commit_ok := by
    rintro (store | store) content batch holds storable taken
    · exact LawfulStore.commit_ok (σ := Backend) holds storable taken
    · exact LawfulStore.commit_ok (σ := FaultyStore Backend) holds storable taken
  commit_error := by
    rintro (store | store) content batch cause holds refused
    · exact LawfulStore.commit_error (σ := Backend) holds refused
    · exact LawfulStore.commit_error (σ := FaultyStore Backend) holds refused
  putTreeHead_ok := by
    intro storage after content head holds storable written
    rcases storage.putTreeHead_cases head with ⟨_, cause, refused⟩ | ⟨_, taken, kept, _, inner⟩
    · simp [refused] at written
    · obtain rfl := Except.ok.inj (kept.symm.trans written)
      exact LawfulStore.putTreeHead_ok (σ := Backend) holds storable inner

theorem Fresh.holds_empty {storage : Storage} (fresh : storage.Fresh) :
    Holds storage .empty := by
  change Holds storage.backend .empty
  rcases fresh with memory | disk
  · rw [memory]
    exact MemoryStore.empty_represents
  · rw [disk]
    exact DiskStore.empty_represents

end Storage

end VerifiableLog
