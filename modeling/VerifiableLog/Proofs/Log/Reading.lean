import VerifiableLog.Proofs.Log.Invariant

/-!
What the answers of a log depend on: its tree and the leaves that its store gives out, and for the
tree head the head in use. Two logs that agree on these answer alike, whatever else sets them or
their stores apart.
-/

namespace VerifiableLog

open LawfulStore (Holds)

section

variable {σ τ : Type} [LeafStore σ] [LeafStore τ]

structure SameLeaves (store : σ) (other : τ) : Prop where
  leaf? : ∀ sequence, LeafStore.leaf? store sequence = LeafStore.leaf? other sequence
  leaves : ∀ start stop, LeafStore.leaves store start stop = LeafStore.leaves other start stop
  sequenceOf? : ∀ hash, LeafStore.sequenceOf? store hash = LeafStore.sequenceOf? other hash

theorem Keeps.sameLeaves [LawfulStore σ] [LawfulStore τ] {store : σ} {other : τ}
    {leaves : List NewLeaf} {stored otherStored : Option SignedTreeHead}
    (keeps : Keeps store leaves stored) (otherKeeps : Keeps other leaves otherStored) :
    SameLeaves store other := by
  obtain ⟨nodes, _, holds⟩ := keeps.content
  obtain ⟨otherNodes, _, otherHolds⟩ := otherKeeps.content
  constructor
  · intro sequence
    rw [LawfulStore.leaf?_eq holds, LawfulStore.leaf?_eq otherHolds]
  · intro start stop
    rw [LawfulStore.leaves_eq holds, LawfulStore.leaves_eq otherHolds]
  · intro hash
    rw [LawfulStore.sequenceOf?_eq holds, LawfulStore.sequenceOf?_eq otherHolds]

theorem Log.sequenceOf_eq {log : Log σ} {other : Log τ} (tree : log.tree = other.tree)
    (same : SameLeaves log.store other.store) (hash : Digest) :
    log.sequenceOf hash = other.sequenceOf hash := by
  rw [Log.sequenceOf, Log.sequenceOf, same.sequenceOf?, Log.size, Log.size, tree]

/-- Logs with the same tree over the same leaves answer alike, but for the head. -/
theorem Log.ask_eq {log : Log σ} {other : Log τ} (tree : log.tree = other.tree)
    (same : SameLeaves log.store other.store) (now : Moment) (deadline : Deadline)
    {question : Question} (headless : question ≠ .signedTreeHead) :
    log.ask now deadline question = other.ask now deadline question := by
  have size : log.size = other.size := by rw [Log.size, Log.size, tree]
  cases question with
  | signedTreeHead => exact absurd rfl headless
  | treeSize => simp only [Log.ask, Log.treeSize, size]
  | rootHash treeSize => simp only [Log.ask, Log.rootHash, size, tree]
  | leafByHash hash =>
      simp only [Log.ask, Log.leafByHash, Log.sequenceOf_eq tree same, same.leaf?]
  | leavesByRange start stop => simp only [Log.ask, Log.leavesByRange, size, same.leaves]
  | inclusionProof leaf treeSize =>
      cases leaf <;>
        simp only [Log.ask, Log.inclusionProof, Log.locate, Log.sequenceOf_eq tree same, size, tree]
  | consistencyProof first second => simp only [Log.ask, Log.consistencyProof, size, tree]

end

theorem Storage.sameLeaves_backend (storage : Storage) : SameLeaves storage storage.backend := by
  cases storage <;> exact ⟨fun _ => rfl, fun _ _ => rfl, fun _ => rfl⟩

theorem Storage.sameLeaves_of_backend {storage other : Storage}
    (backend : storage.backend = other.backend) : SameLeaves storage other := by
  have first := storage.sameLeaves_backend
  have second := other.sameLeaves_backend
  rw [backend] at first
  constructor
  · intro sequence
    rw [first.leaf?, second.leaf?]
  · intro start stop
    rw [first.leaves, second.leaves]
  · intro hash
    rw [first.sequenceOf?, second.sequenceOf?]

end VerifiableLog
