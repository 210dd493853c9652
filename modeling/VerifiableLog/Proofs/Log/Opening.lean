import VerifiableLog.Proofs.Log.Step
import VerifiableLog.Proofs.Merkle.Complete
import VerifiableLog.Proofs.Merkle.Peaks

/-!
Which stores a log can be opened over. A store may hold anything, written by anyone: it is accepted
exactly if it has the nodes that its size calls for, each once, and a head, if any, whose root is
the one that these nodes give for its size. Nothing else is asked of the hashes, and nothing else is
needed: once a log is open it never misses a node, whatever is asked of it.
-/

namespace VerifiableLog

open Merkle (Accumulator NodeAddress)

/-- The nodes and the head of a store agree with its size and with each other. -/
structure SelfConsistent (size : UInt64) (nodes : List (NodeAddress × Digest))
    (stored : Option SignedTreeHead) : Prop where
  covers : Merkle.Covers nodes size.toNat
  head : ∀ head ∈ stored, head.treeSize ≤ size ∧
    Merkle.rootFrom? nodes head.treeSize.toNat = some head.rootHash

structure Shows {σ : Type} [LeafStore σ] (store : σ) (size : UInt64)
    (nodes : List (NodeAddress × Digest)) (stored : Option SignedTreeHead) : Prop where
  size : LeafStore.size store = .ok size
  nodes : LeafStore.nodes store = .ok nodes
  treeHead : LeafStore.treeHead? store = .ok stored

/-- Whatever failed, the stored tree is not to blame. -/
def Intact {α : Type} (result : Except LogError α) : Prop :=
  ∀ fault, result ≠ .error (.corrupt fault)

namespace Log

variable {σ : Type}

/-! ### Opening -/

/-- What is made of the content of a store before anything is signed or written. -/
def examine (size : UInt64) (nodes : List (NodeAddress × Digest)) (stored : Option SignedTreeHead) :
    Except LogError (Accumulator × TreeState) := do
  let tree ← fromTree (Accumulator.ofNodes nodes)
  if tree.size ≠ size.toNat then .error (.corrupt (.uncovered size tree.size))
  else do
    stored.forM (checkStoredHead tree size)
    let state ← treeState tree
    return (tree, state)

theorem openStore_eq_examine [LeafStore σ] {store : σ} {size : UInt64}
    {nodes : List (NodeAddress × Digest)} {stored : Option SignedTreeHead}
    (shows : Shows store size nodes stored) (signer : Signer) (now : Moment) :
    openStore store signer now =
      (examine size nodes stored).map fun (tree, state) =>
        let log : Log σ := ⟨store, signer, tree, ⟨stored, none⟩, false⟩
        if stored.all fun head => head.treeSize < size then log.publishHead now state else log := by
  have sizeRead : fromStore (LeafStore.size store) = pure size := congrArg fromStore shows.size
  have nodesRead : fromStore (LeafStore.nodes store) = pure nodes := congrArg fromStore shows.nodes
  have headRead : fromStore (LeafStore.treeHead? store) = pure stored :=
    congrArg fromStore shows.treeHead
  change _ = _ <$> examine size nodes stored
  simp only [openStore, examine, sizeRead, nodesRead, headRead, pure_bind, map_bind]
  refine bind_congr fun tree => ?_
  by_cases uncovered : tree.size ≠ size.toNat
  · simp only [if_pos uncovered]
    rfl
  · simp only [if_neg uncovered, map_bind]
    refine bind_congr fun _ => bind_congr fun state => ?_
    split <;> rfl

/-- Opening on the one store there is, which outlives a failure. -/
def openInPlace [LeafStore σ] (signer : Signer) (now : Moment) :
    ExceptT LogError (StateM σ) (Log σ) := do
  let size ← ofExcept (fromStore (LeafStore.size (← get)))
  let nodes ← ofExcept (fromStore (LeafStore.nodes (← get)))
  let tree ← ofExcept (fromTree (Accumulator.ofNodes nodes))
  if tree.size ≠ size.toNat then throw (.corrupt (.uncovered size tree.size))
  else do
    let stored ← ofExcept (fromStore (LeafStore.treeHead? (← get)))
    ofExcept (stored.forM (checkStoredHead tree size))
    let state ← ofExcept (treeState tree)
    let log : Log σ := ⟨← get, signer, tree, ⟨stored, none⟩, false⟩
    if stored.all fun head => head.treeSize < size then
      let log := log.publishHead now state
      set log.store
      return log
    else return log

/-- The program comes to `result`, and leaves the store of that log or, if there is none, the store
that it has found. -/
def RunsTo (program : ExceptT LogError (StateM σ) (Log σ)) (store : σ)
    (result : Except LogError (Log σ)) : Prop :=
  program.run.run store = (result, (result.map Log.store).toOption.getD store)

theorem RunsTo.check {α : Type} {store : σ} (checked : Except LogError α)
    {next : α → ExceptT LogError (StateM σ) (Log σ)} {rest : α → Except LogError (Log σ)}
    (runs : ∀ value, RunsTo (next value) store (rest value)) :
    RunsTo (ofExcept checked >>= next) store (checked >>= rest) := by
  cases checked with
  | error cause => rfl
  | ok value => exact runs value

theorem RunsTo.consult {store : σ} {next : σ → ExceptT LogError (StateM σ) (Log σ)}
    {result : Except LogError (Log σ)} (runs : RunsTo (next store) store result) :
    RunsTo (get >>= next) store result :=
  runs

theorem openInPlace_runsTo [LeafStore σ] (store : σ) (signer : Signer) (now : Moment) :
    RunsTo (openInPlace signer now) store (openStore store signer now) := by
  refine .consult (.check _ fun size => .consult (.check _ fun nodes => .check _ fun tree => ?_))
  by_cases uncovered : tree.size ≠ size.toNat
  · simp only [if_pos uncovered]
    rfl
  · simp only [if_neg uncovered]
    refine .consult (.check _ fun stored => .check _ fun _ => .check _ fun state => .consult ?_)
    split <;> rfl

theorem treeState_of_complete {tree : Accumulator} (complete : tree.Complete) :
    ∃ state, treeState tree = .ok state := by
  obtain ⟨root, found⟩ := complete.exists_currentRoot
  rw [treeState, found]
  exact ⟨_, rfl⟩

theorem checkStoredHead_cases {tree : Accumulator} (complete : tree.Complete) {size : UInt64}
    (covers : tree.size = size.toNat) {nodes : List (NodeAddress × Digest)}
    (same : nodes.Perm tree.nodes) (head : SignedTreeHead) :
    if head.treeSize ≤ size ∧ Merkle.rootFrom? nodes head.treeSize.toNat = some head.rootHash then
      checkStoredHead tree size head = .ok ()
    else ∃ fault, checkStoredHead tree size head = .error (.corrupt fault) := by
  have fits := size.toNat_lt
  rw [checkStoredHead]
  by_cases ahead : head.treeSize > size
  · rw [if_neg (fun accepted => UInt64.not_lt.mpr accepted.1 ahead), if_pos ahead]
    exact ⟨_, rfl⟩
  have within := UInt64.not_lt.mp ahead
  have reached : head.treeSize.toNat ≤ tree.size := by
    rw [covers]
    exact UInt64.le_iff_toNat_le.mp within
  obtain ⟨root, found⟩ := complete.exists_root reached
  have fromNodes := complete.root_eq (by omega) same reached
  rw [found] at fromNodes
  rw [if_neg ahead, ← fromNodes, found]
  by_cases agrees : root = head.rootHash
  · rw [if_pos ⟨within, congrArg some agrees⟩]
    exact if_neg (not_not_intro agrees)
  · rw [if_neg fun accepted => agrees (Option.some_inj.mp accepted.2)]
    exact ⟨_, if_pos agrees⟩

theorem examine_ok {size : UInt64} {nodes : List (NodeAddress × Digest)}
    {stored : Option SignedTreeHead} (consistent : SelfConsistent size nodes stored) :
    ∃ tree state, examine size nodes stored = .ok (tree, state) ∧ tree.Complete ∧
      tree.size = size.toNat := by
  obtain ⟨tree, rebuilt, covers⟩ :=
    (Accumulator.ofNodes_ok_iff_covers size.toNat_lt).mpr consistent.covers
  obtain ⟨complete, same⟩ := Accumulator.complete_of_ofNodes rebuilt
  obtain ⟨state, found⟩ := treeState_of_complete complete
  have checked : stored.forM (checkStoredHead tree size) = .ok () := by
    cases stored with
    | none => rfl
    | some head =>
        have cases := checkStoredHead_cases complete covers same head
        rwa [if_pos (consistent.head head rfl)] at cases
  refine ⟨tree, state, ?_, complete, covers⟩
  simp only [examine, rebuilt, fromTree, Except.mapError, bind, Except.bind, covers, checked, found,
    ne_eq, not_true_eq_false, if_false, pure, Except.pure]

theorem examine_error {size : UInt64} {nodes : List (NodeAddress × Digest)}
    {stored : Option SignedTreeHead} (inconsistent : ¬SelfConsistent size nodes stored) :
    ∃ fault, examine size nodes stored = .error (.corrupt fault) := by
  cases rebuilt : Accumulator.ofNodes nodes with
  | error cause =>
      rw [examine, rebuilt]
      exact ⟨_, rfl⟩
  | ok tree =>
      simp only [examine, rebuilt, fromTree, Except.mapError, bind, Except.bind]
      by_cases uncovered : tree.size ≠ size.toNat
      · rw [if_pos uncovered]
        exact ⟨_, rfl⟩
      rw [if_neg uncovered]
      have covers := Decidable.not_not.mp uncovered
      obtain ⟨complete, same⟩ := Accumulator.complete_of_ofNodes rebuilt
      have coversNodes := (Accumulator.ofNodes_ok_iff_covers size.toNat_lt).mp
        ⟨tree, rebuilt, covers⟩
      cases stored with
      | none => exact absurd ⟨coversNodes, by simp⟩ inconsistent
      | some head =>
          have refused : ¬(head.treeSize ≤ size ∧
              Merkle.rootFrom? nodes head.treeSize.toNat = some head.rootHash) := by
            intro accepted
            refine inconsistent ⟨coversNodes, ?_⟩
            rintro _ ⟨⟩
            exact accepted
          have cases := checkStoredHead_cases complete covers same head
          rw [if_neg refused] at cases
          obtain ⟨fault, blamed⟩ := cases
          have checked : (some head).forM (checkStoredHead tree size) = .error (.corrupt fault) :=
            blamed
          rw [checked]
          exact ⟨_, rfl⟩

theorem exists_of_bind_ok {α β : Type} {result : Except LogError α}
    {next : α → Except LogError β} {value : β} (ran : (result >>= next) = .ok value) :
    ∃ found, result = .ok found ∧ next found = .ok value := by
  cases result with
  | error cause => cases ran
  | ok found => exact ⟨found, rfl, ran⟩

theorem fromStore_ok_iff {α : Type} {result : Except StoreError α} {value : α} :
    fromStore result = .ok value ↔ result = .ok value := by
  cases result <;> simp [fromStore, Except.mapError]

theorem exists_shows_of_openStore [LeafStore σ] {store : σ} {signer : Signer} {now : Moment}
    {log : Log σ} (opened : openStore store signer now = .ok log) :
    ∃ size nodes stored, Shows store size nodes stored ∧ SelfConsistent size nodes stored := by
  have shown : ∃ size nodes stored, Shows store size nodes stored := by
    rw [openStore] at opened
    obtain ⟨size, sizeRead, opened⟩ := exists_of_bind_ok opened
    obtain ⟨nodes, nodesRead, opened⟩ := exists_of_bind_ok opened
    obtain ⟨tree, _, opened⟩ := exists_of_bind_ok opened
    split at opened
    · cases opened
    · obtain ⟨stored, headRead, _⟩ := exists_of_bind_ok opened
      exact ⟨size, nodes, stored, fromStore_ok_iff.mp sizeRead, fromStore_ok_iff.mp nodesRead,
        fromStore_ok_iff.mp headRead⟩
  obtain ⟨size, nodes, stored, shows⟩ := shown
  refine ⟨size, nodes, stored, shows, ?_⟩
  by_contra inconsistent
  obtain ⟨fault, refused⟩ := examine_error inconsistent
  rw [openStore_eq_examine shows, refused] at opened
  cases opened

theorem openStore_cases [LeafStore σ] {store : σ} {signer : Signer} {now : Moment} {log : Log σ}
    (opened : openStore store signer now = .ok log) :
    ∃ size nodes stored tree, Shows store size nodes stored ∧ SelfConsistent size nodes stored ∧
      (((stored.all fun head => head.treeSize < size) = true ∧
          ∃ state, log = publishHead ⟨store, signer, tree, ⟨stored, none⟩, false⟩ now state) ∨
        ∃ head, stored = some head ∧ head.treeSize = size ∧
          log = ⟨store, signer, tree, ⟨some head, none⟩, false⟩) := by
  obtain ⟨size, nodes, stored, shows, consistent⟩ := exists_shows_of_openStore opened
  obtain ⟨tree, state, examined, _⟩ := examine_ok consistent
  rw [openStore_eq_examine shows, examined] at opened
  have result := Except.ok.inj opened
  refine ⟨size, nodes, stored, tree, shows, consistent, ?_⟩
  by_cases needed : (stored.all fun head => head.treeSize < size) = true
  · simp only [if_pos needed] at result
    exact .inl ⟨needed, state, result.symm⟩
  · simp only [if_neg needed] at result
    right
    cases stored with
    | none => simp at needed
    | some head =>
        have within := (consistent.head head rfl).1
        simp only [Option.all_some, decide_eq_true_eq, UInt64.not_lt] at needed
        exact ⟨head, rfl, UInt64.le_antisymm within needed, result.symm⟩

end Log

/-! ### Results without blame -/

section

variable {α β : Type}

theorem intact_ok (value : α) : Intact (.ok value : Except LogError α) := by
  rintro fault ⟨⟩

theorem Intact.bind {result : Except LogError α} {next : α → Except LogError β}
    (intact : Intact result) (rest : ∀ value, Intact (next value)) : Intact (result >>= next) := by
  cases result with
  | ok value => exact rest value
  | error cause =>
      rintro fault ⟨⟩
      exact intact fault rfl

theorem Intact.map {result : Except LogError α} (intact : Intact result) (read : α → β) :
    Intact (result.map read) := by
  cases result with
  | ok value => exact intact_ok (read value)
  | error cause =>
      rintro fault ⟨⟩
      exact intact fault rfl

theorem intact_fromStore (result : Except StoreError α) : Intact (Log.fromStore result) := by
  cases result with
  | ok value => exact intact_ok value
  | error cause => rintro fault ⟨⟩

theorem intact_fromTree {result : Except Merkle.MerkleError α}
    (found : ∃ value, result = .ok value) : Intact (Log.fromTree result) := by
  obtain ⟨value, rfl⟩ := found
  exact intact_ok value

theorem intact_checkDeadline (deadline : Deadline) (now : Moment) :
    Intact (Log.checkDeadline deadline now) := by
  rw [Log.checkDeadline]
  split
  · rintro fault ⟨⟩
  · exact intact_ok ()

end

namespace Log

section

variable {σ : Type} [LeafStore σ] {log : Log σ}

/-! ### Reading -/

omit [LeafStore σ] in
theorem toNat_le_size (fits : log.tree.size < 2 ^ 64) {treeSize : UInt64}
    (within : ¬treeSize > log.size) : treeSize.toNat ≤ log.tree.size := by
  have reached := UInt64.le_iff_toNat_le.mp (UInt64.not_lt.mp within)
  rwa [size, UInt64.toNat_ofNat_of_lt' fits] at reached

theorem intact_sequenceOf (log : Log σ) (hash : Digest) : Intact (log.sequenceOf hash) := by
  refine Intact.bind (intact_fromStore _) fun place => ?_
  cases place with
  | none => rintro fault ⟨⟩
  | some sequence =>
      show Intact (if sequence < log.size then _ else _)
      split
      · exact intact_ok sequence
      · rintro fault ⟨⟩

theorem intact_leafByHash (log : Log σ) (now : Moment) (hash : Digest) (deadline : Deadline) :
    Intact (log.leafByHash now hash deadline) := by
  refine (intact_checkDeadline deadline now).bind fun _ => ?_
  refine (intact_sequenceOf log hash).bind fun sequence => ?_
  refine (intact_fromStore _).bind fun leaf => ?_
  cases leaf with
  | none => rintro fault ⟨⟩
  | some leaf => exact intact_ok leaf

theorem intact_leavesByRange (log : Log σ) (now : Moment) (start stop : UInt64)
    (deadline : Deadline) : Intact (log.leavesByRange now start stop deadline) := by
  refine (intact_checkDeadline deadline now).bind fun _ => ?_
  split
  · rintro fault ⟨⟩
  · dsimp only
    generalize (if stop < log.size then stop + 1 else log.size) = limit
    split
    · exact intact_ok []
    · exact intact_fromStore _

theorem intact_inclusionProof (complete : log.tree.Complete) (fits : log.tree.size < 2 ^ 64)
    (now : Moment) (leaf : Locator) (treeSize : UInt64) (deadline : Deadline) :
    Intact (log.inclusionProof now leaf treeSize deadline) := by
  have located : Intact (log.locate leaf) := by
    cases leaf with
    | index index => exact intact_ok index
    | hash hash => exact intact_sequenceOf log hash
  refine (intact_checkDeadline deadline now).bind fun _ => ?_
  refine located.bind fun index => ?_
  dsimp only
  generalize (if treeSize = 0 then log.size else treeSize) = treeSize
  split
  · rintro fault ⟨⟩
  rename_i within
  split
  · rintro fault ⟨⟩
  rename_i inside
  have before := UInt64.lt_iff_toNat_lt.mp (UInt64.not_le.mp inside)
  exact (intact_fromTree (complete.exists_inclusionPath before (toNat_le_size fits within))).bind
    fun path => intact_ok _

omit [LeafStore σ] in
theorem intact_consistencyProof (complete : log.tree.Complete) (fits : log.tree.size < 2 ^ 64)
    (now : Moment) (first second : UInt64) (deadline : Deadline) :
    Intact (log.consistencyProof now first second deadline) := by
  refine (intact_checkDeadline deadline now).bind fun _ => ?_
  split
  · rintro fault ⟨⟩
  rename_i ordered
  split
  · rintro fault ⟨⟩
  rename_i within
  have order := UInt64.le_iff_toNat_le.mp (UInt64.not_lt.mp ordered)
  exact (intact_fromTree (complete.exists_consistencyPath order (toNat_le_size fits within))).bind
    fun path => intact_ok _

omit [LeafStore σ] in
theorem intact_rootHash (complete : log.tree.Complete) (fits : log.tree.size < 2 ^ 64)
    (now : Moment) (treeSize : Option UInt64) (deadline : Deadline) :
    Intact (log.rootHash now treeSize deadline) := by
  refine (intact_checkDeadline deadline now).bind fun _ => ?_
  dsimp only
  split
  · rintro fault ⟨⟩
  rename_i within
  exact (intact_fromTree (complete.exists_root (toNat_le_size fits within))).bind
    fun root => intact_ok _

omit [LeafStore σ] in
theorem intact_latestHead (log : Log σ) : Intact log.latestHead := by
  rw [latestHead]
  split
  · rintro fault ⟨⟩
  · rintro fault ⟨⟩
  · exact intact_ok _

theorem intact_ask (complete : log.tree.Complete) (fits : log.tree.size < 2 ^ 64) (now : Moment)
    (deadline : Deadline) (question : Question) : Intact (log.ask now deadline question) := by
  cases question with
  | treeSize => exact ((intact_checkDeadline deadline now).bind fun _ => intact_ok _).map _
  | signedTreeHead =>
      exact ((intact_checkDeadline deadline now).bind fun _ => intact_latestHead log).map _
  | rootHash treeSize => exact (intact_rootHash complete fits now treeSize deadline).map _
  | leafByHash hash => exact (intact_leafByHash log now hash deadline).map _
  | leavesByRange start stop => exact (intact_leavesByRange log now start stop deadline).map _
  | inclusionProof leaf treeSize =>
      exact (intact_inclusionProof complete fits now leaf treeSize deadline).map _
  | consistencyProof first second =>
      exact (intact_consistencyProof complete fits now first second deadline).map _

/-! ### Appending -/

theorem publishHead_tree (log : Log σ) (now : Moment) (state : TreeState) :
    (log.publishHead now state).tree = log.tree := by
  rw [publishHead]
  cases log.signer.sign _ <;> rfl

theorem commit_tree (log : Log σ) (now : Moment) (batch : Batch) (hashes : List Digest) :
    (log.commit now batch (log.tree.planAppend hashes)).2.tree = log.tree ∨
      (log.commit now batch (log.tree.planAppend hashes)).2.tree = log.tree.extend hashes := by
  rcases taken : LeafStore.commit log.store batch with ⟨cause | _, store⟩
  · left
    simp only [commit, taken]
  · simp only [commit, taken, Accumulator.apply_planAppend]
    cases grown : treeState (log.tree.extend hashes) with
    | error cause => exact .inl (by simp [grown, fromTree, Except.mapError, bind, Except.bind])
    | ok state =>
        right
        simp only [grown, fromTree, Except.mapError, bind, Except.bind, pure, Except.pure,
          publishHead_tree]

theorem intact_commit (complete : log.tree.Complete) (now : Moment) (batch : Batch)
    {hashes : List Digest} (fits : log.tree.size + hashes.length < 2 ^ 256) :
    Intact (log.commit now batch (log.tree.planAppend hashes)).1 := by
  rcases taken : LeafStore.commit log.store batch with ⟨cause | _, store⟩
  · simp only [commit, taken]
    rintro fault ⟨⟩
  · obtain ⟨state, grown⟩ := treeState_of_complete (complete.extend fits).1
    simp only [commit, taken, Accumulator.apply_planAppend, grown, fromTree, Except.mapError, bind,
      Except.bind, pure, Except.pure]
    exact intact_ok _

theorem append_tree (log : Log σ) (now : Moment) (leaves : List NewLeaf) (deadline : Deadline) :
    (log.append now leaves deadline).2.tree = log.tree ∨
      (log.append now leaves deadline).2.tree = log.tree.extend (leafHashes leaves) := by
  rcases append_split log now leaves deadline with ⟨cause, _, turnedAway⟩ | ⟨_, committed⟩
  · exact .inl (by rw [turnedAway])
  · rw [committed]
    exact commit_tree log now _ _

theorem intact_append (complete : log.tree.Complete) (now : Moment) (leaves : List NewLeaf)
    (deadline : Deadline) (fits : log.tree.size + leaves.length < 2 ^ 256) :
    Intact (log.append now leaves deadline).1 := by
  rcases append_split log now leaves deadline with ⟨cause, early, turnedAway⟩ | ⟨_, committed⟩
  · rw [turnedAway]
    rcases early with rfl | rfl | rfl <;> rintro fault ⟨⟩
  · rw [committed]
    exact intact_commit complete now _ (by rwa [length_leafHashes])

end

end Log

/-! ### Requests -/

/-- What may happen to a log once it is open. Whoever else uses the signer and the store may change
them at any time, and they may fail in any way. -/
inductive Request (σ : Type) where
  | append (leaves : List NewLeaf) (deadline : Deadline)
  | refresh (deadline : Deadline)
  | close
  | read (question : Question) (deadline : Deadline)
  | useSigner (signer : Signer)
  | useStore (store : σ)

def Request.Fits {σ : Type} : Request σ → Prop
  | .append leaves _ => leaves.length < 2 ^ 63
  | _ => True

namespace Log

variable {σ : Type} [LeafStore σ]

def serve (log : Log σ) (now : Moment) : Request σ → Except LogError Answer × Log σ
  | .append leaves deadline =>
    let (result, after) := log.append now leaves deadline
    (result.map .receipt, after)
  | .refresh deadline =>
    let (result, after) := log.refresh now deadline
    (result.map .head, after)
  | .close => (.ok .done, log.close)
  | .read question deadline => (log.ask now deadline question, log)
  | .useSigner signer => (.ok .done, { log with signer := signer })
  | .useStore store => (.ok .done, { log with store := store })

def serveAll (log : Log σ) :
    List (Moment × Request σ) → List (Except LogError Answer) × Log σ
  | [] => ([], log)
  | request :: requests =>
    let (answer, next) := log.serve request.1 request.2
    let (answers, last) := next.serveAll requests
    (answer :: answers, last)

theorem refresh_tree (log : Log σ) (now : Moment) (deadline : Deadline) :
    (log.refresh now deadline).2.tree = log.tree := by
  rw [refresh]
  split
  · rfl
  · exact publishHead_tree log now _

theorem serve_tree (log : Log σ) (now : Moment) (request : Request σ) :
    (log.serve now request).2.tree = log.tree ∨
      ∃ leaves deadline, request = .append leaves deadline ∧
        (log.serve now request).2.tree = log.tree.extend (leafHashes leaves) := by
  cases request with
  | append leaves deadline =>
      rcases append_tree log now leaves deadline with same | grown
      · exact .inl same
      · exact .inr ⟨leaves, deadline, rfl, grown⟩
  | refresh deadline => exact .inl (refresh_tree log now deadline)
  | close | read question deadline | useSigner signer | useStore store => exact .inl rfl

theorem size_le_size_serve (log : Log σ) (now : Moment) (request : Request σ) :
    log.tree.size ≤ (log.serve now request).2.tree.size := by
  rcases serve_tree log now request with same | ⟨leaves, _, _, grown⟩
  · exact Nat.le_of_eq (congrArg Accumulator.size same).symm
  · rw [grown]
    exact log.tree.size_le_size_insertNodes _

theorem size_le_size_serveAll (log : Log σ) (requests : List (Moment × Request σ)) :
    log.tree.size ≤ (log.serveAll requests).2.tree.size := by
  induction requests generalizing log with
  | nil => exact Nat.le_refl _
  | cons request requests ih =>
      exact Nat.le_trans (log.size_le_size_serve request.1 request.2) (ih _)

theorem serve_intact {log : Log σ} (complete : log.tree.Complete) (fits : log.tree.size < 2 ^ 64)
    (now : Moment) {request : Request σ} (requestFits : request.Fits) :
    Intact (log.serve now request).1 ∧ (log.serve now request).2.tree.Complete := by
  constructor
  · cases request with
    | append leaves deadline =>
        have room : leaves.length < 2 ^ 63 := requestFits
        exact (intact_append complete now leaves deadline (by omega)).map _
    | refresh deadline =>
        obtain ⟨state, found⟩ := treeState_of_complete complete
        simp only [serve, refresh, found]
        exact (intact_latestHead _).map _
    | read question deadline => exact intact_ask complete fits now deadline question
    | close | useSigner signer | useStore store => exact intact_ok _
  · rcases serve_tree log now request with same | ⟨leaves, deadline, rfl, grown⟩
    · rwa [same]
    · have room : leaves.length < 2 ^ 63 := requestFits
      rw [grown]
      exact (complete.extend (by rw [length_leafHashes]; omega)).1

theorem serveAll_intact {log : Log σ} (complete : log.tree.Complete)
    {requests : List (Moment × Request σ)} (requestsFit : ∀ request ∈ requests, request.2.Fits)
    (fits : (log.serveAll requests).2.tree.size < 2 ^ 64) :
    (∀ answer ∈ (log.serveAll requests).1, Intact answer) ∧
      (log.serveAll requests).2.tree.Complete := by
  induction requests generalizing log with
  | nil => exact ⟨by simp [serveAll], complete⟩
  | cons request requests ih =>
      simp only [List.mem_cons, forall_eq_or_imp] at requestsFit
      have start := Nat.lt_of_le_of_lt (log.size_le_size_serveAll (request :: requests)) fits
      obtain ⟨intact, completeNext⟩ := serve_intact complete start request.1 requestsFit.1
      obtain ⟨intactRest, completeLast⟩ := ih completeNext requestsFit.2 fits
      refine ⟨?_, completeLast⟩
      intro answer member
      rcases List.mem_cons.mp member with rfl | later
      · exact intact
      · exact intactRest answer later

/-- A log can be opened over a store exactly if what the store shows is self-consistent, whatever
hashes it holds and whatever becomes of the head that may have to be signed. Such a log never finds
its tree corrupt, nor misses a node, as long as words of 64 bits count its leaves. Over any other
store the fault is found from the content alone, and the store is left as it was found. -/
theorem openStore_iff_selfConsistent (size : UInt64) (nodes : List (NodeAddress × Digest))
    (stored : Option SignedTreeHead) :
    (SelfConsistent size nodes stored →
      ∀ {σ : Type} [LeafStore σ] {store : σ}, Shows store size nodes stored →
        ∀ signer now, ∃ log : Log σ, openStore store signer now = .ok log ∧
          log.tree.size = size.toNat ∧
          ∀ requests : List (Moment × Request σ), (∀ request ∈ requests, request.2.Fits) →
            (log.serveAll requests).2.tree.size < 2 ^ 64 →
            (∀ answer ∈ (log.serveAll requests).1, Intact answer) ∧
              (log.serveAll requests).2.tree.Ready) ∧
    (¬SelfConsistent size nodes stored →
      ∃ fault, ∀ {σ : Type} [LeafStore σ] {store : σ}, Shows store size nodes stored →
        ∀ signer now, openStore store signer now = .error (.corrupt fault) ∧
          (openInPlace signer now).run.run store = (.error (.corrupt fault), store)) := by
  constructor
  · intro consistent σ _ store shows signer now
    obtain ⟨tree, state, examined, complete, covers⟩ := examine_ok consistent
    rw [openStore_eq_examine shows, examined]
    refine ⟨_, rfl, ?_⟩
    have opened : ∀ log : Log σ, log.tree = tree → log.tree.size = size.toNat ∧
        ∀ requests : List (Moment × Request σ), (∀ request ∈ requests, request.2.Fits) →
          (log.serveAll requests).2.tree.size < 2 ^ 64 →
          (∀ answer ∈ (log.serveAll requests).1, Intact answer) ∧
            (log.serveAll requests).2.tree.Ready := by
      rintro log rfl
      refine ⟨covers, ?_⟩
      intro requests requestsFit fits
      obtain ⟨intact, completeLast⟩ := serveAll_intact complete requestsFit fits
      exact ⟨intact, completeLast.ready⟩
    apply opened
    dsimp only
    split
    · exact publishHead_tree _ now state
    · rfl
  · intro inconsistent
    obtain ⟨fault, refused⟩ := examine_error inconsistent
    refine ⟨fault, ?_⟩
    intro σ _ store shows signer now
    have failed : openStore store signer now = .error (.corrupt fault) := by
      rw [openStore_eq_examine shows, refused]
      rfl
    have left := openInPlace_runsTo store signer now
    rw [failed] at left
    exact ⟨failed, left⟩

theorem openStore_iff_selfConsistent_foreignParent :
    (∃ log, openStore
        (⟨#[⟨0, Merkle.emptyRoot, [], none⟩, ⟨1, Merkle.emptyRoot, [], none⟩], ∅,
          [(⟨1, 0⟩, Merkle.emptyRoot), (⟨0, 1⟩, Merkle.emptyRoot), (⟨0, 0⟩, Merkle.emptyRoot)],
          some ⟨2, Merkle.emptyRoot, 7, []⟩⟩ : MemoryStore)
        (.ed25519 ⟨List.replicate 32 42⟩) ⟨0, 1000⟩ = .ok log ∧
      ∀ answer ∈ (log.serveAll [(⟨1, 1001⟩, .read (.consistencyProof 1 2) .never),
        (⟨2, 1002⟩, .close)]).1, Intact answer) ∧
    ∃ fault, openStore
        (⟨#[], ∅, [(⟨1, 0⟩, Merkle.emptyRoot), (⟨0, 1⟩, Merkle.emptyRoot),
          (⟨0, 0⟩, Merkle.emptyRoot)], none⟩ : MemoryStore)
        (.ed25519 ⟨List.replicate 32 42⟩) ⟨0, 1000⟩ = .error (.corrupt fault) := by
  have covers : Merkle.Covers [(⟨1, 0⟩, Merkle.emptyRoot), (⟨0, 1⟩, Merkle.emptyRoot),
      (⟨0, 0⟩, Merkle.emptyRoot)] 2 := by
    refine ⟨by simp, ?_⟩
    rintro ⟨level, index⟩
    simp only [List.map_cons, List.map_nil, List.mem_cons, List.not_mem_nil, or_false,
      NodeAddress.mk.injEq, ← UInt8.toNat_inj, ← UInt64.toNat_inj, UInt8.toNat_zero,
      UInt8.toNat_one, UInt64.toNat_zero, UInt64.toNat_one]
    match level.toNat with
    | 0 => omega
    | 1 => omega
    | above + 2 => simp [Nat.shiftRight_succ_inside]
  have consistent : SelfConsistent 2 [(⟨1, 0⟩, Merkle.emptyRoot), (⟨0, 1⟩, Merkle.emptyRoot),
      (⟨0, 0⟩, Merkle.emptyRoot)] (some ⟨2, Merkle.emptyRoot, 7, []⟩) := by
    refine ⟨covers, ?_⟩
    rintro _ ⟨⟩
    exact ⟨by decide, Merkle.bagPeaks_two_pow 0 1⟩
  have inconsistent : ¬SelfConsistent 0 [(⟨1, 0⟩, Merkle.emptyRoot), (⟨0, 1⟩, Merkle.emptyRoot),
      (⟨0, 0⟩, Merkle.emptyRoot)] none := by
    intro consistent
    have unneeded := (consistent.covers.addresses ⟨1, 0⟩).mp (by simp)
    simp at unneeded
  have shows : Shows (⟨#[⟨0, Merkle.emptyRoot, [], none⟩, ⟨1, Merkle.emptyRoot, [], none⟩], ∅,
      [(⟨1, 0⟩, Merkle.emptyRoot), (⟨0, 1⟩, Merkle.emptyRoot), (⟨0, 0⟩, Merkle.emptyRoot)],
      some ⟨2, Merkle.emptyRoot, 7, []⟩⟩ : MemoryStore) 2 _ _ := ⟨rfl, rfl, rfl⟩
  constructor
  · obtain ⟨log, opened, covered, safe⟩ :=
      (openStore_iff_selfConsistent _ _ _).1 consistent shows _ _
    refine ⟨log, opened, (safe _ (by simp [Request.Fits]) ?_).1⟩
    show log.tree.size < 2 ^ 64
    rw [covered]
    decide
  · obtain ⟨fault, refused⟩ := (openStore_iff_selfConsistent _ _ _).2 inconsistent
    exact ⟨fault, (refused ⟨rfl, rfl, rfl⟩ _ _).1⟩

end Log

end VerifiableLog
