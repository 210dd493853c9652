import VerifiableLog.Proofs.Log.Opening

/-!
Whose signature a served head has. A log signs heads with its own key, and takes over the head that
it finds in the store when that is a head of the whole tree. Of the head that is taken over, size
and root are checked, date and signature are not: who reads it checks the signature.
-/

namespace VerifiableLog

open Signature (SecretKey PublicKey)

/-- Whenever the signer signs, it does so with this key. -/
structure Signer.SignsWith (signer : Signer) (key : SecretKey) : Prop where
  publicKey : signer.publicKey = key.publicKey
  signature : ∀ head signature, signer.sign head = .ok signature →
    signature = key.sign head.signedMessage

theorem Signer.ed25519_signsWith (key : SecretKey) : (Signer.ed25519 key).SignsWith key where
  publicKey := rfl
  signature := by
    rintro head _ ⟨⟩
    rfl

theorem Signer.SignsWith.withoutKey {signer : Signer} {key : SecretKey}
    (signs : signer.SignsWith key) : signer.withoutKey.SignsWith key where
  publicKey := signs.publicKey
  signature := by
    intro head signature signed
    cases signed

namespace SignedTreeHead

def SignedWith (head : SignedTreeHead) (key : SecretKey) : Prop :=
  head.signature = key.sign head.head.signedMessage

/-- The bytes are a public key, and whoever checks the head with it finds the signature in order. -/
def VerifiesUnder (head : SignedTreeHead) (publicKey : Bytes) : Prop :=
  ∃ key ∈ PublicKey.ofBytes? publicKey, head.verify key = .ok ()

instance (head : SignedTreeHead) (publicKey : Bytes) : Decidable (head.VerifiesUnder publicKey) :=
  inferInstanceAs (Decidable (∃ key ∈ PublicKey.ofBytes? publicKey, head.verify key = .ok ()))

theorem SignedWith.eq_withSignature {head : SignedTreeHead} {key : SecretKey}
    (signed : head.SignedWith key) :
    head = head.head.withSignature (key.sign head.head.signedMessage) := by
  rw [← signed]
  rfl

end SignedTreeHead

/-! ### Requests that set out to sign a head -/

/-- Leaves were appended, or the head of the tree was signed anew, or failed to be signed. -/
def Request.Publishes {σ : Type} : Request σ → Except LogError Answer → Prop
  | .append _ _, .ok _ => True
  | .refresh _, .ok _ => True
  | .refresh _, .error (.signing _) => True
  | _, _ => False

def Request.KeepsKey {σ : Type} (key : SecretKey) : Request σ → Prop
  | .useSigner signer => signer.SignsWith key
  | _ => True

namespace Log

def ServesOwn {σ : Type} (log : Log σ) (key : SecretKey) : Prop :=
  ∀ head, log.latestHead = .ok head → head.SignedWith key

variable {σ : Type} [LeafStore σ]

theorem publishHead_signer (log : Log σ) (now : Moment) (state : TreeState) :
    (log.publishHead now state).signer = log.signer := by
  rw [publishHead]
  cases log.signer.sign _ <;> rfl

theorem publishHead_head (log : Log σ) (now : Moment) (state : TreeState) :
    (∃ cause, (log.publishHead now state).head = ⟨log.head.latest, some cause⟩) ∨
      ∃ signature, log.signer.sign (log.nextHead now state) = .ok signature ∧
        (log.publishHead now state).head =
          ⟨some ((log.nextHead now state).withSignature signature), none⟩ := by
  rcases publishHead_cases log now state with
    ⟨cause, unsigned⟩ | ⟨signature, signed, ⟨store, _, kept⟩ | ⟨cause, _, lost⟩⟩
  · exact .inl ⟨cause, by rw [unsigned]⟩
  · exact .inr ⟨signature, signed, by rw [kept]⟩
  · exact .inr ⟨signature, signed, by rw [lost]⟩

theorem publishHead_servesOwn {log : Log σ} {key : SecretKey} (signs : log.signer.SignsWith key)
    (now : Moment) (state : TreeState) : (log.publishHead now state).ServesOwn key := by
  intro head served
  obtain ⟨unfailed, latest⟩ := latestHead_ok_iff.mp served
  rcases publishHead_head log now state with ⟨cause, failed⟩ | ⟨signature, signed, published⟩
  · rw [failed] at unfailed
    cases unfailed
  · rw [published] at latest
    obtain rfl := Option.some_inj.mp latest
    exact signs.signature _ _ signed

theorem append_publishes (log : Log σ) (now : Moment) (leaves : List NewLeaf)
    (deadline : Deadline) :
    (leaves ≠ [] ∧ ∃ receipt, ∃ grown : Log σ, ∃ state, grown.signer = log.signer ∧
        log.append now leaves deadline = (.ok receipt, grown.publishHead now state)) ∨
      ∃ cause after, after.head = log.head ∧ after.signer = log.signer ∧
        log.append now leaves deadline = (.error cause, after) := by
  rcases append_split log now leaves deadline with ⟨cause, _, turnedAway⟩ | ⟨nonempty, committed⟩
  · exact .inr ⟨cause, log, rfl, rfl, turnedAway⟩
  rw [committed]
  rcases taken : LeafStore.commit log.store (log.batchFor leaves) with ⟨cause | _, store⟩
  · exact .inr ⟨.storage cause, { log with store := store }, rfl, rfl, by simp only [commit, taken]⟩
  · simp only [commit, taken, Merkle.Accumulator.apply_planAppend]
    cases grown : treeState (log.tree.extend (leafHashes leaves)) with
    | error cause =>
        simp only [grown, fromTree, Except.mapError, bind, Except.bind]
        exact .inr ⟨cause, { log with store := store }, rfl, rfl, rfl⟩
    | ok state =>
        simp only [grown, fromTree, Except.mapError, bind, Except.bind, pure, Except.pure]
        exact .inl ⟨nonempty, _,
          { log with store := store, tree := log.tree.extend (leafHashes leaves) }, state, rfl, rfl⟩

theorem refresh_publishes (log : Log σ) (now : Moment) (deadline : Deadline) :
    (∃ state, log.refresh now deadline =
        ((log.publishHead now state).latestHead, log.publishHead now state)) ∨
      ∃ fault, log.refresh now deadline = (.error (.corrupt fault), log) := by
  cases found : treeState log.tree with
  | ok state => exact .inl ⟨state, by simp only [refresh, found]⟩
  | error cause =>
      right
      cases root : log.tree.currentRoot with
      | ok root =>
          simp [treeState, root, fromTree, Except.mapError, bind, Except.bind, pure,
            Except.pure] at found
      | error missing =>
          simp only [treeState, root, fromTree, Except.mapError, bind, Except.bind,
            Except.error.injEq] at found
          refine ⟨.tree missing, ?_⟩
          simp only [refresh, treeState, root, fromTree, Except.mapError, bind, Except.bind]

theorem serve_servesOwn {log : Log σ} {key : SecretKey} (signs : log.signer.SignsWith key)
    (now : Moment) {request : Request σ} (keeps : request.KeepsKey key) :
    (log.serve now request).2.signer.SignsWith key ∧
      ((log.serve now request).2.ServesOwn key ∨
        ¬request.Publishes (log.serve now request).1 ∧
          (log.serve now request).2.head = log.head) := by
  cases request with
  | append leaves deadline =>
      rcases append_publishes log now leaves deadline with
        ⟨_, receipt, grown, state, same, appended⟩ | ⟨cause, after, head, same, refused⟩
      · have signsGrown : grown.signer.SignsWith key := by rwa [same]
        simp only [serve, appended]
        refine ⟨?_, .inl (publishHead_servesOwn signsGrown now state)⟩
        rwa [publishHead_signer]
      · simp only [serve, refused]
        refine ⟨?_, .inr ⟨by simp [Except.map, Request.Publishes], head⟩⟩
        rwa [same]
  | refresh deadline =>
      rcases refresh_publishes log now deadline with ⟨state, published⟩ | ⟨fault, corrupt⟩
      · simp only [serve, published]
        refine ⟨?_, .inl (publishHead_servesOwn signs now state)⟩
        rwa [publishHead_signer]
      · simp only [serve, corrupt]
        exact ⟨signs, .inr ⟨by simp [Except.map, Request.Publishes], trivial⟩⟩
  | close | read question deadline | useStore store =>
      exact ⟨signs, .inr ⟨by simp [Request.Publishes], rfl⟩⟩
  | useSigner signer => exact ⟨keeps, .inr ⟨by simp [Request.Publishes], rfl⟩⟩

theorem serveAll_servesOwn {log : Log σ} {key : SecretKey} (signs : log.signer.SignsWith key)
    {requests : List (Moment × Request σ)}
    (keeps : ∀ request ∈ requests, request.2.KeepsKey key) :
    (log.serveAll requests).2.signer.SignsWith key ∧
      ((log.serveAll requests).2.ServesOwn key ∨
        (∀ served ∈ requests.zip (log.serveAll requests).1, ¬served.1.2.Publishes served.2) ∧
          (log.serveAll requests).2.head = log.head) := by
  induction requests generalizing log with
  | nil => exact ⟨signs, .inr ⟨by simp, rfl⟩⟩
  | cons request requests ih =>
      simp only [List.mem_cons, forall_eq_or_imp] at keeps
      obtain ⟨signsNext, next⟩ := serve_servesOwn signs request.1 keeps.1
      obtain ⟨signsLast, rest⟩ := ih signsNext keeps.2
      refine ⟨signsLast, ?_⟩
      rcases rest with own | ⟨quietRest, sameRest⟩
      · exact .inl own
      rcases next with own | ⟨quiet, same⟩
      · left
        intro head served
        apply own
        rwa [latestHead, ← sameRest]
      · right
        refine ⟨?_, sameRest.trans same⟩
        intro served member
        rcases List.mem_cons.mp member with rfl | later
        · exact quiet
        · exact quietRest served later

/-! ### Opening -/

theorem openStore_servesOwn {store : σ} {signer : Signer} {key : SecretKey}
    (signs : signer.SignsWith key) {now : Moment} {log : Log σ}
    (opened : openStore store signer now = .ok log) :
    log.signer = signer ∧ (log.ServesOwn key ∨
      ∃ nodes head, log.head = ⟨some head, none⟩ ∧ Shows store head.treeSize nodes (some head) ∧
        Merkle.rootFrom? nodes head.treeSize.toNat = some head.rootHash) := by
  obtain ⟨size, nodes, stored, tree, shows, consistent, signed | found⟩ := openStore_cases opened
  · obtain ⟨_, state, rfl⟩ := signed
    exact ⟨publishHead_signer _ now state, .inl (publishHead_servesOwn signs now state)⟩
  · obtain ⟨head, rfl, rfl, rfl⟩ := found
    exact ⟨rfl, .inr ⟨nodes, head, rfl, shows, (consistent.head head rfl).2⟩⟩

/-- Every head that a log serves verifies under the key of the log, if the log's own signature of it
would; or it is the head that was in the store when the log was opened. In that case no other has
been set out to be signed since, and size and root are those of the stored nodes. -/
theorem servedHead_verifies_or_found {store : σ} {signer : Signer} {key : SecretKey}
    (signs : signer.SignsWith key) {now : Moment} {log : Log σ}
    (opened : openStore store signer now = .ok log) {requests : List (Moment × Request σ)}
    (keeps : ∀ request ∈ requests, request.2.KeepsKey key) {asked : Moment} {deadline : Deadline}
    {head : SignedTreeHead}
    (served : (log.serveAll requests).2.signedTreeHead asked deadline = .ok head)
    (own : (head.head.withSignature (key.sign head.head.signedMessage)).VerifiesUnder
      key.publicKey) :
    head.VerifiesUnder (log.serveAll requests).2.signer.publicKey ∨
      (∀ answered ∈ requests.zip (log.serveAll requests).1,
        ¬answered.1.2.Publishes answered.2) ∧
      ∃ nodes, Shows store head.treeSize nodes (some head) ∧
        Merkle.rootFrom? nodes head.treeSize.toNat = some head.rootHash := by
  obtain ⟨same, first⟩ := openStore_servesOwn signs opened
  have signsOpened : log.signer.SignsWith key := by rwa [same]
  obtain ⟨signsNow, since⟩ := serveAll_servesOwn signsOpened keeps
  have latest := latestHead_of_signedTreeHead served
  have verifies : head.SignedWith key →
      head.VerifiesUnder (log.serveAll requests).2.signer.publicKey := by
    intro signed
    rw [signsNow.publicKey, signed.eq_withSignature]
    exact own
  rcases since with ownNow | ⟨quiet, unchanged⟩
  · exact .inl (verifies (ownNow head latest))
  rw [latestHead, unchanged] at latest
  rcases first with ownFirst | ⟨nodes, found, opening, shows, root⟩
  · exact .inl (verifies (ownFirst head latest))
  · rw [opening] at latest
    obtain rfl := Except.ok.inj latest
    exact .inr ⟨quiet, nodes, shows, root⟩

/-! ### Heads of the empty tree -/

theorem keeps_headOnly {stored : Option SignedTreeHead}
    (describes : ∀ head ∈ stored, head.Describes []) :
    Keeps (⟨#[], ∅, [], stored⟩ : MemoryStore) [] stored where
  fits := by simp
  storable := by simp
  content := ⟨[], by simp [leafHashes, Merkle.Accumulator.ofLeaves_nil, Merkle.Accumulator.nodes,
    Merkle.Accumulator.empty], { MemoryStore.empty_represents with treeHead := rfl }⟩
  head := describes

theorem servedHead_verifies_or_found_outage :
    let key : SecretKey := ⟨List.replicate 32 42⟩
    let empty : TreeHead := ⟨0, 1700000000000, Merkle.emptyRoot⟩
    let head := empty.withSignature (key.sign empty.signedMessage)
    let requests : List (Moment × Request MemoryStore) :=
      [(⟨1, 1700000000001⟩, .useSigner (Signer.ed25519 key).withoutKey), (⟨2, 1700000000002⟩, .close)]
    ∃ log, openStore ⟨#[], ∅, [], none⟩ (.ed25519 key) ⟨0, 1700000000000⟩ = .ok log ∧
      (log.serveAll requests).2.signedTreeHead ⟨3, 1700000000003⟩ .never = .ok head ∧
      head.VerifiesUnder (log.serveAll requests).2.signer.publicKey := by
  intro key empty head requests
  have own : (head.head.withSignature (key.sign head.head.signedMessage)).VerifiesUnder
      key.publicKey := by
    decide +kernel
  have keeps : ∀ request ∈ requests, request.2.KeepsKey key := by
    simp [requests, Request.KeepsKey, (Signer.ed25519_signsWith key).withoutKey]
  have opens : ∃ log, openStore (⟨#[], ∅, [], none⟩ : MemoryStore) (.ed25519 key)
      ⟨0, 1700000000000⟩ = .ok log ∧
      (log.serveAll requests).2.signedTreeHead ⟨3, 1700000000003⟩ .never = .ok head := by
    have nothing : Keeps (⟨#[], ∅, [], none⟩ : MemoryStore) [] none := keeps_headOnly (by simp)
    have state : stateOf [] = ⟨0, Merkle.emptyRoot⟩ :=
      congrArg (TreeState.mk 0) Merkle.rootOf_nil
    have opened := openStore_eq nothing (.ed25519 key) ⟨0, 1700000000000⟩
    simp only [Option.all_none, if_true, state] at opened
    exact ⟨_, opened, rfl⟩
  -- from here on the head is any that is served, and not evaluated again
  clear_value head requests
  obtain ⟨log, opened, served⟩ := opens
  refine ⟨log, opened, served, ?_⟩
  rcases servedHead_verifies_or_found (Signer.ed25519_signsWith key) opened keeps served own with
    verifies | ⟨_, nodes, shows, _⟩
  · exact verifies
  · cases shows.treeHead

/-- A head of the empty tree is found with nothing for its signature, and served. -/
theorem servedHead_unsigned :
    let found : SignedTreeHead := ⟨0, Merkle.emptyRoot, 1700000000000, []⟩
    ∃ log, openStore (⟨#[], ∅, [], some found⟩ : MemoryStore) (.ed25519 ⟨List.replicate 32 42⟩)
        ⟨0, 1700000000001⟩ = .ok log ∧
      log.signedTreeHead ⟨1, 1700000000002⟩ .never = .ok found ∧
      ¬found.VerifiesUnder log.signer.publicKey := by
  intro found
  have describes : ∀ head ∈ some found, head.Describes [] := by
    rintro _ ⟨⟩
    exact ⟨Nat.le_refl _, Merkle.rootOf_nil.symm, by simp [found]⟩
  refine ⟨_, openStore_of_covered (keeps_headOnly describes) rfl _ _, rfl, ?_⟩
  rintro ⟨publicKey, _, verified⟩
  cases verified

end Log

end VerifiableLog
