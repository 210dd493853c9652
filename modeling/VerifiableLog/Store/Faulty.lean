import VerifiableLog.Store.Basic

/-!
A store that fails on demand. The next few commits can be made to fail, and the writing of tree
heads for as long as is wished; the store underneath does not notice.
-/

namespace VerifiableLog

structure FaultyStore (σ : Type) where
  inner : σ
  failingCommits : Nat
  failsTreeHeads : Bool

namespace FaultyStore

variable {σ : Type}

def wrap (store : σ) : FaultyStore σ := ⟨store, 0, false⟩

instance [LeafStore σ] : LeafStore (FaultyStore σ) where
  commit store batch :=
    if store.failingCommits > 0 then
      (.error (.injected .commit), { store with failingCommits := store.failingCommits - 1 })
    else
      let (result, inner) := LeafStore.commit store.inner batch
      (result, { store with inner := inner })
  size store := LeafStore.size store.inner
  leaf? store := LeafStore.leaf? store.inner
  leaves store := LeafStore.leaves store.inner
  sequenceOf? store := LeafStore.sequenceOf? store.inner
  nodes store := LeafStore.nodes store.inner
  putTreeHead store head :=
    if store.failsTreeHeads then .error (.injected .treeHead)
    else do
      let inner ← LeafStore.putTreeHead store.inner head
      return { store with inner := inner }
  treeHead? store := LeafStore.treeHead? store.inner

end FaultyStore

end VerifiableLog
