import VerifiableLog.Store.Disk

/-!
A disk store as one byte string: its four tables, each a list of keys with their values.
-/

namespace VerifiableLog

open Packed (Codec)

def Table.packed : Codec Table :=
  (Codec.list (Codec.blob.pair Codec.blob)).mapped Table.mk Table.entries

def DiskStore.packed : Codec DiskStore :=
  (Table.packed.pair (Table.packed.pair (Table.packed.pair Table.packed))).mapped
    (fun (leaves, leafIndex, nodes, info) => ⟨leaves, leafIndex, nodes, info⟩)
    (fun store => (store.leaves, store.leafIndex, store.nodes, store.info))

end VerifiableLog
