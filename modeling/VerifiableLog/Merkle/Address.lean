import VerifiableLog.Bytes

/-!
Addresses of complete subtrees. The node at `(level, index)` covers the leaves from
`index * 2 ^ level` up to, and not including, `(index + 1) * 2 ^ level`.
-/

namespace VerifiableLog.Merkle

structure NodeAddress where
  level : UInt8
  index : UInt64
  deriving DecidableEq, Repr

namespace NodeAddress

def le (left right : NodeAddress) : Bool :=
  left.level < right.level || (left.level == right.level && left.index ≤ right.index)

/-- Nine bytes, the level and then the index with its most significant byte first, so that the
order of the keys is the order of the addresses. -/
def toKey (address : NodeAddress) : Bytes := address.level :: Bytes.ofWord address.index

def ofKey? : Bytes → Option NodeAddress
  | [] => none
  | level :: rest => (Bytes.toWord? rest).map (NodeAddress.mk level)

end NodeAddress

end VerifiableLog.Merkle
