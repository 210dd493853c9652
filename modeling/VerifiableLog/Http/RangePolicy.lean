/-!
How far a range request reaches: a default where the client names no end, and a cap in any case.
-/

namespace VerifiableLog.Http

structure RangePolicy where
  defaultSpan : UInt64
  maxSpan : UInt64
  deriving DecidableEq, Repr

namespace RangePolicy

def standard : RangePolicy := ⟨99, 1000⟩

def addCapped (left right : UInt64) : UInt64 :=
  UInt64.ofNat (min (left.toNat + right.toNat) 0xffffffffffffffff)

def resolve (policy : RangePolicy) (start : UInt64) (stop : Option UInt64) : UInt64 :=
  min (stop.getD (addCapped start policy.defaultSpan)) (addCapped start policy.maxSpan)

end RangePolicy

end VerifiableLog.Http
