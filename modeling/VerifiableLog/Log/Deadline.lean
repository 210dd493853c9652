/-!
Time as a log sees it: one reading of the clocks for each call, and deadlines after which a call
gives up.
-/

namespace VerifiableLog

/-- A reading of two clocks, in milliseconds: one that only goes forward, and the time since 1970,
which may be set to anything. -/
structure Moment where
  elapsed : Nat
  sinceEpoch : UInt64
  deriving DecidableEq

structure Deadline where
  expiry : Option Nat
  deriving DecidableEq

namespace Deadline

def never : Deadline := ⟨none⟩

def after (now : Moment) (milliseconds : Nat) : Deadline := ⟨some (now.elapsed + milliseconds)⟩

def isExpired (deadline : Deadline) (now : Moment) : Bool :=
  deadline.expiry.any fun expiry => expiry ≤ now.elapsed

theorem isExpired_after_eq_false_iff {now : Moment} {milliseconds : Nat} :
    (after now milliseconds).isExpired now = false ↔ 0 < milliseconds := by
  simp only [after, isExpired, Option.any_some, decide_eq_false_iff_not]
  omega

end Deadline

end VerifiableLog
