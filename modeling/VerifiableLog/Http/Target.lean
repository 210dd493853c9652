import VerifiableLog.Hex

/-!
Request targets: the path of a resource and the query behind it. An escape is a percent sign with
two hexadecimal digits; a percent sign without them stands for itself.
-/

namespace VerifiableLog.Http

def splitFirst (mark : UInt8) : Bytes → Bytes × Option Bytes
  | [] => ([], none)
  | byte :: rest =>
    if byte = mark then ([], some rest)
    else
      let (before, after) := splitFirst mark rest
      (byte :: before, after)

/-- The parts between all occurrences of `mark`, one more than there are occurrences. -/
def splitAll (mark : UInt8) : Bytes → List Bytes
  | [] => [[]]
  | byte :: rest =>
    if byte = mark then [] :: splitAll mark rest
    else
      match splitAll mark rest with
      | [] => [[byte]]
      | part :: parts => (byte :: part) :: parts

def percentSign : UInt8 := 0x25
def plusSign : UInt8 := 0x2b
def slash : UInt8 := 0x2f

def escapedByte? : Bytes → Option UInt8
  | high :: low :: _ =>
    match Hex.digitValue? high, Hex.digitValue? low with
    | some highValue, some lowValue => some (UInt8.ofNat (highValue * 16 + lowValue))
    | _, _ => none
  | _ => none

def decodePercent : Bytes → Bytes
  | [] => []
  | byte :: rest =>
    match if byte = percentSign then escapedByte? rest else none with
    | some escaped => escaped :: decodePercent (rest.drop 2)
    | none => byte :: decodePercent rest
termination_by text => text.length
decreasing_by
  · simp only [List.length_drop, List.length_cons]
    omega
  · simp

structure Target where
  path : Bytes
  query : Bytes
  deriving DecidableEq, Repr

namespace Target

def dropAuthority (target : Bytes) : Bytes :=
  match target with
  | first :: _ =>
    if first = slash then target
    else
      match (splitAll slash target).drop 3 with
      | [] => []
      | segments => segments.flatMap fun segment => slash :: segment
  | [] => []

/-- A fragment behind the target is of no concern to a server. -/
def ofBytes (target : Bytes) : Target :=
  let (resource, _) := splitFirst 0x23 target
  let (path, query) := splitFirst 0x3f resource
  ⟨dropAuthority path, query.getD []⟩

end Target

end VerifiableLog.Http
