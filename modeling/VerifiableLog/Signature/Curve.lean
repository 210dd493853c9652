import VerifiableLog.Bytes

/-!
The twisted Edwards curve of Ed25519: `-x² + y² = 1 + d x² y²` over the integers modulo
`2 ^ 255 - 19`. Points are held in extended coordinates, `x = X / Z`, `y = Y / Z` and
`x y = T / Z`, in which one formula adds every pair of points.
-/

namespace VerifiableLog.Signature

def fieldPrime : Nat := (1 <<< 255) - 19

def groupOrder : Nat := (1 <<< 252) + 27742317777372353535851937790883648493

namespace Coordinate

def add (left right : Nat) : Nat := (left + right) % fieldPrime
def sub (left right : Nat) : Nat := (left + fieldPrime - right) % fieldPrime
def mul (left right : Nat) : Nat := left * right % fieldPrime
def negate (value : Nat) : Nat := (fieldPrime - value) % fieldPrime

def pow (base exponent : Nat) : Nat :=
  if _ : exponent = 0 then 1
  else
    let root := pow base (exponent / 2)
    let square := mul root root
    if exponent % 2 = 1 then mul square base else square
termination_by exponent
decreasing_by omega

def invert (value : Nat) : Nat := pow value (fieldPrime - 2)

def imaginaryUnit : Nat := pow 2 ((fieldPrime - 1) / 4)

/-- The even square root of `numerator / denominator`, if there is a root. -/
def ratioSqrt? (numerator denominator : Nat) : Option Nat :=
  let cube := mul (mul denominator denominator) denominator
  let seventh := mul (mul cube cube) denominator
  let candidate := mul (mul numerator cube) (pow (mul numerator seventh) ((fieldPrime - 5) / 8))
  let check := mul denominator (mul candidate candidate)
  let root? :=
    if check = numerator then some candidate
    else if check = negate numerator then some (mul candidate imaginaryUnit)
    else none
  root?.map fun root => if root % 2 = 1 then negate root else root

end Coordinate

def curveConstant : Nat := Coordinate.mul (Coordinate.negate 121665) (Coordinate.invert 121666)

structure Point where
  x : Nat
  y : Nat
  z : Nat
  t : Nat

namespace Point

open Coordinate

def neutral : Point := ⟨0, 1, 1, 0⟩

def base : Point where
  x := 15112221349535400772501151409588531511454012693041857206046113283949847762202
  y := 46316835694926478169428394003475163141307993866256225615783033603165251855960
  z := 1
  t := 46827403850823179245072216630277197565144205554125654976674165829533817101731

def twiceCurveConstant : Nat := Coordinate.add curveConstant curveConstant

def plus (p q : Point) : Point :=
  let a := mul (sub p.y p.x) (sub q.y q.x)
  let b := mul (add p.y p.x) (add q.y q.x)
  let c := mul (mul p.t twiceCurveConstant) q.t
  let d := mul (add p.z p.z) q.z
  let e := sub b a
  let f := sub d c
  let g := add d c
  let h := add b a
  ⟨mul e f, mul g h, mul f g, mul e h⟩

def minus (p : Point) : Point := ⟨negate p.x, p.y, p.z, negate p.t⟩

def times (scalar : Nat) (p : Point) : Point :=
  if _ : scalar = 0 then neutral
  else
    let half := times (scalar / 2) p
    let doubled := half.plus half
    if scalar % 2 = 1 then doubled.plus p else doubled
termination_by scalar
decreasing_by omega

def hasSmallOrder (p : Point) : Bool :=
  let q := times 8 p
  q.x == 0 && q.y == q.z

def encode (p : Point) : Bytes :=
  let inverse := invert p.z
  let x := mul p.x inverse
  let y := mul p.y inverse
  Bytes.littleEndian 32 (y + (x % 2) <<< 255)

/-- The point that thirty-two bytes stand for, if they stand for one. The value of `y` is taken
modulo the field prime. -/
def decode? (bytes : Bytes) : Option Point :=
  let value := Bytes.ofLittleEndian bytes
  let y := value % (1 <<< 255) % fieldPrime
  let isOdd := (value >>> 255) % 2 = 1
  let square := mul y y
  (ratioSqrt? (sub square 1) (add (mul curveConstant square) 1)).map fun root =>
    let x := if isOdd then negate root else root
    ⟨x, y, 1, mul x y⟩

end Point

end VerifiableLog.Signature
