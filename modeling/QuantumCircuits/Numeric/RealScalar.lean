import QuantumCircuits.Numeric.Number

/-! # Real scalars

What circuits need of real numbers: integers or doubles when a program runs, exact reals when a law is stated. -/
namespace QuantumCircuits
open Written Number
class RealScalar (R : Type) extends Zero R, One R, Add R, Sub R, Mul R, Div R, Neg R, BEq R, LT R, LE R where
  decLt : DecidableLT R
  decLe : DecidableLE R
  ofInt : Int → R
  ratio : Int → Nat → R
  floor : R → Int
  /-- The nearest integer, halves to even. -/
  round : R → Int
  /-- The nearest number with the given number of digits after the point, halves to even. -/
  roundTo : Nat → R → R
  /-- The remainder with the sign of the divisor. -/
  mod : R → R → R
  pi : R
  sqrt : R → R
  sin : R → R
  cos : R → R
  atan2 : R → R → R
  pow : R → R → R
  exp : R → R
  exactInt? : R → Option Int
  /-- The same number, no longer kept as an exact integer. -/
  inexact : R → R
namespace RealScalar
variable [RealScalar R]
instance (a b : R) : Decidable (a < b) := RealScalar.decLt a b
instance (a b : R) : Decidable (a ≤ b) := RealScalar.decLe a b
def abs (x : R) : R := if x < 0 then -x else x
def half : R := ratio 1 2
def two : R := ofInt 2
def ofNat (n : Nat) : R := ofInt n
def isWhole (x : R) : Bool := x == ofInt (floor x)
def sum (xs : List R) : R := xs.foldl (· + ·) 0
def minOf (a b : R) : R := if b < a then b else a
def maxOf (a b : R) : R := if a < b then b else a
def near (atol a b : R) : Bool := abs (a-b) ≤ atol
end RealScalar
inductive Precision where
  | single | double
  deriving DecidableEq

class NumberText (R : Type) where
  text : R → String
  /-- At most the given number of significant digits. -/
  general : Nat → R → String
  /-- The same without `.0` at whole numbers. -/
  significant : Nat → R → String
  /-- At most the given number of digits after the point, without trailing zeros. -/
  rounded : Nat → R → String
  /-- The form of a part of a complex number, without `.0`. -/
  bare : R → String
  inPrecision : Precision → R → String
  complexIn : Precision → R → R → String

instance : NumberText Number where
  text := text
  general k x := general k true x.toFloat
  significant k x := general k false x.toFloat
  rounded k x := rounded k x.toFloat
  bare x := bare x.toFloat
  inPrecision p x := match p with
    | .single => singleText true x.toFloat
    | .double => plain x.toFloat
  complexIn p x y := match p with
    | .single => complexBy (singleText false) x.toFloat y.toFloat
    | .double => complexText x.toFloat y.toFloat

instance : RealScalar Number where
  decLt := fun a b => inferInstanceAs (Decidable (ltb a b = true))
  decLe := fun a b => inferInstanceAs (Decidable (leb a b = true))
  ofInt := .int
  ratio n d := .float (Binary.ofRatio n d)
  floor := floor
  round := round
  roundTo k x := match x with
    | .int n => .int n
    | .float y => .float (roundPlaces k y)
  mod := mod
  pi := .float (Float.ofBits 0x400921FB54442D18)
  sqrt x := .float x.toFloat.sqrt
  sin x := .float x.toFloat.sin
  cos x := .float x.toFloat.cos
  atan2 y x := .float (Float.atan2 y.toFloat x.toFloat)
  pow := pow
  exp x := .float x.toFloat.exp
  exactInt? x := match x with
    | .int n => some n
    | .float _ => none
  inexact x := .float x.toFloat

/-! ## Complex numbers over a real scalar -/
open RealScalar
structure Cpx (R : Type) where
  re : R
  im : R
namespace Cpx
variable [RealScalar R] (a : Cpx R)
def ofReal (x : R) : Cpx R := ⟨x,0⟩
def I : Cpx R := ⟨0,1⟩

instance : Zero (Cpx R) := ⟨⟨0,0⟩⟩
instance : One (Cpx R) := ⟨⟨1,0⟩⟩
instance : Add (Cpx R) := ⟨fun a b => ⟨a.re+b.re,a.im+b.im⟩⟩
instance : Sub (Cpx R) := ⟨fun a b => ⟨a.re-b.re,a.im-b.im⟩⟩
instance : Neg (Cpx R) := ⟨fun a => ⟨-a.re,-a.im⟩⟩
instance : Mul (Cpx R) := ⟨fun a b => ⟨a.re*b.re-a.im*b.im,a.re*b.im+a.im*b.re⟩⟩
instance : BEq (Cpx R) := ⟨fun a b => a.re == b.re && a.im == b.im⟩

def conj : Cpx R := ⟨a.re,-a.im⟩
def scale (x : R) (a : Cpx R) : Cpx R := ⟨x*a.re,x*a.im⟩
def normSq : R := a.re*a.re+a.im*a.im
def norm : R := sqrt a.normSq

def div (a b : Cpx R) : Cpx R :=
  if abs b.im ≤ abs b.re then
    let r := b.im/b.re
    let d := b.re+b.im*r
    ⟨(a.re+a.im*r)/d,(a.im-a.re*r)/d⟩
  else
    let r := b.re/b.im
    let d := b.re*r+b.im
    ⟨(a.re*r+a.im)/d,(a.im*r-a.re)/d⟩

instance : Div (Cpx R) := ⟨div⟩
def arg : R := atan2 a.im a.re
def cis (t : R) : Cpx R := ⟨cos t,sin t⟩

/-- The power of the imaginary unit with exponent `x`, exact at whole exponents. -/
def iPow (x : R) : Cpx R :=
  if isWhole x then
    match (floor x) % 4 with
    | 0 => 1
    | 1 => I
    | 2 => -1
    | _ => -I
  else cis (half*pi*x)

def rpow (x : R) : Cpx R :=
  if a == 0 then (if x == 0 then 1 else 0)
  else scale (pow a.norm x) (cis (a.arg*x))

def sum (xs : List (Cpx R)) : Cpx R := xs.foldl (· + ·) 0
end Cpx

/-! ## Scalars

Real numbers stay real among themselves; with a complex operand a real one is read as a complex number. -/

inductive Scalar (R : Type) where
  | real (x : R)
  | complex (z : Cpx R)
namespace Scalar
variable [RealScalar R]
def toComplex : Scalar R → Cpx R
  | real x => ⟨inexact x,ratio 0 1⟩
  | complex z => z

def ofParts (re im : R) : Scalar R := complex ⟨inexact re,inexact im⟩

def lift (f : R → R → R) (g : Cpx R → Cpx R → Cpx R) : Scalar R → Scalar R → Scalar R
  | real x, real y => real (f x y)
  | a, b => complex (g a.toComplex b.toComplex)

instance : Zero (Scalar R) := ⟨real 0⟩
instance : One (Scalar R) := ⟨real 1⟩
instance : Add (Scalar R) := ⟨lift (· + ·) (· + ·)⟩
instance : Sub (Scalar R) := ⟨lift (· - ·) (· - ·)⟩
instance : Mul (Scalar R) := ⟨lift (· * ·) (· * ·)⟩
instance : Div (Scalar R) := ⟨lift (· / ·) (· / ·)⟩

def neg : Scalar R → Scalar R
  | real x => real (-x)
  | complex z => complex (-z)

instance : Neg (Scalar R) := ⟨neg⟩

def beq : Scalar R → Scalar R → Bool
  | real x, real y => x == y
  | a, b => a.toComplex == b.toComplex

instance : BEq (Scalar R) := ⟨beq⟩
def isZero (a : Scalar R) : Bool := a == real 0

def abs : Scalar R → R
  | real x => RealScalar.abs x
  | complex z => z.norm
end Scalar
def Cpx.text (z : Cpx Number) : String := Written.complexText z.re.toFloat z.im.toFloat

def Scalar.text : Scalar Number → String
  | .real x => x.text
  | .complex z => z.text
end QuantumCircuits
