import QuantumCircuits.Symbolic

/-! # Angles, periods and probabilities

Angles are measured in half turns. -/
namespace QuantumCircuits
variable [RealScalar R]
namespace Angle
open RealScalar
def chosen (halfTurns rads degs : Option (Param R)) (default : Param R) : Outcome (Param R) :=
  if 1 < ([halfTurns,rads,degs].filter Option.isSome).length then
    .error (.value "Redundant angle specification. Use ONE of half_turns, rads, or degs.")
  else match rads, degs, halfTurns with
    | some (.num x), _, _ => .ok (.num (x/pi))
    | some p, _, _ => .ok (p.scale (ofInt 1 / pi))
    | none, some (.num x), _ => .ok (.num (x / ofInt 180))
    | none, some (.expr e), _ => .ok (.expr (e.scaleBy (.fraction 1 180)))
    | none, some p, _ => .ok p
    | none, none, some p => .ok p
    | none, none, none => .ok default

def probability (name : String) (p : R) : Outcome R :=
  if p < ofInt 0 then .error (.value (name ++ " was less than 0."))
  else if ofInt 1 < p then .error (.value (name ++ " was greater than 1."))
  else .ok p

def lcmFrom (t : Nat) : List Nat → Option Nat
  | [] => some t
  | r :: rs => if Nat.gcd t r == 0 then none else lcmFrom (t*r / Nat.gcd t r) rs

def commonRational (ps : List (Nat × Nat)) : Option (Nat × Nat) := do
  let denominator ← lcmFrom 1 (ps.map (·.2))
  let whole ← lcmFrom 1 (ps.map fun (n,d) => n*denominator/d)
  some (whole,denominator)

def fractionIn (parts : Nat) (p : R) : Nat × Nat :=
  let n := (round (abs p * ofInt parts)).toNat
  let g := Nat.gcd n parts
  (n/g,parts/g)

/-- A fraction, if every period has a multiple close to it. -/
def accept (tolerance : R) (periods : List R) (e : Nat × Nat) : Option R :=
  let common : R := ratio e.1 e.2
  if periods.all fun p => abs (p * ofInt (round (common/p)) - common) ≤ tolerance then some common else none

/-- A period common to all, or none; two periods that round to zero have no least common multiple. -/
def commonPeriod (tolerance : R) (periods : List R) (parts : Nat := 60) : Outcome (Option R) :=
  if periods.any (· == 0) then .ok none
  else match periods with
    | [] => .ok none
    | [p] => .ok (some (abs p))
    | ps => match commonRational (ps.map (fractionIn parts)) with
      | none => fails .zeroDivision
      | some e => .ok (accept tolerance ps e)

def periodTolerance : R := ratio 1 100000000
end Angle

/-! ## Values on a circle

A periodic value is kept reduced modulo its period; closeness is measured around the circle. -/
section
structure PeriodicValue (R : Type) where
  value : Param R
  period : R
namespace PeriodicValue
def make (v : Param R) (period : R) : PeriodicValue R := ⟨v.mod period,period⟩
instance : BEq (PeriodicValue R) := ⟨fun a b => a.value == b.value && a.period == b.period⟩
def isParameterized (a : PeriodicValue R) : Bool := a.value.isParameterized

def near (atol : R) (a b : PeriodicValue R) : Bool :=
  match a.value, b.value with
  | .num x, .num y =>
    if !(a.period == b.period) then false
    else
      let low := RealScalar.minOf x y
      let high := RealScalar.maxOf x y
      let low := if a.period / RealScalar.ofInt 2 < high-low then low+a.period else low
      RealScalar.near atol low high
  | _, _ => a.value == b.value
end PeriodicValue

/-! ## Durations and timestamps

Both count picoseconds. -/
open RealScalar
structure Duration (R : Type) where
  picos : R
structure Timestamp (R : Type) where
  picos : R
section
def picosOf (picos nanos : R) : R :=
  if !(picos == 0) && !(nanos == 0) then picos + nanos * ofInt 1000
  else if !(nanos == 0) then nanos * ofInt 1000
  else picos
namespace Duration
def ofUnits (picos nanos : R) : Duration R := ⟨picosOf picos nanos⟩
def ofPicos (n : Int) : Duration R := ⟨ofInt n⟩
def ofNanos (n : R) : Duration R := ⟨picosOf 0 n⟩
def nanos (d : Duration R) : R := d.picos / ratio 1000 1

instance : Zero (Duration R) := ⟨⟨0⟩⟩
instance : Add (Duration R) := ⟨fun a b => ⟨a.picos+b.picos⟩⟩
instance : Sub (Duration R) := ⟨fun a b => ⟨a.picos-b.picos⟩⟩
instance : BEq (Duration R) := ⟨fun a b => a.picos == b.picos⟩
instance : LT (Duration R) := ⟨fun a b => a.picos < b.picos⟩
instance : LE (Duration R) := ⟨fun a b => a.picos ≤ b.picos⟩
instance (a b : Duration R) : Decidable (a < b) := inferInstanceAs (Decidable (a.picos < b.picos))
instance (a b : Duration R) : Decidable (a ≤ b) := inferInstanceAs (Decidable (a.picos ≤ b.picos))

def scale (d : Duration R) (k : R) : Duration R := ⟨d.picos*k⟩
def divide (d : Duration R) (k : R) : Duration R := ⟨d.picos/k⟩
end Duration
namespace Timestamp
def ofUnits (picos nanos : R) : Timestamp R := ⟨picosOf picos nanos⟩

instance : BEq (Timestamp R) := ⟨fun a b => a.picos == b.picos⟩
instance : LT (Timestamp R) := ⟨fun a b => a.picos < b.picos⟩
instance : LE (Timestamp R) := ⟨fun a b => a.picos ≤ b.picos⟩
instance (a b : Timestamp R) : Decidable (a < b) := inferInstanceAs (Decidable (a.picos < b.picos))
instance (a b : Timestamp R) : Decidable (a ≤ b) := inferInstanceAs (Decidable (a.picos ≤ b.picos))

def after (t : Timestamp R) (d : Duration R) : Timestamp R := ⟨t.picos+d.picos⟩
def before (t : Timestamp R) (d : Duration R) : Timestamp R := ⟨t.picos-d.picos⟩

def since (t u : Timestamp R) : Duration R := ⟨t.picos-u.picos⟩
end Timestamp
end
namespace Duration
def text (d : Duration Number) : String :=
  if Number.mod d.picos (.int 1000) == .int 0 then (Number.floorDiv d.picos (.int 1000)).text ++ "ns"
  else d.picos.text ++ "ps"

def structural {R : Type} [NumberText R] (d : Duration R) : String := s!"cirq.Duration(picos={NumberText.text d.picos})"
end Duration
namespace Timestamp
variable [NumberText R]
def text (t : Timestamp R) : String := "t=" ++ NumberText.text t.picos
def structural (t : Timestamp R) : String := s!"cirq.Timestamp(picos={NumberText.text t.picos})"
end Timestamp

/-! ## Linear combinations

A list of vectors with nonzero coefficients, in the order in which the vectors came. A vector that a rule refuses stops
an operation, and the terms assigned before it stay. -/

abbrev Admission (V K : Type) := List (V × K) → V → Bool

structure LinearDict (V K : Type) where
  admits : Admission V K
  copyAdmits : Admission V K
  terms : List (V × K)
namespace LinearDict
variable {V K : Type} [BEq V]
def anything : Admission V K := fun _ _ => true

def find? (v : V) : List (V × K) → Option K
  | [] => none
  | (w,c) :: r => if w == v then some c else find? v r

def put (v : V) (c : K) : List (V × K) → List (V × K)
  | [] => [(v,c)]
  | (w,d) :: r => if w == v then (w,c) :: r else (w,d) :: put v c r

def erase (v : V) (ts : List (V × K)) : List (V × K) := ts.filter fun (w,_) => !(w == v)
def gather (ps : List (V × K)) : List (V × K) := ps.foldl (fun acc (v,c) => put v c acc) []
section
variable [Zero K] [BEq K]
def clean (ts : List (V × K)) : List (V × K) := ts.filter fun (_,c) => !(c == 0)

/-- The result of an operation: the combination as it is left, and the vector that was refused, if one was. -/
abbrev Step (V K : Type) := LinearDict V K × Option V

def set (d : LinearDict V K) (v : V) (c : K) : Step V K :=
  if d.admits d.terms v then
    ({ d with terms := if c == 0 then erase v d.terms else put v c d.terms },none)
  else (d,some v)

/-- Assigns coefficients one after the other up to the first refused vector, then drops zeros. -/
def setAll (d : LinearDict V K) : List (V × K) → Step V K
  | [] => ({ d with terms := clean d.terms },none)
  | (v,c) :: r =>
    match d.set v c with
    | (d',none) => setAll d' r
    | (d',some w) => (d',some w)

def update (d : LinearDict V K) (ps : List (V × K)) : Step V K := d.setAll (gather ps)
def build (admits copyAdmits : Admission V K) (ps : List (V × K)) : Step V K :=
  update ⟨admits,copyAdmits,[]⟩ ps
def ofPairs (ps : List (V × K)) : LinearDict V K := (build anything anything ps).1
def copy (d : LinearDict V K) : Step V K := build d.copyAdmits d.copyAdmits d.terms
def items (d : LinearDict V K) : List (V × K) := clean d.terms
def keys (d : LinearDict V K) : List V := d.items.map (·.1)
def get (d : LinearDict V K) (v : V) : K := (find? v d.terms).getD 0

def getD (d : LinearDict V K) (v : V) (default : K) : K :=
  match find? v d.terms with
  | some c => if c == 0 then default else c
  | none => default

def contains (d : LinearDict V K) (v : V) : Bool :=
  match find? v d.terms with
  | some c => !(c == 0)
  | none => false

def remove (d : LinearDict V K) (v : V) : LinearDict V K := { d with terms := erase v d.terms }
def size (d : LinearDict V K) : Nat := d.items.length
def isEmpty (d : LinearDict V K) : Bool := d.terms.all fun (_,c) => c == 0

def combine (f : K → K → K) (d : LinearDict V K) : List (V × K) → Step V K
  | [] => ({ d with terms := clean d.terms },none)
  | (v,c) :: r =>
    match d.set v (f (d.get v) c) with
    | (d',none) => combine f d' r
    | (d',some w) => (d',some w)

def onCopy (d : LinearDict V K) (f : LinearDict V K → Step V K) : Step V K :=
  match d.copy with
  | (d',none) => f d'
  | (d',some w) => (d',some w)
variable [Add K] [Sub K] [Mul K] [Neg K] (d e : LinearDict V K)
def addInPlace : Step V K := d.combine (· + ·) e.items
def subInPlace : Step V K := d.combine (· - ·) e.items
def scaleInPlace (d : LinearDict V K) (a : K) : LinearDict V K :=
  { d with terms := clean (d.terms.map fun (v,c) => (v,c*a)) }
def add : Step V K := d.onCopy fun d' => d'.addInPlace e
def sub : Step V K := d.onCopy fun d' => d'.subInPlace e
def negate (d : LinearDict V K) : Step V K := build d.copyAdmits d.copyAdmits (d.items.map fun (v,c) => (v,-c))
def scale (d : LinearDict V K) (a : K) : Step V K := d.onCopy fun d' => (d'.scaleInPlace a,none)
def beq : Bool :=
  (d.keys ++ e.keys).all fun v => d.get v == e.get v

def near (close : K → Bool) (d e : LinearDict V K) : Bool :=
  (d.keys ++ e.keys).all fun v => close (d.get v - e.get v)
end
end LinearDict
end

/-! ## Written linear combinations

A sum in the order of the vectors' texts, each coefficient in a chosen number layout. -/
namespace LinearDict
def isZeroText (s : String) : Bool :=
  (s.toList.takeWhile fun c => c != 'e' && c != 'E').all fun c => !c.isAlpha && !('1' ≤ c && c ≤ '9')

def coefficientText (spec : String) (c : Scalar Number) : Option String := do
  let z := c.toComplex
  let re ← Written.format? spec z.re.toFloat
  let im ← Written.format? spec z.im.toFloat
  if isZeroText re && isZeroText im then some ""
  else if isZeroText im then some re
  else if isZeroText re then some (im ++ "j")
  else if re.startsWith "-" && im.startsWith "-" then
    some s!"-({Text.dropStart 1 re}+{Text.dropStart 1 im}j)"
  else if im.startsWith "+" || im.startsWith "-" then some s!"({re}{im}j)"
  else some s!"({re}+{im}j)"

def termText (spec vector : String) (c : Scalar Number) : Option String := do
  let t ← coefficientText spec c
  if t.isEmpty then some ""
  else
    let r := s!"{t}*{vector}"
    some (if r.startsWith "+" || r.startsWith "-" then r else "+" ++ r)

def zeroText (spec : String) : Option String := do
  let s ← Written.Spec.parse? spec
  match s.form with
  | some 'd' => some (Written.padTo s true (Written.withSign s.sign "0"))
  | none => if s.precision.isSome then none else some (Written.padTo s true (Written.withSign s.sign "0"))
  | _ => s.format? 0.0

def format? {V : Type} [BEq V] (name : V → String) (spec : String) (d : LinearDict V (Scalar Number)) : Option String := do
  let keyed := (d.items.map fun (v,c) => (name v,c)).mergeSort fun a b => Text.le a.1 b.1
  let parts ← keyed.mapM fun (n,c) => termText spec n c
  let s := Text.join "" parts
  if s.isEmpty then zeroText spec
  else some (if s.startsWith "+" then Text.dropStart 1 s else s)

def structural {V : Type} [BEq V] (className : String) (name : V → String) (d : LinearDict V (Scalar Number)) : String :=
  s!"cirq.{className}(" ++ Text.braced (d.items.map fun (v,c) => s!"{name v}: {c.text}") ++ ")"
end LinearDict
end QuantumCircuits
