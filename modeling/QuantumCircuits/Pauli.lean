import QuantumCircuits.Numeric.RealScalar
import QuantumCircuits.Circuit.Basic

/-! # The Pauli axes

Three axes in cyclic order. -/
namespace QuantumCircuits
inductive Pauli where
  | x | y | z
  deriving DecidableEq
namespace Pauli
def index : Pauli → Int
  | x => 0
  | y => 1
  | z => 2

def ofIndex (i : Int) : Pauli :=
  if i % 3 = 0 then x else if i % 3 = 1 then y else z
def all : List Pauli := [x,y,z]

def name : Pauli → String
  | x => "X"
  | y => "Y"
  | z => "Z"

def shifted (p : Pauli) (i : Int) : Pauli := ofIndex (p.index+i)
def next (p : Pauli) : Pauli := p.shifted 1
def previous (p : Pauli) : Pauli := p.shifted (-1)

/-- The remaining axis; of two equal axes, the one that completes their indices to a multiple of three. -/
def third (p q : Pauli) : Pauli := ofIndex (-(p.index+q.index))
def relativeIndex (p q : Pauli) : Int := (p.index-q.index+1) % 3-1
def precedes (p q : Pauli) : Bool := (q.index-p.index) % 3 == 1
end Pauli

/-! ## Single-qubit Clifford rotations

A Clifford rotation sends each axis to an axis with a sign. It is fixed by the images of two axes; the third follows
from the orientation. -/

structure SignedPauli where
  axis : Pauli
  flip : Bool
  deriving DecidableEq

structure Clifford where
  x : SignedPauli
  y : SignedPauli
  z : SignedPauli
  deriving DecidableEq
namespace Clifford
variable (c : Clifford) (p : Pauli)
def transform : Pauli → SignedPauli
  | .x => c.x
  | .y => c.y
  | .z => c.z

def ofTransform (f : Pauli → SignedPauli) : Clifford := ⟨f .x,f .y,f .z⟩
def source : SignedPauli :=
  if c.x.axis = p then ⟨.x,c.x.flip⟩ else if c.y.axis = p then ⟨.y,c.y.flip⟩ else ⟨.z,c.z.flip⟩
def inverse : Clifford := ofTransform c.source

def ofTwo (from1 : Pauli) (s1 : SignedPauli) (from2 : Pauli) (s2 : SignedPauli) : Clifford :=
  let third : SignedPauli :=
    ⟨s1.axis.third s2.axis,(s1.flip ^^ s2.flip) ^^ (from1.precedes from2 != s1.axis.precedes s2.axis)⟩
  ofTransform fun p => if p = from1 then s1 else if p = from2 then s2 else third

def ofOne (frm : Pauli) (s : SignedPauli) : Clifford :=
  if frm = s.axis then ofTwo frm s s.axis.next ⟨frm.next,false⟩ else ofTwo frm s s.axis ⟨frm,!s.flip⟩
def ofXZ (x z : SignedPauli) : Clifford := ofTwo .x x .z z

/-- Keeps the first place and the last image of an axis named several times. -/
def gather (ms : List (Pauli × SignedPauli)) : List (Pauli × SignedPauli) :=
  ms.foldl (fun acc (p,s) => if acc.any (·.1 == p) then acc.map fun (q,t) => if q = p then (q,s) else (q,t)
    else acc ++ [(p,s)]) []

def checkImages (count : Nat) (ms : List (Pauli × SignedPauli)) : Check :=
  if ms.length ≠ count then
    .error (.value (s!"Method takes {count} transform" ++ (if count == 1 then "" else "s") ++ " but "
      ++ toString ms.length ++ " " ++ (if ms.length == 1 then "was" else "were") ++ " given"))
  else if (ms.map fun m => m.2.axis).eraseDups.length ≠ ms.length then
    .error (.value "A rotation cannot map two Paulis to the same")
  else .ok ()

def ofSingleMap (images : List (Pauli × SignedPauli)) : Outcome Clifford := do
  let ms := gather images
  checkImages 1 ms
  match ms with
  | [(p,s)] => .ok (ofOne p s)
  | _ => fails .value

def ofDoubleMap (images : List (Pauli × SignedPauli)) : Outcome Clifford := do
  let ms := gather images
  checkImages 2 ms
  match ms with
  | [(p,s),(q,t)] => .ok (ofTwo p s q t)
  | _ => fails .value

def ofPauli (quarter : Bool) : Clifford :=
  if quarter then
    ofTransform fun q => if q = p then ⟨p,false⟩ else if q = p.next then ⟨p.previous,false⟩ else ⟨p.next,true⟩
  else ofTransform fun q => ⟨q,q ≠ p⟩

def identity : Clifford := ofXZ ⟨.x,false⟩ ⟨.z,false⟩
def hadamard : Clifford := ofXZ ⟨.z,false⟩ ⟨.x,false⟩
def xSqrt : Clifford := ofXZ ⟨.x,false⟩ ⟨.y,true⟩
def xNsqrt : Clifford := ofXZ ⟨.x,false⟩ ⟨.y,false⟩
def ySqrt : Clifford := ofXZ ⟨.z,true⟩ ⟨.x,false⟩
def yNsqrt : Clifford := ofXZ ⟨.z,false⟩ ⟨.x,true⟩
def zSqrt : Clifford := ofXZ ⟨.y,false⟩ ⟨.z,false⟩
def zNsqrt : Clifford := ofXZ ⟨.y,true⟩ ⟨.z,false⟩
def xHalf : Clifford := ofXZ ⟨.x,false⟩ ⟨.z,true⟩
def yHalf : Clifford := ofXZ ⟨.x,true⟩ ⟨.z,true⟩
def zHalf : Clifford := ofXZ ⟨.x,true⟩ ⟨.z,false⟩

def named : List (String × Clifford) :=
  [("I",identity),("H",hadamard),("X",xHalf),("Y",yHalf),("Z",zHalf),("X_sqrt",xSqrt),
   ("Y_sqrt",ySqrt),("Z_sqrt",zSqrt),("X_nsqrt",xNsqrt),("Y_nsqrt",yNsqrt),("Z_nsqrt",zNsqrt)]

def quarterTurns (n : Int) : Clifford :=
  if n % 4 = 0 then identity
  else if n % 4 = 1 then ofPauli p true
  else if n % 4 = 2 then ofPauli p false
  else (ofPauli p true).inverse

def mergedWith (c d : Clifford) : Clifford :=
  let image (p : Pauli) : SignedPauli :=
    let s := c.transform p
    let t := d.transform s.axis
    ⟨t.axis,s.flip ^^ t.flip⟩
  ofXZ (image .x) (image .z)

def equivalentBefore (c d : Clifford) : Clifford := (c.mergedWith d).mergedWith c.inverse
def commutesWithPauli : Bool := c.transform p == ⟨p,false⟩

def commutesWith (c d : Clifford) : Bool :=
  [Pauli.x,.z].all fun p =>
    let s1 := c.transform p
    let s2 := d.transform s1.axis
    let s3 := c.source s2.axis
    let s4 := d.source s3.axis
    s4.axis == p && !(s1.flip ^^ (s2.flip ^^ (s3.flip ^^ s4.flip)))

def halfTurnRoot? (forward : Bool) : Option Clifford :=
  if c = xHalf then some (if forward then xSqrt else xNsqrt)
  else if c = yHalf then some (if forward then ySqrt else yNsqrt)
  else if c = zHalf then some (if forward then zSqrt else zNsqrt)
  else none

def rotations : List (Pauli × Int) :=
  let kept := Pauli.all.filter fun p => (c.transform p).axis == p
  match kept with
  | [_,_,_] =>
    if Pauli.all.all fun p => !(c.transform p).flip then []
    else match Pauli.all.filter fun p => !(c.transform p).flip with
      | p :: _ => [(p,2)]
      | [] => []
  | [p] =>
    (if (c.transform p).flip then [(p.next,2)] else [])
      ++ [(p,if (c.transform p.next).flip then -1 else 1)]
  | _ =>
    if c.x.axis = .y then [(.x,if c.y.flip then -1 else 1),(.z,if c.x.flip then -1 else 1)]
    else [(.z,if c.y.flip then 1 else -1),(.x,if c.z.flip then 1 else -1)]

def signText (s : SignedPauli) : String := (if s.flip then "-" else "+") ++ s.axis.name
def structural : String :=
  s!"cirq.SingleQubitCliffordGate(X:{signText c.x}, Y:{signText c.y}, Z:{signText c.z})"
def halfTurnText (n : Int) : String := if n = -1 then "-0.5" else if n = 1 then "0.5" else "1.0"

def symbol : String × Int :=
  match named.find? fun (_,d) => d == c with
  | some (n,_) =>
    (Text.takeStart 1 n,if Text.endsWith "_nsqrt" n then -1 else if Text.endsWith "_sqrt" n then 1 else 2)
  | none =>
    let parts := c.rotations.map fun (p,n) => p.name ++ (if n % 4 = 2 then "" else "^" ++ halfTurnText n)
    ("(" ++ Text.join "-" parts ++ ")",2)
end Clifford

/-! ## Pauli strings

A Pauli string is a product of Pauli axes on different qubits with a complex coefficient. -/

structure PauliString (R : Type) where
  terms : List (Qubit × Pauli)
  coefficient : Cpx R
namespace PauliString
variable [RealScalar R] (s : PauliString R) (backward : Bool) (ts : List (Qubit × Pauli)) (q : Qubit)
def find? (q : Qubit) : List (Qubit × Pauli) → Option Pauli
  | [] => none
  | (r,p) :: rest => if r = q then some p else find? q rest

def put (q : Qubit) (p : Pauli) : List (Qubit × Pauli) → List (Qubit × Pauli)
  | [] => [(q,p)]
  | (r,o) :: rest => if r = q then (r,p) :: rest else (r,o) :: put q p rest

def drop (ts : List (Qubit × Pauli)) : List (Qubit × Pauli) := ts.filter fun t => t.1 ≠ q
def ofTerms (c : Cpx R) : PauliString R :=
  ⟨ts.foldl (fun acc (q,p) => put q p acc) [],c⟩
def get? : Option Pauli := find? q s.terms
def support : Qubits := s.terms.map (·.1)
def qubits : Qubits := Qubit.sort s.support
def size : Nat := s.terms.length
def sameTerms (s t : PauliString R) : Bool :=
  s.terms.length == t.terms.length && s.terms.all fun (q,p) => t.get? q == some p
def beq (s t : PauliString R) : Bool := s.sameTerms t && s.coefficient == t.coefficient
instance : BEq (PauliString R) := ⟨beq⟩
def scale (c : Cpx R) (s : PauliString R) : PauliString R := { s with coefficient := s.coefficient*c }
def neg : PauliString R := { s with coefficient := -s.coefficient }
def zip (s t : PauliString R) : List (Qubit × Pauli × Pauli) :=
  s.terms.filterMap fun (q,p) => (t.get? q).map fun r => (q,p,r)
def commutesWith (s t : PauliString R) : Bool :=
  ((s.zip t).filter fun (_,p,r) => p ≠ r).length % 2 == 0

def mapQubits? (m : Qubit → Option Qubit) (s : PauliString R) : Option (PauliString R) := do
  let ts ← s.terms.mapM fun (q,p) => do some ((← m q),p)
  some (ofTerms ts s.coefficient)

def withQubits (new : Qubits) (s : PauliString R) : PauliString R :=
  ofTerms ((new.zip s.qubits).map fun (n,q) => (n,(s.get? q).getD .x)) s.coefficient
def toZBasis : List (Clifford × Qubit) :=
  s.terms.map fun (q,p) => (Clifford.ofOne p ⟨.z,false⟩,q)

inductive Passing where
  | rotation (c : Clifford) (q : Qubit)
  | interaction (p0 : Pauli) (inv0 : Bool) (p1 : Pauli) (inv1 : Bool) (q0 q1 : Qubit)
  deriving DecidableEq

def Passing.qubits : Passing → Qubits
  | rotation _ q => [q]
  | interaction _ _ _ _ q0 q1 => [q0,q1]

/-- Multiplies the axis at a qubit by another one, and counts the quarter turns of phase. -/
def kickback (left right : Option Pauli) (inv : Bool) (ts : List (Qubit × Pauli)) : List (Qubit × Pauli) × Int :=
  match left, right with
  | some l, some r =>
    if l = r then (drop q ts,0)
    else (put q (l.third r) ts,(if inv then 2 else 0)+(if l.precedes r ^^ backward then 1 else -1))
  | some l, none => (put q l ts,0)
  | none, some r => (put q r ts,0)
  | none, none => (ts,0)

def differs (p : Pauli) : Bool :=
  match find? q ts with
  | some o => o ≠ p
  | none => false

def passOne : Passing → List (Qubit × Pauli) × Bool
  | .rotation c q =>
    match find? q ts with
    | none => (ts,false)
    | some p =>
      let s := (if backward then c else c.inverse).transform p
      (put q s.axis ts,s.flip)
  | .interaction p0 inv0 p1 inv1 q0 q1 =>
    let (ts1,k1) := if differs ts q0 p0 then kickback backward q1 (some p1) (find? q1 ts) inv1 ts else (ts,0)
    let (ts2,k2) := if differs ts1 q1 p1 then kickback backward q0 (find? q0 ts1) (some p0) inv0 ts1 else (ts1,0)
    (ts2,(k1+k2) % 4 == 2)

def passOver (s : PauliString R) (ops : List Passing) : PauliString R :=
  let (ts,negate) := ops.foldl (fun (ts,negate) op =>
    let (ts',flip) := passOne backward ts op
    (ts',negate ^^ flip)) (s.terms,false)
  ⟨ts,if negate then -s.coefficient else s.coefficient⟩
end PauliString
end QuantumCircuits
