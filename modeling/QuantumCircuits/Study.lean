import QuantumCircuits.Symbolic
import QuantumCircuits.Json

/-! # Resolvers

A resolver keeps the order of its names; two are equal when they assign the same values to the same names. -/
namespace QuantumCircuits
section
structure Resolver (R : Type) where
  entries : List (String × Param R)
namespace Resolver
variable [RealScalar R] (r : Resolver R)
def empty : Resolver R := ⟨[]⟩
def get? (name : String) : Option (Param R) := r.entries.lookup name
def isEmpty : Bool := r.entries.isEmpty
def named (name : String) : Param R := (r.get? name).getD (.expr (.symbol name))
def valueOf (p : Param R) : Param R := p.resolve r.get?
def beq (r s : Resolver R) : Bool :=
  r.entries.length == s.entries.length && r.entries.all fun (k,v) => match s.get? k with
    | some w => v == w
    | none => false
instance : BEq (Resolver R) := ⟨beq⟩
def literal [NumberText R] (r : Resolver R) : String :=
  Text.braced (r.entries.map fun (k,v) => s!"{Text.quoted k}: {v.text}")
def structural [NumberText R] (r : Resolver R) : String := s!"cirq.ParamResolver({r.literal})"
end Resolver

/-! ## Results of repeated runs

For each key a run reports one row of bits per repetition. -/
abbrev Measurements := List (String × List (List Bool))
structure Trial (R : Type) where
  params : Resolver R
  measurements : Measurements
  repetitions : Int
def bitsToNat (bits : List Bool) : Nat := bits.foldl (fun n b => 2*n+b.toNat) 0
def bitText (bits : List Bool) : String := String.ofList (bits.map fun b => if b then '1' else '0')
def countValues {α : Type} [BEq α] (xs : List α) : List (α × Nat) :=
  xs.foldl (fun acc x => if acc.any (·.1 == x) then acc.map fun (y,n) => if y == x then (y,n+1) else (y,n)
    else acc ++ [(x,1)]) []
namespace Measurements
variable (m : Measurements)
def sorted : Measurements := m.mergeSort fun a b => Text.le a.1 b.1
def rows (key : String) : Outcome (List (List Bool)) :=
  orFail .key (m.lookup key)
def columns (rs : List (List Bool)) : List (List Bool) :=
  (List.range (rs.headD []).length).map fun i => rs.map fun r => r.getD i false
def text : String :=
  Text.join "\n" (m.sorted.map fun (k,rs) => k ++ "=" ++ Text.join ", " ((columns rs).map bitText))
def beq (m n : Measurements) : Bool :=
  m.length == n.length && m.all fun (k,rs) => n.lookup k == some rs
end Measurements
namespace Trial
variable [RealScalar R] (t : Trial R)
def samples (keys : List String) : Outcome (List (List (List Bool))) := do
  let all ← keys.mapM t.measurements.rows
  match all with
  | [] => .ok (List.replicate t.repetitions.toNat [])
  | rs :: rest => .ok (rest.foldl (fun acc ss => acc.zipWith (fun g r => g ++ [r]) ss) (rs.map fun r => [r]))
def jointHistogram (keys : List String) : Outcome (List (List Nat × Nat)) := do
  .ok (countValues ((← t.samples keys).map fun g => g.map bitsToNat))
def histogramBy (fold : List Bool → Nat) (t : Trial R) (key : String) : Outcome (List (Nat × Nat)) := do
  .ok (countValues ((← t.measurements.rows key).map fold))
def histogram (key : String) : Outcome (List (Nat × Nat)) := t.histogramBy bitsToNat key
def text : String := t.measurements.text
def beq (s t : Trial R) : Bool :=
  Measurements.beq s.measurements t.measurements && s.repetitions == t.repetitions && s.params == t.params
def extents : List (List Bool) → List Nat
  | [] => [0]
  | row :: rows => [row.length,rows.length+1]

/-- How many places two tables have in common when an extent of one is stretched to the other's. -/
def overlap? : List Nat → List Nat → Option Nat
  | [], ms | ms, [] => some (ms.foldl (· * ·) 1)
  | m :: ms, n :: ns =>
    if m = n || n = 1 then (overlap? ms ns).map (m * ·)
    else if m = 1 then (overlap? ms ns).map (n * ·)
    else none

/-- Whether each table of bits is in a second result. Two tables can be compared only if they share one place; without
any they are not equal. -/
def compareTables (n : Measurements) : Measurements → Outcome Bool
  | [] => .ok true
  | (k,rs) :: rest => match n.lookup k with
    | none => .ok false
    | some rs' =>
      match overlap? (extents rs) (extents rs') with
      | some 0 => .ok false
      | some 1 => if rs == rs' then compareTables n rest else .ok false
      | _ => fails .value
def compare (s t : Trial R) : Outcome Bool := do
  if s.measurements.length ≠ t.measurements.length then .ok false
  else if ← compareTables t.measurements s.measurements then
    .ok (s.repetitions == t.repetitions && s.params == t.params)
  else .ok false
def structural? [NumberText R] (t : Trial R) : Option String :=
  if t.measurements.isEmpty then
    some ("cirq.TrialResult(params=" ++ t.params.structural ++ ", repetitions=" ++ toString t.repetitions
      ++ ", measurements=\x7b\x7d)")
  else none
end Trial

/-! ## Sweeps

A simple sweep gives values to one name; sweeps are combined side by side, as long as the shortest lasts, or so that each
assignment of one meets each of the other. No name occurs twice. -/
open Text RealScalar NumberText
inductive Sweep (R : Type) where
  | unit
  | points (key : String) (values : List R)
  | linspace (key : String) (start stop : R) (length : Nat)
  | zip (sweeps : List (Sweep R))
  | product (factors : List (Sweep R))
abbrev Assignment (R : Type) := List (String × R)
namespace Sweep
variable [RealScalar R] (ss : List (Sweep R))
mutual
def keys : Sweep R → List String
  | unit => []
  | points k _ | linspace k _ _ _ => [k]
  | zip ss | product ss => keysOf ss
def keysOf : List (Sweep R) → List String
  | [] => []
  | s :: r => s.keys ++ keysOf r
end
mutual
def size : Sweep R → Nat
  | unit => 1
  | points _ vs => vs.length
  | linspace _ _ _ n => n
  | zip [] => 0
  | zip (s :: r) => sizeLeast s.size r
  | product [] => 0
  | product (s :: r) => s.size * sizeTimes r
def sizeLeast (n : Nat) : List (Sweep R) → Nat
  | [] => n
  | s :: r => sizeLeast (min n s.size) r
def sizeTimes : List (Sweep R) → Nat
  | [] => 1
  | s :: r => s.size * sizeTimes r
end
def spaced (start stop : R) (n i : Nat) : R :=
  if n = 1 then start
  else
    let p := ofInt i / ofInt ((n : Int)-1)
    start * (ofInt 1 - p) + stop*p
mutual
def assignments : Sweep R → List (Assignment R)
  | unit => [[]]
  | points k vs => vs.map fun v => [(k,v)]
  | linspace k a b n => (List.range n).map fun i => [(k,spaced a b n i)]
  | zip [] => []
  | zip (s :: r) => beside s.assignments r
  | product ss => crossed ss
def beside (acc : List (Assignment R)) : List (Sweep R) → List (Assignment R)
  | [] => acc
  | s :: r => beside (acc.zipWith (· ++ ·) s.assignments) r
def crossed : List (Sweep R) → List (Assignment R)
  | [] => [[]]
  | s :: r => s.assignments.flatMap fun a => (crossed r).map fun b => a ++ b
end
mutual
def beq : Sweep R → Sweep R → Bool
  | unit, unit => true
  | points k vs, points l ws => k == l && vs == ws
  | linspace k a b n, linspace l c d m => k == l && a == c && b == d && n == m
  | zip ss, zip ts | product ss, product ts => beqList ss ts
  | _, _ => false
def beqList : List (Sweep R) → List (Sweep R) → Bool
  | [], [] => true
  | s :: r, t :: q => beq s t && beqList r q
  | _, _ => false
end
instance : BEq (Sweep R) := ⟨beq⟩
def checkKeys : Check :=
  let step (seen : List String) (s : Sweep R) : Outcome (List String) :=
    if s.keys.any seen.contains then .error (.value "duplicate keys") else .ok (seen ++ s.keys)
  (ss.foldlM step []).map fun _ => ()
def zipOf : Outcome (Sweep R) := do
  checkKeys ss
  .ok (zip ss)
def productOf : Outcome (Sweep R) := do
  checkKeys ss
  .ok (product ss)
def factors : Sweep R → List (Sweep R)
  | product ss => ss
  | s => [s]
def parts : Sweep R → List (Sweep R)
  | zip ss => ss
  | s => [s]
def mul (s t : Sweep R) : Outcome (Sweep R) := productOf (s.factors ++ t.factors)
def add (s t : Sweep R) : Outcome (Sweep R) := zipOf (s.parts ++ t.parts)
def isSingle : Sweep R → Bool
  | points .. | linspace .. => true
  | _ => false
def isZip : Sweep R → Bool
  | zip _ => true
  | _ => false
section
variable [NumberText R]
mutual
def structural : Sweep R → String
  | unit => "cirq.UnitSweep"
  | points k vs => s!"cirq.Points({quoted k}, {bracketed (vs.map text)})"
  | linspace k a b n =>
    "cirq.Linspace(" ++ quoted k ++ ", start=" ++ text a ++ ", stop=" ++ text b ++ ", length="
      ++ toString n ++ ")"
  | zip ss => "cirq.study.sweeps.Zip(" ++ join ", " (structuralAll ss) ++ ")"
  | product ss => "cirq.study.sweeps.Product(" ++ join ", " (structuralAll ss) ++ ")"
def structuralAll : List (Sweep R) → List String
  | [] => []
  | s :: r => s.structural :: structuralAll r
end
mutual
def text : Sweep R → String
  | zip [] => "Zip()"
  | zip (s :: r) => join " + " (s.text :: textAll false r)
  | product [] => "Product()"
  | product (s :: r) => join " * " ((if s.isZip then s!"({s.text})" else s.text) :: textAll true r)
  | s => s.structural
def textAll (inProduct : Bool) : List (Sweep R) → List String
  | [] => []
  | s :: r => (if inProduct && s.isZip then s!"({s.text})" else s.text) :: textAll inProduct r
end
end
end Sweep
end

/-! ## Sweeps as documents

A product of simple sweeps side by side is written as a document and read back. -/
namespace Sweep
def zipFactors (s : Sweep Number) : Outcome (List (List (Sweep Number))) :=
  let zips := s.factors.map parts
  if zips.all fun z => z.all isSingle then .ok zips
  else
    let form : Sweep Number := if s.factors.all isZip then product s.factors
      else product (zips.map zip)
    .error (.value ("cannot convert to zip-product form: " ++ form.text))
def singleDocument : Sweep Number → Json
  | linspace k a b n => .obj [("parameter_key",.str k),("linspace",
      .obj [("first_point",.num a),("last_point",.num b),("num_points",.nat n)])]
  | points k vs => .obj [("parameter_key",.str k),("points",.obj [("points",.arr (vs.map .num))])]
  | _ => .null
def toDocument (s : Sweep Number) (reps : Int) : Answer := do
  let repetitions := ("repetitions",Json.int reps)
  if s == unit then .ok (.obj [repetitions])
  else
    let factors ← s.zipFactors
    .ok (.obj [("sweep",.obj [("factors",.arr (factors.map fun z =>
      .obj [("sweeps",.arr (z.map singleDocument))]))]),repetitions])
def fieldOrMissing (k : String) (j : Json) : Answer := orFail .key (j.field? k)
def singleOfDocument (j : Json) : Outcome (Sweep Number) := do
  let key ← fieldOrMissing "parameter_key" j
  match j.field? "points", j.field? "linspace" with
  | some p, _ => do .ok (points key.text ((← fieldOrMissing "points" p).elems.map Json.number))
  | none, some l => do
    let a ← fieldOrMissing "first_point" l
    let b ← fieldOrMissing "last_point" l
    let n ← fieldOrMissing "num_points" l
    .ok (linspace key.text a.number b.number n.toNat)
  | none, none => .error (.value "Single param sweep type undefined")
def zipOfDocument (j : Json) : Outcome (Sweep Number) := match j.field? "sweeps" with
  | some ss => do zipOf (← ss.elems.mapM singleOfDocument)
  | none => .ok unit
def ofDocument (j : Json) : Outcome (Sweep Number) := match (j.field "sweep").field? "factors" with
  | some fs => do productOf (← fs.elems.mapM zipOfDocument)
  | none => .ok unit
end Sweep
end QuantumCircuits
