import QuantumCircuits.Schedule
import QuantumCircuits.Json

/-! # Messages for operations

Rotations about an axis in the equator or about the vertical axis, controlled phases and measurements on places of a
grid. -/
namespace QuantumCircuits
variable [RealScalar R]
section
open RealScalar Site
inductive WireValue (R : Type) where
  | raw (x : R)
  | parameter (name : String)
inductive WireOp (R : Type) where
  | expW (target : Site) (axis halfTurns : WireValue R)
  | expZ (target : Site) (halfTurns : WireValue R)
  | exp11 (target1 target2 : Site) (halfTurns : WireValue R)
  | measurement (targets : List Site) (key : String) (invert : List Bool)
structure WireStep (R : Type) where
  op : WireOp R
  delay : R
namespace WireValue
def ofParam : Param R → Outcome (WireValue R)
  | .num x => .ok (raw (inexact x))
  | .expr e => match e.symbolName? with
    | some name => .ok (parameter name)
    | none => match e.value? with
      | some x => .ok (raw (inexact x))
      | none => fails .type
  | .residue .. => fails .type
def toParam : WireValue R → Param R
  | raw x => .num x
  | parameter name => .expr (.symbol name)
end WireValue
namespace WireOp
variable [OperationText R]
def single (qs : Qubits) (f : Qubit → Outcome (WireOp R)) : Outcome (WireOp R) := match qs with
  | [q] => f q
  | _ => .error (.value "Wrong number of qubits.")

/-- The mask of a measurement, filled up with unchanged bits; empty if nothing is inverted explicitly. -/
def fullMask (n : Nat) (invert : List Bool) : List Bool :=
  if invert.isEmpty then [] else invert ++ List.replicate (n-invert.length) false
def ofGate (g : Gate R) (qs : Qubits) : Outcome (WireOp R) := match g with
  | .measurement n key invert => do
    if qs.isEmpty then .error (.value "Measurement gate on no qubits.")
    let mask := fullMask n invert
    if !mask.isEmpty && mask.length ≠ qs.length then
      .error (.value "Measurement gate had invert mask of length different than number of qubits it acts on.")
    .ok (measurement (← qs.mapM ofQubit) key mask)
  | .power .x e _ _ => single qs fun q => do
    .ok (expW (← ofQubit q) (.raw (ratio 0 1)) (← WireValue.ofParam e))
  | .power .y e _ _ => single qs fun q => do
    .ok (expW (← ofQubit q) (.raw (ratio 1 2)) (← WireValue.ofParam e))
  | .phasedX p e _ => single qs fun q => do
    .ok (expW (← ofQubit q) (← WireValue.ofParam p) (← WireValue.ofParam e))
  | .power .z e _ _ => single qs fun q => do .ok (expZ (← ofQubit q) (← WireValue.ofParam e))
  | .power .cz e _ _ => match qs with
    | [p,q] => do .ok (exp11 (← ofQubit p) (← ofQubit q) (← WireValue.ofParam e))
    | _ => .error (.value "Wrong number of qubits.")
  | g => .error (.value ("Don't know how to serialize this gate: " ++ OperationText.gate g))
def ofOperation (op : Operation R) : Outcome (WireOp R) := match XmonDevice.gateOf? op with
  | some g => ofGate g op.qubits
  | none => fails .attribute
def powered (g : Gate R) (qs : Qubits) (e : Param R) : Outcome (Operation R) := do
  let op ← g.on qs
  orFail .type (← op.pow? e)
def toOperation : WireOp R → Outcome (Operation R)
  | expW target axis t => (Gate.phasedXOf axis.toParam t.toParam (ratio 0 1)).on [target.toQubit]
  | expZ target t => powered .Z [target.toQubit] t.toParam
  | exp11 p q t => powered .CZ [p.toQubit,q.toQubit] t.toParam
  | measurement targets key invert => do
    (← Gate.measurementOf targets.length key invert).on (targets.map toQubit)
end WireOp
namespace Schedule
variable [OperationText R]
def messagesFrom : Option (Timestamp R) → List (Scheduled R) → Outcome (List (WireStep R))
  | _, [] => .ok []
  | last, x :: xs => do
    let op ← WireOp.ofOperation x.op
    let delay := last.elim x.time.picos fun t => x.time.picos-t.picos
    .ok (⟨op,delay⟩ :: (← messagesFrom (some x.time) xs))
def toMessages (s : Schedule R) : Outcome (List (WireStep R)) := messagesFrom none s.ops
def scheduledOf (d : Device R) (last : R) (m : WireStep R) : Outcome (Scheduled R) := do
  let op ← m.op.toOperation
  .ok ⟨⟨last+m.delay⟩,← d.duration op,op⟩
def scheduledFrom (d : Device R) : R → List (Outcome (WireStep R)) → Outcome (List (Scheduled R))
  | _, [] => .ok []
  | last, m :: ms => do
    let x ← scheduledOf d last (← m)
    .ok (x :: (← scheduledFrom d x.time.picos ms))
def ofMessages (d : Device R) (ms : List (Outcome (WireStep R))) : Outcome (Schedule R) := do
  .ok (ofList d (← scheduledFrom d (ofInt 0) ms))
end Schedule

/-! ## Bytes written with sixty-four characters

Each character stands for six bits. -/
namespace Base64
open PlainZero
def value? (c : Char) : Option Nat :=
  if 'A' ≤ c ∧ c ≤ 'Z' then some (c.toNat-65)
  else if 'a' ≤ c ∧ c ≤ 'z' then some (c.toNat-97+26)
  else if '0' ≤ c ∧ c ≤ '9' then some (c.toNat-48+52)
  else if c = '+' then some 62
  else if c = '/' then some 63
  else none

/-- What has been read of a group: the number of characters, of padding signs since the last one, and the bits that do
not fill a byte yet. -/
structure Group where
  size : Nat := 0
  pads : Nat := 0
  rest : Nat := 0
def decodeFrom (g : Group) : List Char → Outcome (List Nat)
  | [] => if g.size = 0 then .ok [] else .error (.bare (.named "Error"))
  | c :: cs =>
    if c = '=' then
      if 2 ≤ g.size ∧ 4 ≤ g.size+g.pads+1 then .ok []
      else decodeFrom { g with pads := if 2 ≤ g.size then g.pads+1 else g.pads } cs
    else match value? c with
      | none => decodeFrom g cs
      | some v =>
        let bits := g.rest*64+v
        match g.size with
        | 0 => decodeFrom ⟨1,0,bits⟩ cs
        | 1 => do .ok (bits/16 :: (← decodeFrom ⟨2,0,bits % 16⟩ cs))
        | 2 => do .ok (bits/4 :: (← decodeFrom ⟨3,0,bits % 4⟩ cs))
        | _ => do .ok (bits :: (← decodeFrom {} cs))
def decode (s : String) : Outcome (List Nat) :=
  if s.toList.all fun c => c.toNat < 128 then decodeFrom {} s.toList else fails .value
end Base64
end

/-! ## Packed measurement results

The bits of all keys of one repetition stand side by side, the repetitions one after the other, eight bits to a byte. -/
namespace Packing
open PlainZero
def byte : List Bool → Nat
  | [] => 0
  | b :: bs => b.toNat + 2 * byte bs
def bytes : List Bool → List Nat
  | [] => []
  | b :: bs => byte ((b :: bs).take 8) :: bytes (bs.drop 7)
  termination_by bs => bs.length
  decreasing_by simp only [List.length_drop,List.length_cons]; omega
def bits (x : Nat) : List Bool := (List.range 8).map x.testBit
def sideBySide : List (List (List Bool)) → Nat → List (List Bool)
  | blocks, reps => (List.range reps).map fun i => blocks.flatMap fun rows => rows.getD i []
def shapesText (shapes : List (String × List Nat)) : String :=
  Text.bracketed (shapes.map fun (key,shape) =>
    "(" ++ Text.quoted key ++ ", " ++ Text.parenthesized (shape.map fun (n : Nat) => toString n) ++ ")")
def pack (results : List (String × List (List Bool))) : Outcome (List Nat) := match results with
  | [] => .ok []
  | (_,first) :: _ =>
    if results.all fun (_,rows) => rows.length = first.length then
      .ok (bytes (sideBySide (results.map (·.2)) first.length).flatten)
    else .error (.value ("Expected same reps for all keys: shapes="
      ++ shapesText (results.map fun (key,rows) => (key,[rows.length,(rows.headD []).length]))))
def rows (width : Nat) : Nat → List Bool → List (List Bool)
  | 0, _ => []
  | n+1, bs => bs.take width :: rows width n (bs.drop width)
def columns : List (String × Nat) → List Bool → List (String × List Bool)
  | [], _ => []
  | (key,size) :: ks, row => (key,row.take size) :: columns ks (row.drop size)
def blockAt (sizes : List (String × Nat)) (table : List (List Bool)) (i : Nat) : List (List Bool) :=
  table.map fun row => ((columns sizes row)[i]?.map (·.2)).getD []
def record (key : String) (rows : List (List Bool)) : List (String × List (List Bool)) → List (String × List (List Bool))
  | [] => [(key,rows)]
  | e :: es => if e.1 = key then (key,rows) :: es else e :: record key rows es
def unpack (data : List Nat) (reps : Nat) (sizes : List (String × Nat)) : Outcome (List (String × List (List Bool))) :=
  let width := (sizes.map (·.2)).sum
  let stream := (data.flatMap bits).take (reps*width)
  if stream.length ≠ reps*width then fails .value
  else
    let table := rows width reps stream
    .ok (sizes.zipIdx.foldl (fun acc ((key,_),i) => record key (blockAt sizes table i) acc) [])
end Packing

/-! ## Messages as documents -/
namespace Site
def toDocument (s : Site) : Json := .obj [("row",.int s.row),("col",.int s.col)]
def ofDocument (j : Json) : Outcome Site := match j.field? "row", j.field? "col" with
  | some r, some c => .ok ⟨r.toInt,c.toInt⟩
  | _, _ => .error (.value ("Proto dict does not contain row or col: " ++ j.literal))
end Site
namespace WireValue
def toDocument : WireValue Number → Json
  | raw x => .obj [("raw",.num x)]
  | parameter name => .obj [("parameter_key",.str name)]
def ofDocument (j : Json) : Outcome (WireValue Number) :=
  if !j.isObj then fails .attribute
  else if (j.field "parameter_key").truthy then .ok (parameter (j.field "parameter_key").text)
  else match j.field? "raw" with
    | some x => .ok (raw x.number)
    | none => .error (.value ("No value specified for parameterized float. "
        ++ s!"Expected \"raw\" or \"parameter_key\" to be set. message: {j.literal}"))
end WireValue
namespace WireOp
def toDocument : WireOp Number → Json
  | expW target axis t => .obj [("exp_w",.obj [("target",target.toDocument),("axis_half_turns",axis.toDocument),
      ("half_turns",t.toDocument)])]
  | expZ target t => .obj [("exp_z",.obj [("target",target.toDocument),("half_turns",t.toDocument)])]
  | exp11 p q t => .obj [("exp_11",.obj [("target1",p.toDocument),("target2",q.toDocument),("half_turns",t.toDocument)])]
  | measurement targets key invert =>
    let mask := if invert.isEmpty then []
      else [("invert_mask",Json.arr (invert.map fun b => .str (if b then "true" else "false")))]
    .obj [("measurement",.obj ([("targets",.arr (targets.map Site.toDocument)),("key",.str key)] ++ mask))]
def maskBit : Json → Outcome Bool
  | .str s => match Json.parse? s with
    | some j => .ok j.truthy
    | none => .error (.bare (.named "JSONDecodeError"))
  | _ => fails .type
def part (whole : Json) (name title : String) (needed : List String) : Answer :=
  let j := whole.field name
  if !j.isObj then fails .type
  else if needed.all fun k => (j.field? k).isSome then .ok j
  else .error (.value s!"{title} missing required fields: {whole.literal}")
def ofDocument (j : Json) : Outcome (WireOp Number) :=
  let has (k : String) : Bool := (j.field? k).isSome
  if has "exp_w" then do
    let w ← part j "exp_w" "ExpW" ["half_turns","axis_half_turns","target"]
    let t ← WireValue.ofDocument (w.field "half_turns")
    let axis ← WireValue.ofDocument (w.field "axis_half_turns")
    .ok (expW (← Site.ofDocument (w.field "target")) axis t)
  else if has "exp_z" then do
    let z ← part j "exp_z" "ExpZ" ["half_turns","target"]
    let target ← Site.ofDocument (z.field "target")
    .ok (expZ target (← WireValue.ofDocument (z.field "half_turns")))
  else if has "exp_11" then do
    let e ← part j "exp_11" "Exp11" ["half_turns","target1","target2"]
    let p ← Site.ofDocument (e.field "target1")
    let q ← Site.ofDocument (e.field "target2")
    .ok (exp11 p q (← WireValue.ofDocument (e.field "half_turns")))
  else if has "measurement" then do
    let invert ← ((j.field "measurement").field "invert_mask").elems.mapM maskBit
    let m ← part j "measurement" "Measurement" ["key","targets"]
    let targets := (m.field "targets").elems
    let _ : Gate Number ← Gate.measurementOf targets.length (m.field "key").text invert
    .ok (measurement (← targets.mapM Site.ofDocument) (m.field "key").text invert)
  else .error (.value ("invalid operation: " ++ j.literal))
end WireOp
def Packing.shape : Nat → Json → List Nat
  | 0, _ => []
  | n+1, .arr xs => xs.length :: match xs.map (shape n) with
    | [] => []
    | s :: ss => if ss.all (s == ·) then s else []
  | _+1, _ => []
def Packing.ofDocument (data : Fields) : Outcome (List (String × List (List Bool))) :=
  let shapes := data.map fun (key,j) => (key,Packing.shape 32 j)
  if shapes.all fun (_,s) => s.length = 2 then
    .ok (data.map fun (key,j) => (key,j.elems.map fun row => row.elems.map Json.truthy))
  else .error (.value ("Expected 2-D data: shapes=" ++ Packing.shapesText shapes))
namespace WireStep
def toDocument (m : WireStep Number) : Json :=
  .obj (m.op.toDocument.fields ++ [("incremental_delay_picoseconds",.num m.delay)])
def ofDocument (j : Json) : Outcome (WireStep Number) := do
  .ok ⟨← WireOp.ofDocument j,(j.field "incremental_delay_picoseconds").number⟩
end WireStep
def Schedule.ofDocuments (d : Device Number) (js : List Json) : Outcome (Schedule Number) :=
  ofMessages d (js.map WireStep.ofDocument)
end QuantumCircuits
