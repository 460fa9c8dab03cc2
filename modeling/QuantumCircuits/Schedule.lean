import QuantumCircuits.Device

/-! # Schedules

Operations at times, in order of their start and then in the order in which they came. A query looks only at starts
within the longest duration seen so far before the time asked for. -/
namespace QuantumCircuits
variable [RealScalar R]
structure Scheduled (R : Type) where
  time : Timestamp R
  duration : Duration R
  op : Operation R
namespace Scheduled
def stop (s : Scheduled R) : Timestamp R := s.time.after s.duration
def beq (a b : Scheduled R) : Bool := a.time == b.time && a.op == b.op && a.duration == b.duration
instance : BEq (Scheduled R) := ⟨beq⟩
variable [OperationText R] [NumberText R]
def text (s : Scheduled R) : String :=
  s!"{OperationText.text s.op} during [{s.time.text}, {s.stop.text})"

def structural (s : Scheduled R) : String :=
  s!"ScheduledOperation({s.time.structural}, {s.duration.structural}, {OperationText.structural s.op})"
end Scheduled
structure Schedule (R : Type) where
  device : Device R
  ops : List (Scheduled R)
  /-- At least the duration of every operation. -/
  longest : Duration R

/-- What a schedule is asked for: a time with a duration, qubits that must be touched, and whether operations count
that start as the query ends, or end as it starts. -/
structure ScheduleQuery (R : Type) where
  time : Timestamp R
  duration : Duration R
  qubits : Option Qubits := none
  countStarting : Bool := false
  countEnding : Bool := false
namespace ScheduleQuery
variable (q : ScheduleQuery R)
def stop : Timestamp R := q.time.after q.duration

def meets (s : Scheduled R) : Bool :=
  (q.countEnding || !(s.stop == q.time)) && (q.countStarting || !(s.time == q.stop))
    && decide (q.time ≤ s.stop) && decide (s.time ≤ q.stop)

def touches (s : Scheduled R) : Bool := match q.qubits with
  | none => true
  | some qs => s.op.qubits.any qs.contains
end ScheduleQuery
namespace Schedule
variable (s : Schedule R)
def longer (a b : Duration R) : Duration R := if a < b then b else a

def place (s : Scheduled R) : List (Scheduled R) → List (Scheduled R)
  | [] => [s]
  | x :: xs => if s.time < x.time then s :: x :: xs else x :: place s xs

def empty (d : Device R) : Schedule R := ⟨d,[],.ofPicos 0⟩

def ofList (d : Device R) (ops : List (Scheduled R)) : Schedule R :=
  ⟨d,ops.foldl (fun acc s => place s acc) [],match ops.map Scheduled.duration with
    | [] => .ofPicos 0
    | x :: xs => xs.foldl longer x⟩

def beq (a b : Schedule R) : Bool := a.ops == b.ops
def query (q : ScheduleQuery R) : List (Scheduled R) :=
  s.ops.filter fun x => decide (q.time.before s.longest ≤ x.time) && decide (x.time ≤ q.stop) && q.meets x && q.touches x
def at' (t : Timestamp R) : List (Scheduled R) :=
  s.query { time := t, duration := .ofPicos 0, countStarting := true }
def during (t u : Timestamp R) : List (Scheduled R) :=
  s.query { time := t, duration := u.since t }
def sameTime (x : Scheduled R) : List (Scheduled R) :=
  (s.query { time := x.time, duration := x.duration }).filter fun y => !(y == x)
def erase (x : Scheduled R) : Schedule R × Bool :=
  if s.ops.contains x then ({ s with ops := s.ops.erase x },true) else (s,false)
section
variable [OperationText R] [NumberText R]
def insert (s : Schedule R) (x : Scheduled R) : Schedule R × Check :=
  match s.query { time := x.time, duration := x.duration, qubits := some x.op.qubits } with
  | [] => ({ s with ops := place x s.ops, longest := longer s.longest x.duration },.ok ())
  | collisions =>
    let shown := Text.bracketed (collisions.map Scheduled.structural)
    (s,.error (.value s!"Operation {OperationText.text x.op} has collisions: {shown}"))
end
/-- A circuit with the operations in order; a new start opens a new moment. -/
def toCircuit [OperationText R] (s : Schedule R) : Outcome (OpCircuit R) := do
  let (c,_) ← s.ops.foldlM (fun ((c,last) : OpCircuit R × Option (Timestamp R)) x => do
    let isNew := match last with
      | some t => !(x.time == t)
      | none => true
    let (c,done) := c.append s.device.rules (.leaf x.op) (if isNew then .newThenInline else .inline)
    let _ ← done
    .ok (c,some x.time)) (.empty,none)
  .ok c
end Schedule

/-! ## Schedules that a device accepts

Devices check each operation of a schedule against those that overlap it. -/
variable [OperationText R] [NumberText R] (d : Device R)
def Schedule.checkQuiet (s : Schedule R) (x : Scheduled R) (disturbs : Operation R → Operation R → Bool)
    (title : String) : Check :=
  (s.sameTime x).forM fun y =>
    if (XmonDevice.gateOf? y.op).isNone then fails .attribute
    else if disturbs x.op y.op then .error (.value s!"{title}{x.text} vs {y.text}.")
    else .ok ()

def XmonDevice.checkScheduled (d : XmonDevice R) (s : Schedule R) (x : Scheduled R) : Check := do
  d.checkOp x.op
  if isPhase x.op then s.checkQuiet x interacts "Adjacent Exp11 operations: " else .ok ()

def IonDevice.checkScheduled (d : IonDevice R) (s : Schedule R) (x : Scheduled R) : Check := do
  d.checkOp x.op
  if isInteraction x.op then s.checkQuiet x interacts "Simultaneous two-qubit operations on same qubit: " else .ok ()

def NeutralAtomDevice.checkScheduled (d : NeutralAtomDevice R) (s : Schedule R) (x : Scheduled R) : Check := do
  if x.duration < (← d.duration x.op) then .error (.value "Incompatible operation duration")
  d.checkMoment (← Moment.ofList ((s.sameTime x).map Scheduled.op))

/-- Checks the operations in order; the first measurement must be among the last operations to end. -/
def NeutralAtomDevice.checkAll (d : NeutralAtomDevice R) (s : Schedule R) : List (Scheduled R) → Bool → Check
  | [], _ => .ok ()
  | x :: xs, measured => do
    d.checkScheduled s x
    if x.op.isMeasurement && !measured then
      if s.ops.any fun y => x.stop < y.stop then .error (.value "Non-measurement operation after measurement")
      d.checkAll s xs true
    else d.checkAll s xs measured
namespace Device
def checkScheduled (s : Schedule R) (x : Scheduled R) : Check := match d with
  | unconstrained => .ok ()
  | xmon d => d.checkScheduled s x
  | ion d => d.checkScheduled s x
  | neutralAtom d => d.checkScheduled s x
  | acquaintance => .error ⟨.unimplemented,some ""⟩

def checkSchedule (s : Schedule R) : Check := match d with
  | unconstrained => .ok ()
  | xmon d => do
    XmonDevice.checkKeys (s.ops.map Scheduled.op)
    s.ops.forM (d.checkScheduled s)
  | ion d => do
    XmonDevice.checkKeys (s.ops.map Scheduled.op)
    s.ops.forM (d.checkScheduled s)
  | neutralAtom d => d.checkAll s s.ops false
  | acquaintance => .error ⟨.unimplemented,some ""⟩
end Device
namespace Schedule
def addMoment (t : Timestamp R) (s : Schedule R) (m : OpMoment R) : Outcome (Schedule R) :=
  m.ops.foldlM (fun (s : Schedule R) op => do
    let x : Scheduled R := ⟨t,← d.duration op,op⟩
    let (s,done) := s.insert x
    done
    d.checkScheduled s x
    .ok s) s

def ofCircuit (c : OpCircuit R) : Outcome (Schedule R) := do
  let (s,_) ← c.moments.foldlM (fun ((s,t) : Schedule R × Timestamp R) m => do
    if m.ops.isEmpty then .ok (s,t)
    else
      let s ← addMoment d t s m
      let longest := match ← m.ops.mapM d.duration with
        | [] => .ofPicos 0
        | x :: xs => xs.foldl longer x
      .ok (s,t.after longest)) (empty d,⟨RealScalar.ofInt 0⟩)
  .ok s
end Schedule
end QuantumCircuits
