import QuantumCircuits.PauliPhase
import QuantumCircuits.Service.Circuits
import QuantumCircuits.Wire
import QuantumCircuits.Placement

/-! # Requests about synthesis and optimizers -/
namespace QuantumCircuits.Service
open TwoQubit Conversion MergeSingle SingleQubit
def canonicalCodes (ops : List Op) : Answer := ops.mapM canonicalCode
def opCodes (ops : List Op) : Answer := ops.mapM opCode
def q0 : Qubit := .line 0
def q1 : Qubit := .line 1
def oneQubit (j : Json) : Answer :=
  let m := matrix j["mat"]
  let atol := valueOr "atol" (.int 0) j
  let onLine (gs : List (Gate Number)) : List Op := gs.map fun g => .gate g [q0]
  match j["f"] with
  | "rotations" => .ok ((rotations atol m).map fun (p,h) => (p.name,fJson h))
  | "gates" => canonicalCodes (onLine (gates atol m))
  | "phased_x_z" => canonicalCodes (onLine (phasedXZ atol m))
  | "turns" => .ok (anglesJson (turns m))
  | _ =>
    let (a,b) := Spectral.ofTwoRows m
    .ok (.obj [("ok",(Spectral.mapValues id m).close .usual m),("prod",a*b),("sum",a+b)])
def madeOf (ops : List Op) (m : Mat Number) : Outcome Bool := do
  let u ← (← Circuit.ofOps ops).unitary .sorted [q0,q1] true
  .ok (u.closeUpToPhase ⟨.float 1e-5,.float 1e-6⟩ m)
def twoQubit (j : Json) : Answer := do
  let coef := j["coef"]
  let coefficients : Number × Number × Number := (coef[0],coef[1],coef[2])
  let isPartial := j["partial"].truthy
  let wanted : Outcome (Mat Number) := match j["mat"]? with
    | some m => .ok m
    | none => do
      let g ← gate j["gate"]
      g.orRefuse .unitary g.matrix?
  let shown (make : Mat Number → Outcome (List Op)) : Answer := do
    let m ← wanted
    let ops ← make m
    .ok (.obj [("two",← canonicalCodes (ops.filter fun op => op.qubits.length == 2)),("ok",← madeOf ops m)])
  match j["f"] with
  | "cz" => shown (TwoQubit.operations isPartial TwoQubit.tolerance (valueOr "clean" true j) q0 q1)
  | "ion" => shown (ionOperations tolerance q0 q1)
  | "nonlocal" => opCodes (interactions isPartial tolerance q0 q1 coefficients)
  | _ => opCodes (ionInteractions tolerance q0 q1 coefficients)
def circuitState (how : String) (c : Circuit Op) : Answer :=
  match how with
  | "two" => do
    let codes ← (c.operations.filter fun op => 2 ≤ op.qubits.length).mapM canonicalCode
    .ok (.obj [("two",Text.sort codes)])
  | "canon" => c.moments.mapM fun m => do .ok (Text.sort (← m.ops.mapM canonicalCode))
  | _ => c.moments.mapM fun m => opCodes m.ops
def equivalent (a b : Circuit Op) : Answer := do
  let qs := Qubit.distinct (a.qubits ++ b.qubits)
  let u ← a.unitary .sorted qs true
  let v ← b.unitary .sorted qs true
  .ok (u.closeUpToPhase ⟨.float 1e-5,.float 1e-6⟩ v)
def optimizerPass (r : DeviceRules Op) (s : Step) (c : Circuit Op) : Circuit.Edit Op Unit :=
  let kw := s[0]
  let small : Number := .float 1e-8
  let ignore := valueOr "ignore_failures" false kw
  let isPartial (default : Bool) : Bool := valueOr "allow_partial_czs" default kw
  match s.name with
  | "drop_empty" => Cleaning.dropEmpty r c
  | "drop_negligible" => Cleaning.dropNegligible (valueOr "tolerance" small kw) r c
  | "expand" => (expandAll fun op => match kw["keep"] with
    | .str k => op.hasGateKind k
    | _ => false).run c
  | "eject_z" => EjectZ.run (valueOr "tolerance" (.float 0.0) kw) r c
  | "eject_paulis" => EjectPauli.run (valueOr "tolerance" small kw) r c
  | "merge_1q" => intoMatrices.run c
  | "merge_1q_rewrite" => (replacer fun _ ops => .ok (ops.drop (ops.length-1))).run c
  | "merge_1q_synth" => (replacer (bySynthesis fun _ => [.H])).run c
  | "merge_1q_both" => (c,.error (.value "Can't specify both rewriter and synthesizer."))
  | "merge_1q_pxz" => (intoPhasedXZ (valueOr "atol" small kw)).run c
  | "merge_interactions" => (MergeInteractions.pass (isPartial true) (valueOr "tolerance" small kw)).run c
  | "to_cz" => (toPhases ignore (isPartial false)).run c
  | "to_xmon" => (toXmon ignore).run c
  | "to_neutral" => (toNeutralAtom ignore).run c
  | "to_clifford" => (toCliffords ignore (valueOr "atol" (.int 0) kw)).run c
  | "to_phasors" => (toPhasors ignore (valueOr "keep_clifford" false kw) (valueOr "atol" (.int 0) kw)).run c
  | _ => (c,fails .key)
def optimizeRequest (j : Json) : Answer := do
  let b ← boundCircuit j["c"]
  let (last,steps) := j["passes"].elems.foldl (fun (acc : Circuit Op × List Json) p =>
    let (c,out) := optimizerPass b.device.rules (.ofJson p) acc.1
    (c,acc.2 ++ [settle (do
      out
      circuitState (valueOr "how" "full" j) c)])) (b.circuit,[])
  .ok (.obj (("steps",steps) :: if j["check"].truthy then [("equivalent",settle (equivalent b.circuit last))] else []))

/-! ## Requests about conversions of circuits -/
def convertRequest (j : Json) : Answer := do
  let b ← boundCircuit j["c"]
  let c := b.circuit
  let how := valueOr "how" "canon" j
  let atol : Number := .float 1e-8
  let shown (d : Outcome (Circuit Op)) : Answer := do
    let d ← d
    .ok (.obj [("c",← circuitState how d),("equivalent",settle (equivalent c d))])
  match j["f"] with
  | "xmon" => do
    let d ← Xmon.optimize (valueOr "partial" false j) b.device.rules c
    let target ← match j["device"] with
      | .null => .ok b.device
      | v => device v
    let ops ← d.operations.mapM fun op => op.withQubits (op.qubits.map (qubitMapping j["map"]))
    let d ← Circuit.ofTree target.rules (.node (ops.map .leaf)) .earliest
    if j["map"]?.isSome then circuitState how d else shown (.ok d)
  | "ion" => shown (Ion.convertCircuit (valueOr "ignore" false j) c)
  | "ion_device" => shown (Ion.convertCircuit false c)
  | "clifford" => shown (PauliPhase.CliffordMerge.optimize atol c)
  | "pauli" => shown (PauliPhase.optimizeStrings (valueOr "move" true j) atol c)
  | "paulistring" => shown (PauliPhase.optimize (valueOr "merge" true j) atol (valueOr "repeat" 10 j) c)
  | "gate_set" => shown (PauliPhase.convert (!valueOr "no_clifford" false j) atol c)
  | _ => do
    let (left,right) ← PauliPhase.separate (valueOr "leave" true j) atol c
    .ok (.obj [("left",← circuitState how left),("right",← circuitState how right)])

/-! ## Requests about devices -/
def unitJson (r : Check) : Answer := r.map fun _ => .null
def askDevice (d : Device Number) (s : Step) : Answer :=
  let present (q : Qubit) : Json := if (d.qubits?.getD []).contains q then q else .null
  let filtered (p : Int → Int → Bool) : Answer := match d with
    | .xmon x => .ok (Qubit.sort (x.qubits.filter fun q => match q with
      | .grid r c => p r c
      | _ => false))
    | _ => noAttribute
  match s.name with
  | "str" => d.text
  | "repr" => .ok d.structural
  | "validate_op" => do unitJson (d.checkOp (← operation s[0]))
  | "validate_gate" => do unitJson (d.checkGate (← gate s[0]))
  | "validate_moment" => do unitJson (d.rules.checkMoment (← moment s[0]))
  | "validate_circuit" => do unitJson (d.rules.checkCircuit (← circuit s[0]))
  | "can_add" => do d.rules.canAdd (← operation s[0]) (← moment s[1])
  | "duration" => do .ok (← d.duration (← operation s[0])).structural
  | "decompose" => do canonicalCodes (← (← d.rules.decompose (← operation s[0])).flatten)
  | "neighbors" => d.neighborsOf s[0]
  | "at" => match d, (s[0] : List Int) with
    | .xmon _, [r,c] => .ok (present (.grid r c))
    | .ion _, [x] => .ok (present (.line x))
    | .xmon _, _ | .ion _, _ => fails .type
    | _, _ => noAttribute
  | "row" => filtered fun r _ => r == s[0]
  | "col" => filtered fun _ c => c == s[0]
  | "distance" => match d, qubit s[0], qubit s[1] with
    | .neutralAtom _, p@(.grid ..), q@(.grid ..) => .ok (fJson (NeutralAtomDevice.distance p q))
    | _, _, _ => noAttribute
  | "qubits" => match d.qubits? with
    | some qs => .ok (Qubit.sort qs)
    | none => noAttribute
  | "eq" => do .ok (equalityAndHash (d == (← device s[0])))
  | _ => noAttribute
def deviceRequest : Handler := fun j => do .ok (asked (askDevice (← device j["d"])) j)

/-! ## Requests about schedules and messages -/
open Json
def scheduled (j : Json) : Outcome (Scheduled Number) := do
  .ok ⟨⟨j[1]⟩,⟨j[2]⟩,← operation j[0]⟩
def scheduledTexts (xs : List (Scheduled Number)) : Json := strs (xs.map Scheduled.text)
def scheduleOf (d : Device Number) (j : Json) : Outcome (Schedule Number) := do
  .ok (.ofList d (← j.elems.mapM scheduled))
def scheduleQuery (j : Json) : ScheduleQuery Number where
  time := ⟨j["time"]⟩
  duration := ⟨valueOr "duration" (.int 0) j⟩
  qubits := j["qubits"]
  countStarting := valueOr "include_query_end_time" false j
  countEnding := valueOr "include_op_end_times" false j
def messagesJson (s : Schedule Number) : Answer := do
  .ok ((← s.toMessages).map fun m => plainDocument m.toDocument)
def scheduleStep (s : Schedule Number) (q : Step) : Schedule Number × Answer :=
  let ask (r : Answer) : Schedule Number × Answer := (s,r)
  let time (k : Nat) : Timestamp Number := ⟨q[k]⟩
  match q.name with
  | "include" => match scheduled q[0] with
    | .error f => (s,.error f)
    | .ok x => (s.insert x).map id unitJson
  | "exclude" => match scheduled q[0] with
    | .error f => (s,.error f)
    | .ok x => (s.erase x).map id fun found => .ok (.bool found)
  | "query" => ask (.ok (scheduledTexts (s.query (scheduleQuery q[0]))))
  | "at" => ask (.ok (scheduledTexts (s.at' (time 0))))
  | "slice" => ask (if q[2].truthy then .error (.value "Step not supported.")
    else .ok (scheduledTexts (s.during (time 0) (time 1))))
  | "same_time" => ask (do .ok (scheduledTexts (s.sameTime (← scheduled q[0]))))
  | "circuit" => ask (do momentsJson (← s.toCircuit))
  | "eq" => ask (do .ok (equality (s.beq (← scheduleOf s.device q[0]))))
  | "validate" => ask (unitJson (s.device.checkSchedule s))
  | "validate_op" => ask (do unitJson (s.device.checkScheduled s (← scheduled q[0])))
  | "protos" => ask (messagesJson s)
  | "op_eq" => ask (do
    let a ← scheduled q[0]
    .ok (equality (a == (← scheduled q[1])) ++ [str a.text,str a.structural]))
  | _ => ask noAttribute
def scheduleRequest : Handler := fun j => do
  stepwise scheduleStep (fun r s => .ok (.obj [("r",r),("s",scheduledTexts s.ops)]))
    (← scheduleOf (← device j["device"]) j["init"]) j
def momentSchedule : Handler := fun j => do
  let s ← Schedule.ofCircuit (← device j["device"]) (← circuit j["c"])
  .ok (.obj [("s",scheduledTexts s.ops),("c",← momentsJson (← s.toCircuit))])
def hexText (data : List Nat) : String := String.ofList (data.flatMap (Text.hex 2))
def bytesOfHex : List Char → List Nat
  | a :: b :: r => Json.hexNat [a,b] :: bytesOfHex r
  | _ => []
def pictureJson (text : String) : Json :=
  let marks := XmonDevice.letters ((Text.lines (Text.trim text)).map Text.trim)
  let names := Text.sort ((marks.map fun (ch,_) => String.singleton ch).eraseDups)
  .arr [marks.map (·.2),names.map fun name =>
    (name,Qubit.sort ((marks.filter fun (ch,_) => String.singleton ch == name).map (·.2)))]
def protoRequest : Handler := fun j =>
  let v := j["v"]
  match j["f"] with
  | "to" => do .ok (plainDocument (← WireOp.ofGate (← gate v) v["q"]).toDocument)
  | "from" => do structuralOf (← WireOp.ofDocument v).toOperation
  | "native" => do .ok (Conversion.isXmon (← operation v))
  | "neutral_native" => do Conversion.isNeutralAtom (← operation v)
  | "schedule_from" => do .ok (scheduledTexts (← Schedule.ofDocuments (← device j["device"]) v.elems).ops)
  | "pack" => do .ok (hexText (← Packing.pack (← Packing.ofDocument v)))
  | "unpack" => do
    let results ← Packing.unpack (bytesOfHex j["hex"].text.toList) j["reps"] j["sizes"]
    .ok (results.map fun (k,rows) => (k,rowsJson rows))
  | "parse_device" => .ok (pictureJson v.text)
  | _ => noAttribute

/-! ## Requests about lines on chips -/
open LinePartition Greedy
variable (j : Json)
def site : Site := match qubit j with
  | .grid r c => ⟨r,c⟩
  | _ => ⟨0,0⟩
instance : Legible Site := ⟨site⟩
instance : Writable Site := ⟨fun s => s.text⟩
def chip : Outcome Chip := match j["d"]? with
  | some d => do .ok (((← device d).qubits?.getD []).filterMap fun q => (Site.ofQubit q).toOption)
  | none => .ok j["qubits"]
def lineJson (line : List Site) : Answer := do .ok (line,← Line.drawing line)
def heuristic : String → Greedy.Heuristic
  | "few" => .fewestNeighbors
  | _ => .largestArea
def cooling : Cooling Number :=
  let usual : Cooling Number := .slow
  { initial := valueOr "temp_initial" usual.initial j
    final := valueOr "temp_final" usual.final j
    factor := valueOr "cooling_factor" usual.factor j
    repeats := valueOr "repeat" usual.repeats j }
abbrev Script := List Int × List Number
def nextMove (x : Int) : StateT Script Outcome Int := do
  match ← get with
  | (m :: ms,ss) =>
    set (ms,ss)
    return x+m
  | _ => throw (.bare .stopped)
def nextSample : StateT Script Outcome Number := do
  match ← get with
  | (ms,s :: ss) =>
    set (ms,ss)
    return s
  | _ => throw (.bare .stopped)
def annealRequest : Answer := do
  let cost (x : Int) : Number := .int (x - j["target"]).natAbs
  let ((best,rows),_) ←
    (Annealing.minimize (cooling j["kw"]) cost nextMove nextSample j["x"]).run (j["moves"],j["samples"])
  .ok (.obj [("best",best),("trace",.arr (rows.map fun r =>
    .arr [r.solution,fJson r.temperature,.num r.cost,fJson r.probability,r.accepted]))])
def nextBit : StateT (List Bool) Id Bool := do
  match ← get with
  | b :: bs =>
    set bs
    return b
  | [] => return false
def forceRequest : Answer := do
  let (r,_) := (force nextBit j["seqs"] j["edge"]).run.run j["bits"]
  .ok (← r)
def placementRequest : Handler := fun j => do
  let c ← chip j
  let start := site j["start"]
  let onChip {α : Type} (x : Outcome α) : Outcome α :=
    if c.contains start then x else .error (.value "Starting qubit must be a qubit on the chip")
  match j["f"] with
  | "line" => do lineJson (← place c j["n"] (valueOr "algo" "best" j))
  | "adjacency" => .ok ((Site.sort c).map fun s => (s,Chip.neighbors c s))
  | "near" => .ok (Chip.around j["q"])
  | "search" => do
    let line ← search (heuristic j["algo"]) c start
    .ok (line,line)
  | "path" => onChip (let a := site j["a"]
    let b := site j["b"]
    if c.contains a && c.contains b then .ok (detour c a b j["used"])
    else fails .key)
  | "expand" => onChip (let line : List Site := j["seq"]
    if line.length < 2 || line.all c.contains then .ok (expand c line) else fails .key)
  | "best_of" => do lineJson (← Line.best j["lines"] j["n"])
  | "accept" => do
    let num (i : Nat) : Number := j["a"][i]
    let (accepted,p) ← Annealing.accept (num 0) (num 1) (num 2)
    .ok (accepted,fJson p)
  | "anneal" => annealRequest j
  | "force_edge" => forceRequest j
  | "initial" =>
    let s := initial c
    .ok (s.lines,s.edges)
  | "cost" => .ok (fJson (cost c ⟨j["seqs"],[]⟩))
  | "normalize" => .ok (Edge.normalize j["edge"])
  | "index_2d" => locate j["q"] j["seqs"]
  | _ => noAttribute
def cycle {α : Type} (xs : List α) (default : α) (k : Nat) : α := xs.getD (k % xs.length) default
def rollsOf : Rolls Number where
  ints := cycle (valueOr "ints" [0] j) 0
  reals := cycle (valueOr "floats" [.float 0.5] j) (.float 0.5)
def searchTrace (rows : List (Annealing.Row Number LinePartition.State)) : Json :=
  if j["trace"].truthy then .arr (rows.map fun r =>
    .arr [r.solution.lines,fJson r.temperature,fJson r.cost,fJson r.probability,r.accepted])
  else .arr []
def annealSearch : Handler := fun j => do
  let c ← chip j
  let rolls := rollsOf j
  let found := (search c (cooling j["kw"])).run rolls
  match j["f"] with
  | "moves" => do
    let start := initial c
    let step : LinePartition.State → Rolling Number LinePartition.State :=
      if j["many"].truthy then moveSome else move
    let (_,_,out) ← (List.range j["n"]).foldlM (fun (s,r,out) _ => do
      let (s,r) ← (step s).run r
      Except.ok (s,r,s.lines :: out)) (start,rolls,[start.lines])
    .ok out.reverse
  | "search" => do
    let ((s,rows),_) ← found
    .ok (.obj [("seqs",s.lines),("trace",searchTrace j rows)])
  | "place" => do
    let ((s,rows),_) ← found
    .ok (.obj [("line",← Line.best s.lines j["n"]),("trace",searchTrace j rows)])
  | _ => noAttribute
end QuantumCircuits.Service
