import QuantumCircuits.Service.Circuits
import QuantumCircuits.Simulation.Workspace
import QuantumCircuits.Simulation.Sharded

/-! # Requests about plain values -/
namespace QuantumCircuits.Service
open LinearDict Angle
section
abbrev Combination := LinearDict String (Scalar Number)
variable (d : Combination)
def comboText : String := d.structural "LinearDict" Text.quoted
def refusal (v : String) : Fault :=
  .value (v ++ " is not compatible with linear combination " ++ (format? id "" d).getD "")
def changed : LinearDict.Step String (Scalar Number) → Combination × Answer
  | (d,none) => (d,.ok .null)
  | (d,some v) => (d,.error (refusal d v))
def answered : LinearDict.Step String (Scalar Number) → Combination × Answer
  | (e,none) => (d,.ok (comboText e))
  | (e,some v) => (d,.error (refusal e v))
def combinationStep (s : Step) : Combination × Answer :=
  let other := ofPairs s[0]
  let query (j : Json) : Combination × Answer := (d,.ok j)
  match s.name with
  | "set" => changed (d.set s[0] s[1])
  | "get" => query (d.getD s[0] s[1])
  | "item" => query (d.get s[0])
  | "has" => query (d.contains s[0])
  | "del" => (d.remove s[0],.ok .null)
  | "update" => changed (d.update s[0])
  | "clean" => ({ d with terms := d.terms.filter fun (_,c) => !decide (c.abs ≤ s[0]) },.ok .null)
  | "iadd" => changed (d.addInPlace other)
  | "isub" => changed (d.subInPlace other)
  | "add" => answered d (d.add other)
  | "sub" => answered d (d.sub other)
  | "neg" => answered d d.negate
  | "imul" => (d.scaleInPlace s[0],.ok .null)
  | "mul" | "rmul" => answered d (d.scale s[0])
  | "div" =>
    let a := scalar s[0]
    if a.isZero then (d,fails .zeroDivision) else answered d (d.scale (1/a))
  | "eq" => query (d.beq other)
  | "ne" => query (!d.beq other)
  | "approx" => query (.bool (d.near (fun c => decide (c.abs < s[1].number)) other))
  | "len" => query d.size
  | "bool" => query (!d.isEmpty)
  | "items" => query d.items
  | "values" => query (d.items.map Prod.snd)
  | "keys" => query (d.keys ++ "|" :: d.keys)
  | "copy" => answered d d.copy
  | "fromkeys" =>
    let c := Scalar.complex (scalar s[1]).toComplex
    query (comboText (ofPairs ((s[0] : List String).map (·,c))))
  | "format" => (d,match format? id s[0] d with
    | some t => .ok t
    | none => fails .value)
  | "str" => query ((format? id ".3f" d).getD "")
  | _ => (d,noAttribute)
def linearDict : Handler := fun j => do
  let admits : Admission String (Scalar Number) := match j["valid"]? with
    | some v => fun _ k => (v : List String).contains k
    | none => anything
  match build admits anything j["init"] with
  | (d,some v) => .error (refusal d v)
  | (d,none) =>
    let seen (r : Json) (d : Combination) : Answer := .ok (.obj [("r",r),("s",comboText d)])
    .ok (.obj [("init",comboText (ofPairs j["init"])),("steps",← stepwise combinationStep seen d j)])
end
section
inductive TimeValue where
  | duration (d : Duration Number)
  | timestamp (t : Timestamp Number)
  | raw (j : Json)
def timeValue (j : Json) : TimeValue :=
  match j["t"]? with
  | some (.str "d") => .duration (.ofUnits j["picos"] j["nanos"])
  | some (.str "t") => .timestamp (.ofUnits j["picos"] j["nanos"])
  | _ => .raw j
instance : Writable (Duration Number) := ⟨fun d => d.structural⟩
instance : Writable (Timestamp Number) := ⟨fun t => t.structural⟩
def timeOperation (f : String) (a b : TimeValue) : Answer :=
  let mismatch : Answer := fails .type
  let order (x y : Number) : Bool := match f with
    | "lt" => x < y
    | "gt" => y < x
    | "le" => ¬y < x
    | _ => ¬x < y
  let same : Bool := match a, b with
    | .duration x, .duration y => x == y
    | .timestamp x, .timestamp y => x == y
    | .raw x, .raw y => x.same y
    | _, _ => false
  match f with
  | "eq" | "hash" => .ok same
  | "ne" => .ok (!same)
  | "add" => match a, b with
    | .duration x, .duration y => .ok (x+y)
    | .timestamp t, .duration d | .duration d, .timestamp t => .ok (t.after d)
    | _, _ => mismatch
  | "sub" => match a, b with
    | .duration x, .duration y => .ok (x-y)
    | .timestamp t, .duration d => .ok (t.before d)
    | .timestamp t, .timestamp u => .ok (t.since u)
    | _, _ => mismatch
  | "mul" => match a, b with
    | .duration d, .raw r | .raw r, .duration d => match r.number? with
      | some k => .ok (d.scale k)
      | none => mismatch
    | _, _ => mismatch
  | "div" => match a, b with
    | .duration d, .raw r => match r.number? with
      | some k => if k.isZero then fails .zeroDivision else .ok (d.divide k)
      | none => mismatch
    | .duration x, .duration y =>
      if y.picos.isZero then fails .zeroDivision else .ok (x.picos/y.picos)
    | _, _ => mismatch
  | _ => match a, b with
    | .duration x, .duration y => .ok (order x.picos y.picos)
    | .timestamp x, .timestamp y => .ok (order x.picos y.picos)
    | _, _ => mismatch
def time : Handler := fun j =>
  match j["f"] with
  | "show" => match timeValue j["a"] with
    | .duration d => .ok (.obj [("picos",d.picos),("str",d.text),("repr",d.structural),("nanos",d.nanos)])
    | .timestamp t => .ok (.obj [("picos",t.picos),("str",t.text),("repr",t.structural)])
    | .raw _ => noAttribute
  | f => timeOperation f (timeValue j["a"]) (timeValue j["b"])
end
def angle : Handler := fun j =>
  let given (k : String) : Option (Param Number) := j["args"][k]?.bind param?
  let chosen := chosen (given "half_turns") (given "rads") (given "degs") ((given "default").getD (.num (.float 1.0)))
  match j["f"] with
  | "canon" => .ok (param j["v"]).canonicalHalfTurns
  | "chosen" => chosen
  | "chosen_canon" => chosen.map fun p => paramJson p.canonicalHalfTurns
  | "prob" => (probability j["name"] j["v"].number).map nJson
  | "period" => commonPeriod periodTolerance (j["v"] : List Number)
  | _ => noAttribute
def periodic : Handler := fun j =>
  let read : Json → Outcome (PeriodicValue Number)
    | .arr [x,p] => if p.number.isZero then fails .zeroDivision else .ok (.make x p)
    | _ => fails .type
  do
    let a ← read j["a"]
    let b ← read j["b"]
    let eq := a == b
    .ok (.obj [("a",a.value),("b",b.value),("eq",eq),("ne",!eq),("hash",eq),
      ("approx",a.near (valueOr "atol" (.float 1e-8) j) b),("param",a.isParameterized)])

/-! ## Requests about states and simulations -/
open StateVector Display Json PlainPow
def certainly {α : Type} (x : ExceptT Fault Id α) : Outcome α := x.run
def digitsOf : Precision → Nat
  | .single => 4
  | .double => 6
variable (k : Nat) (p : Precision) (d : Device Number) (j : Json)
def fJsonIn (x : Number) : Json := .str (Written.rounded k x.toFloat)
def cJsonIn (z : Cpx Number) : Json := .str (cText k z)
def tensorJsonIn (t : Tensor Number) : Json := nested (cJsonIn k) t.shape t.entries.toList
def matJsonIn (a : Mat Number) : Json := tensorJsonIn k ⟨[a.rows,a.cols],a.entries⟩
def flatJsonIn (xs : Array (Cpx Number)) : Json := .arr (xs.toList.map (cJsonIn k))
def measuredJson (r : List Bool × Tensor Number) : Answer :=
  .ok (.obj [("bits",r.1.map Bool.toNat),("state",tensorJsonIn k r.2)])
def precisionOf : Precision := if j["single"].truthy then .single else .double
def toSingle (x : Number) : Number := .float x.toFloat.toFloat32.toFloat
def inPrecision (t : Tensor Number) : Tensor Number := match p with
  | .single => t.map fun z => ⟨toSingle z.re,toSingle z.im⟩
  | .double => t.map fun z => ⟨.float z.re.toFloat,.float z.im.toFloat⟩
def arrayIn : Tensor Number := inPrecision p (tensor j)
def initialOf (p : Precision) (j : Json) : InitialState Number := match j with
  | .num (.int k) => .basis k
  | .bool b => .basis (if b then 1 else 0)
  | .arr _ => .array (arrayIn p j) p
  | _ => .other
def startOf : InitialState Number := match j["initial"] with
  | .null => .basis 0
  | s => initialOf p s
def otherPrecision : Precision → Precision
  | .single => .double
  | .double => .single
def waveRequest : Handler := fun j =>
  let p := precisionOf j
  let k := digitsOf p
  let state := arrayIn p j["state"]
  let shaped : Tensor Number := match j["shape"]? with
    | some s => state.reshape s
    | none => state
  let indices : List Int := j["indices"]
  let n : Nat := j["n"]
  let initial := initialOf p j["state"]
  let shape := if state.shape.isEmpty then [2^n] else state.shape
  match j["f"] with
  | "dirac" => .ok (Dirac.text (valueOr "decimals" 2 j) state.entries)
  | "bloch" => do .ok ((← bloch j["index"] state.entries).map (fJsonIn 4))
  | "density" => do
    .ok (matJsonIn k (← densityMatrix j["indices"] state.entries))
  | "valid" => do .ok (tensorJsonIn k ⟨shape,← initial.vector n p⟩)
  | "valid_dtype" => do .ok (tensorJsonIn k ⟨shape,← initial.vector n (otherPrecision p)⟩)
  | "valid_density" => do .ok (matJsonIn k (← initial.density n p))
  | "sample" => do .ok (rowsJson (← certainly (sample indices j["reps"] state.entries)))
  | "measure" => do measuredJson k (← certainly (measureShaped indices shaped))
  | "sample_density" => do .ok (rowsJson (← certainly (DensityMatrix.sample indices j["reps"] shaped)))
  | "measure_density" => do measuredJson k (← certainly (DensityMatrix.measure indices shaped))
  | "probs" => do
    let n ← numQubits state.entries.size
    .ok ((probabilities n (indices.map Int.toNat) state.entries).map (fJsonIn k))
  | "density_qubits" => DensityMatrix.numQubits j["shape"]
  | _ => fails .key
structure Bench where
  simulator : Simulator Number (Tensor Number) Id
  reader : Display.Reader Number (Tensor Number) Id
  precision : Precision
  isVector : Bool
  replace : Nat → InitialState Number → Tensor Number → Outcome (Tensor Number)
  sweepArray : Option (Circuit Op → QubitOrder → Tensor Number → List (Resolver Number) → Outcome (List (Tensor Number))) :=
    none
namespace Bench
def ofSimulator (sim : Simulator Number (Tensor Number) Id) (reader : Display.Reader Number (Tensor Number) Id)
    (p : Precision) (isVector : Bool) : Bench := ⟨sim,reader,p,isVector,fun n s _ => sim.start n s,none⟩
def vector : Bench :=
  { Bench.ofSimulator (WaveFunction.simulator p) vectorReader p true with
    sweepArray := some fun c order a rs => (certainly (Workspace.sweep p c order a rs)).map (·.1) }
def mixed : Bench :=
  { Bench.ofSimulator (MixedState.simulator p) (densityReader p) p false with
    sweepArray := some fun c order a rs => (certainly (MixedState.sweepArray p c order a rs)).map (·.1) }
def sharded (wanted least : Nat) : Bench :=
  let sim : Simulator Number (Stepper Number) Id := Sharded.simulator d wanted least
  let cut (n : Nat) (t : Tensor Number) : Stepper Number := .ofVector n (Stepper.splitOf n wanted least) t.entries
  let whole (s : Stepper Number) : Tensor Number := ⟨Tensor.qubitShape s.numQubits,s.flatten⟩
  { simulator :=
      { check := sim.check
        start := fun n s => do .ok (whole (← sim.start n s))
        advance := fun qs perform t m => do
          let (s,report) ← sim.advance qs perform (cut qs.length t) m
          return (whole s,report)
        sample := fun indices reps t => sim.sample indices reps (cut t.rank t)
        samplesAtEnd := sim.samplesAtEnd
        repeatsKeys := sim.repeatsKeys }
    reader := vectorReader
    precision := .single
    isVector := true
    replace := fun n s t => do .ok (whole (← (cut n t).reset s)) }
def stateJson (b : Bench) (t : Tensor Number) : Json :=
  let k := digitsOf b.precision
  if b.isVector then flatJsonIn k t.entries
  else
    let size := 2^(t.rank/2)
    matJsonIn k (t.toMat size size)
end Bench
def badPrecision (separator : String) : Fault :=
  .value s!"dtype must be complex64 or complex128{separator}<class 'numpy.int32'>"
def shardedBench : Outcome Bench :=
  let shards := j["shards"].int?
  let least := (j["min_shard"].int?).getD 18
  if (shards.getD 1) ≤ 0 || least < 0 then fails .assertion
  else .ok (.sharded d (Nat.log2 (shards.getD 1).toNat) least.toNat)
def bench : Outcome Bench :=
  match j["sim"] with
  | "xmon" => shardedBench d j
  | "sparse" => .ok (.vector (precisionOf j))
  | "density" => .ok (.mixed (precisionOf j))
  | "bad_dtype" => .error (badPrecision " but was ")
  | "bad_dtype_density" => .error (badPrecision ", was ")
  | _ => fails .unimplemented
def reportJson (r : Report) : Json := .obj (r.map fun (k,bits) => (k,bits.map Bool.toNat))
def histJson (t : Trial Number) : Answer := do
  .ok (← t.measurements.sorted.mapM fun (k,_) => do .ok (k,(← t.histogram k).mergeSort fun a b => a.1 ≤ b.1))
def repsOf : Int := valueOr "reps" 1 j
def sweepResolvers : Outcome (List ShownResolver) := match j with
  | .arr xs => .ok (xs.map fun (x : Json) => shownOf x)
  | j => toResolvers j
def valuesJson (vs : Display.Values Number) : Json :=
  (vs.mergeSort fun a b => Text.le a.1 b.1).map fun (key,v) => (key,cText k v)
def placeIn (qs : Qubits) (q : Qubit) : Outcome Int :=
  if qs.contains q then .ok (qs.idxOf q) else fails .key
def stepsJson (b : Bench) (j : Json) (c : Circuit Op) (qs : Qubits) (start : Tensor Number) : Answer := do
  let shown (t : Tensor Number) (report : Report) (i : Nat) : Outcome (Tensor Number × Json) := do
    let sample ← given "sample" (fun s => do
      .ok (rowsJson (← certainly (b.simulator.sample (← (qubits s).mapM (placeIn qs)) (repsOf j) t)))) j
    let replaced := (j["set"].elems.filter fun e => e[0].toNat == i).map fun e =>
      b.replace qs.length (initialOf b.precision e[1]) t
    let set := match replaced with
      | [] => []
      | r :: _ => [("set",settle (r.map fun _ => null))]
    let next := match replaced with
      | .ok u :: _ => u
      | _ => t
    .ok (next,.obj ([("m",reportJson report),("state",b.stateJson t)] ++ sample ++ set))
  if c.moments.isEmpty then do .ok (.arr [(← shown start [] 0).2])
  else do
    let (_,out) ← c.moments.zipIdx.foldlM (fun (t,out) (m,i) => do
      let (t,report) ← certainly (b.simulator.advance qs true t m)
      let (t,shownStep) ← shown t report i
      Except.ok (t,shownStep :: out)) (start,[])
    .ok out.reverse
def simulateRequest : Handler := fun j => do
  let bound ← boundCircuit j["c"]
  let c := bound.circuit
  let b ← bench bound.device j
  let k := digitsOf b.precision
  let r := resolver j["params"]
  let order ← qubitOrder j["qubit_order"]
  let initial := startOf b.precision j
  match j["f"] with
  | "run" => do
    let t ← certainly (b.simulator.run c r (repsOf j))
    .ok (.obj [("m",measurementsJson t.measurements),("str",t.text),("hist",← histJson t)])
  | "run_sweep" => do
    .ok (← (← sweepResolvers j["sweep"]).mapM fun s => do
      .ok (measurementsJson (← certainly (b.simulator.run c s.resolver (repsOf j))).measurements,s.shown))
  | "final" => do
    let (t,report) ← certainly (b.simulator.simulate c r order initial)
    let qs ← c.orderedQubits order []
    let extras ← if b.isVector then do
        let bloch ← given "bloch" (fun q => do .ok ((← bloch (← placeIn qs q) t.entries).map (fJsonIn 4))) j
        let rho ← given "rho" (fun s => do
          .ok (matJsonIn k (← densityMatrix (some (← (qubits s).mapM (placeIn qs))) t.entries))) j
        .ok (("dirac",.str (Dirac.text (valueOr "decimals" 2 j) t.entries)) :: (bloch ++ rho))
      else .ok []
    .ok (.obj (("m",reportJson report) :: ("str",report.text) :: ("state",b.stateJson t) :: extras))
  | "sweep" => do
    let rs := (← sweepResolvers j["sweep"]).map (·.resolver)
    let states ← match b.sweepArray, initial with
      | some sweep, .array a _ => sweep c order a rs
      | _, _ => rs.mapM fun r => (certainly (b.simulator.simulate c r order initial)).map (·.1)
    .ok (states.map b.stateJson)
  | "steps" => do
    let resolved := Simulator.resolve r c
    b.simulator.check resolved
    let qs ← resolved.orderedQubits order []
    stepsJson b j resolved qs (← b.simulator.start qs.length initial)
  | "displays" => do .ok (valuesJson k (← certainly (compute b.simulator b.reader c r order initial)))
  | "sample_displays" => do .ok (valuesJson k (← certainly (computeSampled b.simulator c r)))
  | _ => fails .key
def sampleRequest : Handler := fun j => do
  let c ← circuit j["c"]
  let one (r : Resolver Number) : Answer := do
    let b := if ← c.hasUnitary then Bench.vector .single else .mixed .single
    .ok (measurementsJson (← certainly (b.simulator.run c r (repsOf j))).measurements)
  match j["sweep"]? with
  | some s => do (← sweepResolvers s).mapM fun r => one r.resolver
  | none => one j["params"]
def displayRequest : Handler := fun j => do
  match ← operation j["o"] with
  | .expectation p samples key =>
    let p := match j["with"]? with
      | some qs => p.withQubits qs
      | none => p
    let start : List Json := [p.structural,key,samples,p.qubits]
    match j["state"]? with
    | none => .ok start
    | some s => do
      let state := (arrayIn .double s).entries
      .ok (start ++ [cJson (← ofVector j["q"] p state),cJson (← ofDensity j["q"] p (outer state))])
  | _ => noAttribute
inductive ComparedResult where
  | final (r : Resolver Number) (report : Report) (state : Array (Cpx Number)) (qs : Qubits) (isVector : Bool)
  | state (state : Array (Cpx Number)) (qs : Qubits) (isVector : Bool)
  | run (t : Trial Number)
  | displays (r : Resolver Number) (vs : Display.Values Number)
def ComparedResult.equals : ComparedResult → ComparedResult → Outcome Bool
  | final r m s qs v, final r' m' s' qs' v' => .ok (r == r' && m.beq m' && s == s' && qs == qs' && v == v')
  | state s qs v, state s' qs' v' => .ok (s == s' && qs == qs' && v == v')
  | run t, run t' => t.compare t'
  | displays r vs, displays r' vs' =>
    .ok (r == r' && vs.length == vs'.length && vs.all fun (k,v) => vs'.lookup k == some v)
  | _, _ => .ok false
def comparedResult (j : Json) : Outcome ComparedResult := do
  let bound ← boundCircuit j["c"]
  let c := bound.circuit
  let b ← bench bound.device j
  let r := resolver j["params"]
  let initial := startOf b.precision j
  match j["f"] with
  | "run" => .ok (.run (← certainly (b.simulator.run c r (repsOf j))))
  | "displays" => .ok (.displays r (← certainly (compute b.simulator b.reader c r .sorted initial)))
  | f =>
    let (t,report) ← certainly (b.simulator.simulate c r .sorted initial)
    .ok (if f.text == "state" then .state t.entries c.sortedQubits b.isVector
      else .final r report t.entries c.sortedQubits b.isVector)
def resultsEqual : Handler := fun j => do
  let same ← (← comparedResult j["a"]).equals (← comparedResult j["b"])
  .ok (.arr [same,!same])
def prettyRequest : Handler := fun j => do
  let (kind,shown) ← match j["k"] with
    | "circuit" => do .ok ("Circuit",← diagramText .null (← circuit j["c"]))
    | "linear_dict" =>
      .ok ("LinearDict",((LinearDict.ofPairs j["init"] : Combination).format? id ".3f").getD "")
    | _ => .ok ("TrialResult",(trialOf j).text)
  .ok (if j["cycle"].truthy then kind ++ "(...)" else shown)

/-! ## Requests about states in shards -/
def stepperStep (s : Stepper Number) (st : Step) : Stepper Number × Answer :=
  match st.name with
  | "w" => become s (s.rotate st[0] st[1] st[2])
  | "phases" => become s (.ok (s.applyPhases st[0]))
  | "measure" =>
    let (b,t) := s.measureWith (.float 0.5) st[0]
    (t,.ok b)
  | "reset" => become s (s.reset (initialOf .single st[0]))
  | "sample" => (s,do .ok (rowsJson (← certainly (s.sample st[0] ((st[1] : Option Int).getD 1)))))
  | _ => (s,noAttribute)
def stepperRequest : Handler := fun j => do
  let n : Nat := j["n"]
  let s ← Stepper.start n (Stepper.splitOf n j["prefix"] j["min_shard"]) (startOf .single j)
  stepwise stepperStep (fun r s => .ok (.obj [("r",r),("s",flatJsonIn 4 s.flatten)])) s j

/-! ## Requests that compare values

Values are listed with their two texts and compared pair by pair. -/
open Text
inductive ComparisonKey where
  | depiction (i : DiagramInfo)
  | depictArgs (a : DiagramArgs)
  | kak (phase : Scalar Number) (coefficients : List Number) (factors : List (Mat Number))
  | raw (j : Json)
  | mixedState (rho : Mat Number) (qs : Qubits)
  | result (isMixed : Bool) (params : Resolver Number) (report : Fields) (state : ComparisonKey)
  | displays (params : Resolver Number) (values : Fields)
  | trial (t : Trial Number)
  | sweep (s : Sweep Number)
  | strategy (s : Strategy)
  | circuit (c : BoundCircuit Number)
def sortPlaces (ps : List (Qubit × Nat)) : List (Qubit × Nat) := ps.mergeSort fun a b => Qubit.le a.1 b.1
def ComparisonKey.equals : ComparisonKey → ComparisonKey → Outcome Bool
  | depiction i, depiction j => .ok (i.symbols == j.symbols && i.exponent == j.exponent && i.connected == j.connected)
  | depictArgs a, depictArgs b => .ok (a.qubits == b.qubits && a.count == b.count && a.unicode == b.unicode
      && a.precision == b.precision && a.places.map sortPlaces == b.places.map sortPlaces)
  | kak p c ms, kak p' c' ms' => .ok (p == p' && c == c' && ms.map Mat.entries == ms'.map Mat.entries)
  | raw j, raw k => .ok (j.same k)
  | mixedState r qs, mixedState r' qs' => .ok (r.toRows == r'.toRows && qs == qs')
  | result d p m s, result d' p' m' s' => do
    .ok (d == d' && p == p' && same (.obj m) (.obj m') && (← s.equals s'))
  | displays p vs, displays p' vs' => .ok (p == p' && same (.obj vs) (.obj vs'))
  | trial s, trial t => s.compare t
  | sweep s, sweep t => .ok (s == t)
  | strategy s, strategy t => .ok (s == t)
  | circuit c, circuit d => .ok (c.beq d)
  | _, _ => .ok false
mutual
def hashable : Sweep Number → Bool
  | .unit => false
  | .zip ss => hashableAll ss
  | .product ss => hashableAll ss
  | _ => true
def hashableAll : List (Sweep Number) → Bool
  | [] => true
  | s :: ss => hashable s && hashableAll ss
end
structure Compared where
  structural : Option String
  text : Option String
  key : ComparisonKey
  hashable : Bool
def Compared.plain (s : String) (key : ComparisonKey) (hashable : Bool) : Compared := ⟨some s,some s,key,hashable⟩
def arrayLiteral : String := s!"np.array({MatText.nestedText (isComplexJson 100 j) (matrix j)})"
def reportText (m : Fields) : String :=
  join " " ((m.mergeSort fun a b => le a.1 b.1).map fun (k,bits) => s!"{k}={bitText (bitsOfJson bits)}")
def resultLiteral (name : String) (params : Resolver Number) (state : String) : String :=
  name ++ "(params=" ++ params.structural ++ ", measurements=\x7b\x7d, final_simulator_state=" ++ state ++ ")"
def mixedStateLiteral : String :=
  "cirq.DensityMatrixSimulatorState(density_matrix=" ++ arrayLiteral j["rho"] ++ ", qubit_map="
    ++ braced ((qubits j["q"]).zipIdx.map fun (q,i) => s!"{q.structural}: {i}") ++ ")"
def kakLiteral : String :=
  let pair (k : String) : String := join "" (j[k].elems.map fun m => s!"        {arrayLiteral m},\n")
  "cirq.KakDecomposition(\n    interaction_coefficients="
    ++ parenthesized (j["coef"].elems.map fun x => x.number.text)
    ++ ",\n    single_qubit_operations_before=(\n" ++ pair "before" ++ "    ),\n    single_qubit_operations_after=(\n"
    ++ pair "after" ++ "    ),\n    global_phase=" ++ (scalar j["phase"]).text ++ ")"
def depictArgsOf : DiagramArgs where
  qubits := j["q"]
  count := j["count"]
  unicode := j["unicode"]
  precision := j["precision"]
  places := j["map"]
def compared : Outcome Compared :=
  let params := resolver j["params"]
  let m := j["m"].fields
  let whenUnmeasured (s : String) : Option String := if m.isEmpty then some s else none
  match j["k"] with
  | "info_args" | "info_args_copy" =>
    let a := depictArgsOf (valueOr "of" j j)
    .ok (.plain a.structural (.depictArgs a) true)
  | "info" => match j["symbols"] with
    | .str _ => .error (.value "Expected a Tuple[str] for wire_symbols but got a str.")
    | ss =>
      let i : DiagramInfo :=
        { symbols := ss
          exponent := match j["exponent"]? with
            | some (.str s) => .text s
            | some e => .param (param e)
            | none => .param (.num (.int 1))
          connected := valueOr "connected" true j }
      .ok (.plain i.structural (.depiction i) true)
  | "kak" => .ok (.plain (kakLiteral j) (.kak j["phase"] j["coef"] (j["before"] ++ j["after"] : List (Mat Number))) true)
  | "sim_result" => .ok ⟨whenUnmeasured (resultLiteral "cirq.SimulationTrialResult" params j["state"].literal),
      some (reportText m),.result false params m (.raw j["state"]),false⟩
  | "density_state" => .ok (.plain (mixedStateLiteral j) (.mixedState j["rho"] j["q"]) false)
  | "density_result" =>
    let s := j["state"]
    let rho := matrix s["rho"]
    let qs := qubits s["q"]
    if rho.entries.size ≠ 2^qs.length*2^qs.length then fails .value
    else .ok ⟨whenUnmeasured (resultLiteral "cirq.DensityMatrixTrialResult" params (mixedStateLiteral s)),
      some (reportText m),.result true params m (.mixedState rho qs),false⟩
  | "displays" =>
    let vs := j["values"].fields
    .ok (.plain s!"cirq.ComputeDisplaysResult(params={params.structural}, display_values={literal (.obj vs)})"
      (.displays params vs) false)
  | "trial" =>
    let t := trialOf j
    .ok ⟨t.structural?,some t.text,.trial t,false⟩
  | "sweep" => do
    let s ← sweep j["s"]
    .ok ⟨some s.structural,some s.text,.sweep s,hashable s⟩
  | "strategy" =>
    let s := Strategy.ofName j["s"]
    .ok ⟨some s.structural,some s.name,.strategy s,true⟩
  | _ => match j["c"]? with
    | some c => do
      let c ← boundCircuit c
      .ok ⟨some c.structural,some (← diagramText .null c.circuit),.circuit c,false⟩
    | none => noAttribute
def upperPairs {α : Type} (xs : List α) : List ((Nat × α) × (Nat × α)) :=
  let xs := xs.zipIdx.map fun (x,i) => (i,x)
  xs.flatMap fun a => (xs.drop a.1).map fun b => (a,b)
def valuesRequest : Handler := fun j => do
  let vs ← j["of"].elems.mapM compared
  let rows ← (upperPairs vs).mapM fun ((i,a),(k,b)) => do
    let same ← if i = k then Except.ok true else a.key.equals b.key
    .ok (same,a.hashable)
  .ok (.obj [("repr",vs.map Compared.structural),("str",vs.map Compared.text),("eq",rows.map (·.1)),
    ("ne",rows.map (!·.1)),("hash",rows.map fun r => if r.1 && r.2 then some true else none)])
def summaryRequest : Handler := fun j => do
  let vs ← j["v"].elems.mapM fun v => do .ok (v[0].toInt,qubits v[1],← (← tree v[2]).flatten)
  let text (v : Int × Qubits × List Op) : String :=
    let upon := parenthesized (v.2.1.map Qubit.structural)
    s!"cirq.PointOptimizationSummary({v.1}, {upon}, {parenthesized (v.2.2.map Operation.structural)})"
  let table (f : Bool → Bool) : Json := vs.map fun a => vs.map fun b => f (a == b)
  .ok (.obj [("repr",vs.map text),("eq",table id),("ne",table not),("hash",vs.map fun _ => true),("other",vs.map fun _ => false)])
end QuantumCircuits.Service
