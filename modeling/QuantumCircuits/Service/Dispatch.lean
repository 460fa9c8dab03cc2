import QuantumCircuits.Protocol
import QuantumCircuits.Service.Devices
import QuantumCircuits.Service.Simulations

/-! # Requests that put questions to things -/
namespace QuantumCircuits
namespace Service
open PlainPow
mutual
def thingOfTree : OpTree Op → Thing
  | .leaf o => .op o
  | .node ts => .seq false (thingsOfTrees ts)
  | .moment m => .seq true (m.ops.map .op)
  | .endless => .text "?"
  | .other _ shown => .text shown
def thingsOfTrees : List (OpTree Op) → List Thing
  | [] => []
  | t :: ts => thingOfTree t :: thingsOfTrees ts
end
variable (j : Json)
def thingAt : Nat → Json → Outcome Thing
  | 0, _ => fails .recursion
  | n+1, j => match j with
    | .null => .ok .nothing
    | .bool b => .ok (.bool b)
    | .num x => .ok (.num (.real x))
    | .str "NI" => .ok .declined
    | .str s => .ok (.text s)
    | .arr xs => do .ok (.seq false (← xs.mapM (thingAt n)))
    | .obj fs => match fs with
      | [("mat",m)] => .ok (.array m)
      | [("ops",t)] => do .ok (thingOfTree (← tree t))
      | [("mix",m)] => do
        .ok (.seq true (← m.elems.mapM fun e => do
          let second ← match e[1] with
            | .arr rows => .ok (.array (Json.arr rows))
            | x => thingAt n x
          .ok (.seq true [← thingAt n e[0],second])))
      | [("kraus",k)] => .ok (.seq true ((k : List (Tensor Number)).map .array))
      | [("ld",d)] => .ok (.combination d)
      | [("tuple",t)] => do .ok (.seq true (← t.elems.mapM (thingAt n)))
      | fs => match j["info"]? with
        | some symbols => do
          .ok (.info (.seq true (← symbols.elems.mapM (thingAt n))) (valueOr "exponent" (.num (.int 1)) j) true)
        | none => match param? j, scalar? j with
          | some p, _ => .ok (.expr p)
          | none, some z => .ok (.num z)
          | none, none => do .ok (.record (← fs.mapM fun (k,v) => do .ok (k,← thingAt n v)))
def thing : Outcome Thing := thingAt nesting j
def objectOf : Outcome Thing := do
  .ok (.object (← j.fields.mapM fun (k,v) => do .ok (k,← thing v)))
def thingJsonAt : Nat → Thing → Answer
  | 0, _ => fails .recursion
  | n+1, t => match t with
    | .declined => .ok (.str "NI")
    | .nothing => .ok .null
    | .bool b => .ok b
    | .num (.real x) => .ok x
    | .num (.complex z) => .ok z
    | .expr p => .ok p
    | .text s => .ok s
    | .array t => .ok t
    | .seq _ xs => xs.mapM (thingJsonAt n)
    | .record fs => do .ok (.obj (← fs.mapM fun (k,v) => do .ok (k,← thingJsonAt n v)))
    | .op o => opText o
    | .info symbols e connected => do
      .ok (.obj [("symbols",← thingJsonAt n symbols),("exponent",e),("connected",connected)])
    | .combination ts => .ok (ts.mergeSort fun a b => Text.le a.1 b.1)
    | .object _ => .ok (.str "Stub")
def thingJson (t : Thing) : Answer := thingJsonAt nesting t
def truthJson : Thing → Json
  | .nothing => .null
  | t => .bool t.truthy
def orItself (v : Thing) : Option Thing → Answer
  | some t => thingJson t
  | none => match v with
    | .op o => opText o
    | v => .ok v.shown
def decomposeThing (v : Thing) : Answer := do
  if j["keep"]?.isNone && j["stuck"]?.isSome then
    .error (.value ("Must specify 'keep' if specifying 'on_stuck_raise', because it's not possible to get stuck if you don't "
      ++ "have a criteria on what's acceptable to keep."))
  let rules (k : String) : Outcome (Thing → Outcome Thing) := do
    let trees ← j[k].fields.mapM fun (text,t) => do Except.ok (text,thingOfTree (← tree t))
    .ok fun t => .ok ((trees.lookup t.shown).getD .declined)
  let keep := j["keep"]?.map fun (kept : Json) o => (kept : List String).contains (Thing.op o).shown
  let stuck (t : Thing) : Option Fault := match j["stuck"]? with
    | some (.str "none") => none
    | some (.str "value") => some (.value "stuck!")
    | some (.str "func") => some ⟨.key,some (Text.quoted t.shown)⟩
    | _ => some (.value ("Operation doesn't satisfy the given `keep` but can't be decomposed: " ++ t.literal))
  (← (Thing.expander (← rules "intercept") (← rules "fallback") keep stuck).expand [v]).mapM thingJson
def flatThing : Thing → Answer
  | .array t => .ok (flatJson t.entries)
  | t => thingJson t
def protocolRequest : Handler := fun j => do
  let v ← match j["v"]? with
    | some v => thing v
    | none => objectOf j["m"]
  let default ← j["default"]?.mapM thing
  let shown (r : Outcome Thing) : Answer := do thingJson (← r)
  let truth (r : Outcome Thing) : Answer := do .ok (truthJson (← r))
  let axes : List Nat := j["axes"]
  let n : Nat := j["n"]
  let state (k : Nat) : Outcome (Tensor Number) :=
    let entries := (j["state"] : List (Cpx Number)).toArray
    if entries.size ≠ 2^k then fails .value else .ok ⟨Tensor.qubitShape k,entries⟩
  match j["f"] with
  | "unitary" => shown (v.unitary default)
  | "inverse" => shown (v.inverse default)
  | "mixture" => shown (v.mixture default)
  | "mixture_channel" => shown (v.mixtureChannel default)
  | "channel" => shown (v.channel default)
  | "decompose_once" | "once_qubits" => shown (v.decomposeOnce default)
  | "measurement_key" => shown (v.measurementKey default)
  | "has_unitary" => truth v.hasUnitary
  | "has_mixture" => truth v.hasMixture
  | "has_mixture_channel" => truth v.hasMixtureChannel
  | "has_channel" => truth v.hasChannel
  | "is_measurement" => truth v.isMeasurement
  | "is_parameterized" => truth v.isParameterized
  | "validate_mixture" => do
    v.validateMixture
    .ok .null
  | "trace" => do .ok (fJson (← v.traceBound))
  | "pauli" => shown (v.pauliExpansion default)
  | "pow" => do
    let x ← thing j["x"]
    match v, x.isNumber 1 with
    | .expr p, true => .ok p.text
    | _, _ => shown (v.pow x default)
  | "mul" => do
    let rhs ← match j["rhs"] with
      | .obj fs => match param? (.obj fs) with
        | some p => Except.ok (.expr p)
        | none => objectOf (.obj fs)
      | r => thing r
    orItself v (← v.product rhs default)
  | "control" => shown (v.control j["controls"] default)
  | "phase_by" => shown (v.phaseBy default)
  | "info" => shown (v.diagramInfo default)
  | "resolve" => do orItself v (← v.resolved j["r"])
  | "qasm" => shown (v.qasm default)
  | "decompose" => decomposeThing j v
  | "apply_unitary" => do flatThing (← v.applyUnitary axes (← state n) default)
  | "apply_channel" => do flatThing (← v.applyChannel axes (axes.map (· + n)) (← state (2*n)) default)
  | _ => truth (do v.near (valueOr "atol" (.float 1e-8) j) (← thing j["other"]))
end Service

/-! ## Requests about Clifford rotations, Pauli strings and phases along them -/
namespace Service
instance : Writable Pauli := ⟨fun p => p.name⟩
instance : Writable SignedPauli := ⟨fun s => (s.axis,s.flip)⟩
instance : Writable Clifford := ⟨fun c => c.structural⟩
def askClifford (c : Clifford) (s : Step) : Answer :=
  match s.name with
  | "show" => .ok (c,[c.x,c.y,c.z])
  | "rot" => .ok c.rotations
  | "merge" => do .ok (c.mergedWith (← clifford s[0]))
  | "before" => do .ok (c.equivalentBefore (← clifford s[0]))
  | "commutes" => do .ok (c.commutesWith (← clifford s[0]))
  | "commutes_pauli" => .ok (c.commutesWithPauli s[0])
  | "eq" => do
    let same := c == (← clifford s[0])
    .ok [same,same]
  | _ => ask (.gate (.clifford c) [.line 0]) s
def cliffordRequest : Handler := fun j => do .ok (asked (askClifford (← clifford j["c"])) j)
def pauliGate : Handler := fun j =>
  let a := pauli j["a"]
  let b := pauli j["b"]
  .ok (.obj [("commutes",a == b),("third",a.third b),("rel",a.relativeIndex b),("gt",b.precedes a),
    ("lt",a.precedes b),("by_index",Pauli.ofIndex j["i"]),("by_rel",a.shifted j["i"])])
def qubitMap (j : Json) (q : Qubit) : Option Qubit := (j : List (Qubit × Qubit)).reverse.lookup q
def pauliStringStep (s : PauliString Number) (q : Step) : PauliString Number × Answer :=
  let answer (j : Json) : PauliString Number × Answer := (s,.ok j)
  let become := become s
  match q.name with
  | "mul" | "rmul" => match scalar? q[0] with
    | some c => (s.scale c.toComplex,.ok .null)
    | none => (s,fails .type)
  | "neg" => (s.neg,.ok .null)
  | "pos" => answer .null
  | "map" => become (orFail .key (s.mapQubits? (qubitMap q[0])))
  | "with_qubits" => (s.withQubits q[0],.ok .null)
  | "pass" => become (do s.passOperations q[1] (← operations q[0]))
  | "commutes" => answer (s.commutesWith q[0])
  | "eq" =>
    let t := pauliString q[0]
    answer (.arr [s == t,s != t,s.sameTerms t,if s == t then true else .null])
  | "get" => answer (s.get? q[0])
  | "item" => (s,orFail .key (s.get? q[0]))
  | "has" => answer (s.get? q[0]).isSome
  | "len" => answer s.size
  | "zip" =>
    let rows := (s.zip q[0]).map fun (r,a,b) => [r.text,a.name,b.name]
    answer (sortLists rows)
  | "zbasis" => answer (Text.sort (s.toZBasis.map fun (c,r) => (Operation.gate (.clifford c) [r] : Op).structural))
  | "coef" => answer s.coefficient.text
  | "values" => answer (Text.sort (s.terms.map fun (_,p) => p.name))
  | "qubits" => answer s.qubits
  | _ => (s,noAttribute)
def pauliStringRequest : Handler := fun j =>
  stepwise pauliStringStep (fun r s => .ok (.obj [("r",r),("s",s.text),("rep",s.structural)])) j["p"] j
def askPhasor (p : PauliString Number) (t : Param Number) (s : Step) : Answer :=
  let self : Op := .phasor p t
  let shown (o : Outcome Op) : Answer := do (← o).text
  match s.name with
  | "show" => do
    .ok (.arr [← self.text,self.structural,t,p.support])
  | "merge" => do
    match ← operation s[0] with
    | .phasor q u => shown (do .ok (← Phasor.merge ⟨p,t⟩ ⟨q,u⟩).toOp)
    | _ => noAttribute
  | "can_merge" => do
    match ← operation s[0] with
    | .phasor q _ => .ok (p.sameTerms q)
    | _ => noAttribute
  | "eq" => do .ok (equality (self == (← operation s[0])))
  | "pow" => shown (self.orRefuse .pow (self.pow? s[0]))
  | "map" => shown (do
    .ok (.phasorOf (← orFail .key (p.mapQubits? (qubitMap s[0]))) t))
  | "with_qubits" => shown (self.withQubits s[0])
  | "pass" => shown (do .ok (.phasorOf (← p.passOperations s[1] (← operations s[0])) t))
  | "decompose" => do opTexts (← self.orRefuse .decompose self.decomposeOnce?)
  | "info" => do
    let i ← self.orRefuse .diagram (self.diagramInfo (diagramArgs s[0]))
    .ok (.arr [i.symbols,shownExponentJson i.exponent])
  | "resolve" => shown (.ok (self.resolve (resolver s[0]).get?))
  | _ => ask (.op self) s
def phasorRequest : Handler := fun j => do
  match ← operation j["o"] with
  | .phasor p t => .ok (asked (askPhasor p t) j)
  | o => .ok (questions (.op o) j)

/-! ## Answers to requests -/
def answer (hs : List (String × Handler)) (j : Json) : Json :=
  let one (k : Json) : Json := match hs.lookup k["op"].text with
    | some h => reply (h k)
    | none => faultJson (.bare .key)
  match j["op"] with
  | "many" => .obj [("ok",j["of"].elems.map one)]
  | _ => one j
def respond (hs : List (String × Handler)) (line : String) : String :=
  match Json.parse? line with
  | some j => (answer hs j).compress
  | none => (faultJson (.bare .value)).compress
end Service
end QuantumCircuits
