import QuantumCircuits.Service.LinearAlgebra
import QuantumCircuits.Study
import QuantumCircuits.Circuit.Export

/-! # Gates and operations in requests and answers -/
namespace QuantumCircuits.Service
open Gate Text Clifford Qubit Written
abbrev Op := Operation Number
variable (j : Json)
def pauli : Pauli := match j.text with
  | "Y" => .y
  | "Z" => .z
  | _ => .x
instance : Legible Pauli := ⟨pauli⟩
def images : List (Pauli × SignedPauli) := j.elems.map fun (e : Json) => (pauli e[0],⟨e[1],e[2]⟩)
def clifford : Outcome Clifford :=
  match j with
  | .str name => orFail .attribute (named.lookup name)
  | j =>
    match j["single"]?, j["double"]?, j["quarter"]?, j["pauli"]? with
    | some v, _, _, _ => ofSingleMap (images v)
    | _, some v, _, _ => ofDoubleMap (images v)
    | _, _, some (.arr [p,n]), _ => .ok (.quarterTurns p n)
    | _, _, _, some (.arr [p,s]) => .ok (.ofPauli p s)
    | _, _, _, _ => ofDoubleMap [(.x,⟨j["x"][0],j["x"][1]⟩),(.z,⟨j["z"][0],j["z"][1]⟩)]
def channelOf (name : String) (ps : List Number) : Outcome (Gate Number) := do
  let checked (c : Channel Number) : Outcome (Gate Number) := do .ok (.channel (← c.check))
  match name, ps with
  | "depol", [p] => checked (.depolarize p)
  | "adepol", [x,y,z] => checked (.asymmetricDepolarize x y z)
  | "gad", [p,g] => checked (.generalizedDamp p g)
  | "ad", [g] => checked (.amplitudeDamp g)
  | "pd", [g] => checked (.phaseDamp g)
  | "pf", [p] => checked (.phaseFlip p)
  | "pf", [] => .ok (pow' .z one)
  | "bf", [p] => checked (.bitFlip p)
  | "bf", [] => .ok .X
  | _, _ => fails .type
def permuter (name : String) (j : Json) : Outcome Permuter :=
  let nats (k : String) : List Nat := j[k]
  match name with
  | "SwapPerm" => .ok .swap
  | "LinPerm" => do
    Permuter.validate j["perm"] (some j["n"])
    .ok (.linear j["n"] j["perm"])
  | "Shift" => .ok (.shift j["n"] j["shift"])
  | "SwapNet" =>
    if (nats "parts").length < 2 then .error (.value "len(part_lens) < 2.")
    else .ok (.swapNetwork (nats "parts") (if j["size"]?.isSome then j["size"] else some 0))
  | "ShiftSwap" =>
    if (nats "left" ++ nats "right").any (· < 1) then .error (.value "not min(part_lens)")
    else .ok (.shiftNetwork (nats "left") (nats "right"))
  | _ => match j["kind"] with
    | "MATCHING" => .ok (.bipartite .matching j["n"])
    | "COMPLETE" => .ok (.bipartite .complete j["n"])
    | _ => fails .key
def constants : List (String × Gate Number) :=
  [("X",.X),("Y",.Y),("Z",.Z),("H",.H),("S",.S),("T",.T),("CZ",.CZ),("CNOT",.CNOT),("SWAP",.SWAP),
   ("ISWAP",.ISWAP),("XX",pow' .xx one),("YY",pow' .yy one),("ZZ",pow' .zz one),
   ("CCZ",.CCZ),("CCX",.CCX),("TOFFOLI",.CCX),("CSWAP",.cswap),("FREDKIN",.cswap)]
def families : List (String × PowerKind) := PowerKind.all.map fun k => (replace "Gate" "" k.familyName,k)
def powered (g : Gate Number) : Outcome (Gate Number) := match j["pow"]? with
  | none => .ok g
  | some x => g.orRefuse .pow (g.pow? x)
def gateAt : Nat → Json → Outcome (Gate Number)
  | 0, _ => fails .recursion
  | n+1, j => do
    let name := j["g"].text
    let e := valueOr "e" (.num (.float 1.0)) j
    let s := valueOr "s" (.float 0.0) j
    powered j (← match constants.lookup name,families.lookup name with
      | some g,_ => .ok g
      | none,some k => .ok (.power k e s false)
      | none,none =>
        match name with
        | "Rx" => .ok (.rotation .x j["rads"])
        | "Ry" => .ok (.rotation .y j["rads"])
        | "Rz" => .ok (.rotation .z j["rads"])
        | "MS" => .ok (.power .xx (.num (j["rads"] * .int 2 / RealScalar.pi)) (.float (-0.5)) false)
        | "PhasedX" => .ok (.phasedXOf (valueOr "p" (.num (.float 0.0)) j) e s)
        | "I" => .ok (.identity (valueOr "n" 1 j))
        | "M" => measurementOf (valueOr "n" 1 j) j["key"] j["invert"]
        | "Mat1" => matrixOf 2 j["mat"] (isComplexJson 3 j["mat"])
        | "Mat2" => matrixOf 4 j["mat"] (isComplexJson 3 j["mat"])
        | "Ctrl" => do controlledOf (← gateAt n j["sub"]) j["controls"] j["n"]
        | "Cliff" => do .ok (.clifford (← clifford j["c"]))
        | "PInt" => .ok (.interaction j["p0"] j["i0"] j["p1"] j["i1"] e)
        | "QasmU" => match (j["p"] : List Number) with
          | [l,t,p] => .ok (.universal (l.mod (.int 2)) (t.mod (.int 2)) (p.mod (.int 2)))
          | _ => fails .type
        | "Acq" => .ok (.opportunity j["n"])
        | "SwapPerm" | "LinPerm" | "Shift" | "SwapNet" | "ShiftSwap" | "Bip" => do
          let swap ← match j["swap"] with
            | .null => .ok Gate.SWAP
            | g => gateAt n g
          .ok (.permutation (← permuter name j) swap)
        | _ => channelOf name j["p"])
def gate : Outcome (Gate Number) := gateAt nesting j
def pauliString : PauliString Number :=
  .ofTerms j["map"] (valueOr "coef" (Scalar.complex ⟨.float 1.0,.float 0.0⟩) j).toComplex
def halfTurnsOf : Outcome (Param Number) :=
  Angle.chosen (param? j["half_turns"]) (param? j["rads"]) (param? j["degs"]) (.num (.float 1.0))
def operationAt : Nat → Json → Outcome Op
  | 0, _ => fails .recursion
  | n+1, j => match j["o"] with
    | "ctrl" => do .ok (.controlled j["controls"] (← operationAt n j["sub"]))
    | "par" => do Operation.parallelOf (← gate j["gate"]) j["q"]
    | "pauli" => .ok (.pauli (pauliString j))
    | "phasor" => do .ok (.phasorOf (pauliString j) (← halfTurnsOf j))
    | "display" => .ok (.expectation (pauliString j) j["samples"] j["key"])
    | "pow" => do
      let sub ← operationAt n j["sub"]
      sub.orRefuse .pow (sub.pow? j["pow"])
    | _ => do (← gate j).on j["q"]
def operation : Outcome Op := operationAt nesting j
def operations : Outcome (List Op) := j.elems.mapM operation
def isOperation : Bool := j["o"]?.isSome || (j["g"]?.isSome && j["q"]?.isSome)
def resolver : Resolver Number := ⟨j.fields.map fun (k,v) => (k,param v)⟩
instance : Legible (Resolver Number) := ⟨resolver⟩
instance : Legible (PauliString Number) := ⟨pauliString⟩
section
def roundedText (x : Number) : String := rounded 6 x.toFloat
def paramText : Param Number → String
  | .num x => roundedText x
  | p => p.text
def call (name : String) (args : List String) : String := name ++ "(" ++ join "," args ++ ")"
def gateCode : Gate Number → Outcome String
  | .power k e s _ => .ok (call k.familyName [paramText e,roundedText s])
  | .phasedX p e s => .ok (call "PhasedXPowGate" [paramText p,paramText e,roundedText s])
  | .interaction p0 i0 p1 i1 e =>
    .ok (call "PauliInteractionGate" [p0.name,boolText i0,p1.name,boolText i1,paramText e])
  | .matrix m c =>
    .ok (call (Gate.matrix m c).kindName [join ";" (m.toRows.map fun r => join " " (r.map (cText 6)))])
  | .controlled cs sub => do .ok (call "ControlledGate" [toString cs.length,← gateCode sub])
  | .permutation .swap g => do .ok (call "SwapPermutationGate" [← gateCode g])
  | .permutation (.linear n images) g => do
    .ok (call "LinearPermutationGate" [toString n,
      bracketed ((images.mergeSort fun a b => a.1 ≤ b.1).map fun (i,j) => tupleText [i,j]),← gateCode g])
  | .measurement n k i => .ok (measurement n k i).structural
  | .clifford c => .ok c.structural
  | g => g.text
def placed (code : String) (qs : Qubits) (f : String → String := id) : String :=
  s!"{code}@{bracketed (qs.map fun q => f q.text)}"
def opCode : Op → Outcome String
  | .gate g qs => do .ok (placed (← gateCode g) qs)
  | .parallel g qs => do .ok (placed s!"Parallel:{← gateCode g}" qs quoted)
  | .controlled cs sub => do .ok s!"C{bracketed (cs.map fun q => quoted q.text)}:{← opCode sub}"
  | .phasor p t => .ok (call "PauliStringPhasor" [p.text,paramText t])
  | op => op.text
def opText (op : Op) : Outcome String := do
  let s ← op.text
  if contains " at 0x" s then opCode op else .ok s
def opTexts (ops : List Op) : Answer := ops.mapM opText
def millionths (x : Number) : Int := (Number.float (roundPlaces 6 x.toFloat * 1000000.0)).round
def within (bound m : Int) : Int :=
  let r := m % (2*bound)
  if bound < r then r-2*bound else r
def millionthsText (m : Int) : String := rounded 6 (Float.ofInt m / 1000000.0)
def equatorCode (p e : Number) (qs : Qubits) : String :=
  let one := 1000000
  let e' := within one (millionths e)
  let p' := millionths p
  let (e',p') := if e' < 0 then (-e',p'+one) else (e',p')
  let p' := if e' == 0 then 0 else if e' == one then within (one/2) p' else within one p'
  placed (call "W" [millionthsText p',millionthsText e']) qs
def turnedCode (name : String) (e : Number) : Qubits → String :=
  placed (call name [millionthsText (within 1000000 (millionths e))])
def canonicalCode : Op → Outcome String
  | .gate (.power .x (.num e) _ _) qs => .ok (equatorCode (.int 0) e qs)
  | .gate (.power .y (.num e) _ _) qs => .ok (equatorCode (.float 0.5) e qs)
  | .gate (.power .z (.num e) _ _) qs => .ok (turnedCode "Z" e qs)
  | .gate (.power .cz (.num e) _ _) qs => .ok (turnedCode "CZ" e (sort qs))
  | .gate (.phasedX (.num p) (.num e) _) qs => .ok (equatorCode p e qs)
  | op => opCode op
end

/-! ## Questions about gates and operations -/
open Operation
inductive Subject where
  | gate (g : Gate Number) (qs : Qubits)
  | op (o : Op)
namespace Subject
variable {α : Type}
def either (ofGate : Gate Number → α) (ofOp : Op → α) : Subject → α
  | gate g _ => ofGate g
  | op o => ofOp o
def text : Subject → Outcome String := either Gate.text Operation.text
def structural : Subject → String := either Gate.structural Operation.structural
def kindText : Subject → String := either (classText ·.kindPath) (classText ·.kindPath)
def offers (f : Facet) : Subject → Bool := either (·.offers f) (·.offers f)
def qubits : Subject → Qubits
  | gate _ qs => qs
  | op o => o.qubits
def orRefuse (f : Facet) (s : Subject) (a : Outcome (Option α)) : Outcome α := do
  match ← a with
  | some x => .ok x
  | none => .error (f.refusal s.kindText (s.offers f))
def matrix? : Subject → Outcome (Option (Mat Number)) := either Gate.matrix? Operation.matrix?
def pow? (x : Param Number) : Subject → Outcome (Option Subject)
  | gate g qs => do .ok ((← g.pow? x).map (gate · qs))
  | op o => do .ok ((← o.pow? x).map op)
def decomposeOnce? : Subject → Outcome (Option (List Op))
  | gate g qs | op (.gate g qs) => g.decomposeOn? qs
  | op o => o.decomposeOnce?
def whole : Subject → Outcome Op
  | gate g qs => g.on qs
  | op o => .ok o
def diagramInfo (a : DiagramArgs) : Subject → Outcome (Option DiagramInfo) := either (·.diagramInfo a) (·.diagramInfo a)
def qasm? (a : QasmArgs) : Subject → Outcome (Option String)
  | gate g qs => g.qasm? a qs
  | op o => o.qasm? a
def mixture? : Subject → Option (List (Number × Mat Number)) := either Gate.mixture? Operation.mixture?
def pauliExpansion? (atol : Number) : Subject → Outcome (Option (PauliExpansion.Terms Number)) :=
  either (·.pauliExpansion? atol) (·.pauliExpansion? atol)
def key? : Subject → Option String
  | gate (.measurement _ k _) _ => some k
  | op o => o.measurementKey?
  | _ => none
end Subject
def mixtureJson (ms : List (Number × Mat Number)) : Json := .arr (ms.map fun (p,u) => .arr [fJson p,u])
def shownExponentJson : ShownExponent → Json
  | .param p => paramJson p
  | .text s => .str (quoted s)
def infoJson (i : DiagramInfo) : Json :=
  .obj [("symbols",i.symbols),("exponent",shownExponentJson i.exponent),("connected",i.connected)]
def diagramArgs (j : Json) : DiagramArgs where
  qubits := j["qubits"]
  count := j["count"]
  unicode := valueOr "unicode" true j
  precision := if j["precision"]?.isSome then j["precision"] else some 3
def termsJson (ts : PauliExpansion.Terms Number) : Json := ts.mergeSort fun a b => le a.1 b.1
def pauliRefusal (s : Subject) : Answer := do
  .error (.type s!"No Pauli expansion for object {← s.text} of type {s.kindText}")

/-- Identifiers `q[0]`, `q[1]`, … for the qubits of the subject, and one for every key. -/
def plainQasmArgs (s : Subject) (args : Step) : QasmArgs :=
  let qs := s.qubits
  { precision := (args[0] : Option Nat).getD 10
    version := (args[1] : Option String).getD "2.0"
    qubitId := fun q => if qs.contains q then some s!"q[{qs.idxOf q}]" else none
    keyId := fun _ => some "m_key" }
def mapQubit (k : Int) : Qubit → Qubit
  | .line x => .line (x+k)
  | q => q
def validateMixture (s : Subject) : Answer := do
  match s.mixture? with
  | none => .error (.type s!"{← s.text}_mixture did not have a _mixture_ method")
  | some ms =>
    let total := ms.foldl (fun t (p,_) => t+p) (.float 0.0)
    if ms.any fun (p,_) => p < 0 || (.int 1) < p then fails .value
    else if (Cpx.ofReal total).close .usual 1 then .ok .null
    else .error (.value "Sum of probabilities of a mixture was not 1.0")
def structuralOf (a : Outcome Op) : Answer := do .ok (← a).structural
def askGate (g : Gate Number) (s : Step) : Answer :=
  match s.name with
  | "nq" => .ok g.numQubits
  | "on" | "call" => structuralOf (g.on s[0])
  | "on_each" =>
    if g.isKind "SingleQubitGate" then do opTexts (← (qubits s[0]).mapM fun q => g.on [q]) else noAttribute
  | "on_kwargs" => match g with
    | .power .cnot .. => match s[0]["control"]?, s[0]["target"]?, s[0].fields.length with
      | some c, some t, 2 => structuralOf (g.on [c,t])
      | _, _, _ => .error (.value ("Expected two positional argument or else 'target' AND 'control' keyword arguments. "
          ++ "But got args=(), kwargs=" ++ braced (s[0].fields.map fun (k,q) =>
            quoted k ++ ": " ++ (qubit q).structural) ++ "."))
    | _ => fails .type
  | "flip" => match g with
    | .measurement n key invert => match s[0] with
      | .arr [] => fails .type
      | bits => do .ok (← measurementOf n key (flipBits invert bits)).structural
    | _ => noAttribute
  | "canon" => match g.canonicalExponent? with
    | some p => p
    | none => noAttribute
  | "period" => match g with
    | .power k _ sh _ => Eigen.period k.factors sh
    | .interaction .. => Eigen.period [.float 0.0,.float 1.0] (Number.float 0.0)
    | .phasedX _ _ sh => .ok (phasedPeriod sh)
    | _ => noAttribute
  | "shifts" => match g with
    | .power k _ _ _ => .ok (k.factors.map nJson)
    | .interaction .. => .ok [0,1]
    | _ => noAttribute
  | "exponent" => match g with
    | .power _ e _ _ | .phasedX _ e _ | .interaction _ _ _ _ e => .ok e
    | _ => noAttribute
  | "phase_exponent" => match g with
    | .power .x .. => .ok (Number.float 0.0)
    | .power .y .. => .ok (Number.float 0.5)
    | .phasedX p _ _ => .ok p
    | _ => noAttribute
  | "num_controls" => match g with
    | .controlled cs _ => .ok cs.length
    | _ => noAttribute
  | "lincomb" => .ok ("cirq.LinearCombinationOfGates(" ++ braced (if (scalar s[0]).isZero then []
      else [s!"{g.structural}: {(scalar s[0]).text}"]) ++ ")")
  | "permutation" => match g with
    | .permutation p _ => .ok (p.permutation.mergeSort fun a b => a.1 ≤ b.1)
    | _ => noAttribute
  | _ => noAttribute
def askOperation (o : Op) (s : Step) : Answer :=
  match s.name with
  | "with_qubits" => structuralOf (o.withQubits s[0])
  | "with_gate" => match o with
    | .gate _ qs => do structuralOf ((← gate s[0]).on qs)
    | .parallel _ qs => do structuralOf (parallelOf (← gate s[0]) qs)
    | _ => noAttribute
  | "transform" => structuralOf (o.withQubits (o.qubits.map (mapQubit s[0])))
  | _ => noAttribute
def ask (v : Subject) (s : Step) : Answer :=
  let shown (a : Outcome Subject) : Answer := do .ok (← a).structural
  match s.name with
  | "str" => v.text
  | "repr" => .ok v.structural
  | "qubits" => match v with
    | .op o => .ok o.qubits
    | _ => noAttribute
  | "unitary" => do .ok (← v.orRefuse .unitary v.matrix?)
  | "unitary_default" => v.matrix?
  | "has_unitary" => do .ok (← v.either hasUnitary Operation.hasUnitary)
  | "pauli" => do
    match ← v.pauliExpansion? ((s[0] : Option Number).getD (.float 1e-9)) with
    | some ts => .ok (termsJson ts)
    | none => pauliRefusal v
  | "pauli_default" => do .ok (optJson termsJson (← v.pauliExpansion? (.float 1e-9)))
  | "decompose_once" => do opTexts (← v.orRefuse .decompose v.decomposeOnce?)
  | "decompose" => do opTexts (← expander.expand [← v.whole])
  | "decompose_keep" => do
    let stuck (o : Op) : Option Fault :=
      if s[1].text == "ignore" then none
      else some (.value ("Operation doesn't satisfy the given `keep` but can't be decomposed: " ++ o.structural))
    opTexts (← { expander with keep := hasGateKind s[0], stuck }.expand [← v.whole])
  | "inverse" => shown (do
    match ← v.pow? Decomposition.minusOne with
    | some w => .ok w
    | none => .error (notInvertible v.kindText))
  | "inverse_default" => do .ok ((← v.pow? Decomposition.minusOne).map Subject.structural)
  | "pow" => shown (v.orRefuse .pow (v.pow? s[0]))
  | "pow_unitary" => do
    let w ← v.orRefuse .pow (v.pow? s[0])
    .ok (← w.orRefuse .unitary w.matrix?)
  | "trace" => .ok (fJson (v.either traceBound Operation.traceBound))
  | "param" => .ok (.bool (v.either isParameterized Operation.isParameterized))
  | "resolve" =>
    let env := (resolver s[0]).get?
    .ok (v.either (·.resolve env |>.structural) (·.resolve env |>.structural))
  | "info" => do .ok (infoJson (← v.orRefuse .diagram (v.diagramInfo (diagramArgs s[0]))))
  | "info_default" => do .ok (optJson infoJson (← v.diagramInfo (diagramArgs s[0])))
  | "qasm" => do .ok (← v.orRefuse .qasm (v.qasm? (plainQasmArgs v s)))
  | "mixture" => do .ok (mixtureJson (← v.orRefuse .mixture (.ok v.mixture?)))
  | "mixture_channel" => do
    match ← v.either mixtureChannel? Operation.mixtureChannel? with
    | some ms => .ok (mixtureJson ms)
    | none => .error (mixtureRefusal v.kindText (v.offers .mixture || v.offers .unitary))
  | "channel" => do
    match ← v.either kraus? Operation.kraus? with
    | some ks => .ok ks
    | none => .error (channelRefusal v.kindText (v.offers .channel || v.offers .mixture || v.offers .unitary))
  | "has" => do
    let (m,mc,c) ← match v with
      | .gate g _ => do pure (g.hasMixture,← g.hasMixtureChannel,← g.hasChannel)
      | .op o => do pure (o.hasMixture,← o.hasMixtureChannel,← o.hasChannel)
    .ok (.arr [m,mc,c,v.key?.isSome && c])
  | "validate_mixture" => validateMixture v
  | "phase_by" => do
    match v with
    | .gate g _ => gateCode (← v.orRefuse .phase (g.phaseBy? s[0].number s[1]))
    | .op o => opCode (← v.orRefuse .phase (o.phaseBy? s[0].number s[1]))
  | "key" => v.orRefuse .key (.ok v.key?)
  | "key_default" => .ok (match v.key? with
    | some k => .str k
    | none => s[0])
  | "controlled" | "controlled_none" =>
    let cs := qubits s[0]
    match v with
    | .gate g _ => .ok (controlledBy (cs.map some) g).structural
    | .op o =>
      if cs.isEmpty then .error (.value ("Can't get controlled operation without control qubit. Op: " ++ o.structural))
      else .ok (controlled cs o).structural
  | "apply" => do
    let state : List (Cpx Number) := s[0]
    let t : Tensor Number := ⟨Tensor.qubitShape (Nat.log2 state.length),state.toArray⟩
    match ← v.either (·.act? t s[1]) (·.act? t s[1]) with
    | some r => .ok (flatJson r.entries)
    | none => .error (stateRefusal v.kindText)
  | "apply_channel" => do
    let rho := matrix s[0]
    let n := Nat.log2 rho.rows
    let axes : List Nat := s[1]
    let cols := axes.map (· + n)
    let t := Tensor.ofMat (Tensor.qubitShape (2*n)) rho
    match ← v.either (·.applyChannel? axes cols t) (·.applyChannel? axes cols t) with
    | some r => .ok (r.toMat rho.rows rho.cols)
    | none => .error (densityRefusal v.kindText)
  | "true" => .ok (match v with
    | .op (.pauli p) => p.size != 0
    | _ => true)
  | _ => match v with
    | .gate g _ => askGate g s
    | .op o => askOperation o s
def questions (v : Subject) : Json → Json := asked (ask v)
def gateSubject (g : Gate Number) (j : Json) : Subject := .gate g (valueOr "q" (Qubit.lineRange g.numQubits) j)
def gateRequest : Handler := fun j => do
  let g ← gate j["gate"]
  .ok (questions (gateSubject g j) j)
def operationRequest : Handler := fun j => do .ok (questions (.op (← operation j["o"])) j)
end QuantumCircuits.Service
