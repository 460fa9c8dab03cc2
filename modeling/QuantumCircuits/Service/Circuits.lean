import QuantumCircuits.Service.Gates
import QuantumCircuits.Circuit.Unitary
import QuantumCircuits.Device

/-! # Requests about moments, trees of operations and other small collections -/
namespace QuantumCircuits.Service
open GateCombination Json Operation
def plainKind : Json → String
  | .null => "NoneType"
  | .bool _ => "bool"
  | .num (.int _) => "int"
  | .num (.float _) => "float"
  | .str _ => "str"
  | .arr _ => "list"
  | .obj _ => "dict"
variable (j : Json)
def moment : Outcome (Moment Op) := do Moment.ofList (← operations j)
def treeAt : Nat → Json → Outcome (OpTree Op)
  | 0, _ => fails .recursion
  | n+1, j =>
    if isOperation j then do .ok (.leaf (← operation j))
    else match j with
      | .arr parts => do .ok (.node (← parts.mapM (treeAt n)))
      | .str "" => .ok (.node [])
      | .str _ => .ok .endless
      | .obj [] => .ok (.node [])
      | .obj fields => match j["m"]? with
        | some m => do .ok (.moment (← moment m))
        | none => .ok (if fields.all fun (k,_) => k == "" then .node [] else .endless)
      | v => .ok (.other (classText (plainKind v)) v.display)
def tree : Outcome (OpTree Op) := treeAt 1000 j
def treeJson : OpTree Op → Answer
  | .leaf op => opText op
  | .moment m => opTexts m.ops
  | .node parts => parts.mapM treeJson
  | .endless => fails .recursion
  | .other kind _ => .error (.bare (.named kind))
def momentText (m : Moment Op) : Outcome String := do .ok (Text.join " and " (← m.ops.mapM text))
def inverseOf (op : Op) : Outcome Op := do
  match ← op.inverse? with
  | some inv => .ok inv
  | none => .error (notInvertible (classText op.kindPath))
def itemTexts (t : OpTree Op) : Answer := do
  .ok (← (← t.items).mapM fun i => i.elim opText momentText)
def opTreeRequest : Handler := fun j => do
  let t ← tree j["tree"]
  let keep := valueOr "moments" false j
  let flat (t : OpTree Op) : Answer := if keep then itemTexts t else do opTexts (← t.flatten)
  match j["f"] with
  | "flatten" => flat t
  | "freeze" => do treeJson (← t.transform false fun op => .ok (.leaf op))
  | "transform" => do flat (← t.transform keep fun op => do .ok (.node [.leaf op,.leaf (← inverseOf op)]))
  | "inverse" => do
    match ← inverses? (← t.flatten) with
    | some inv => opTexts inv
    | none => .error (notInvertible (classText "list"))
  | "control" => do
    let cs := qubits j["controls"]
    let u ← t.transform false fun op =>
      if cs.isEmpty then .error (.value ("Can't get controlled operation without control qubit. Op: " ++ op.structural))
      else .ok (.leaf (.controlled cs op))
    opTexts (← u.flatten)
  | "decompose" => do opTexts (← expander.expand (← t.flatten))
  | _ => noAttribute
def askMoment (m : Moment Op) (s : Step) : Answer :=
  let shown (m : Outcome (Moment Op)) : Answer := do momentText (← m)
  match s.name with
  | "operates" => .ok (m.actsOnAny s[0])
  | "operates1" => .ok (m.actsOn s[0])
  | "with" => shown (do m.withOp (← operation s[0]))
  | "without" => shown (.ok (m.without s[0]))
  | "eq" => do
    let n ← moment s[0]
    let near := m.size == n.size && (m.ops.zip n.ops).all fun (a,b) => a.near (.float 1e-6) b
    .ok (.arr [m == n,m != n,near,if m == n then true else .null])
  | "transform" => shown (do
    Moment.ofList (← m.ops.mapM fun op => op.withQubits (op.qubits.map (mapQubit s[0]))))
  | _ => noAttribute
def momentRequest : Handler := fun j => do
  let m ← moment j["ops"]
  .ok (.obj [("str",← momentText m),("repr",m.structural),("len",m.size),
    ("bool",!m.isEmpty),("qubits",Qubit.sort m.qubits),("q",asked (askMoment m) j)])
def measureRequest : Handler := fun j => do
  let each := j["f"].text == "each"
  match j["q"].elems.mapM qubit? with
  | none =>
    .error (.value ((if each then "measure_each" else "measure") ++ "() was called with type different than Qid."))
  | some qs =>
    if each then do
      let key (q : Qubit) : String := if j["repr"].truthy then q.structural else q.text
      .ok (← qs.mapM fun q => do .ok (← (Gate.measurement 1 (key q) []).on [q]).structural)
    else do
      let g ← Gate.measurementOf qs.length (valueOr "key" (Text.join "," (qs.map Qubit.text)) j) j["invert"]
      .ok (← g.on qs).structural
section
inductive Valued where
  | gate (g : Gate Number)
  | op (o : Op)
def valued : Outcome Valued := if isOperation j then do .ok (.op (← operation j)) else do .ok (.gate (← gate j))
def Valued.compare (gates : Gate Number → Gate Number → Bool) (ops : Op → Op → Bool) : Valued → Valued → Bool
  | gate a, gate b => gates a b
  | op a, op b => ops a b
  | _, _ => false
def upperTriangle {α : Type} (f : α → α → Bool) (same : α → Bool) : List α → List (List Bool)
  | [] => []
  | a :: r => ((f a a || same a) :: r.map (f a)) :: upperTriangle f same r
def pairwise : Handler := fun j => do
  let vs ← j["v"].elems.mapM valued
  let atol : Number := valueOr "atol" (.float 1e-8) j
  let same := Valued.compare (· == ·) (· == ·)
  .ok (.obj (("eq",upperTriangle same (fun _ => true) vs)
    :: ("approx",upperTriangle (Valued.compare (·.near atol) (·.near atol)) (fun a => !same a a) vs)
    :: if valueOr "hash" true j then [("hash",vs.map fun _ => true)] else []))
end
section
def isRealJson : Json → Bool
  | .num _ | .bool _ => true
  | _ => false
def asNumber : Json → Number
  | .bool b => .int (if b then 1 else 0)
  | j => j.number
def approxAt (atol : Number) : Nat → Json → Json → Outcome Bool
  | 0, _, _ => fails .recursion
  | n+1, a, b =>
    let iterable : Json → Option (List Json)
      | .arr xs => some xs
      | .str s => some (s.toList.map fun c => .str (String.singleton c))
      | .obj fs => match fs with
        | [("tuple",.arr xs)] => some xs
        | [("gate",_)] | [("c",_)] | [("sym",_)] | [("lin",_)] => none
        | _ => some (fs.map fun (k,_) => .str k)
      | _ => none
    match a["gate"]?, b["gate"]? with
    | some g, some h => do .ok ((← gate g).near atol (← gate h))
    | _, _ =>
      if isRealJson a then
        .ok (isRealJson b && decide ((asNumber a - asNumber b).abs ≤ atol))
      else match a["c"]? with
        | some _ => .ok (b["c"]?.isSome && decide (((scalar a).toComplex-(scalar b).toComplex).norm ≤ atol))
        | none => match iterable a, iterable b with
          | some [], some [] => .ok true
          | some xs, some ys =>
            let rec go : List Json → List Json → Outcome Bool
              | [], [] => .ok true
              | x :: xs, y :: ys => do if ← approxAt atol n x y then go xs ys else .ok false
              | _, _ => .ok false
            go xs ys
          | _, _ => .ok (a.same b)
def approxRequest : Handler := fun j => approxAt (valueOr "atol" (.float 1e-8) j) 200 j["a"] j["b"]
end
section
def gatePairs : Outcome (List (Gate Number × Scalar Number)) := j.elems.mapM fun e => match e with
  | .arr [g,c] => do .ok ((← gate g),scalar c)
  | _ => fails .value
def settled : LinearDict.Step (Gate Number) (Scalar Number) → Outcome GateCombination
  | (d,none) => .ok d
  | (d,some g) => .error (refusal d g)
def gateCombination : Outcome GateCombination := do
  match j with
  | .arr _ => settled (build (← gatePairs j))
  | g => .ok (.single (← gate g) 1)
def combinationOfGates (f : String) (x y : Json) : Outcome GateCombination := do
  let g ← gate x
  let one := single g 1
  match f with
  | "+" => settled (one.add (single (← gate y) 1))
  | "-" => settled (one.sub (single (← gate y) 1))
  | "*" | "r*" => .ok (.single g (scalar y))
  | "/" => if (scalar y).isZero then fails .zeroDivision else .ok (.single g (1 / scalar y))
  | _ => .ok (.single g (.real (-1)))
def lincombStep (d : GateCombination) (s : Step) : GateCombination × Answer :=
  let become := become d
  let inPlace (r : Outcome (LinearDict.Step (Gate Number) (Scalar Number))) : GateCombination × Answer := match r with
    | .ok (e,none) => (e,.ok .null)
    | .ok (e,some g) => (e,.error (refusal e g))
    | .error f => (d,.error f)
  match s.name with
  | "add" => become (do settled (d.add (← gateCombination s[0])))
  | "sub" => become (do settled (d.sub (← gateCombination s[0])))
  | "iadd" => inPlace (do .ok (d.addInPlace (← gateCombination s[0])))
  | "isub" => inPlace (do .ok (d.subInPlace (← gateCombination s[0])))
  | "mul" => become (settled (d.scale s[0]))
  | "div" =>
    let a := scalar s[0]
    if a.isZero then (d,fails .zeroDivision) else become (settled (d.scale (1/a)))
  | "neg" => become (settled d.negate)
  | "set" => inPlace (do .ok (d.set (← gate s[0]) s[1]))
  | "gates" => become (combinationOfGates s[1] s[0] s[2])
  | "nq" => (d,.ok (numQubits? d.terms))
  | "matrix" => (d,GateCombination.matrix d)
  | "pauli" => (d,do .ok (termsJson (← pauliExpansion d)))
  | "eq" => (d,do .ok (d.beq (← gateCombination s[0])))
  | _ => (d,noAttribute)
def lincombRequest : Handler := fun j => do
  let seen (r : Json) (d : GateCombination) : Answer := .ok (.obj [("r",r),("s",text d)])
  stepwise lincombStep seen (← gateCombination (valueOr "init" (.arr []) j)) j
end
section
def resolveValue (r : Resolver Number) : Json → Json
  | .str s => paramJson (r.named s)
  | .bool b => .bool b
  | j => match param? j with
    | some p => paramJson (r.valueOf p)
    | none => scalarJson (scalar j)
def resolveRequest : Handler := fun j =>
  let r := resolver j["r"]
  let values := arr (j["v"].elems.map (resolveValue r))
  .ok (.obj (("repr",r.structural) :: ("bool",!r.isEmpty) :: ("values",values) :: ("items",values) :: match j["other"]? with
      | some o =>
        let same := r == resolver o
        [("eq",.arr [same,!same,if same then true else .null])]
      | none => []))
end

/-! ## Requests about circuits -/
open BoundCircuit Circuit PlainPow
def device : Outcome (Device Number) :=
  let nanos (k : Nat) : Duration Number := .ofNanos j["durations"][k]
  let qs := Qubit.distinct j["qubits"]
  match j with
  | .null => .ok .unconstrained
  | .str "Foxtail" => .ok (.xmon .foxtail)
  | .str "Bristlecone" => .ok (.xmon .bristlecone)
  | .str "Acq" => .ok .acquaintance
  | j => match j["kind"] with
    | "xmon" => .ok (.xmon ⟨none,nanos 0,nanos 1,nanos 2,qs⟩)
    | "ion" => .ok (.ion ⟨nanos 0,nanos 1,nanos 2,qs⟩)
    | "neutral" => do
      .ok (.neutralAtom (← NeutralAtomDevice.make ⟨nanos 0,nanos 1,j["radius"],j["max_z"],j["max_xy"],j["max_c"],qs⟩))
    | _ => fails .key
def strategy : Strategy := match j with
  | .null => .earliest
  | s => .ofName s.text
def moments : Outcome (List (Moment Op)) := j.elems.mapM moment
def boundCircuit : Outcome (BoundCircuit Number) :=
  match j with
  | .arr _ => do bind ⟨← moments j⟩ .unconstrained
  | j => do
    let d ← device j["device"]
    match j["moments"]? with
    | some ms => bind ⟨← moments ms⟩ d
    | none => .ok ⟨← ofTree d.rules (← tree j["ops"]) (strategy j["strategy"]),d⟩
def circuit : Outcome (Circuit Op) := do .ok (← boundCircuit j).circuit
def momentsJson (c : Circuit Op) : Answer := c.moments.mapM fun m => opTexts m.ops
instance : Legible Frontier := ⟨fun j => .ofPairs j⟩
def frontierJson (f : Frontier) : Json := f.mergeSort fun a b => !b.1.before a.1
def blocker : Json → Op → Bool
  | .null, _ => false
  | .str "multi", op => 1 < op.qubits.length
  | .str name, op => op.hasGateKind name
  | _, _ => false
def placedJson {α : Type} [Writable α] (ops : List (α × Op)) : Answer :=
  ops.mapM fun (i,op) => do .ok (i,← opText op)
def qubitOrder : Json → Outcome QubitOrder
  | .null => .ok .sorted
  | j => QubitOrder.explicit? j none
def diagramOptions : Circuit.DiagramOptions where
  unicode := valueOr "use_unicode_characters" true j
  transposed := valueOr "transpose" false j
  precision := if j["precision"]?.isSome then j["precision"] else some 3
def diagramText (c : Circuit Op) : Outcome String := do
  c.diagramText (diagramOptions j) Operation.depict (← qubitOrder j["qubit_order"])
def rangePlaces (n : Nat) (j : Json) : List Nat :=
  let step : Int := (j[2] : Option Int).getD 1
  let bound (k : Nat) (default : Int) : Int := match j[k] with
    | .null => default
    | v =>
      let i : Int := if v.toInt < 0 then v.toInt+n else v
      if 0 < step then max 0 (min i n) else max (-1) (min i (n-1))
  let r := if 0 < step then intRange (bound 0 0) (bound 1 n) step
    else intRange (bound 0 (n-1)) (bound 1 (-1)) step
  r.map Int.toNat
abbrev CircuitStep := BoundCircuit Number × Outcome Json
def notIterable : Fault :=
  .type ("object of type '<class 'cirq.circuits.circuit.Circuit'>' isn't invertible. It has no __pow__ method (or the "
    ++ "method returned NotImplemented) and it isn't an iterable of invertible objects.")
def qubitMapping (q : Qubit) : Qubit :=
  match j.elems.find? (fun e => qubit e[0] == q) with
  | some e => e[1]
  | none => q
def askCircuit (b : BoundCircuit Number) (s : Step) : Answer :=
  let c := b.circuit
  let shown (r : Outcome (BoundCircuit Number)) : Answer := do momentsJson (← r).circuit
  match s.name with
  | "get" => match s[0] with
    | .num (.int i) => do
      let k ← orFail .index (c.place? i)
      opTexts (c.moments.getD k .empty).ops
    | .arr xs =>
      if s[0][2].int? == some 0 then fails .value
      else shown (bind ⟨(rangePlaces c.size (.arr xs)).filterMap (c.moments[·]?)⟩ b.device)
    | _ => .error (.type "__getitem__ called with key not of type slice or int.")
  | "add" => shown (do b.add (← boundCircuit s[0]))
  | "add_to" => shown (do (← boundCircuit s[0]).add b)
  | "mul" | "rmul" => match s[0] with
    | .num (.int n) => shown (b.repeated n)
    | _ => fails .type
  | "pow" => do
    if !(s[0].number == .int (-1)) then fails .type
    match ← b.inverse? with
    | some inv => momentsJson inv.circuit
    | none => fails .type
  | "inverse" => do
    match ← b.inverse? with
    | some inv => momentsJson inv.circuit
    | none => .error notIterable
  | "with_device" => do
    let d ← device s[0]
    let ms ← c.moments.mapM fun m => do
      Moment.ofList (← m.ops.mapM fun op => op.withQubits (op.qubits.map (qubitMapping s[1])))
    shown (bind ⟨ms⟩ d)
  | "next" => do
    checkDistance s[2]
    .ok (c.next? s[0] s[1] s[2])
  | "next_all" => .ok (frontierJson (c.nextOf s[0] s[1]))
  | "prev" => do
    checkDistance s[2]
    .ok (c.prev? s[0] s[1] s[2])
  | "reachable" => .ok (frontierJson (c.reach s[0] (blocker s[1])))
  | "between" => placedJson (c.between s[0] s[1] s[2])
  | "until_blocked" => placedJson (c.untilBlocked s[0] (blocker s[1]))
  | "op_at" => (c.opAt? s[0] s[1]).mapM opText
  | "findall" => placedJson (c.placed.filter fun (_,op) => blocker s[0] op)
  | "findall_type" => placedJson (c.placed.filter fun (_,op) => op.hasGateKind s[0])
  | "terminal" => .ok (if s.args.isEmpty then c.measurementsAreTerminal else c.allTerminal (blocker s[0]))
  | "qubits" => .ok c.sortedQubits
  | "ops" => opTexts c.operations
  | "eq" => do
    let same := b.beq (← boundCircuit s[0])
    .ok (.arr [same,!same])
  | "approx" => do
    let d ← boundCircuit s[0]
    let atol := (s[1] : Option Number).getD (.float 1e-8)
    let near (m n : Moment Op) : Bool :=
      m.size == n.size && (m.ops.zip n.ops).all fun (x,y) => x.near atol y
    .ok (c.size == d.circuit.size && ((c.moments.zip d.circuit.moments).all fun (m,n) => near m n) && b.device == d.device)
  | "len" => .ok (.arr [c.size,!c.moments.isEmpty])
  | "has_unitary" => c.hasUnitary
  | "param" => .ok (c.operations.any Operation.isParameterized)
  | "resolve" => shown (do
    bind ⟨← c.moments.mapM fun m => Moment.ofList (m.ops.map fun op => op.resolve (resolver s[0]).get?)⟩ b.device)
  | "decompose" => do opTexts (← Operation.expander.expand c.operations)
  | "diagram" => diagramText s[0] c
  | "repr" => .ok b.structural
  | "html" => do
    .ok s!"<pre style=\"overflow: auto; white-space: pre;\">{← diagramText .null c}</pre>"
  | _ => noAttribute
def circuitStep (b : BoundCircuit Number) (s : Step) : CircuitStep :=
  let c := b.circuit
  let r := b.device.rules
  let withCircuit (c : Circuit Op) : BoundCircuit Number := { b with circuit := c }
  let edit {α : Type} (e : Outcome (Circuit.Edit Op α)) (show' : α → Json) : CircuitStep := match e with
    | .error f => (b,.error f)
    | .ok (c,out) => (withCircuit c,out.map show')
  let whole (e : Outcome (Circuit Op)) : CircuitStep := become b (e.map withCircuit)
  let pairs {α : Type} (f : Json → Outcome α) (j : Json) : Outcome (List (Int × α)) := j.elems.mapM fun e => do
    .ok (e[0].toInt,← f e[1])
  match s.name with
  | "append" => edit (do .ok (c.append r (← tree s[0]) (strategy s[1]))) fun _ => .null
  | "insert" => edit (do .ok (c.insert r s[0].toInt (← tree s[1]) (strategy s[2]))) nat
  | "insert_bad" => edit (do .ok (c.insert r s[0] (← tree s[1]) (.unknown s[2].display))) nat
  | "insert_into_range" => edit (do .ok (c.insertIntoRange r (← tree s[0]) s[1] s[2])) nat
  | "insert_at_frontier" => edit (do .ok (c.insertAtFrontier (← (← tree s[0]).flatten) s[1] s[2])) frontierJson
  | "batch_remove" => whole (do c.batchRemove r (← pairs operation s[0]))
  | "batch_insert_into" => whole (do c.batchInsertInto r (← pairs operation s[0]))
  | "batch_insert" => whole (do c.batchInsert r (← pairs tree s[0]))
  | "clear" => (withCircuit (c.clear s[0] s[1]),.ok .null)
  | "set" => whole (do
    match ← tree s[1] with
    | .moment m => c.assign r s[0] m
    | _ => .error (.type "Can only assign Moments into Circuits."))
  | "setslice" => whole (do
    let ts ← s[1].elems.mapM fun j => match j with
      | .arr _ => do .ok (OpTree.moment (← moment j))
      | j => tree j
    let ms ← ts.mapM fun t => match t with
      | .moment m => Except.ok m
      | _ => .error (.type "Can only assign Moments into Circuits.")
    let at' := rangePlaces c.size s[0]
    match s[0][2] with
    | .null | .num (.int 1) =>
      let a := match s[0][0] with
        | .null => 0
        | v => (max 0 (min (if v.toInt < 0 then v.toInt+c.size else v.toInt) c.size)).toNat
      c.assignRun r a at'.length ms
    | _ => c.assignEach r at' ms)
  | "del" => whole (match s[0] with
    | .num (.int i) => do
      let k ← orFail .index (c.place? i)
      .ok ⟨c.moments.eraseIdx k⟩
    | j =>
      let at' := rangePlaces c.size j
      .ok ⟨(c.moments.zipIdx.filter fun (_,i) => !at'.contains i).map (·.1)⟩)
  | "iadd" => become b (do b.addInPlace (← boundCircuit s[0]))
  | "imul" => match s[0] with
    | .num (.int n) => (withCircuit (c.times n),.ok .null)
    | _ => (b,fails .type)
  | "device" => match (do bind c (← device s[0]) : Outcome (BoundCircuit Number)) with
    | .error f => (b,.error f)
    | .ok b => (b,.ok b.device.structural)
  | _ => (b,askCircuit b s)
def seenCircuit (r : Json) (b : BoundCircuit Number) : Answer := do
  .ok (.obj [("r",r),("c",← momentsJson b.circuit)])
def circuitRequest : Handler := fun j => do
  let start ← boundCircuit j["init"]
  .ok (.obj [("init",← momentsJson start.circuit),("steps",← stepwise circuitStep seenCircuit start j)])
def diagramRequest : Handler := fun j => do diagramText j (← circuit j["c"])
def circuitRepr : Handler := fun j => do .ok (← boundCircuit j["c"]).structural
def circuitKind : String := "cirq.circuits.circuit.Circuit"
def initialState (n : Nat) : Outcome (Tensor Number) :=
  match j with
  | .num (.int k) =>
    let size := 2^n
    let i := if k < 0 then k+(size : Nat) else k
    if 0 ≤ i ∧ i < (size : Nat) then
      .ok ⟨Tensor.qubitShape n,((Array.replicate size (0 : Cpx Number)).set! i.toNat 1)⟩
    else fails .index
  | j =>
    let t := tensor j
    if t.entries.size = 2^n then .ok (t.reshape (Tensor.qubitShape n)) else fails .value
def unitaryRequest : Handler := fun j => do
  let c ← circuit j["c"]
  let order ← qubitOrder j["qubit_order"]
  let ignore := valueOr "ignore" true j
  if j["protocol"].truthy then
    if ← c.hasUnitary then c.unitary .sorted [] true
    else .error (Facet.refusal .unitary (classText circuitKind) true)
  else match j["state"]? with
    | some s => do .ok (flatJson (← c.applyTo (initialState s) order j["present"] ignore).entries)
    | none => c.unitary order j["present"] ignore
def exponentText : Handler := fun j => do
  let info := j["info"]
  let exponent : ShownExponent := match info["exponent"] with
    | .null => .param (.num (.int 1))
    | .str s => .text s
    | e => match param? e with
      | some p => .param p
      | none => match scalar e with
        | .complex z => if z.im == 0 then .param (.num z.re) else .text (scalar e).text
        | .real x => .param (.num x)
  let qs := qubits j["q"]
  let op : Op := .gate (.identity qs.length) qs
  let kw := j["kw"]
  (⟨[⟨[op]⟩]⟩ : Circuit Op).diagramText (diagramOptions kw) (fun _ _ => .ok { symbols := info["info"], exponent })
    (← qubitOrder kw["qubit_order"])

/-! ## Requests about sweeps, resolvers and results -/
def sweepAt : Nat → Json → Outcome (Sweep Number)
  | 0, _ => fails .recursion
  | n+1, j =>
    let key := match j["key"] with
      | .str s => s
      | k => k["sym"]
    let parts : Outcome (List (Sweep Number)) := j["of"].elems.mapM (sweepAt n)
    match j["k"] with
    | "unit" => .ok .unit
    | "points" => .ok (.points key j["v"])
    | "linspace" => .ok (.linspace key j["start"] j["stop"] j["n"])
    | "zip" => do Sweep.zipOf (← parts)
    | "product" => do Sweep.productOf (← parts)
    | f => do match f,← parts with
      | "+",[a,b] => a.add b
      | "*",[a,b] => a.mul b
      | "+bad",_ => .error (.type "cannot add sweep and <class 'int'>")
      | "*bad",_ => .error (.type "cannot multiply sweep and <class 'int'>")
      | _,_ => fails .key
def sweep : Outcome (Sweep Number) := sweepAt 100 j
mutual
def plainDocument : Json → Json
  | .num (.float x) => .str (Written.plain x)
  | .arr xs => .arr (plainDocuments xs)
  | .obj fs => .obj (plainFields fs)
  | j => j
def plainDocuments : List Json → List Json
  | [] => []
  | j :: r => plainDocument j :: plainDocuments r
def plainFields : Fields → Fields
  | [] => []
  | (k,v) :: r => (k,plainDocument v) :: plainFields r
end
def hasNegativeLength : Nat → Json → Bool
  | 0, _ => false
  | n+1, j => j["n"].toInt < 0 || j["of"].elems.any (hasNegativeLength n)
def sweepRequest : Handler := fun j => do
  let s ← sweep j["s"]
  if hasNegativeLength 100 j["s"] then fails .value
  let eq ← match j["other"]? with
    | some o => do
      let same := s == (← sweep o)
      Except.ok [("eq",Json.arr [same,!same])]
    | none => .ok []
  let proto := if j["proto"].truthy then
    [("proto",settle (do
      let d ← s.toDocument (valueOr "reps" 1 j)
      .ok (.arr [plainDocument d,(← Sweep.ofDocument d).structural])))] else []
  .ok (.obj (("keys",s.keys) :: ("len",s.size) :: ("repr",s.structural) :: ("str",s.text) :: ("params",s.assignments)
    :: (eq ++ proto)))
def sweepFromProto : Handler := fun j => do
  let s ← Sweep.ofDocument j["v"]
  .ok (.arr [s.structural,s.size])
structure ShownResolver where
  resolver : Resolver Number
  shown : String
def shownOf (r : Resolver Number) : ShownResolver := ⟨r,r.structural⟩
def shownAssignment (a : Assignment Number) : ShownResolver :=
  let r : Resolver Number := ⟨a.map fun (k,v) => (k,.num v)⟩
  let entries := a.map fun (k,v) => s!"({Text.quoted k}, {v.text})"
  ⟨r,"cirq.ParamResolver(OrderedDict(" ++ (if a.isEmpty then "" else Text.bracketed entries) ++ "))"⟩
def resolversOf (s : Sweep Number) : List ShownResolver := s.assignments.map shownAssignment
def toResolvers : Outcome (List ShownResolver) :=
  let unexpected : Fault := .type "Unexpected Sweepable type."
  match j with
  | .arr [] => fails .stopped
  | .arr (x :: r) =>
    if x["r"]?.isSome then .ok ((x :: r).map fun (e : Json) => shownOf e["r"])
    else do
      let parts ← (x :: r).mapM fun e =>
        if e["k"]?.isSome then do .ok (resolversOf (← sweep e)) else fails .type
      .ok parts.flatten
  | .obj _ => match j["r"]?, j["k"]? with
    | some r, _ => .ok [shownOf r]
    | none, some _ => do .ok (resolversOf (← sweep j))
    | none, none => .error unexpected
  | .str "" => fails .stopped
  | .str _ => fails .type
  | _ => .error unexpected
def resolversRequest : Handler := fun j => do .ok ((← toResolvers j["v"]).map ShownResolver.shown)
def bitsOfJson : List Bool := j
def measurementsOf : Measurements := j.fields.map fun (k,rows) => (k,rows.elems.map fun r => match r with
  | .arr _ => bitsOfJson r
  | b => [b.truthy])
def rowsJson (rows : List (List Bool)) : Json := rows.map (·.map Bool.toNat)
def measurementsJson (m : Measurements) : Json :=
  .obj (m.map fun (k,rows) => (k,rowsJson rows))
def trialOf : Trial Number := ⟨j["params"],measurementsOf j["m"],j["reps"]⟩
def countsJson (cs : List (String × Nat)) : Json := cs.mergeSort fun a b => Text.le a.1 b.1
def natTexts (cs : List (Nat × Nat)) : Json := countsJson (cs.map fun (k,n) => (toString k,n))
def keyText : Json → String
  | .str s => s
  | .arr qs => Text.join "," (qs.map fun q => (qubit q).text)
  | q => (qubit q).text
def askTrial (t : Trial Number) (s : Step) : Answer :=
  match s.name with
  | "str" => .ok t.text
  | "hist" => do .ok (natTexts (← t.histogram s[0]))
  | "hist_sum" => do .ok (natTexts (← t.histogramBy (fun r => (r.filter id).length) s[0]))
  | "hist_q" => do .ok (natTexts (← t.histogram (qubit s[0]).text))
  | "multi" => do
    let cs ← t.jointHistogram (s[0].elems.map keyText)
    .ok (countsJson (cs.map fun (k,n) => (Text.parenthesized (k.map fun (x : Nat) => toString x),n)))
  | _ => noAttribute
def trialRequest : Handler := fun j => .ok (asked (askTrial (trialOf j)) j)
def histogramRequest : Handler := fun j => do
  let m := measurementsOf j["m"]
  let n := m.length
  let firsts : List (List Bool) := m.map fun (_,rows) => rows.map fun r => r.headD false
  let rows : List (List Bool) := match firsts with
    | [] => []
    | bs :: rest => rest.foldl (fun acc cs => acc.zipWith (fun g b => g ++ [b]) cs) (bs.map fun b => [b])
  let count (k : Nat) : Nat := (rows.filter fun r => bitsToNat r == k).length
  let label (k : Nat) : String := bitText ((List.range n).map fun q => k/2^(n-1-q) % 2 == 1)
  .ok (.obj [("values",(List.range (2^n)).map fun k => Number.float (.ofNat (count k))),
    ("bars",.arr [(List.range (2^n)).map label,"qubit state","result count"])])
end QuantumCircuits.Service
