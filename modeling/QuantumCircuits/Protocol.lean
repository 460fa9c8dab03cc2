import QuantumCircuits.Operation.Placing
import QuantumCircuits.Operation.Unitary
import QuantumCircuits.Study

/-! # Things that can be asked

Plain values, operations, and objects that are known only by the answers of their methods. -/
namespace QuantumCircuits
open Text
inductive Thing where
  | declined
  | nothing
  | bool (b : Bool)
  | num (x : Scalar Number)
  | expr (p : Param Number)
  | text (s : String)
  | array (t : Tensor Number)
  | seq (isTuple : Bool) (xs : List Thing)
  | record (fields : List (String × Thing))
  | op (o : Operation Number)
  | info (symbols : Thing) (exponent : Param Number) (connected : Bool)
  | combination (terms : List (String × Cpx Number))
  | object (methods : List (String × Thing))
namespace Thing
def ofInt (n : Int) : Thing := num (.real (.int n))
def paramKind : Param Number → String
  | .num (.int _) => "int"
  | .num (.float _) => "float"
  | .expr e =>
    if e.isSymbol then "sympy.core.symbol.Symbol"
    else if 1 < e.terms.length then "sympy.core.add.Add" else "sympy.core.mul.Mul"
  | .residue .. => "sympy.core.mod.Mod"
def kind : Thing → String
  | declined => "NotImplementedType"
  | nothing => "NoneType"
  | bool _ => "bool"
  | num (.real (.int _)) => "int"
  | num (.real (.float _)) => "float"
  | num (.complex _) => "complex"
  | expr p => paramKind p
  | text _ => "str"
  | array _ => "numpy.ndarray"
  | seq true _ => "tuple"
  | seq false _ => "list"
  | record _ => "dict"
  | op o => o.kindPath
  | info .. => "cirq.protocols.circuit_diagram_info.CircuitDiagramInfo"
  | combination _ => "cirq.value.linear_dict.LinearDict"
  | object _ => "stub.Stub"
def kindText (t : Thing) : String := classText t.kind
mutual
def literal : Thing → String
  | declined => "NotImplemented"
  | nothing => "None"
  | bool b => boolText b
  | num x => x.text
  | expr p => p.text
  | text s => quoted s
  | array _ => "array([[]])"
  | seq true [x] => s!"({literal x},)"
  | seq true xs => "(" ++ join ", " (literals xs) ++ ")"
  | seq false xs => "[" ++ join ", " (literals xs) ++ "]"
  | record fs => "\x7b" ++ join ", " (literalFields fs) ++ "\x7d"
  | op o => o.structural
  | info .. | combination _ => ""
  | object _ => "Stub"
def literals : List Thing → List String
  | [] => []
  | t :: ts => literal t :: literals ts
def literalFields : List (String × Thing) → List String
  | [] => []
  | (k,t) :: ts => s!"{quoted k}: {literal t}" :: literalFields ts
end
def shown : Thing → String
  | text s => s
  | array _ => "[[]]"
  | op o => OperationText.text o
  | t => t.literal
def items? : Thing → Option (List Thing)
  | seq _ xs => some xs
  | text s => some (s.toList.map fun c => text (String.singleton c))
  | record fs => some (fs.map fun (k,_) => text k)
  | array t => some (t.entries.toList.map fun z => num (.complex z))
  | combination ts => some (ts.map fun (k,_) => text k)
  | _ => none
mutual
def toTree : Thing → OpTree (Operation Number)
  | op o => .leaf o
  | seq _ xs => .node (toTrees xs)
  | text "" => .node []
  | record [] => .node []
  | text _ | record _ => .endless
  | t => .other t.kindText t.shown
def toTrees : List Thing → List (OpTree (Operation Number))
  | [] => []
  | t :: ts => toTree t :: toTrees ts
end
def number? : Thing → Option Number
  | num (.real x) => some x
  | bool b => some (.int (if b then 1 else 0))
  | _ => none
def isNumber (n : Int) (t : Thing) : Bool := match t.number? with
  | some x => x == .int n
  | none => false
def isDeclined : Thing → Bool
  | declined => true
  | _ => false
def isNothing : Thing → Bool
  | nothing => true
  | _ => false
def truthy : Thing → Bool
  | declined | op _ | info .. | object _ | expr _ | array _ => true
  | nothing => false
  | bool b => b
  | num x => !x.isZero
  | text s => !s.isEmpty
  | seq _ xs => !xs.isEmpty
  | record fs => !fs.isEmpty
  | combination ts => !ts.isEmpty
end Thing

/-! ## Questions and who answers them

A question is first put to the method made for it, then to others from whose answers the answer follows. -/
namespace Thing
open RealScalar PlainPow
def ask (name : String) : Thing → Outcome (Option Thing)
  | object ms => .ok (ms.lookup name)
  | op o => match name with
    | "_unitary_" =>
      if o.offers .unitary then do
        .ok (some (((← o.matrix?).map fun m => array (.ofMat [m.rows,m.cols] m)).getD declined))
      else .ok none
    | "_decompose_" =>
      if o.offers .decompose then do .ok (some (((← o.decomposeOnce?).map fun ops => seq false (ops.map op)).getD declined))
      else .ok none
    | "_measurement_key_" => .ok (if o.offers .key then some ((o.measurementKey?.map text).getD declined) else none)
    | "_is_parameterized_" => .ok (some (bool o.isParameterized))
    | _ => .ok none
  | _ => .ok none
def orDefault (default : Option Thing) (f : Fault) : Outcome Thing := match default with
  | some d => .ok d
  | none => .error f
variable (t : Thing)
/-- What a method says, or what follows from others where it declines; these learn whether there is such a method. -/
def told (name : String) (otherwise : Bool → Outcome Thing) (use : Thing → Outcome Thing := .ok) (orNothing : Bool := false) :
    Outcome Thing := do
  let a ← t.ask name
  match a.filter fun x => !(x.isDeclined || (orNothing && x.isNothing)) with
  | some x => use x
  | none => otherwise a.isSome
variable (default : Option Thing)
def simple (f : Facet) (use : Thing → Outcome Thing := .ok) : Outcome Thing :=
  t.told f.name (fun offered => orDefault default (f.refusal t.kindText offered)) use (f = .decompose || f = .qasm)
def unitary : Outcome Thing := t.simple default .unitary
def mixture : Outcome Thing := t.simple default .mixture
def measurementKey : Outcome Thing := t.simple default .key
def phaseBy : Outcome Thing := t.simple default .phase
def qasm : Outcome Thing := t.simple default .qasm
def decomposeOnce : Outcome Thing :=
  t.simple default .decompose fun x => do .ok (seq false ((← x.toTree.flatten).map op))
section
variable (before after : Thing → Outcome Thing) (keep : Option (Operation Number → Bool)) (stuck : Thing → Option Fault)
/-- The first answer among those of what is asked before the thing, the thing itself, and what is asked after it. -/
def answer? : Outcome (Option Thing) :=
  [before,fun t => t.decomposeOnce (some declined),after].findSomeM? fun ask => do
    let r ← ask t
    .ok (if r.isDeclined || r.isNothing then none else some r)
def isCollection : Thing → Bool
  | op (.pauli _) => true
  | t => t.items?.isSome
def expander : Expander Thing where
  step t := do
    ((← t.answer? before after).or (.guard isCollection t)).mapM fun r => do .ok ((← r.toTree.flatten).map op)
  keep
    | op o => keep.any (· o)
    | _ => false
  stuck t := if keep.isSome then stuck t else none
end
def mixtureChannel : Outcome Thing :=
  t.told "_mixture_" fun m => t.told "_unitary_"
    (fun u => orDefault default (mixtureRefusal t.kindText (m || u)))
    fun x => .ok (seq true [seq true [num (.real (.float 1.0)),x]])
def itemsOf : Outcome (List Thing) := orFail .type t.items?
def weighted : Thing → Outcome Thing
  | seq _ [p,array a] => match p.number? with
    | some p => .ok (array (a.scale (.ofReal (sqrt p))))
    | none => fails .type
  | _ => fails .type
def channel : Outcome Thing :=
  t.told "_channel_"
    (fun c => t.told "_mixture_"
      (fun m => t.told "_unitary_" (fun u => orDefault default (channelRefusal t.kindText (c || m || u)))
        fun x => .ok (seq true [x]))
      fun x => do .ok (seq true (← (← x.itemsOf).mapM weighted)))
    fun x => do .ok (seq true (← x.itemsOf))
def answered (question : Option Thing → Outcome Thing) : Outcome Thing := do .ok (bool !(← question (some nothing)).isNothing)
def hasUnitary : Outcome Thing :=
  t.told "_has_unitary_" fun _ => t.told "_unitary_" (fun _ => .ok (bool false)) fun _ => .ok (bool true)
def hasMixture : Outcome Thing := t.told "_has_mixture_" fun _ => answered t.mixture
def hasMixtureChannel : Outcome Thing := t.told "_has_mixture_" fun _ => do
  let u ← t.hasUnitary
  if u.truthy then .ok u else answered t.mixtureChannel
def hasChannel : Outcome Thing := t.told "_has_channel_" fun _ => do
  let m ← t.hasMixtureChannel
  if m.truthy then .ok m else answered t.channel
def isMeasurement : Outcome Thing := do
  if (← t.measurementKey (some nothing)).isNothing then .ok (bool false) else t.hasChannel
def validateMixture : Check := do
  let m ← t.mixture (some nothing)
  if m.isNothing then .error (.type (t.shown ++ "_mixture did not have a _mixture_ method"))
  let total ← (← m.itemsOf).foldlM (fun (total : Number) e => match e with
    | seq _ [p,x] => match p.number? with
      | none => fails .type
      | some p =>
        if p < .int 0 then .error (.value (x.shown ++ "'s probability was less than 0."))
        else if .int 1 < p then .error (.value (x.shown ++ "'s probability was greater than 1."))
        else .ok (total+p)
    | _ => fails .value) (Number.float 0.0)
  if (total - .int 1).abs ≤ .float 1e-8 + .float 1e-5 then .ok ()
  else .error (.value "Sum of probabilities of a mixture was not 1.0")
def traceBound : Outcome Number := do
  let x ← t.told "_trace_distance_bound_" fun _ => .ok (num (.real (.float 1.0)))
  match x.number? with
  | some y => .ok (if y < .float 1.0 then y else .float 1.0)
  | none => fails .type
def toMat? : Thing → Option (Mat Number)
  | array ⟨[m,n],entries⟩ => some ⟨m,n,entries⟩
  | _ => none
def cleaned (ts : List (String × Cpx Number)) : Thing :=
  combination (ts.filter fun (_,c) => !decide (c.norm ≤ Number.float 1e-9))
def pauliExpansion : Outcome Thing :=
  t.told "_pauli_expansion_"
    (fun _ => do
      let u ← t.unitary (some nothing)
      if u.isNothing then
        orDefault default (.type s!"No Pauli expansion for object {t.shown} of type {t.kindText}")
      else match u.toMat? with
        | none => fails .attribute
        | some m => .ok (cleaned (OperatorBasis.expand m (OperatorBasis.products m.rows.log2))))
    fun x => match x with
      | combination ts => .ok (cleaned ts)
      | _ => fails .attribute
def power? (t x : Thing) : Outcome (Option Thing) := do
  match t with
  | object ms => .ok (ms.lookup "__pow__")
  | num (.complex _) | array _ => .ok (some declined)
  | op o => match x.number? with
    | some y => do .ok (some (((← o.pow? (.num y)).map op).getD declined))
    | none => .ok (some declined)
  | expr p => match x.number? with
    | some y =>
      .ok (some (if y == .int 1 then t else text s!"({p.text})**{y.text}"))
    | none => .ok (some declined)
  | t => match t.number?, x.number? with
    | some (.int a), some (.int b) =>
      if a = 0 ∧ b < 0 then fails .zeroDivision else .ok (some (num (.real (Number.pow (.int a) (.int b)))))
    | some (.int _), _ => .ok (some declined)
    | some (.float a), some y =>
      if a == 0.0 && y < .int 0 then fails .zeroDivision
      else if a < 0.0 && !y.isWhole then .ok (some (num (.complex (Cpx.scale (Number.pow (.float (-a)) y)
          ⟨cos (pi*y),sin (pi*y)⟩))))
      else .ok (some (num (.real (Number.pow (.float a) y))))
    | some (.float _), none => .ok (some declined)
    | none, _ => .ok none
def accepted? (a : Option Thing) : Option Thing := a.filter fun x => !x.isDeclined
def pow (t x : Thing) (default : Option Thing) : Outcome Thing := do
  let a ← t.power? x
  match accepted? a with
  | some y => .ok y
  | none => orDefault default (Facet.pow.refusal t.kindText a.isSome)

/-- The inverse: the power minus one, or of a collection the inverses in reverse order. -/
def inverseAt : Nat → Thing → Outcome (Option Thing)
  | 0, _ => fails .recursion
  | n+1, t => do
    match accepted? (← t.power? (ofInt (-1))), t, t.items? with
    | some y, _, _ => .ok (some y)
    | none, text _, _ | none, _, none => .ok none
    | none, _, some xs => do
      let ys ← xs.mapM (inverseAt n)
      .ok (if ys.all Option.isSome then some (seq true (ys.filterMap id).reverse) else none)
def inverse : Outcome Thing := do
  match ← inverseAt nesting t with
  | some y => .ok y
  | none => orDefault default (notInvertible t.kindText)
def isParameterized : Outcome Thing := do
  match t with
  | expr _ => .ok (bool true)
  | t => t.told "_is_parameterized_" fun _ => .ok (bool false)
def repeated (n : Int) : Thing → Thing
  | text s => text (Text.repeatText n.toNat s)
  | seq b xs => seq b (List.replicate n.toNat xs).flatten
  | t => t
def leftProduct? (l r : Thing) : Option Thing :=
  match l with
  | object ms => ms.lookup "__mul__"
  | expr p => match r with
    | expr q => some (expr (p.mul q))
    | r => some ((r.number?.map fun y => expr (p.mul (.num y))).getD declined)
  | text _ | seq _ _ => match r.number? with
    | some (.int n) => some (repeated n l)
    | _ => some declined
  | num (.complex z) => match r with
    | num y => some (num (.complex (z*y.toComplex)))
    | _ => some declined
  | l => match l.number?, r.number? with
    | some (.int a), some (.int b) => some (ofInt (a*b))
    | some (.float a), some y => some (num (.real (.float a * y)))
    | some _, _ => some declined
    | none, _ => none
def rightProduct? (l r : Thing) : Option Thing :=
  match r with
  | object ms => ms.lookup "__rmul__"
  | expr p => some ((l.number?.map fun y => expr (Param.mul (.num y) p)).getD declined)
  | text _ | seq _ _ => match l.number? with
    | some (.int n) => some (repeated n r)
    | _ => some declined
  | num (.complex z) => match l with
    | num y => some (num (.complex (y.toComplex*z)))
    | _ => some declined
  | r => match l.number?, r.number? with
    | some x, some (.float b) => some (num (.real (x * .float b)))
    | _, some _ => some declined
    | _, none => none
def negated : Thing → Outcome Thing
  | expr p => .ok (expr p.neg)
  | object ms => orFail .type (ms.lookup "__neg__")
  | _ => fails .type

/-- The product; plus and minus one do nothing or change the sign of a factor with parameters. `none` when it is the left
factor itself. -/
def product (l r : Thing) (default : Option Thing) : Outcome (Option Thing) := do
  let first := (accepted? (leftProduct? l r)).or (accepted? (rightProduct? l r))
  let leftHas := (← l.isParameterized).truthy
  let rightHas := (← r.isParameterized).truthy
  if r.isNumber (-1) && leftHas then do .ok (some (← l.negated))
  else if l.isNumber (-1) && rightHas then do .ok (some (← r.negated))
  else if r.isNumber 1 && leftHas then .ok none
  else if l.isNumber 1 && rightHas then .ok (some r)
  else match first with
    | some x => .ok (some x)
    | none => do
      .ok (some (← orDefault default (.type s!"unsupported operand type(s) for *: '{l.kindText}' and '{r.kindText}'")))
mutual
def controlTree (cs : Qubits) : OpTree (Operation Number) → Outcome Thing
  | .leaf o =>
    if cs.isEmpty then .error (.value ("Can't get controlled operation without control qubit. Op: " ++ o.structural))
    else .ok (op (.controlled cs o))
  | .moment _ => fails .type
  | .node ts => do .ok (seq true (← controlTrees cs ts))
  | .endless => fails .recursion
  | .other kind shown => .error (.type s!"Not a collections.Iterable or an Operation: {kind} {shown}")
def controlTrees (cs : Qubits) : List (OpTree (Operation Number)) → Outcome (List Thing)
  | [] => .ok []
  | t :: ts => do .ok ((← controlTree cs t) :: (← controlTrees cs ts))
end
def control (cs : Qubits) (t : Thing) (default : Option Thing) : Outcome Thing :=
  t.told "controlled_by" fun offered => match t, t.items? with
    | op _, _ | _, some _ => controlTree cs t.toTree
    | _, _ => orDefault default (.type (s!"object of type '{t.kindText}' "
        ++ if offered then "does have a controlled_by method, but it returned NotImplemented."
          else "has no controlled_by method."))
def resolved (r : Resolver Number) (t : Thing) : Outcome (Option Thing) := do
  if r.isEmpty then .ok none
  else match t with
    | expr p =>
      let q := r.valueOf p
      .ok (match q with
        | .num x => some (num (.real (.float x.toFloat)))
        | q => if q == p then none else some (expr q))
    | op o => .ok (some (op (o.resolve r.get?)))
    | t => do .ok (accepted? (← t.ask "_resolve_parameters_"))
def diagramInfo : Outcome Thing := t.simple default .diagram fun x =>
  let infoOf (symbols : List Thing) : Thing := info (seq true symbols) (.num (.int 1)) true
  .ok (match x, x.items? with
    | text s, _ => infoOf [text s]
    | _, some xs => infoOf xs
    | _, none => x)
def mixSlices (m : Mat Number) (axes : List Nat) (t : Tensor Number) : Tensor Number :=
  let zero (i : Index) : Index := axes.foldl (fun i a => Index.set i a 0) i
  let one (i : Index) : Index := match axes with
    | [] => i
    | a :: _ => Index.set (zero i) a 1
  .ofFn t.shape fun i =>
    if i == one i then m.get 1 0 * t.get (zero i) + m.get 1 1 * t.get (one i)
    else if i == zero i then m.get 0 0 * t.get (zero i) + m.get 0 1 * t.get (one i)
    else t.get i
def applyMatrix (u : Thing) (axes : List Nat) (t : Tensor Number) : Outcome (Tensor Number) :=
  match u with
  | array ⟨shape,entries⟩ =>
    if shape = [2,2] then .ok (mixSlices ⟨2,2,entries⟩ axes t)
    else if entries.size ≠ 4^axes.length then fails .value
    else .ok (Tensor.leftMultiply ⟨Tensor.qubitShape (2*axes.length),entries⟩ t axes)
  | _ => fails .attribute

/-- The state after a thing that may act on states itself, or by its matrix; `none` if it can do neither. -/
def act? (t : Thing) (axes : List Nat) (state : Tensor Number) : Outcome (Option Thing) := do
  let after ← t.told "_apply_unitary_" (fun _ => do
    let u ← t.unitary (some nothing)
    if u.isNothing then .ok nothing else do .ok (array (← applyMatrix u axes state))) .ok true
  .ok (if after.isNothing then none else some after)
def applyUnitary (axes : List Nat) (state : Tensor Number) (default : Option Thing) : Outcome Thing := do
  match ← t.act? axes state with
  | some x => .ok x
  | none => orDefault default (stateRefusal t.kindText)
def conjugated : Thing → Thing
  | array t => array t.conj
  | t => t
def applyChannel (left right : List Nat) (rho : Tensor Number) (default : Option Thing) : Outcome Thing :=
  t.told "_apply_channel_" (fun _ => do
    match ← t.act? left rho with
    | some (array half) => .ok (conjugated ((← t.act? right half.conj).getD nothing))
    | some _ => fails .type
    | none => match ← t.channel (some nothing) with
      | seq _ [] => fails .index
      | seq _ ks =>
        let parts ← ks.mapM fun k => do applyMatrix (conjugated k) right (← applyMatrix k left rho)
        .ok (array (parts.foldl Tensor.add (rho.map fun _ => 0)))
      | _ => orDefault default (densityRefusal t.kindText)) .ok true
mutual
def same : Thing → Thing → Bool
  | declined, declined | nothing, nothing => true
  | expr p, expr q => p == q
  | text s, text t => s == t
  | seq a xs, seq b ys => a == b && sameAll xs ys
  | record [], record [] => true
  | op a, op b => a == b
  | num x, num y => x == y
  | bool a, bool b => a == b
  | _, _ => false
def sameAll : List Thing → List Thing → Bool
  | [], [] => true
  | x :: xs, y :: ys => same x y && sameAll xs ys
  | _, _ => false
end
/-- Equality up to a tolerance: of numbers by distance, of collections member by member. A text is a collection of texts
without end. -/
def nearAt : Nat → Number → Thing → Thing → Outcome Thing
  | 0, _, _, _ => fails .recursion
  | n+1, atol, a, b => a.told "_approx_eq_" fun _ => b.told "_approx_eq_" fun _ =>
    match a, a.number?, b.number? with
    | _, some x, some y => .ok (bool ((x-y).abs ≤ atol))
    | _, some _, none => .ok (bool false)
    | num x, none, _ => match b with
      | num (.complex w) => .ok (bool ((x.toComplex-w).norm ≤ atol))
      | _ => .ok (bool false)
    | _, none, _ => match a.items?, b.items? with
      | some xs, some ys => nearAll n atol xs ys
      | _, _ => .ok (bool (a.same b))
where
  nearAll (n : Nat) (atol : Number) : List Thing → List Thing → Outcome Thing
    | [], [] => .ok (bool true)
    | x :: xs, y :: ys => do
      match ← nearAt n atol x y with
      | bool true => nearAll n atol xs ys
      | r => .ok r
    | _, _ => .ok (bool false)
def near (atol : Number) (a b : Thing) : Outcome Thing := nearAt nesting atol a b
end Thing
end QuantumCircuits
