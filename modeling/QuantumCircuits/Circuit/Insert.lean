import QuantumCircuits.Circuit.Basic

/-! # Insertion

Operations are put into a circuit one after the other. A strategy chooses the moment for each, within the rules of a
device; when a rule is broken the circuit is left as it is at that time. -/
namespace QuantumCircuits
section
structure DeviceRules (α : Type) where
  decompose : α → Outcome (OpTree α)
  checkOp : α → Check
  checkMoment : Moment α → Check
  checkCircuit : Circuit α → Check
  canAdd : α → Moment α → Outcome Bool
namespace DeviceRules
variable [Located α]
def none : DeviceRules α where
  decompose op := .ok (.leaf op)
  checkOp _ := .ok ()
  checkMoment _ := .ok ()
  checkCircuit _ := .ok ()
  canAdd op m := .ok (!m.actsOnAny (Located.qubits op))
end DeviceRules
inductive Strategy where
  | new
  | newThenInline
  | inline
  | earliest
  | unknown (shown : String)
  deriving DecidableEq
namespace Strategy
def name : Strategy → String
  | new => "NEW"
  | newThenInline => "NEW_THEN_INLINE"
  | inline => "INLINE"
  | earliest => "EARLIEST"
  | unknown s => s

def structural (s : Strategy) : String := "cirq.InsertStrategy." ++ s.name

def ofName (s : String) : Strategy := match s with
  | "NEW" => new
  | "NEW_THEN_INLINE" => newThenInline
  | "INLINE" => inline
  | "EARLIEST" => earliest
  | s => unknown s

def afterFirst : Strategy → Strategy
  | newThenInline => inline
  | s => s
end Strategy
namespace Circuit
variable [Located α] (r : DeviceRules α) (c : Circuit α)
def canAddAt (i : Nat) (op : α) : Outcome Bool := match c.moments[i]? with
  | some m => r.canAdd op m
  | none => .ok true

/-- The earliest moment that can take the operation, going back from a place until the qubits are in use. -/
def earliestFrom (r : DeviceRules α) (c : Circuit α) (op : α) : Nat → Nat → Outcome Nat
  | 0, best => .ok best
  | k+1, best => do
    if c.actsAt (Located.qubits op) k then .ok best
    else if ← c.canAddAt r k op then earliestFrom r c op k k
    else earliestFrom r c op k best

def pickMoment (k : Nat) (op : α) : Strategy → Outcome (Circuit α × Nat)
  | .new | .newThenInline => .ok (c.insertMoment k .empty,k)
  | .inline => inlineMoment
  | .earliest => do
    if ← c.canAddAt r k op then .ok (c,← c.earliestFrom r op k k) else inlineMoment
  | .unknown s => .error (.value ("Unrecognized append strategy: " ++ s))
where
  inlineMoment : Outcome (Circuit α × Nat) := do
    if 0 < k && k-1 < c.size then
      if ← c.canAddAt r (k-1) op then .ok (c,k-1) else .ok (c.insertMoment k .empty,k)
    else .ok (c.insertMoment k .empty,k)

/-- The circuit as it is left, and a result or the fault that stopped the operation. -/
abbrev Edit (α β : Type) := Circuit α × Outcome β

def putAt (p : Nat) (op : α) : Edit α Unit :=
  let c := c.padTo (p+1)
  match (c.moments.getD p .empty).withOp op with
  | .error f => (c,.error f)
  | .ok m => (c.setMoment p m,r.checkMoment m)

def insertItems (r : DeviceRules α) : List (OpTree.Item α) → Strategy → Circuit α → Nat → Edit α Nat
  | [], _, c, k => (c,.ok k)
  | .inr m :: rest, s, c, k => insertItems r rest s (c.insertMoment k m) (k+1)
  | .inl op :: rest, s, c, k =>
    match c.pickMoment r k op s with
    | .error f => (c,.error f)
    | .ok (c,p) =>
      match c.putAt r p op with
      | (c,.error f) => (c,.error f)
      | (c,.ok ()) => insertItems r rest s.afterFirst c (max k (p+1))

def checkItem : OpTree.Item α → Check
  | .inl op => r.checkOp op
  | .inr m => r.checkMoment m

def insert (index : Int) (t : OpTree α) (s : Strategy) : Edit α Nat :=
  let items : Outcome (List (OpTree.Item α)) := do
    let items ← (← t.transform true r.decompose).items
    items.forM (checkItem r)
    .ok items
  match items with
  | .error f => (c,.error f)
  | .ok items => insertItems r items s c (c.clamp index)

def assign (i : Int) (m : Moment α) : Outcome (Circuit α) := do
  r.checkMoment m
  .ok (c.setMoment (← orFail .index (c.place? i)) m)

def assignRun (start count : Nat) (ms : Moments α) : Outcome (Circuit α) := do
  ms.forM r.checkMoment
  .ok ⟨c.moments.take start ++ ms ++ c.moments.drop (start+count)⟩

def assignEach (at' : List Nat) (ms : Moments α) : Outcome (Circuit α) := do
  ms.forM r.checkMoment
  if ms.length ≠ at'.length then fails .value
  else .ok ((at'.zip ms).foldl (fun c (i,m) => c.setMoment i m) c)

def append (t : OpTree α) (s : Strategy) : Edit α Nat := c.insert r c.size t s

def ofTree (t : OpTree α) (s : Strategy) : Outcome (Circuit α) := do
  r.checkCircuit empty
  let (c,done) := (empty : Circuit α).append r t s
  let _ ← done
  .ok c

def ofOps (ops : List α) : Outcome (Circuit α) := ofTree .none (.node (ops.map .leaf)) .earliest

def firstFree (r : DeviceRules α) (c : Circuit α) (op : α) : Nat → Nat → Outcome (Option Nat)
  | 0, _ => .ok none
  | n+1, i => do if ← c.canAddAt r i op then .ok (some i) else firstFree r c op n (i+1)

/-- Fills operations into the moments before `stop`; the rest is inserted at `stop`. -/
def fillRange (r : DeviceRules α) (stop : Nat) : List α → Circuit α → Nat → Edit α Nat
  | [], c, _ => (c,.ok stop)
  | op :: ops, c, i =>
    match c.firstFree r op (stop-i) i with
    | .error f => (c,.error f)
    | .ok none => c.insert r stop (.node ((op :: ops).map .leaf)) .earliest
    | .ok (some p) =>
      match (c.moments.getD p .empty).withOp op with
      | .error f => (c,.error f)
      | .ok m => fillRange r stop ops (c.setMoment p m) p

def insertIntoRange (t : OpTree α) (start stop : Int) : Edit α Nat :=
  if !(0 ≤ start ∧ start ≤ stop ∧ stop ≤ c.size) then
    (c,.error ⟨.index,some ("Bad insert indices: [" ++ toString start ++ ", " ++ toString stop ++ ")")⟩)
  else
    let ops : Outcome (List α) := do
      let ops ← t.flatten
      ops.forM r.checkOp
      .ok ops
    match ops with
    | .error f => (c,.error f)
    | .ok ops => fillRange r stop.toNat ops c start.toNat

def grouped {β : Type} (xs : List (Int × β)) : List (Int × List β) :=
  (xs.mergeSort fun a b => a.1 ≤ b.1).foldr (fun (i,b) acc => match acc with
    | (j,bs) :: rest => if i = j then (j,b :: bs) :: rest else (i,[b]) :: acc
    | [] => [(i,[b])]) []

/-- One group of a batch: later groups are shifted by the moments that it adds. -/
def batchStep (state : Circuit α × Int) (group : Int × List (OpTree α)) : Outcome (Circuit α × Int) := do
  let (c,shift) := state
  let at' := group.1+shift
  let (c,next) := c.insert r at' (.node group.2.reverse) .earliest
  .ok (c,shift + max 0 ((← next)-at'))

def batchInsert (insertions : List (Int × OpTree α)) : Outcome (Circuit α) := do
  r.checkCircuit c
  let (c,_) ← (grouped insertions).foldlM (batchStep r) (c,0)
  .ok c

def batchInsertInto (insertions : List (Int × α)) : Outcome (Circuit α) := do
  r.checkCircuit c
  let c ← insertions.foldlM (fun (c : Circuit α) (i,op) => do
    let p ← orFail .index (c.place? i)
    .ok (c.setMoment p (← (c.moments.getD p .empty).withOp op))) c
  r.checkCircuit c
  .ok c

def batchRemove [BEq α] (r : DeviceRules α) (c : Circuit α) (removals : List (Int × α)) : Outcome (Circuit α) := do
  r.checkCircuit c
  let c ← removals.foldlM (fun (c : Circuit α) (i,op) => do
    let p ← orFail .index (c.place? i)
    let m := c.moments.getD p .empty
    if m.ops.contains op then .ok (c.setMoment p ⟨m.ops.filter fun o => !(op == o)⟩)
    else .error (.value ("Can't remove " ++ Located.text op ++ " @ " ++ toString i ++ " because it doesn't exist."))) c
  r.checkCircuit c
  .ok c
end Circuit

/-! ## Graphs of operations

A node for each operation, in the order in which they came, and an edge from an earlier to a later one when the two
may not change places. -/

structure CircuitDag (α : Type) where
  nodes : List α
  /-- Pairs of an earlier and a later node, by the later one. -/
  edges : List (Nat × Nat)
namespace CircuitDag
variable (g : CircuitDag α)
def empty : CircuitDag α := ⟨[],[]⟩

def append (canReorder : α → α → Bool) (g : CircuitDag α) (op : α) : CircuitDag α where
  nodes := g.nodes ++ [op]
  edges := g.edges ++ (g.nodes.zipIdx.filter fun (a,_) => !canReorder a op).map fun (_,i) => (i,g.nodes.length)

def ofOps (canReorder : α → α → Bool) (ops : List α) : CircuitDag α := ops.foldl (append canReorder) empty
def predecessors (left : List Nat) (j : Nat) : List Nat := left.filter fun i => g.edges.contains (i,j)

/-- Goes back from a node along edges, first predecessors first, to one without predecessors. Edges lead from smaller
numbers to larger ones, so `j` steps suffice. -/
def root (g : CircuitDag α) (left : List Nat) : Nat → Nat → Nat
  | 0, j => j
  | n+1, j => match g.predecessors left j with
    | [] => j
    | i :: _ => root g left n i

/-- Takes out a node without predecessors; then goes on from its first successor, or from the first node left. -/
def order (g : CircuitDag α) : Nat → List Nat → Nat → List Nat
  | 0, _, _ => []
  | n+1, left, from' =>
    let i := g.root left from' from'
    let left := left.filter (· ≠ i)
    i :: match left.find? fun j => g.edges.contains (i,j) with
      | some j => order g n left j
      | none => match left with
        | [] => []
        | j :: _ => order g n left j

def orderedNodes : List Nat :=
  if g.nodes.isEmpty then [] else g.order g.nodes.length (List.range g.nodes.length) 0
def operations : List α := g.orderedNodes.filterMap (g.nodes[·]?)

/-- Pairs each node of one graph with an equal one of another; equal nodes are paired in order. -/
def pairing [BEq α] (h : CircuitDag α) : List α → List Nat → Option (List Nat)
  | [], _ => some []
  | a :: as, used =>
    match h.nodes.zipIdx.find? fun (b,j) => a == b && !used.contains j with
    | none => none
    | some (_,j) => (pairing h as (j :: used)).map (j :: ·)

def beq [BEq α] (g h : CircuitDag α) : Bool :=
  g.nodes.length == h.nodes.length && g.edges.length == h.edges.length && match h.pairing g.nodes [] with
    | none => false
    | some js => g.edges.all fun (a,b) => h.edges.contains (js.getD a 0,js.getD b 0)

instance [BEq α] : BEq (CircuitDag α) := ⟨beq⟩
variable [Located α]
def areDisjoint (a b : α) : Bool := !Moment.touches (Located.qubits a) b
def ofCircuit (c : Circuit α) : CircuitDag α := ofOps areDisjoint c.operations

def toCircuit (r : DeviceRules α) (g : CircuitDag α) : Outcome (Circuit α) :=
  Circuit.ofTree r (.node (g.operations.map .leaf)) .earliest
end CircuitDag

/-! ## Bucket queues

One bucket for each priority from a lowest one on, first in first out within a bucket. A queue that drops duplicates keeps
the entries that it has. -/
attribute [local instance (high)] Zero.ofOfNat0
structure BucketQueue (α : Type) where
  buckets : List (List α)
  offset : Int
  size : Nat
  queued : Option (List (Int × α))
namespace BucketQueue
variable (q : BucketQueue α)
def empty (drops : Bool) : BucketQueue α := ⟨[],0,0,if drops then some [] else none⟩
def dropsDuplicates : Bool := q.queued.isSome

def entriesFrom (offset : Int) : List (List α) → List (Int × α)
  | [] => []
  | b :: bs => b.map (fun a => (offset,a)) ++ entriesFrom (offset+1) bs

def entries : List (Int × α) := entriesFrom q.offset q.buckets
def isEmpty : Bool := q.size = 0

def appendAt (a : α) : Nat → List (List α) → List (List α)
  | 0, [] => [[a]]
  | 0, b :: bs => (b ++ [a]) :: bs
  | n+1, [] => [] :: appendAt a n []
  | n+1, b :: bs => b :: appendAt a n bs

def push (p : Int) (a : α) : BucketQueue α :=
  if q.buckets.isEmpty then { q with buckets := [[a]], offset := p, size := 1 }
  else if p < q.offset then
    { q with buckets := appendAt a 0 (List.replicate (q.offset-p).toNat [] ++ q.buckets), offset := p, size := q.size+1 }
  else { q with buckets := appendAt a (p-q.offset).toNat q.buckets, size := q.size+1 }

variable [BEq α]
def enqueue (p : Int) (a : α) : BucketQueue α × Bool :=
  if q.queued.any (·.contains (p,a)) then (q,false)
  else ({ q.push p a with queued := q.queued.map ((p,a) :: ·) },true)

def popFrom (offset : Int) : List (List α) → Option ((Int × α) × Int × List (List α))
  | [] => none
  | [] :: bs => popFrom (offset+1) bs
  | (a :: b) :: bs => some ((offset,a),offset,b :: bs)

def dequeue : Outcome ((Int × α) × BucketQueue α) :=
  if q.isEmpty then .error (.value "BucketPriorityQueue is empty.")
  else match popFrom q.offset q.buckets with
    | some (e,offset,buckets) => .ok (e,⟨buckets,offset,q.size-1,q.queued.map (·.erase e)⟩)
    | none => fails .index

def ofEntries (drops : Bool) (es : List (Int × α)) : BucketQueue α :=
  es.foldl (fun q (p,a) => (q.enqueue p a).1) (empty drops)
end BucketQueue
end

/-! ## Frontiers

A frontier gives a place for some qubits. -/
abbrev Frontier := List (Qubit × Int)
namespace Frontier
variable (f : Frontier)
def get? (q : Qubit) : Option Int := (f.find? fun e => e.1 = q).map (·.2)
def get (q : Qubit) : Int := (f.get? q).getD 0
def set (q : Qubit) (i : Int) : Frontier :=
  if f.any fun e => e.1 = q then f.map fun e => if e.1 = q then (q,i) else e else f ++ [(q,i)]
def ofPairs (ps : List (Qubit × Int)) : Frontier := ps.foldl (fun f (q,i) => set f q i) []
def qubits : Qubits := f.map (·.1)
end Frontier
namespace Circuit
variable [Located α] (c : Circuit α) (start : Frontier) (blocks : α → Bool)
/-- One operation at a place: it lets the qubits that have come this far pass if all its qubits have, and it does not
block; otherwise it stops them. -/
def reachOp (i : Nat) (reached : Frontier) (op : α) : Frontier :=
  let arrived := (Located.qubits op).filter fun q => (reached.get? q).isNone && (match start.get? q with
    | some s => s ≤ i
    | none => false)
  if arrived.isEmpty then reached
  else if arrived.length == (Located.qubits op).length && !blocks op then reached
  else arrived.foldl (fun f q => f.set q i) reached

def reach : Frontier :=
  let stopped : Frontier := c.placed.foldl (fun f (i,op) => reachOp start blocks i f op) []
  start.map fun (q,s) => (q,(stopped.get? q).getD (max c.size s))

/-- Operations between two frontiers, by place; crossing ones act on qubits of neither. -/
def between (start stop : Frontier) (omitCrossing : Bool) : List (Int × α) :=
  let involved := Qubit.sort (Qubit.distinct (start.qubits ++ stop.qubits))
  let found : BucketQueue Nat := involved.foldl (fun acc q =>
    let from' := start.get q
    (places from' (((stop.get? q).getD c.size)-from')).foldl (fun (acc : BucketQueue Nat) i =>
      match c.momentAt? i with
      | none => acc
      | some m =>
        let k := m.ops.findIdx fun op => (Located.qubits op).contains q
        match m.ops[k]? with
        | none => acc
        | some op =>
          if omitCrossing && (Located.qubits op).any (fun r => !involved.contains r) then acc
          else (acc.enqueue i k).1) acc) (.empty true)
  found.entries.filterMap fun (i,k) => do some (i,← (← c.momentAt? i).ops[k]?)

def untilBlocked : List (Nat × α) :=
  start.flatMap fun (q,s) =>
    (c.placed.filter fun (i,op) => s ≤ (i : Int) && (Located.qubits op).contains q).takeWhile fun (_,op) => !blocks op

/-- Consecutive places for operations: each as early as the frontier of its qubits allows, and not before `start`. -/
def assignPlaces (start : Int) : List α → Frontier → Outcome (List (α × Int) × Frontier)
  | [], f => .ok ([],f)
  | op :: ops, f =>
    match Located.qubits op with
    | [] => fails .value
    | qs => do
      let i := qs.foldl (fun m q => max m (f.get q)) start
      let f := qs.foldl (fun f q => f.set q (max (f.get q) (i+1))) f
      let (rest,f) ← assignPlaces start ops f
      .ok ((op,i) :: rest,f)

/-- Makes room: as many empty moments before the next operations as are missing. Other qubits' places move along. -/
def makeRoom (early late : Frontier) : Circuit α × Frontier :=
  match late with
  | [] => (c,early)
  | (q0,l0) :: rest =>
    let missing := rest.foldl (fun m (q,l) => max m (early.get q - l)) (early.get q0 - l0)
    let at' := rest.foldl (fun m (_,l) => min m l) l0
    if missing ≤ 0 then (c,early)
    else
      (⟨c.moments.take at'.toNat ++ List.replicate missing.toNat Moment.empty ++ c.moments.drop at'.toNat⟩,
        early.map fun (q,i) => if (late.get? q).isNone && at' < i then (q,i+missing) else (q,i))

def putAll (placed : List (α × Int)) : Edit α Unit :=
  let c := c.padTo (placed.foldl (fun (m : Int) (e : α × Int) => max m (e.2+1)) 0).toNat
  let targets := (placed.map (·.2)).eraseDups
  targets.foldl (fun (e : Edit α Unit) i => match e with
    | (c,.error f) => (c,.error f)
    | (c,.ok ()) => match c.place? i with
      | none => (c,fails .index)
      | some p =>
        match Moment.ofList ((c.moments.getD p .empty).ops ++ (placed.filter fun e => e.2 = i).map (·.1)) with
        | .error f => (c,.error f)
        | .ok m => (c.setMoment p m,.ok ())) (c,.ok ())

def insertAtFrontier (ops : List α) (start : Int) (frontier : Frontier) : Edit α Frontier :=
  if ops.isEmpty then (c,.ok frontier)
  else
    let qs := Qubit.distinct (ops.flatMap Located.qubits)
    if qs.any fun q => start < frontier.get q then
      (c,.error (.value "The frontier for qubits on which the operationsto insert act cannot be after start."))
    else
      let late := c.nextOf qs start
      match assignPlaces start ops frontier with
      | .error f => (c,.error f)
      | .ok (placed,early) =>
        let (c,early) := c.makeRoom early late
        match c.putAll placed with
        | (c,.error f) => (c,.error f)
        | (c,.ok ()) => (c,.ok early)
end Circuit

/-! ## Replacing at operations

A replacer looks at one operation after the other and may ask that the operations on some qubits be cleared from a run
of moments and others put in their place. A frontier marks what has been put in, which is not looked at again. -/

structure Replacement (α : Type) where
  span : Nat
  qubits : Qubits
  ops : List α

abbrev Replacer (α : Type) := Circuit α → Nat → α → Outcome (Option (Replacement α))
abbrev StatefulReplacer (σ α : Type) := σ → Circuit α → Nat → α → Outcome (Option (Replacement α) × σ)
namespace StatefulReplacer
variable {σ α : Type} [Located α]
def isOpen (f : Frontier) (i : Nat) (op : α) : Bool := (qubits op).all fun q => f.get q ≤ i
def pending (c : Circuit α) (f : Frontier) (i : Nat) : Nat :=
  (c.placed.filter fun (j,op) => i ≤ j && isOpen f j op).length

/-- Looks at one operation of the moment at a place, if it is still there: what else stands on its qubits has been put
there by the replacer. -/
def visit (w : StatefulReplacer σ α) (i : Nat) (e : Circuit.Edit α (Frontier × σ)) (op : α) : Circuit.Edit α (Frontier × σ) :=
  match e with
  | (c,.error e) => (c,.error e)
  | (c,.ok (f,s)) =>
    if isOpen f i op && (qubits op).all fun q => (c.moments.getD i .empty).actsOnAny [q] then
      match w s c i op with
      | .error e => (c,.error e)
      | .ok (none,s) => (c,.ok (f,s))
      | .ok (some r,s) =>
        match (c.clear r.qubits (Circuit.places i r.span)).insertAtFrontier r.ops i f with
        | (c,.error e) => (c,.error e)
        | (c,.ok f) => (c,.ok (f,s))
    else (c,.ok (f,s))

/-- Looks at the operations of the moments from a place on. A replacer that makes ever more operations to look at is
stopped. -/
def sweep (w : StatefulReplacer σ α) (c : Circuit α) (f : Frontier) (s : σ) (i : Nat) : Circuit.Edit α σ :=
  if i < c.size then
    match (c.moments.getD i .empty).ops.foldl (visit w i) (c,.ok (f,s)) with
    | (d,.error e) => (d,.error e)
    | (d,.ok (g,s)) =>
      if pending d g (i+1) < pending c f i ∨ (pending d g (i+1) = pending c f i ∧ d.size-(i+1) < c.size-i) then
        sweep w d g s (i+1)
      else (d,fails .recursion)
  else (c,.ok s)
termination_by (pending c f i,c.size-i)
decreasing_by
  rename_i h
  rcases h with h | ⟨h,h'⟩
  · exact Prod.Lex.left _ _ h
  · rw [h]; exact Prod.Lex.right _ h'

def run (w : StatefulReplacer σ α) (s : σ) (c : Circuit α) : Circuit.Edit α σ := w.sweep c [] s 0
end StatefulReplacer
namespace Replacer
variable [Located α]
def stateless (w : Replacer α) : StatefulReplacer Unit α := fun _ c i op => do .ok (← w c i op,())

def run (w : Replacer α) (c : Circuit α) : Circuit.Edit α Unit := w.stateless.run () c
end Replacer
end QuantumCircuits
