import QuantumCircuits.Text

/-! # Qubits

Qubits stand on a grid or on a line, or have a name, and come in this order. Names are ordered naturally: a run of
digits is padded to eight digits and followed by its length. -/
namespace QuantumCircuits
inductive Qubit where
  | grid (row col : Int)
  | line (x : Int)
  | named (name : String)
  deriving DecidableEq
abbrev Qubits := List Qubit
namespace Qubit
instance : Inhabited Qubit := ⟨line 0⟩

/-- A finished run of characters; a run of digits is padded and followed by a colon and its length. -/
def runKey (onDigits : Bool) (run : List Char) : List Char :=
  if onDigits then List.replicate (8-run.length) '0' ++ run ++ ':' :: Nat.toDigits 10 run.length else run

def keyFrom (onDigits : Bool) (run : List Char) : List Char → List Char
  | [] => runKey onDigits run.reverse
  | c :: r =>
    if Text.isDigit c == onDigits then keyFrom onDigits (c :: run) r
    else runKey onDigits run.reverse ++ keyFrom (Text.isDigit c) [c] r

def paddedKey (name : String) : List Char := keyFrom false [] name.toList

def before : Qubit → Qubit → Bool
  | grid r c, grid r' c' => r < r' || (r == r' && c < c')
  | grid .., _ => true
  | line _, grid .. => false
  | line x, line y => x < y
  | line _, named _ => true
  | named s, named t => Text.before (paddedKey s) (paddedKey t)
  | named _, _ => false

def le (a b : Qubit) : Bool := !before b a
def sort (qs : Qubits) : Qubits := qs.mergeSort le

def isAdjacent : Qubit → Qubit → Bool
  | line x, line y => (x-y).natAbs == 1
  | grid r c, grid r' c' => (r-r').natAbs+(c-c').natAbs == 1
  | _, _ => false

def hasPlace : Qubit → Bool
  | named _ => false
  | _ => true

def text : Qubit → String
  | grid r c => s!"({r}, {c})"
  | line x => toString x
  | named s => s

def structural : Qubit → String
  | grid r c => s!"cirq.GridQubit({r}, {c})"
  | line x => s!"cirq.LineQubit({x})"
  | named s => s!"cirq.NamedQubit({Text.quoted s})"

def sortedText (qs : Qubits) : String := Text.bracketed ((sort qs).map structural)
def lineRange (n : Nat) : Qubits := (List.range n).map fun (i : Nat) => line i
def distinct (qs : Qubits) : Qubits := qs.foldl (fun acc q => if acc.contains q then acc else acc ++ [q]) []
end Qubit

/-! ## Orders of qubits

The usual order sorts; an explicit one starts with fixed qubits, present or not, and passes the others on to a
fallback if it has one. -/

inductive QubitOrder where
  | sorted
  | explicit (fixed : Qubits)
  | explicitThen (fixed : Qubits) (fallback : QubitOrder)
  | sortedBy (key : Qubit → List Char)
  | mapped (inner : QubitOrder) (internalize externalize : Qubit → Qubit)
namespace QubitOrder
def explicit? (fixed : Qubits) (fallback : Option QubitOrder) : Outcome QubitOrder :=
  if (Qubit.distinct fixed).length < fixed.length then
    .error (.value s!"Qubits appear in fixed_order twice: {Text.parenthesized (fixed.map Qubit.structural)}.")
  else .ok (match fallback with
    | some f => .explicitThen fixed f
    | none => .explicit fixed)

def orderFor : QubitOrder → Qubits → Outcome Qubits
  | sorted, qs => .ok (Qubit.sort qs)
  | explicit fixed, qs =>
    let rest := (Qubit.distinct qs).filter fun q => !fixed.contains q
    if rest.isEmpty then .ok fixed
    else .error (.value s!"Unexpected extra qubits: {Text.braced ((Qubit.sort rest).map Qubit.structural)}.")
  | explicitThen fixed fallback, qs =>
    let rest := (Qubit.distinct qs).filter fun q => !fixed.contains q
    if rest.isEmpty then .ok fixed else (orderFor fallback rest).map (fixed ++ ·)
  | sortedBy key, qs => .ok (qs.mergeSort fun a b => !Text.before (key b) (key a))
  | mapped inner internalize externalize, qs =>
    (orderFor inner (qs.map internalize)).map fun r => r.map externalize
end QubitOrder

/-! ## Places on the grid -/

structure Site where
  row : Int
  col : Int
  deriving DecidableEq
namespace Site
def toQubit (s : Site) : Qubit := .grid s.row s.col

def ofQubit : Qubit → Outcome Site
  | .grid r c => .ok ⟨r,c⟩
  | _ => fails .attribute

def text (s : Site) : String := s.toQubit.text
def before (a b : Site) : Bool := a.row < b.row || (a.row == b.row && a.col < b.col)
def sort (ss : List Site) : List Site := ss.mergeSort fun a b => !b.before a
def isAdjacent (a b : Site) : Bool := (a.row-b.row).natAbs+(a.col-b.col).natAbs == 1
end Site

/-! ## Moments

A moment holds operations that happen at the same time. No qubit occurs twice in it. -/

class Located (α : Type) where
  qubits : α → Qubits
  shown : α → String
  text : α → String

export Located (qubits)
structure Moment (α : Type) where
  ops : List α
abbrev Moments (α : Type) := List (Moment α)
namespace Moment
variable [Located α] (m : Moment α) (qs : Qubits)
def empty : Moment α := ⟨[]⟩
def allQubits (ops : List α) : Qubits := ops.flatMap qubits
def qubits : Qubits := allQubits m.ops

def ofList (ops : List α) : Outcome (Moment α) :=
  if (allQubits ops).Nodup then .ok ⟨ops⟩
  else .error (.value ("Overlapping operations: " ++ Text.parenthesized (ops.map Located.shown)))

def actsOn (q : Qubit) : Bool := m.qubits.contains q
def actsOnAny : Bool := qs.any m.actsOn
def touches (op : α) : Bool := (Located.qubits op).any qs.contains
def withOp (op : α) : Outcome (Moment α) := ofList (m.ops ++ [op])
def without : Moment α := ⟨m.ops.filter fun op => !touches qs op⟩
def opAt? (q : Qubit) : Option α := m.ops.find? fun op => (Located.qubits op).contains q
def isEmpty : Bool := m.ops.isEmpty
def size : Nat := m.ops.length

def structural : String :=
  if m.ops.isEmpty then "cirq.Moment()"
  else
    let block := Text.join "\n" (m.ops.map fun op => Located.shown op ++ ",")
    "cirq.Moment(operations=[\n    " ++ Text.join "\n    " (Text.lines block) ++ "\n])"

instance [BEq α] : BEq (Moment α) := ⟨fun m n => m.ops == n.ops⟩
end Moment

/-! ## Trees of operations

A tree is an operation, a moment, or a list of trees. Other things are refused when it is walked; a nonempty text
counts as a list of texts without end. -/

inductive OpTree (α : Type) where
  | leaf (op : α)
  | moment (m : Moment α)
  | node (parts : List (OpTree α))
  | endless
  | other (kind shown : String)
namespace OpTree
mutual
def flatten : OpTree α → Outcome (List α)
  | leaf op => .ok [op]
  | moment m => .ok m.ops
  | node parts => flattenAll parts
  | endless => fails .recursion
  | other kind shown => .error (.type ("Not a collections.Iterable or an Operation: " ++ kind ++ " " ++ shown))

def flattenAll : List (OpTree α) → Outcome (List α)
  | [] => .ok []
  | t :: ts => do .ok ((← flatten t) ++ (← flattenAll ts))
end
abbrev Item (α : Type) := α ⊕ Moment α
mutual
def items : OpTree α → Outcome (List (Item α))
  | leaf op => .ok [.inl op]
  | moment m => .ok [.inr m]
  | node parts => itemsAll parts
  | endless => fails .recursion
  | other kind shown => .error (.type ("Not a collections.Iterable or an Operation: " ++ kind ++ " " ++ shown))

def itemsAll : List (OpTree α) → Outcome (List (Item α))
  | [] => .ok []
  | t :: ts => do .ok ((← items t) ++ (← itemsAll ts))
end
mutual
def transform (keepMoments : Bool) (f : α → Outcome (OpTree α)) : OpTree α → Outcome (OpTree α)
  | leaf op => f op
  | moment m => if keepMoments then .ok (moment m) else do .ok (node (← m.ops.mapM f))
  | node parts => do .ok (node (← transformAll keepMoments f parts))
  | endless => fails .recursion
  | other _ shown => .error (.type ("Not a collections.Iterable or an Operation: " ++ shown))

def transformAll (keepMoments : Bool) (f : α → Outcome (OpTree α)) : List (OpTree α) → Outcome (List (OpTree α))
  | [] => .ok []
  | t :: ts => do .ok ((← transform keepMoments f t) :: (← transformAll keepMoments f ts))
end
end OpTree

/-! ## Circuits

A circuit is a list of moments. Places in it are integers; there is nothing at negative places and past the end. -/
structure Circuit (α : Type) where
  moments : Moments α
namespace Circuit
variable (c : Circuit α)
def empty : Circuit α := ⟨[]⟩
def size : Nat := c.moments.length
def operations : List α := c.moments.flatMap Moment.ops
def placed : List (Nat × α) := c.moments.zipIdx.flatMap fun (m,i) => m.ops.map fun op => (i,op)
def map {β : Type} (f : α → β) (c : Circuit α) : Circuit β := ⟨c.moments.map fun m => ⟨m.ops.map f⟩⟩
def momentAt? (i : Int) : Option (Moment α) := if i < 0 then none else c.moments[i.toNat]?

def place? (i : Int) : Option Nat :=
  let k := if i < 0 then i+c.size else i
  if 0 ≤ k ∧ k < c.size then some k.toNat else none

def clamp (i : Int) : Nat := (min (if i < 0 then c.size+i else i) c.size).toNat
def setMoment (i : Nat) (m : Moment α) : Circuit α := ⟨c.moments.set i m⟩
def times (n : Int) : Circuit α := ⟨(List.replicate n.toNat c.moments).flatten⟩
def insertMoment (i : Nat) (m : Moment α) : Circuit α := ⟨c.moments.insertIdx i m⟩
def padTo (n : Nat) : Circuit α := ⟨c.moments ++ List.replicate (n-c.size) Moment.empty⟩
variable [Located α] (qs : Qubits)
def qubits : Qubits := c.operations.flatMap Located.qubits
def onQubit (q : Qubit) : List α := c.operations.filter fun op => (Located.qubits op).contains q
def sortedQubits : Qubits := Qubit.sort (Qubit.distinct c.qubits)
def opAt? (q : Qubit) (i : Int) : Option α := (c.momentAt? i).bind fun m => m.opAt? q

def actsAt (i : Int) : Bool := match c.momentAt? i with
  | some m => m.actsOnAny qs
  | none => false

def places (start : Int) (count : Int) : List Int := (List.range count.toNat).map fun (k : Nat) => start+k

/-- The first moment that touches one of the qubits, from a place on and within a distance. -/
def next? (start : Int) (limit : Option Int) : Option Int :=
  let whole := c.size-start
  (places start (match limit with
    | none => whole
    | some d => min d whole)).find? (c.actsAt qs)

def prev? (stop : Option Int) (limit : Option Int) : Option Int :=
  let e := stop.getD c.size
  let d := match limit with
    | none => (c.size : Int)
    | some d => min e d
  let beyond := max 0 (e-c.size)
  ((List.range (d-beyond).toNat).map fun (k : Nat) => e-beyond-k-1).find? (c.actsAt qs)

def checkDistance (limit : Option Int) : Check := match limit with
  | some d => if d < 0 then .error (.value ("Negative max_distance: " ++ toString d)) else .ok ()
  | none => .ok ()

def nextOf (start : Int) : List (Qubit × Int) :=
  qs.map fun q => (q,(c.next? [q] start none).getD c.size)
def allTerminal (p : α → Bool) : Bool :=
  c.placed.all fun (i,op) => !p op || (c.next? (Located.qubits op) (i+1) none).isNone
def clear (at' : List Int) : Circuit α :=
  ⟨c.moments.zipIdx.map fun (m,i) => if at'.contains (i : Int) then m.without qs else m⟩

def structural : String :=
  let block := Text.join "\n" (c.moments.map fun m => m.structural ++ ",")
  "[\n    " ++ Text.join "\n    " (Text.lines block) ++ "\n]"

instance [BEq α] : BEq (Circuit α) := ⟨fun c d => c.moments == d.moments⟩
end Circuit
end QuantumCircuits
