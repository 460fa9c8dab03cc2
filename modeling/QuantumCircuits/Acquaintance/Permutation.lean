import QuantumCircuits.Text

/-! # Permutations of qubits and swap networks

A permutation gate moves what its qubits carry. -/
namespace QuantumCircuits
open List
inductive BipartiteKind where
  | complete | matching
  deriving DecidableEq

inductive Permuter where
  | swap
  | linear (n : Nat) (images : List (Nat × Nat))
  | shift (n : Nat) (amount : Int)
  | swapNetwork (parts : List Nat) (size : Option Nat)
  | shiftNetwork (left right : List Nat)
  | bipartite (kind : BipartiteKind) (k : Nat)
  deriving DecidableEq

inductive NetworkStep (α : Type) where
  | acquaint (qs : List α)
  | permute (p : Permuter) (qs : List α)

abbrev Steps (α : Type) := List (NetworkStep α)
abbrev Carrying (α β : Type) := List (α × β)
namespace Carrying
variable {β : Type} [DecidableEq α]
def get? (m : Carrying α β) (q : α) : Option β := (m.find? fun e => e.1 = q).map (·.2)

def put (m : Carrying α β) (q : α) (v : β) : Carrying α β :=
  if m.any fun e => e.1 = q then m.map fun e => if e.1 = q then (e.1,v) else e else m ++ [(q,v)]
end Carrying
namespace Permuter
def total (xs : List Nat) : Nat := xs.foldl (· + ·) 0

def numQubits : Permuter → Nat
  | swap => 2
  | linear n _ => n
  | shift n _ => n
  | swapNetwork parts _ => total parts
  | shiftNetwork left right => total left + total right
  | bipartite _ k => 2*k

def permutation : Permuter → List (Nat × Nat)
  | swap => [(0,1),(1,0)]
  | linear _ images => images
  | shift n amount =>
    let s := (amount % (n : Int)).toNat
    (range n).map fun i => ((i+s) % n,i)
  | swapNetwork parts _ => (range (total parts)).map fun i => (i,total parts - 1-i)
  | shiftNetwork left right =>
    let n := total left + total right
    (range n).map fun i => (i,(i + total right) % n)
  | bipartite .complete k => (range (2*k)).map fun i => (i,i)
  | bipartite .matching k => (range (2*k)).map fun i => (i,if i < k then k-1-i else 3*k-1-i)

def acquaintedSize : Permuter → Nat
  | bipartite .. => 2
  | shiftNetwork left right => left.foldl max 0 + right.foldl max 0
  | swapNetwork parts none => total ((parts.mergeSort (· ≥ ·)).take 2)
  | swapNetwork parts (some size) => if 0 < size ∧ parts.contains (size-1) then size else 0
  | swap | linear .. | shift .. => 0

def validate (images : List (Int × Int)) (bound : Option Int) : Check :=
  let keys := images.map (·.1)
  let values := images.map (·.2)
  let index (why : String) : Check := .error ⟨.index,some why⟩
  if images.isEmpty then .ok ()
  else if !(keys.all values.contains && values.all keys.contains) then index "key and value sets must be the same."
  else if keys.any (· < 0) then index "keys of the permutation must be non-negative."
  else match bound with
    | some n => if keys.any (n ≤ ·) then index "key is out of bounds." else .ok ()
    | none => .ok ()

/-- Moves what the qubits carry; `none` when one of them carries nothing or is not there. -/
def update? {α β : Type} [DecidableEq α] (p : Permuter) (qs : List α) (m : Carrying α β) : Option (Carrying α β) := do
  let moves ← p.permutation.mapM fun (i,j) => do some ((← qs[j]?),(← m.get? (← qs[i]?)))
  some (moves.foldl (fun m (q,v) => m.put q v) m)
end Permuter
namespace Network
variable {α : Type}
/-- The lower ends of the diagonals of an exchange of `l` places with `r` places, and their upper ends. -/
def diagonals (l r : Nat) : List (Nat × Nat) :=
  let mins := ((range l).drop 1).reverse ++ range r
  let maxs := (range (l+r)).drop l ++ ((range (l+r)).drop (r+1)).reverse
  mins.zip maxs

def everySecond (i j : Nat) : List Nat := (range ((j-i+1)/2)).map fun k => i+2*k
def swapAt (qs : List α) (k : Nat) : NetworkStep α := .permute .swap ((qs.drop k).take 2)

def shiftSteps (amount : Int) (qs : List α) : Steps α :=
  let n := qs.length
  let l := (amount % (n : Int)).toNat
  (diagonals l (n-l)).flatMap fun (i,j) => (everySecond i j).map (swapAt qs)

def sortLayer (qs : List α) (state : List Nat × Steps α) (i : Nat) : List Nat × Steps α :=
  let (m,steps) := state
  let a := m.getD i 0
  let b := m.getD (i+1) 0
  if b < a then ((m.set i b).set (i+1) a,steps ++ [swapAt qs i]) else (m,steps)

/-- Neighbour swaps that carry out a permutation: an odd-even sorting network. -/
def linearSteps (images : List (Nat × Nat)) (qs : List α) : Steps α :=
  let n := qs.length
  let start := (range n).map fun i => (images.lookup i).getD i
  ((range n).foldl (fun s layer => (everySecond (layer % 2) (n-1)).foldl (sortLayer qs) s) (start,[])).2

structure Layers (α : Type) where
  prior : Steps α := []
  pre : Steps α := []
  intra : Steps α := []
  post : Steps α := []
  posterior : Steps α := []

def maxReach (size : Int) (roundUp : Bool) : Int := if roundUp then (size+1)/2-1 else max (size/2-1) 0
section
variable [DecidableEq α]
def reverseCarried (qs : List α) (m : Carrying α Nat) : Carrying α Nat :=
  let carried := qs.map fun q => (m.get? q).getD 0
  (qs.zip carried.reverse).foldl (fun m (q,v) => m.put q v) m

def acquaintInsides (opportunity : NetworkStep α) (qs : List α) (before : Bool) (s : Layers α × Carrying α Nat) :
    Layers α × Carrying α Nat :=
  let (layers,m) := s
  let reach := (maxReach qs.length before).toNat
  let reaches := ((range (reach+1)).drop 1) ++ (range (reach+1)).reverse
  let offsets := (range (2*reach)).map (· % 2)
  let steps := (offsets.zip reaches).flatMap fun (offset,r) =>
    (if (offset == 1) == before then [opportunity] else []) ++ (everySecond offset r).map (swapAt qs)
  let layers :=
    if before then { layers with pre := layers.pre ++ steps, prior := layers.prior ++ [opportunity] }
    else { layers with post := layers.post ++ steps, posterior := layers.posterior ++ [opportunity] }
  (layers,reverseCarried (qs.take (reach+1)) m)

def acquaintAndShift (left right : List α) (size : Option Nat) (s : Layers α × Carrying α Nat) : Layers α × Carrying α Nat :=
  let qs := left ++ right
  let l := left.length
  let r := right.length
  let gate := Permuter.shift qs.length l
  let doShift (s : Layers α × Carrying α Nat) : Layers α × Carrying α Nat :=
    ({ s.1 with intra := s.1.intra ++ [.permute gate qs] },(gate.update? qs s.2).getD s.2)
  match size with
  | none =>
    let (layers,m) := doShift s
    ({ layers with post := layers.post ++ [.acquaint qs] },m)
  | some size =>
    if max l r + 1 ≠ size then doShift s
    else if size = 2 then
      let (layers,m) := s
      doShift ({ layers with prior := layers.prior ++ [.acquaint qs] },m)
    else
      let first := qs.take size
      let last := qs.drop (qs.length-size)
      let s := if l+1 = size then acquaintInsides (.acquaint first) right true s else s
      let s := if r+1 = size then acquaintInsides (.acquaint last) left.reverse true s else s
      let s := doShift s
      let s := if l+1 = size ∧ 1 < r then acquaintInsides (.acquaint last) (qs.take r).reverse false s else s
      if r+1 = size ∧ 1 < l then acquaintInsides (.acquaint first) (qs.drop r) false s else s

def cut : List Nat → List α → List (List α)
  | [], _ => []
  | n :: ns, qs => qs.take n :: cut ns (qs.drop n)

def sortSteps (size : Option Nat) (place : α → Nat) (steps : Steps α) : Steps α :=
  match size with
  | none => steps
  | some n =>
    let key : NetworkStep α → Nat
      | .acquaint qs | .permute _ qs => (match qs.map place with
        | [] => 0
        | p :: ps => ps.foldl min p) % n
    steps.mergeSort fun a b => key a ≤ key b

structure Progress (α : Type) where
  parts : List (List α)
  carried : Carrying α Nat
  layers : Layers α
  steps : Steps α

def networkLayer (size : Option Nat) (place : α → Nat) (s : Progress α) (layer : Nat) : Progress α :=
  let start : Layers α := { prior := s.layers.posterior }
  let (parts,layers,m) := (everySecond (layer % 2) (s.parts.length-1)).foldl (fun (parts,layers,m) i =>
    let left := parts.getD i []
    let right := parts.getD (i+1) []
    let (layers,m) := acquaintAndShift left right size (layers,m)
    let qs := left ++ right
    ((parts.set i (qs.take right.length)).set (i+1) (qs.drop right.length),layers,m)) (s.parts,start,s.carried)
  ⟨parts,m,layers,s.steps ++ sortSteps size place layers.prior ++ layers.pre ++ layers.intra ++ layers.post⟩

/-- The steps of a swap network; the parts end in reverse order, and a last permutation puts each in order. -/
def swapNetworkSteps (partLens : List Nat) (size : Option Nat) (qs : List α) : Outcome (Steps α) :=
  let place (q : α) : Nat := qs.idxOf q
  let start : Progress α := ⟨cut partLens qs,qs.map fun q => (q,place q),{},[]⟩
  let s := (range partLens.length).foldl (networkLayer size place) start
  let steps := s.steps ++ sortSteps size place s.layers.posterior
  let n := Permuter.total partLens
  let carriedBy (q : α) : Nat := (s.carried.get? q).getD 0
  let ends := s.parts.reverse.flatMap fun part => (part.map carriedBy).mergeSort (· ≤ ·)
  if ends ≠ range n then fails .assertion
  else
    let images := (range qs.length).zip (qs.map fun q => n-1 - carriedBy q)
    if images.any fun (i,j) => i ≠ j then .ok (steps ++ [.permute (.linear n images) qs]) else .ok steps

def shiftExchange (s : List (List α) × Steps α) (k : Nat) : List (List α) × Steps α :=
  let left := s.1.getD k []
  let right := s.1.getD (k+1) []
  let qs := left ++ right
  ((s.1.set k (qs.take right.length)).set (k+1) (qs.drop right.length),
    s.2 ++ [.acquaint qs,.permute (.shift qs.length left.length) qs])

/-- Every left part meets every right part once while the two sides are exchanged. -/
def shiftNetworkSteps (left right : List Nat) (qs : List α) : Steps α :=
  ((diagonals left.length right.length).foldl (fun s (i,j) => (everySecond i j).foldl shiftExchange s)
    (cut (left ++ right) qs,[])).2

def offsets (k : Nat) : List Nat := (range (2*k-2)).map fun i => if i < k then k-1-i else i-(k-1)
def pairAt (qs : List α) (x : Nat) : List α := (qs.drop x).take 2

def completeSteps (k : Nat) (qs : List α) : Steps α :=
  if k = 1 then [.acquaint qs]
  else
    let layer (d : Nat) : Steps α :=
      (everySecond d (2*k-d)).flatMap fun x => [.acquaint (pairAt qs x),swapAt qs x]
    (offsets k).flatMap layer ++ [.acquaint (pairAt qs (k-1))] ++ (offsets k).reverse.flatMap layer

def matchingSteps (k : Nat) (qs : List α) : Steps α :=
  ((range (2*k-1)).map fun i => if i < k then k-1-i else i-(k-1)).flatMap fun d =>
    (everySecond d (2*k-d)).map fun x => if (x+1) % k = 0 then .acquaint (pairAt qs x) else swapAt qs x
end
end Network
def Permuter.steps {α : Type} [DecidableEq α] (p : Permuter) (qs : List α) : Outcome (Steps α) :=
  match p with
  | .swap => .ok [.permute .swap qs]
  | .linear _ images => .ok (Network.linearSteps images qs)
  | .shift _ amount => .ok (Network.shiftSteps amount qs)
  | .swapNetwork parts size => Network.swapNetworkSteps parts size qs
  | .shiftNetwork left right => .ok (Network.shiftNetworkSteps left right qs)
  | .bipartite kind k =>
    if qs.length ≠ 2*k then .error (.value "len(qubits) != 2 * self.part_size")
    else match kind with
      | .complete => if k = 0 then fails .index else .ok (Network.completeSteps k qs)
      | .matching => .ok (Network.matchingSteps k qs)
end QuantumCircuits
