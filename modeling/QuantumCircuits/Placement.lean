import QuantumCircuits.Numeric.RealScalar
import QuantumCircuits.Drawing
import QuantumCircuits.Circuit.Basic

/-! # Simulated annealing

A solution moves at random. -/
namespace QuantumCircuits
variable {R : Type} [RealScalar R]
section
open RealScalar
structure Cooling (R : Type) where
  initial : R
  final : R
  factor : R
  repeats : Nat
namespace Cooling
def slow : Cooling R := ⟨ratio 1 100,ratio 1 1000000,ratio 99 100,100⟩
def check (c : Cooling R) : Check :=
  if 0 < c.factor ∧ c.factor < 1 then .ok () else .error (.value "Cooling factor must be within (0, 1) range")
end Cooling
namespace Annealing
def accept (sample change temperature : R) : Outcome (Bool × R) :=
  if temperature == 0 then fails .zeroDivision
  else
    let exponent := -change/temperature
    if 0 ≤ exponent then .ok (true,ratio 1 1)
    else
      let probability := exp exponent
      .ok (decide (sample < probability),probability)
structure Row (R S : Type) where
  solution : S
  temperature : R
  cost : R
  probability : R
  accepted : Bool
structure Progress (R S : Type) where
  current : S
  currentCost : R
  best : S
  bestCost : R
  trace : List (Row R S)
def step (cost : S → R) (move : S → StateT σ Outcome S) (sample : StateT σ Outcome R) (temperature : R)
    (p : Progress R S) : StateT σ Outcome (Progress R S) := do
  let candidate ← move p.current
  let c := cost candidate
  let p := if c < p.bestCost then { p with best := candidate, bestCost := c } else p
  let (accepted,probability) ← StateT.lift (accept (← sample) (c-p.currentCost) temperature)
  let p := if accepted then { p with current := candidate, currentCost := c } else p
  return { p with trace := ⟨candidate,temperature,c,probability,accepted⟩ :: p.trace }
def stepMany (cost : S → R) (move : S → StateT σ Outcome S) (sample : StateT σ Outcome R) (temperature : R) :
    Nat → Progress R S → StateT σ Outcome (Progress R S)
  | 0, p => return p
  | n+1, p => do stepMany cost move sample temperature n (← step cost move sample temperature p)
def cool (c : Cooling R) (cost : S → R) (move : S → StateT σ Outcome S) (sample : StateT σ Outcome R) :
    Nat → R → Progress R S → StateT σ Outcome (Progress R S)
  | 0, _, _ => throw (.bare .recursion)
  | n+1, temperature, p =>
    if c.final < temperature then do
      let p ← stepMany cost move sample temperature c.repeats p
      cool c cost move sample n (temperature*c.factor) p
    else return p
def patience : Nat := 1000000
def minimize (c : Cooling R) (cost : S → R) (move : S → StateT σ Outcome S) (sample : StateT σ Outcome R) (start : S) :
    StateT σ Outcome (S × List (Row R S)) := do
  StateT.lift c.check
  let x := cost start
  let p ← cool c cost move sample patience c.initial ⟨start,x,start,x,[⟨start,c.initial,x,ratio 1 1,true⟩]⟩
  return (p.best,p.trace.reverse)
end Annealing

/-! ## Chips

A chip is a list of different sites. -/
abbrev Chip := List Site
namespace Chip
def around (s : Site) : List Site :=
  [⟨s.row,s.col-1⟩,⟨s.row-1,s.col⟩,⟨s.row,s.col+1⟩,⟨s.row+1,s.col⟩]
def neighbors (chip : Chip) (s : Site) : List Site := (around s).filter fun t => chip.contains t
def fresh (chip : Chip) (used : List Site) : List Site := chip.filter fun s => !used.contains s
theorem filter_of_imp {α : Type} {p q : α → Bool} (h : ∀ x, q x = true → p x = true) (l : List α) :
    l.filter q = (l.filter p).filter q := by
  rw [List.filter_filter]
  exact List.filter_congr fun x _ => by cases hq : q x <;> simp_all
theorem not_contains_mono {used more : List Site} (h : ∀ x, x ∈ used → x ∈ more) (x : Site)
    (hx : (!more.contains x) = true) : (!used.contains x) = true := by
  simp only [List.contains_eq_mem,Bool.not_eq_eq_eq_not,Bool.not_true,decide_eq_false_iff_not] at hx ⊢
  exact fun hu => hx (h x hu)
theorem fresh_le {chip : Chip} {used more : List Site} (h : ∀ x, x ∈ used → x ∈ more) :
    (fresh chip more).length ≤ (fresh chip used).length := by
  rw [fresh,filter_of_imp (not_contains_mono h)]
  exact List.length_filter_le _ _
theorem fresh_lt {chip : Chip} {used more : List Site} (h : ∀ x, x ∈ used → x ∈ more) {s : Site}
    (hs : chip.contains s = true) (hu : s ∉ used) (hm : s ∈ more) :
    (fresh chip more).length < (fresh chip used).length := by
  rw [fresh,filter_of_imp (not_contains_mono h)]
  exact List.length_filter_lt_length_iff_exists.mpr ⟨s,by simp_all,by simpa using hm⟩
theorem fresh_cons_lt {chip : Chip} {used : List Site} {s : Site} (hs : chip.contains s = true)
    (hu : used.contains s = false) : (fresh chip (s :: used)).length < (fresh chip used).length :=
  fresh_lt (fun _ h => List.mem_cons_of_mem _ h) hs (by simpa using hu) (by simp)

/-- The sites that can be reached from those on a stack without using some, besides those already visited. -/
def flood (chip : Chip) (used : List Site) : List Site → List Site → List Site
  | [], visited => visited
  | s :: stack, visited =>
    if _h : chip.contains s = true ∧ visited.contains s = false then
      if used.contains s then flood chip used stack visited
      else flood chip used (neighbors chip s ++ stack) (s :: visited)
    else flood chip used stack visited
  termination_by stack visited => ((fresh chip visited).length,stack.length)
  decreasing_by
  · exact Prod.Lex.right _ (by simp)
  · exact Prod.Lex.left _ _ (fresh_cons_lt _h.1 _h.2)
  · exact Prod.Lex.right _ (by simp)
end Chip
end

/-! ## Lines of qubits -/
namespace Line
def longest : List (List Site) → List Site
  | [] => []
  | l :: ls => ls.foldl (fun best l => if best.length < l.length then l else best) l
def takeInt {α : Type} (n : Int) (xs : List α) : List α := if n < 0 then xs.take (xs.length-n.natAbs) else xs.take n.toNat
def best (lines : List (List Site)) (length : Int) : Outcome (List Site) :=
  if ((longest lines).length : Int) < length then
    .error ⟨.notFound,some "No line placement with desired length found."⟩
  else .ok (takeInt length (longest lines))
def drawing (line : List Site) : Outcome String :=
  match line with
  | [] => .ok ""
  | s :: rest => do
    let dx := rest.foldl (fun m t => min m t.col) s.col
    let dy := rest.foldl (fun m t => min m t.row) s.row
    let written := line.foldl (fun (d : TextDiagram) t => d.write (t.col-dx) (t.row-dy) t.text) TextDiagram.empty
    let lined ← (line.zip rest).foldlM (fun (d : TextDiagram) (a,b) =>
      d.gridLine (2*(a.col-dx)) (2*(a.row-dy)) (2*(b.col-dx)) (2*(b.row-dy)) true) written
    lined.render { columnSpace := 2 }
end Line

/-! ## Greedy search for lines

A line grows from a start to both sides, always to the neighbour that a heuristic prefers. -/
namespace Greedy
open Chip Prod.Lex
inductive Heuristic where
  /-- The neighbour with the fewest unused neighbours, those without any last. -/
  | fewestNeighbors
  | largestArea
  deriving DecidableEq
variable (chip : Chip) (used : List Site)
def unusedNeighbors (s : Site) : List Site :=
  (neighbors chip s).filter fun t => !used.contains t
def fewer (a b : Nat) : Bool := a ≠ 0 && (b = 0 || a < b)
def pickFewest (s : Site) : Option Site :=
  match (unusedNeighbors chip used s).map fun t => (t,(unusedNeighbors chip used t).length) with
  | [] => none
  | x :: xs => some (xs.foldl (fun best y => if fewer y.2 best.2 then y else best) x).1

/-- The candidates with the numbers of sites to be reached, leaving out those reached from an earlier one. -/
def areas (chip : Chip) (used : List Site) : List Site → List Site → List (Site × Nat)
  | [], _ => []
  | t :: ts, analyzed =>
    if used.contains t || analyzed.contains t then areas chip used ts analyzed
    else
      let reached := flood chip used [t] []
      (t,reached.length) :: areas chip used ts (reached ++ analyzed)
def pickLargest (s : Site) : Option Site :=
  match areas chip used (neighbors chip s) [] with
  | [] => none
  | x :: xs => some (xs.foldl (fun best y => if best.2 < y.2 then y else best) x).1
def Heuristic.pick : Heuristic → Chip → List Site → Site → Option Site
  | .fewestNeighbors => pickFewest
  | .largestArea => pickLargest
def walk (h : Heuristic) (chip : Chip) (used : List Site) (s : Site) : List Site :=
  match h.pick chip (s :: used) s with
  | none => [s]
  | some t =>
    if _ht : chip.contains t = true ∧ (s :: used).contains t = false then s :: walk h chip (s :: used) t else [s]
  termination_by (fresh chip (s :: used)).length
  decreasing_by exact fresh_cons_lt _ht.1 _ht.2
structure Search where
  queue : List (Bool × Site × List Site)
  visited : Bool → List (Site × List Site)
namespace Search
def start (p q : Site) : Search := ⟨[(false,p,[]),(true,q,[])],fun _ => []⟩
def way? (s : Search) (side : Bool) (t : Site) : Option (List Site) := (s.visited side).lookup t
def visit (s : Search) (side : Bool) (t : Site) (way : List Site) : Search :=
  ⟨s.queue ++ [(side,t,way)],fun b => if b = side then (t,way) :: s.visited b else s.visited b⟩

/-- Looks at the neighbours of a site: one that the other end has reached closes the way. Ways are kept backwards. -/
def look (used : List Site) (side : Bool) (way : List Site) : List Site → Search → List Site ⊕ Search
  | [], s => .inr s
  | t :: ts, s => match s.way? (!side) t with
    | some back =>
      let path := way.reverse ++ back
      .inl (if side then path.reverse else path)
    | none =>
      if used.contains t || (s.way? side t).isSome then look used side way ts s
      else look used side way ts (s.visit side t (t :: way))
def run (chip : Chip) (used : List Site) : Nat → Search → Option (List Site)
  | 0, _ => none
  | n+1, s => match s.queue with
    | [] => none
    | (side,t,way) :: rest => match look used side way (neighbors chip t) { s with queue := rest } with
      | .inl path => some path
      | .inr s => run chip used n s
end Search
/-- A detour between two sites over unused ones. Each end visits every site once. -/
def detour (p q : Site) (used : List Site) : Option (List Site) :=
  Search.run chip used (2*chip.length+2) (.start p q)
def expandFrom (chip : Chip) (before : List Site) (p : Site) : List Site → List Site
  | [] => (p :: before).reverse
  | q :: rest =>
    match detour chip p q (q :: p :: rest ++ before) with
    | some (t :: ts) =>
      if _h : chip.contains t = true ∧ (q :: p :: rest ++ before).contains t = false then
        expandFrom chip before p (t :: ts ++ q :: rest)
      else expandFrom chip (p :: before) q rest
    | _ => expandFrom chip (p :: before) q rest
  termination_by rest => ((fresh chip (p :: rest ++ before)).length,rest.length)
  decreasing_by
  · exact left _ _ (fresh_lt (fun x hx => by grind) _h.1 (by grind) (by simp))
  · exact right' _ (fresh_le fun x hx => by grind) (by simp)
  · exact right' _ (fresh_le fun x hx => by grind) (by simp)
def expand : List Site → List Site
  | [] => []
  | p :: rest => expandFrom chip [] p rest
def search (h : Heuristic) (chip : Chip) (start : Site) : Outcome (List Site) :=
  if chip.contains start then
    let tail := (walk h chip [] start).drop 1
    let head := (walk h chip tail start).reverse
    .ok (expand chip (head ++ tail))
  else .error (.value "Starting qubit must be a qubit on the chip")
def heuristics : String → Outcome (List Heuristic)
  | "minimal_connectivity" => .ok [.fewestNeighbors]
  | "largest_area" => .ok [.largestArea]
  | "best" => .ok [.fewestNeighbors,.largestArea]
  | name => .error (.value ("Unknown greedy search algorithm " ++ name))
def place (length : Int) (algorithm : String) : Outcome (List Site) :=
  match Site.sort chip with
  | [] => .ok []
  | start :: _ => do
    let lines ← (← heuristics algorithm).mapM fun h => search h chip start
    Line.best lines length
end Greedy

/-! ## Annealing of partitions into lines

A chip is cut into lines. -/
open RealScalar
/-- Chance as two endless sequences, of integers and of numbers between zero and one, read from the given places on. -/
structure Rolls (R : Type) where
  ints : Nat → Int
  reals : Nat → R
  intsUsed : Nat := 0
  realsUsed : Nat := 0
abbrev Rolling (R : Type) := StateT (Rolls R) Outcome
namespace Rolling
def between (lo hi : Nat) : Rolling R Nat := do
  let s ← get
  set { s with intsUsed := s.intsUsed+1 }
  return lo+(s.ints s.intsUsed % ((hi-lo : Nat) : Int)).toNat
def coin : Rolling R Bool := do return (← between 0 2) == 1
def unit : Rolling R R := do
  let s ← get
  set { s with realsUsed := s.realsUsed+1 }
  return s.reals s.realsUsed
end Rolling
abbrev Edge := Site × Site
namespace Edge
def normalize (e : Edge) : Edge := if e.1.before e.2 then e else (e.2,e.1)
def before (a b : Edge) : Bool := a.1.before b.1 || (a.1 == b.1 && a.2.before b.2)
def sort (es : List Edge) : List Edge := es.mergeSort fun a b => !before b a
end Edge
namespace LinePartition
structure State where
  lines : List (List Site)
  edges : List Edge
def edges (chip : Chip) : List Edge :=
  Edge.sort (chip.flatMap fun s =>
    ([(⟨s.row,s.col-1⟩ : Site),⟨s.row+1,s.col⟩].filter fun t => chip.contains t).map fun t => Edge.normalize (s,t))

/-- The sites in order, cut wherever the next one is no neighbour. The line so far is kept backwards. -/
def cutFrom (last : Site) (line : List Site) : List Site → List (List Site)
  | [] => [(last :: line).reverse]
  | s :: rest =>
    if last.isAdjacent s then cutFrom s (last :: line) rest else (last :: line).reverse :: cutFrom s [] rest
def initial (chip : Chip) : State :=
  ⟨match chip with
    | [] => []
    | s :: rest => cutFrom s [] rest,edges chip⟩
def lineEdges (line : List Site) : List Edge := (line.zip (line.drop 1)).map Edge.normalize
def unused (s : State) : Outcome (List Edge) :=
  (s.lines.flatMap lineEdges).foldlM (fun es e => if es.contains e then .ok (es.erase e) else fails .key) s.edges
def locate (s : Site) : List (List Site) → Outcome (Nat × Nat)
  | [] => .error (.value "Item not present.")
  | l :: ls =>
    if l.contains s then .ok (0,l.idxOf s)
    else do
      let (i,j) ← locate s ls
      .ok (i+1,j)
variable {M : Type → Type} [Monad M] (coin : M Bool)
/-- Which of the two parts beside a site stays with it: the only one, or one by chance. -/
def side (left right : List Site) : M Bool :=
  if right.isEmpty then return false else if left.isEmpty then return true else coin

/-- Joins two lines at the sites of an edge; the parts that are cut off come after. -/
def join (a b : Site) (a1 a2 b1 b2 : List Site) : M (List (List Site)) := do
  let c ← side coin a1 a2
  let d ← side coin b1 b2
  let kept := if c then a2.reverse else a1
  let next := if d then b2 else b1.reverse
  return [kept ++ [a,b] ++ next,if c then a1 else a2,if d then b1 else b2]
def fold (a b : Site) (head inner tail : List Site) : M (List (List Site)) := do
  if ← coin then
    if ← coin then return [inner ++ [b,a] ++ head.reverse,tail]
    else return [tail.reverse ++ [b,a] ++ inner,head]
  else return [head ++ [a,b] ++ tail,inner]
def foldAt (line : List Site) (i j : Nat) (a b : Site) : M (List (List Site)) :=
  let fold' (i j : Nat) (a b : Site) : M (List (List Site)) :=
    fold coin a b (line.take i) ((line.take j).drop (i+1)) (line.drop (j+1))
  if j < i then fold' j i b a else fold' i j a b
def force (lines : List (List Site)) (e : Edge) : ExceptT Fault M (List (List Site)) := do
  let (i,j) ← ExceptT.mk (pure (locate e.1 lines))
  let (k,l) ← ExceptT.mk (pure (locate e.2 lines))
  let first := lines.getD i []
  let second := lines.getD k []
  let added ← ExceptT.lift (if i ≠ k then
      join coin e.1 e.2 (first.take j) (first.drop (j+1)) (second.take l) (second.drop (l+1))
    else foldAt coin first j l e.1 e.2)
  let others := if i ≠ k then (lines.eraseIdx (max i k)).eraseIdx (min i k) else lines.eraseIdx i
  return (others ++ added).filter fun l => !l.isEmpty
def move (s : State) : Rolling R State := do
  let free ← StateT.lift (unused s)
  if free.isEmpty then return s
  let k ← Rolling.between 0 free.length
  match free[k]? with
  | none => return s
  | some e => do
    let lines ← StateT.lift (← ExceptT.run (force Rolling.coin s.lines e))
    return { s with lines := lines }
def moves : Nat → State → Rolling R State
  | 0, s => return s
  | n+1, s => do moves n (← move s)
def moveSome (s : State) : Rolling R State := do moves (← Rolling.between 1 4) s

/-- Minus the sum of the squares of the lengths, in units of the size of the chip. -/
def cost (chip : Chip) (s : State) : R :=
  let part (l : List Site) : R :=
    let x : R := ofInt l.length / inexact (ofInt chip.length)
    x * x
  Neg.neg (s.lines.foldl (fun acc l => acc + part l) (ratio 0 1))
def search (chip : Chip) (c : Cooling R) : Rolling R (State × List (Annealing.Row R State)) :=
  Annealing.minimize c (cost chip) moveSome Rolling.unit (initial chip)
end LinePartition
end QuantumCircuits
