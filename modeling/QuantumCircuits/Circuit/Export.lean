import QuantumCircuits.Drawing
import QuantumCircuits.Operation.Placing
import QuantumCircuits.Operation.Unitary

/-! # Circuit diagrams

A wire for each qubit and, from left to right, the moments. -/
namespace QuantumCircuits
section
open Text PlainPow
abbrev Depict (α : Type) := DiagramArgs → α → Outcome DiagramInfo
namespace Diagram
def isName (s : String) : Bool := match s.toList with
  | [] => false
  | c :: cs => (c.isAlpha || c == '_') && cs.all fun c => c.isAlphanum || c == '_'

/-- An inexact exponent: a simple fraction where one is near enough, else its leading digits. -/
def floatExponent (precision : Option Nat) (x : Float) : Outcome String :=
  match precision with
  | none => .ok (Written.plain x)
  | some k =>
    if x.isNaN then fails .value
    else if x.isInf then fails .overflow
    else
      let (p,q) := Binary.ratioOf x
      let (n,d) := Numeric.nearestFraction 16 p q
      let gap := (Binary.ofRatio n d - x).abs
      if !([2,4,5,10].contains d) && gap < Binary.ofRatio 1 (10^k) then
        .ok (s!"({n}" ++ (if d = 1 then "" else s!"/{d}") ++ ")")
      else .ok (Written.general k true x)

def plainExponent (s : String) : String :=
  if s.toList.contains '+' || s.toList.contains ' ' || (s.toList.drop 1).contains '-' then s!"({s})" else s

def exponentText (precision : Option Nat) : ShownExponent → Outcome (Option String)
  | .text s => .ok (some (plainExponent s))
  | .param (.num x) =>
    if x == .int 0 then .ok (some "0")
    else if x == .int 1 then .ok none
    else if x == .int (-1) then .ok (some "-1")
    else match x with
      | .float f => do .ok (some (← floatExponent precision f))
      | .int n => .ok (some (plainExponent (toString n)))
  | .param p => .ok (some (if isName p.text then p.text else s!"({p.text})"))
end Diagram
def DiagramInfo.structural (i : DiagramInfo) : String :=
  s!"cirq.CircuitDiagramInfo(wire_symbols={parenthesized (i.symbols.map quoted)}, exponent="
    ++ (match i.exponent with
      | .param p => p.text
      | .text s => quoted s)
    ++ ", connected=" ++ boolText i.connected ++ ")"

def DiagramArgs.structural (a : DiagramArgs) : String :=
  let optional {α : Type} (f : α → String) : Option α → String
    | none => "None"
    | some x => f x
  "cirq.CircuitDiagramInfoArgs(known_qubits=" ++ optional (fun qs => parenthesized (qs.map Qubit.structural)) a.qubits
    ++ ", known_qubit_count=" ++ optional toString a.count ++ ", use_unicode_characters=" ++ boolText a.unicode
    ++ ", precision=" ++ optional toString a.precision ++ ", qubit_map="
    ++ optional (fun ps => braced (ps.map fun (q,i) => s!"{q.structural}: {i}")) a.places ++ ")"

/-- The symbols of an operation; where it has none, its text on the first wire and numbers on the others. -/
def Operation.depict : Depict (Operation Number) := fun a op => do
  match ← op.diagramInfo a with
  | some info =>
    if op.qubits.length ≠ info.symbols.length then
      .error (.value s!"Wanted diagram info from {op.structural} for {op.qubits.length} qubits but got {info.structural}")
    else .ok info
  | none =>
    let name ← op.text
    let tail := "(" ++ join ", " (op.qubits.map Qubit.text) ++ ")"
    let name := if endsWith tail name then takeStart (name.length-tail.length) name else name
    .ok { symbols := name :: (List.range (op.qubits.length-1)).map fun i => "#" ++ toString (i+2) }
namespace TextDiagram
/-- The first column from `x` on in which rows `lo … hi` are free, in a diagram of `x + n` columns. Columns before it
get no space after them. -/
def freeColumn (lo hi : Nat) : Nat → TextDiagram → Nat → TextDiagram × Nat
  | 0, d, x => (d,x)
  | n+1, d, x =>
    if (List.range (hi+1-lo)).any fun k => d.isTaken x (lo+k : Nat) then freeColumn lo hi n (d.padColumn x 0) (x+1)
    else (d,x)

def writeColumn (d : TextDiagram) (x : Nat) (texts : List (String × Nat)) : TextDiagram :=
  texts.foldl (fun d t => d.write x t.2 t.1) d
end TextDiagram
namespace Circuit
structure DiagramOptions where
  unicode : Bool := true
  transposed : Bool := false
  precision : Option Nat := some 3
variable [Located α] (o : DiagramOptions) (depict : Depict α)
def drawOp (wires : List (Qubit × Nat)) (x0 : Nat) (d : TextDiagram) (op : α) : Outcome (TextDiagram × Nat) := do
  let qs := Located.qubits op
  let rows ← qs.mapM fun q => orFail .key (wires.lookup q)
  match rows with
  | [] => fails .value
  | r :: rs => do
    let lo := rs.foldl min r
    let hi := rs.foldl max r
    let (d,x) := d.freeColumn lo hi (d.width.toNat-x0) x0
    let args : DiagramArgs :=
      { qubits := some qs, count := some qs.length, unicode := o.unicode, precision := o.precision, places := some wires }
    let info ← depict args op
    let d := if lo < hi && info.connected then d.verticalLine (2*x) (2*lo) (2*hi) else d
    let exponents := (← Diagram.exponentText o.precision info.exponent).toList.flatMap fun e =>
      (if info.connected then [hi] else rows).map ("^" ++ e,·)
    .ok (d.writeColumn x (info.symbols.zip rows ++ exponents),x)

/-- A moment after others, with the columns of those that have more than one. -/
def drawMoment (wires : List (Qubit × Nat)) (s : TextDiagram × List (Nat × Nat)) (m : Moment α) :
    Outcome (TextDiagram × List (Nat × Nat)) := do
  let x0 := s.1.width.toNat
  let d := if m.isEmpty then s.1.write x0 0 "" else s.1
  let (d,last) ← m.ops.foldlM (fun t op => do
    let (d,x) ← drawOp o depict wires x0 t.1 op
    .ok (d,max t.2 x)) (d,x0)
  .ok (d,if x0 < last then s.2 ++ [(x0,last)] else s.2)

def drawGroup (h : Int) (group : Nat × Nat) (d : TextDiagram) : TextDiagram :=
  let (x1,x2) := group
  let d := (d.insertColumns (x2+1) 1).insertColumns x1 1
  let (a,b) : Int × Int := (2*x1,2*(x2+2))
  { d with
    columnPadding := (List.range' x1 (x2+2-x1)).foldl (fun m (x : Nat) => TextDiagram.assign x 0 m) d.columnPadding
    horizontal := d.horizontal ++ [0,2*h].map (.between · a b false)
    vertical := d.vertical ++ [a,b].map (.between · 0 1 false) ++ [a,b].map (.between · (2*h) (2*h-1) false) }

def drawGroups (groups : List (Nat × Nat)) (d : TextDiagram) : TextDiagram :=
  let d := d.insertRows 0 1
  let h := d.height
  ((groups.foldr (drawGroup h) d).padRow 0 1).padRow (h-1) 1

def diagramWith (namer : Qubit → String) (order : QubitOrder) (c : Circuit α) : Outcome TextDiagram := do
  let qs ← order.orderFor (Qubit.distinct c.qubits)
  let d := TextDiagram.empty.writeColumn 0 (qs.map namer).zipIdx
  let (d,groups) ← c.moments.foldlM (drawMoment o depict qs.zipIdx) (d,[])
  let w := d.width
  let d := { d with horizontal := d.horizontal ++ (List.range qs.length).map fun i => .between (2*i) 0 (2*w) false }
  let d := if groups.isEmpty then d else drawGroups groups d
  .ok (if o.transposed then d.transpose else d)

def diagramText (order : QubitOrder) (c : Circuit α) : Outcome String := do
  let d ← c.diagramWith o depict (fun q => q.text ++ if o.transposed then "" else ": ") order
  let crossing := if o.unicode then "" else if o.transposed then "-" else "|"
  d.render ⟨if o.transposed then 1 else 3,1,crossing,o.unicode⟩
end Circuit
end

/-! ## Circuits in LaTeX

A table of the Qcircuit package: a row for each qubit, a column for each column of the diagram. -/
namespace Latex
def escaped (s : String) : String :=
  let rules := [("\\","\\textbackslash\x7b\x7d"),("\x7b","\\\x7b"),("\x7d","\\\x7d"),
    ("^","\\textasciicircum\x7b\x7d"),("~","\\textasciitilde\x7b\x7d"),("_","\\_"),("$","\\$"),("%","\\%"),
    ("&","\\&"),("#","\\#")]
  "\\text\x7b" ++ rules.foldl (fun s (old,new) => Text.replace old new s) s ++ "\x7d"

def command (name arg : String) : String := "\\" ++ name ++ "\x7b" ++ arg ++ "\x7d"
def superscript (s : String) : String := "^\x7b" ++ s ++ "\x7d"

def special? : Operation Number → Option DiagramInfo
  | .gate (.measurement ..) _ => some { symbols := ["\\meter"] }
  | .gate g _ =>
    if g == .X then some { symbols := ["\\targ"] }
    else if g == .CZ then some { symbols := ["\\control","\\control"] }
    else if g == .CNOT then some { symbols := ["\\control","\\targ"] }
    else none
  | _ => none

def firstWire? (a : DiagramArgs) : Option Nat := do
  let wires ← a.places
  let qs ← a.qubits
  let rows ← qs.mapM fun q => wires.lookup q
  match rows with
  | [] => none
  | r :: rs =>
    let lo := rs.foldl min r
    if rows.mergeSort = (List.range rows.length).map (lo + ·) then some lo else none

def box? (a : DiagramArgs) (g : Gate Number) (qs : Qubits) : Outcome (Option DiagramInfo) := do
  if g.exchangeKey?.isNone then return none
  match firstWire? a, ← g.diagramInfo a with
  | some lo, some info =>
    let base := match (← g.text).splitOn "**" with
      | [s] => s
      | parts => Text.join "**" parts.dropLast
    let name := escaped base ++ if info.exponent.isOne then "" else superscript info.exponent.plain
    let wires := a.places.getD []
    let symbol (q : Qubit) : String :=
      if wires.lookup q = some lo then "\\multigate\x7b" ++ toString (qs.length-1) ++ "\x7d\x7b" ++ name ++ "\x7d"
      else command "ghost" name
    return some { symbols := qs.map symbol, exponent := info.exponent, connected := false }
  | none, _ => return none
  | some _, none => fails .attribute

def boxes (info : DiagramInfo) : DiagramInfo :=
  let labels := info.symbols.map escaped
  let labels := match labels with
    | l :: ls => if info.exponent.isOne then l :: ls else (l ++ superscript info.exponent.plain) :: ls
    | [] => []
  { symbols := labels.map (command "gate") }

def depict : Depict (Operation Number) := fun a op => do
  match special? op with
  | some info => .ok info
  | none =>
    let boxed ← match op with
      | .gate g qs => box? a g qs
      | _ => Except.ok none
    match boxed with
    | some info => .ok info
    | none =>
      match ← op.diagramInfo { a with unicode := false } with
      | some info => .ok (boxes info)
      | none =>
        let name ← match op with
          | .gate g _ => g.text
          | op => op.text
        .ok (boxes { symbols := (List.range op.qubits.length).map fun i => if i = 0 then name else "#" ++ toString (i+1) })

def points (l : DiagramLine) : List Int :=
  let lo := Int.tdiv l.lo 2
  (List.range (Int.tdiv l.hi 2 - lo).toNat).map fun (k : Nat) => lo+k

def table (d : TextDiagram) : Outcome String := do
  let down := d.vertical.flatMap fun l => (points l).map fun y => (Int.tdiv l.at' 2,y+1)
  let along := d.horizontal.flatMap fun l => (points l).map fun x => (x,Int.tdiv l.at' 2)
  let w := d.width.toNat
  let cells := (List.range d.height.toNat).flatMap fun (y : Nat) =>
    ((List.range (w-1)).flatMap fun (x : Nat) =>
      let key : Int × Int := (x,y)
      let text := match d.entries.lookup key with
        | some t => t.text
        | none => ""
      [((2*x+1 : Nat),y,s!"&{text} "),
       (2*x+2,y,(if along.contains key then "\\qw" else "") ++ if down.contains key then "\\qwx" else "")])
    ++ [(2*w-1,y,"&\\qw\\\\")]
  let grid := cells.foldl (fun (g : TextDiagram) (x,y,s) => g.write x y s) .empty
  let body ← grid.render ⟨0,0,"",true⟩
  .ok ("\\Qcircuit @R=1em @C=0.75em \x7b\n \\\\\n" ++ body ++ "\n \\\\\n\x7d")
end Latex
namespace Circuit
def latex (order : QubitOrder) (c : OpCircuit Number) : Outcome String := do
  Latex.table (← c.diagramWith {} Latex.depict (fun q => Latex.command "lstick" (Latex.escaped q.text) ++ "&") order)
end Circuit

/-! ## Circuits as columns

A cell is idle, a control for the rest of its column, or the name or matrix of something done to its row. -/
open RealScalar Text
inductive Cell where
  | idle
  | control
  | named (key : String)
  | matrix (text : String)
  deriving DecidableEq
namespace Cell
def text : Cell → String
  | idle => "1"
  | control => "\"•\""
  | named k => s!"\"{k}\""
  | matrix m => "\x7b\"id\":\"?\",\"matrix\":\"" ++ m ++ "\"\x7d"
end Cell
structure ColumnEntry where
  cells : List Cell
  shared : Bool
namespace ColumnEntry
variable [RealScalar R]
/-- Whether two angles in half turns differ by less than a ten thousandth, whole turns aside. -/
def sameTurns (a b : R) : Bool :=
  abs (mod (a-b + ofInt 1) (ofInt 2) - ofInt 1)
    < ratio 1 10000

def suffix? : Param R → Option String
  | .num t =>
    if sameTurns t (ofInt 1) then some ""
    else if sameTurns t (ratio 1 2) then some "^½"
    else if sameTurns t (ratio (-1) 2) then some "^-½"
    else if sameTurns t (ratio 1 4) then some "^¼"
    else if sameTurns t (ratio (-1) 4) then some "^-¼"
    else none
  | _ => some "^t"

def alone (cells : List Cell) : ColumnEntry := ⟨cells,false⟩

def ofGate? : Gate R → Option ColumnEntry
  | .power k e _ _ =>
    let named (name : String) : Option Cell := (suffix? e).map fun s => .named (name ++ s)
    match k with
    | .x => (named "X").map fun c => ⟨[c],true⟩
    | .y => (named "Y").map fun c => ⟨[c],true⟩
    | .z => (named "Z").map fun c => ⟨[c],true⟩
    | .cz => (named "Z").map fun c => alone [.control,c]
    | .cnot => (named "X").map fun c => alone [.control,c]
    | .ccx => (named "X").map fun c => alone [.control,.control,c]
    | .ccz => (named "Z").map fun c => alone [.control,.control,c]
    | .h => if e.isInt 1 then some ⟨[.named "H"],true⟩ else none
    | .swap => if e.isInt 1 then some (alone [.named "Swap",.named "Swap"]) else none
    | _ => none
  | .cswap => some (alone [.control,.named "Swap",.named "Swap"])
  | .measurement .. => some ⟨[.named "Measure"],true⟩
  | .controlled cs sub => (ofGate? sub).map fun e => alone (List.replicate cs.length .control ++ e.cells)
  | _ => none
end ColumnEntry
namespace Columns
def matrixText (m : Mat Number) (isExact : Bool) : String :=
  let shown (x : Number) : String := if isExact then x.text else Written.plain (Written.roundPlaces 6 x.toFloat)
  let entry (i j : Nat) : String := s!"{shown (m.get i j).re}+{shown (m.get i j).im}i"
  let raw := "\x7b\x7b" ++ entry 0 0 ++ "," ++ entry 1 0 ++ "\x7d,\x7b" ++ entry 0 1 ++ "," ++ entry 1 1 ++ "\x7d\x7d"
  [("+-","-"),("+0.0i",""),(".0,",","),(".0\x7d","\x7d"),(".0+","+"),(".0-","-")].foldl
    (fun s (old,new) => replace old new s) raw

def isExactMatrix : Operation Number → Bool
  | .gate (.matrix m isComplex) _ => !isComplex && m.all fun z => !z.re.isFloat
  | _ => false

def entryOf (allowUnknown : Bool) (op : Operation Number) : Outcome ColumnEntry := do
  let known := match op with
    | .gate g _ => ColumnEntry.ofGate? g
    | _ => none
  match known with
  | some e => .ok e
  | none =>
    match ← op.matrix? with
    | some m =>
      if m.rows = 2 then return ⟨[.matrix (matrixText m (isExactMatrix op))],true⟩
    | none => pure ()
    if allowUnknown then .ok (.alone [.named "UNKNOWN"])
    else .error (.type ("Unrecognized operation: " ++ op.structural))

/-- The cells at the rows of an operation; the last cell is used for the rest of the rows. -/
def column (cells : List Cell) (rows : List Nat) : List Cell :=
  rows.zipIdx.foldl (fun col (r,i) => col.set r (cells.getD (min i (cells.length-1)) .idle))
    (List.replicate (rows.foldl max 0 + 1) .idle)

def merge (cols : List (List Cell)) : List Cell :=
  (List.range (cols.foldl (fun n c => max n c.length) 0)).map fun i =>
    cols.foldl (fun acc c => match c.getD i .idle with
      | .idle => acc
      | c => c) Cell.idle

def ofMoment (allowUnknown : Bool) (m : OpMoment Number) (rows : Qubits) : Outcome (List (List Cell)) := do
  let entries ← m.ops.mapM fun op => do
    let moved ← op.withQubits (op.qubits.map fun q => .line (rows.idxOf q))
    Except.ok (← entryOf allowUnknown moved,op.qubits.map rows.idxOf)
  let alone := entries.filterMap fun (e,r) => if e.shared then none else some (column e.cells r)
  let shared := entries.filterMap fun (e,r) => if e.shared then some (column e.cells r) else none
  .ok (alone ++ if shared.isEmpty then [] else [merge shared])

def text (cols : List (List Cell)) : String :=
  "\x7b\"cols\":[" ++ join "," (cols.map fun c => "[" ++ join "," (c.map Cell.text) ++ "]") ++ "]\x7d"
end Columns
namespace Circuit
def columns (allowUnknown : Bool) (c : OpCircuit Number) : Outcome (List (List Cell)) := do
  let rows := c.sortedQubits
  .ok (← c.moments.mapM fun m => Columns.ofMoment allowUnknown m rows).flatten

def columnsUrl (allowUnknown escape : Bool) (c : OpCircuit Number) : Outcome String := do
  let s := Columns.text (← c.columns allowUnknown)
  .ok ("http://algassert.com/quirk#circuit=" ++ if escape then percentCoded ['/'] s else s)
end Circuit

/-! ## Gates in assembly language

The statements of OPENQASM 2.0 that carry out a gate, where there are such. -/

structure QasmArgs where
  precision : Nat := 10
  version : String := "2.0"
  qubitId : Qubit → Option String
  keyId : String → Option String
namespace Qasm
variable (a : QasmArgs)
def angle : Param Number → Outcome String
  | .num x =>
    let v := roundTo a.precision x
    .ok (if v == .int 0 then "0" else "pi*" ++ v.text)
  | _ => fails .type

def qubit (q : Qubit) : Outcome String := orFail .key (a.qubitId q)
def checkVersion : Check :=
  if a.version = "2.0" then .ok () else .error (.value s!"QASM version {a.version} output is not supported.")

def statement (name : String) (qs : Qubits) : Outcome String := do
  checkVersion a
  let ids ← qs.mapM (qubit a)
  .ok (name ++ " " ++ Text.join "," ids ++ ";\n")

def turned (name : String) (sep : String) (angles : List (Param Number)) (q : Qubit) : Outcome String := do
  let ts ← angles.mapM (angle a)
  .ok s!"{name}({Text.join sep ts}) {← qubit a q};\n"

def half (x : Number) : Param Number := .num x

def phasedX (p e : Number) (q : Qubit) : Outcome String := do
  checkVersion a
  let e := (Param.canonicalHalfTurns (.num e)).value
  let epsilon : Number := pow (.int 10) (.int (-(a.precision : Int)))
  let h : Number := .float 0.5
  if abs (e+h) ≤ epsilon then turned a "u2" ", " [half (p+h),half (-p-h)] q
  else if abs (e-h) ≤ epsilon then turned a "u2" ", " [half (p-h),half (-p+h)] q
  else turned a "u3" ", " [half (-e),half (p+h),half (-p-h)] q

/-- A statement that measures, after a flip of the qubit where the result is inverted. -/
structure Reading where
  flips : Bool
  qubit : String
  register : String
  bit : Nat

def Reading.text (r : Reading) : String :=
  (if r.flips then s!"x {r.qubit};  // Invert the following measurement\n" else "")
    ++ s!"measure {r.qubit} -> {r.register}[{r.bit}];\n"

def readings (key : String) (invert : List Bool) (qs : Qubits) : Outcome (List Reading) :=
  qs.zipIdx.mapM fun e => do
    Except.ok ⟨invert.getD e.2 false,← qubit a e.1,← orFail .key (a.keyId key),e.2⟩

def measurement (key : String) (invert : List Bool) (qs : Qubits) : Outcome String := do
  checkVersion a
  .ok (Text.join "" ((← readings a key invert qs).map Reading.text))
end Qasm
open Qasm in
def Gate.qasm? (a : QasmArgs) (qs : Qubits) : Gate Number → Outcome (Option String)
  | .power k e _ _ =>
    let q0 := qs.headD default
    let whole (name : String) : Outcome (Option String) :=
      if e.isInt 1 then do .ok (some (← statement a name qs)) else .ok none
    let family (name : String) : Outcome (Option String) := do
      checkVersion a
      if e.isInt 1 then .ok (some (← statement a name [q0])) else .ok (some (← turned a ("r" ++ name) "," [e] q0))
    match k with
    | .x => family "x"
    | .y => family "y"
    | .z => family "z"
    | .h => do
      checkVersion a
      if e.isInt 1 then .ok (some (← statement a "h" [q0]))
      else
        let l ← turned a "ry" "," [.num (.float 0.25)] q0
        let m ← turned a "rx" "," [e] q0
        let r ← turned a "ry" "," [.num (.float (-0.25))] q0
        .ok (some (l ++ m ++ r))
    | .cz => whole "cz"
    | .cnot => whole "cx"
    | .swap => whole "swap"
    | .ccx => whole "ccx"
    | .ccz =>
      if e.isInt 1 then do
        let h ← statement a "h" (qs.drop 2)
        .ok (some (h ++ (← statement a "ccx" qs) ++ h))
      else .ok none
    | _ => .ok none
  | .phasedX p e _ =>
    if p.isSymbol || e.isSymbol then .ok none
    else match p, e with
      | .num p, .num e => do .ok (some (← Qasm.phasedX a p e (qs.headD default)))
      | _, _ => fails .type
  | .measurement _ key invert => do .ok (some (← Qasm.measurement a key invert qs))
  | .cswap => do .ok (some (← statement a "cswap" qs))
  | .universal lambda theta phi => do
    checkVersion a
    .ok (some (← turned a "u3" "," [.num theta,.num phi,.num lambda] (qs.headD default)))
  | _ => .ok none

def Operation.qasm? (a : QasmArgs) : Operation Number → Outcome (Option String)
  | .gate g qs => g.qasm? a qs
  | _ => .ok none

/-! ## Circuits in assembly language

A program in OPENQASM 2.0: a header, the registers, and the statements of the operations. -/
namespace Qasm
/-- A piece of a program: text, or a number of empty lines before the next text. Gaps in a row do not add up. -/
inductive Piece where
  | text (s : String)
  | gap (lines : Nat)

def render : Nat → List Piece → String
  | _, [] => ""
  | pending, .gap n :: ps => render (max pending n) ps
  | pending, .text s :: ps => repeatText pending "\n" ++ s ++ render 0 ps

def isIdentifier (s : String) : Bool := match s.toList with
  | [] => false
  | c :: cs => ('a' ≤ c && c ≤ 'z') && cs.all fun c => c.isAlphanum || c == '_'

structure Register where
  key : String
  id : String
  size : Nat
  comment : Option String

/-- The registers of the keys in order of first use: named for the key if that is possible, else numbered. -/
def registers : List (String × Nat) → Nat → List Register → List Register
  | [], _, done => done
  | (key,size) :: rest, n, done =>
    if done.any fun r => r.key = key then registers rest n done
    else if isIdentifier ("m_" ++ key) then registers rest n (done ++ [⟨key,"m_" ++ key,size,none⟩])
    else registers rest (n+1)
      (done ++ [⟨key,s!"m{n}",size,some (join " " (lines key))⟩])

def Register.declaration (r : Register) : String :=
  s!"creg {r.id}[{r.size}];" ++ (match r.comment with
    | none => ""
    | some c => "  // Measurement: " ++ c) ++ "\n"

def universalOf (m : Mat Number) (q : Qubit) : Operation Number :=
  let (lambda,theta,phi) := SingleQubit.angles m
  let turns (x : Number) : Number := (x/RealScalar.pi).mod (.int 2)
  .gate (.universal (turns lambda) (turns theta) (turns phi)) [q]

def twoQubitSteps (m : Mat Number) (q0 q1 : Qubit) : Outcome (Ops Number) := do
  let k ← Kak.ofUnitary .usual m
  let turn (x : Number) : Param Number := .num (x * .int (-2) / RealScalar.pi + .float 0.5)
  let power (kind : Pauli) (e : Param Number) (q : Qubit) : Operation Number := .gate (.axisPower kind e) [q]
  let half (x : Float) : Param Number := .num (.float x)
  let cnot (a b : Qubit) : Operation Number := .gate .CNOT [a,b]
  .ok [universalOf k.before.1 q0,universalOf k.before.2 q1,power .x (half 0.5) q0,cnot q0 q1,power .x (turn k.coefficients.1) q0,
    power .y (turn k.coefficients.2.1) q1,cnot q1 q0,power .x (half (-0.5)) q1,power .z (turn k.coefficients.2.2) q1,cnot q0 q1,
    universalOf k.after.1 q0,universalOf k.after.2 q1]

def expander (a : QasmArgs) : Expander (Operation Number) where
  step op := do
    let _ ← op.qasm? a
    match ← op.parts? with
    | some ops => .ok (some ops)
    | none =>
      match op.qubits, ← op.matrix? with
      | [q], some m => .ok (some [universalOf m q])
      | [q0,q1], some m => do .ok (some (← twoQubitSteps m q0 q1))
      | _, _ => .ok none
  keep op := match op.qasm? a with
    | .ok (some _) => true
    | _ => false
  stuck op := some (.value ("Cannot output operation as QASM: " ++ op.structural))

def annotation (op : Operation Number) : Outcome String := do
  let (title,s) ← match op with
    | .gate g _ => do Except.ok ("Gate",← g.text)
    | op => do Except.ok ("Operation",← op.text)
  .ok (s!"// {title}: " ++ replace "\n" "\n //" s ++ "\n")

def operationPieces (a : QasmArgs) (op : Operation Number) : Outcome (List Piece) := do
  let parts ← (expander a).expand [op]
  let texts ← parts.mapM fun p => do
    match ← p.qasm? a with
    | some s => Except.ok (Piece.text s)
    | none => fails .type
  if (expander a).keep op then .ok texts
  else .ok (.gap 1 :: .text (← annotation op) :: texts ++ [.gap 1])
end Qasm
structure QasmOptions where
  header : String := "Generated from Cirq v0.5.0.dev"
  precision : Nat := 10
namespace Qasm
variable (o : QasmOptions) (qs : Qubits)
def preamble : List Piece :=
  (if o.header.isEmpty then []
    else (lines o.header).map (fun l => Piece.text (trimRight ("// " ++ l) ++ "\n")) ++ [.text "\n"])
  ++ [.text "OPENQASM 2.0;\n",.text "include \"qelib1.inc\";\n",.gap 2,.text s!"// Qubits: {bracketed (qs.map Qubit.text)}\n",
    .text s!"qreg q[{qs.length}];\n"]

def argsFor (regs : List Register) : QasmArgs where
  precision := o.precision
  qubitId q := if qs.contains q then some s!"q[{qs.idxOf q}]" else none
  keyId k := (regs.find? fun r => r.key = k).map Register.id
end Qasm
namespace Circuit
def measured (c : OpCircuit Number) : List (String × Nat) :=
  c.operations.filterMap fun op => op.measurementKey?.map fun k => (k,op.qubits.length)

def declared (c : OpCircuit Number) : List Qasm.Register := Qasm.registers c.measured 0 []

open Qasm in
def qasm (o : QasmOptions) (order : QubitOrder) (c : OpCircuit Number) : Outcome String := do
  let qs ← order.orderFor (Qubit.distinct c.qubits)
  let body ← c.operations.mapM (operationPieces (argsFor o qs c.declared))
  .ok (render 0 (preamble o qs ++ c.declared.map (fun r => .text r.declaration) ++ [.gap 2] ++ body.flatten))
end Circuit
end QuantumCircuits
