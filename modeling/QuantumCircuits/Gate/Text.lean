import QuantumCircuits.Gate.Basic

/-! # Printed matrices

Each row stands between square brackets on a line of its own. -/
namespace QuantumCircuits
namespace MatText
open Text Written Decimal
structure Layout where
  withExponent : Bool
  plus : Bool
  left : Nat
  right : Nat
  digits : Nat
  exponentDigits : Nat

def maxOf (xs : List Nat) : Nat := xs.foldl max 0

def positionalParts (x : Float) : List Char × List Char :=
  let d := shortestDigits x
  let frac := (d.digits.length : Int)-d.point
  let cs :=
    if x == 0.0 then ['0']
    else if 8 < frac then (fixed 8 x.abs).toList
    else positional false d
  (cs.takeWhile (· != '.'),stripZeros ((cs.dropWhile (· != '.')).drop 1))

def scientificParts (x : Float) : List Char × Int :=
  let d := shortestDigits x
  if x == 0.0 then (['0'],0)
  else if d.digits.length ≤ 9 then (d.digits,d.point-1)
  else
    let (n,k) := absRatio x
    let s := significant n k 9
    (stripZeros s.digits,s.point-1)

def signText (plus : Bool) (x : Float) : List Char :=
  if Binary.isNegative x then ['-'] else if plus then ['+'] else []

def layout (plus : Bool) (xs : List Float) : Layout :=
  let finite := xs.filter fun x => !x.isNaN && !x.isInf
  let sizes := (finite.filter (· != 0.0)).map Float.abs
  let big := sizes.foldl max 0.0
  let small := sizes.foldl min big
  let withExponent := !sizes.isEmpty && (1e8 ≤ big || small < 0.0001 || 1000.0 < big/small)
  let special := maxOf ((xs.filter fun x => x.isNaN || x.isInf).map fun x =>
    if x.isNaN then 3+(if plus then 1 else 0) else (if plus || x < 0.0 then 4 else 3))
  if withExponent then
    let parts := finite.map fun x => (x,scientificParts x)
    let digits := maxOf (parts.map fun (_,ds,_) => ds.length-1)
    let exponentDigits := max 2 (maxOf (parts.map fun (_,_,e) => (natDigits e.natAbs).length))
    let left := maxOf (parts.map fun (x,_) => 1+(signText plus x).length)
    let right := exponentDigits+2+digits
    ⟨true,plus,max left (special-(right+1)),right,digits,exponentDigits⟩
  else
    let parts := finite.map fun x => (x,positionalParts x)
    let left := maxOf (parts.map fun (x,w,_) => w.length+(signText plus x).length)
    let right := maxOf (parts.map fun (_,_,f) => f.length)
    ⟨false,plus,max left (special-(right+1)),right,0,0⟩

def Layout.write (l : Layout) (x : Float) : String :=
  if x.isNaN || x.isInf then
    let body := if x.isNaN then (if l.plus then "+nan" else "nan")
      else if x < 0.0 then "-inf" else if l.plus then "+inf" else "inf"
    padLeft (l.left+l.right+1) body
  else if l.withExponent then
    let (ds,e) := scientificParts x
    let frac := ds.drop 1
    let frac := frac ++ List.replicate (l.digits-frac.length) '0'
    let es := natDigits e.natAbs
    let es := List.replicate (l.exponentDigits-es.length) '0' ++ es
    let whole := String.ofList (signText l.plus x ++ ds.take 1)
    padLeft l.left whole ++ String.ofList ('.' :: frac ++ 'e' :: (if e < 0 then '-' else '+') :: es)
  else
    let (w,f) := positionalParts x
    padLeft l.left (String.ofList (signText l.plus x ++ w)) ++ "." ++ padRight l.right (String.ofList f)

def imaginary (s : String) : String :=
  let body := trimRight s
  body ++ "j" ++ blanks (s.length-body.length)
variable (isComplex : Bool)
def cells (a : Mat Number) : List (List String) :=
  let flat := a.entries.toList
  if isComplex then
    let re := layout false (flat.map fun z => z.re.toFloat)
    let im := layout true (flat.map fun z => z.im.toFloat)
    a.toRows.map fun r => r.map fun z => re.write z.re.toFloat ++ imaginary (im.write z.im.toFloat)
  else if flat.any fun z => z.re.isFloat then
    let l := layout false (flat.map fun z => z.re.toFloat)
    a.toRows.map fun r => r.map fun z => l.write z.re.toFloat
  else
    let w := maxOf (flat.map fun z => z.re.text.length)
    a.toRows.map fun r => r.map fun z => padLeft w z.re.text

def fillRow (indent : String) (width : Nat) : List String → String → List String
  | [], line => [line]
  | c :: cs, line =>
    let line' := if line.length ≤ indent.length then line else line ++ " "
    if indent.length < line.length && width < line'.length+c.length then
      trimRight line' :: fillRow indent width cs (indent ++ c)
    else fillRow indent width cs (line' ++ c)

def rowText (cs : List String) : String :=
  "[" ++ dropStart 2 (join "\n" (fillRow "  " 73 cs "  ")) ++ "]"
def printed (a : Mat Number) : String :=
  "[" ++ dropStart 1 (join "\n" ((cells isComplex a).map fun r => " " ++ rowText r)) ++ "]"
def roundTo (k : Nat) (a : Mat Number) : Mat Number :=
  a.map fun z => ⟨RealScalar.roundTo k z.re,RealScalar.roundTo k z.im⟩

def nestedText (a : Mat Number) : String :=
  let flat := a.entries.toList
  let isFloat := flat.any fun z => z.re.isFloat
  let one (z : Cpx Number) : String :=
    if isComplex then complexText z.re.toFloat z.im.toFloat
    else if isFloat then plain z.re.toFloat
    else z.re.text
  bracketed (a.toRows.map fun r => bracketed (r.map one))

def framed (text : String) : String :=
  let ls := (lines text).map fun l => replace "]" "" (replace " [" "" (replace "[[" "" l))
  let w := maxOf (ls.map String.length)
  join "\n" ((s!"┌{blanks w}┐") :: (ls.map fun l => s!"│{padRight w l}│") ++ [s!"└{blanks w}┘"])
end MatText

/-! ## Symbols of gates in diagrams

The exponent is written beside the last of them. -/

inductive ShownExponent where
  | param (p : Param Number)
  | text (s : String)
namespace ShownExponent
def beq : ShownExponent → ShownExponent → Bool
  | param p, param q => p == q
  | text s, text t => s == t
  | _, _ => false

instance : BEq ShownExponent := ⟨beq⟩

def isOne : ShownExponent → Bool
  | param p => p.isInt 1
  | text _ => false

def plain : ShownExponent → String
  | param p => p.text
  | text s => s
end ShownExponent
structure DiagramInfo where
  symbols : List String
  exponent : ShownExponent := .param (.num (.int 1))
  connected : Bool := true

structure DiagramArgs where
  qubits : Option Qubits := none
  count : Option Nat := none
  unicode : Bool := true
  precision : Option Nat := some 3
  places : Option (List (Qubit × Nat)) := none
namespace DiagramArgs
def dropFirst (n : Nat) (a : DiagramArgs) : DiagramArgs :=
  { a with qubits := a.qubits.map (·.drop n), count := a.count.map (· - n) }
end DiagramArgs
namespace Diagram
def reduceExponent (precision : Option Nat) (period : Option Number) (e : Number) : Number :=
  let e := RealScalar.inexact e
  match period with
  | none => e
  | some p =>
    let e := match precision with
      | some k => RealScalar.roundTo k e
      | none => e
    let h := p / .int 2
    if -h < e && e ≤ h then e else h - RealScalar.mod (h-e) p
variable (a : DiagramArgs)
def shownExponent (ignorePhase : Bool) (factors : List Number) (e : Param Number) (shift : Number) : Outcome (Param Number) :=
  match e with
  | .num x => do
    let period ← if ignorePhase then Eigen.relativePeriod factors else Eigen.period factors shift
    .ok (.num (reduceExponent a.precision period x))
  | e => .ok e

def angleSymbol (name : String) (a : DiagramArgs) (halfTurns : Param Number) : String :=
  let unit := if a.unicode then "π" else "pi"
  match halfTurns with
  | .num x =>
    if x == .int 1 then s!"{name}({unit})"
    else if x == .int (-1) then s!"{name}(-{unit})"
    else s!"{name}({x.text}{unit})"
  | .expr e => s!"{name}({(e.timesPower .circle 1).text})"
  | p => s!"{name}(pi*{p.text})"

def limited (precision : Option Nat) (p : Param Number) : Outcome String :=
  match precision, p with
  | none, _ => .ok p.text
  | some k, .num (.float x) => .ok (Written.general k true x)
  | some _, .num (.int _) => fails .value
  | some _, _ => if p.isSymbol then .ok p.text else fails .type

def matrixSymbol (m : Mat Number) (isComplex : Bool) : String :=
  let m := match a.precision with
    | some k => MatText.roundTo k m
    | none => m
  let text := MatText.printed isComplex m
  if a.unicode then MatText.framed text else text

def halfShift (s : Number) : Bool := s == .float (-0.5)
def tripleText (i j k : Nat) : String := s!"({i}, {j}, {k})"
def pairText (i j : Nat) : String := s!"({i}, {j})"

def permuterSymbols (p : Permuter) : Outcome (Option (List String)) :=
  let arrow := if a.unicode then "↦" else "->"
  let n := p.numQubits
  match p with
  | .swapNetwork parts _ =>
    let symbol := if a.unicode then "×" else "swap"
    .ok (some ((parts.zip (List.range parts.length)).flatMap fun (len,i) =>
      (List.range len).map fun j => s!"{symbol}({i},{j})"))
  | .shiftNetwork left right =>
    if a.count.isSome && a.count ≠ some n then fails .assertion
    else
      let side (i : Nat) (lens : List Nat) : List String :=
        (lens.zip (List.range lens.length)).flatMap fun (len,j) =>
          (List.range len).map fun k => tripleText i j k ++ arrow ++ tripleText (1-i) j k
      .ok (some (side 0 left ++ side 1 right))
  | .bipartite kind k =>
    if a.count.isSome && a.count ≠ some n then
      .error (.value "args.known_qubit_count not in (None, 2 * self.part_size)")
    else
      let name := match kind with
        | .matching => "Matching"
        | .complete => "K_\x7b" ++ toString k ++ ", " ++ toString k ++ "\x7d"
      .ok (some (p.permutation.map fun (i,j) =>
        name ++ ":" ++ pairText (i/k) (i % k) ++ arrow ++ pairText (j/k) (j % k)))
  | .shift n amount =>
    if a.count.isNone then .ok none
    else
      let (down,up) := if a.unicode then ("╲","╱") else ("\\","/")
      .ok (some ((List.range n).map fun (i : Nat) =>
        (if amount ≤ (i : Int) then up else down) ++ toString i ++ (if (i : Int) < amount then up else down)))
  | _ =>
    if a.count.isNone then .ok none
    else
      let images := p.permutation
      .ok (some ((List.range n).map fun i => toString i ++ arrow ++ toString ((images.lookup i).getD i)))

def measurementSymbols (n : Nat) (key : String) (invert : List Bool) : List String :=
  let symbols := (List.range n).map fun i => if invert.getD i false then "!M" else "M"
  let usual := match a.qubits with
    | some (q :: qs) => some (Text.join "," ((q :: qs).map Qubit.text))
    | _ => none
  if usual = some key then symbols
  else match symbols with
    | s :: r => s!"{s}('{key}')" :: r
    | [] => []

def interactionSymbol (p : Pauli) (inv : Bool) : String :=
  let s := if p = .z then "@" else p.name
  if inv then s!"(-{s})" else s

def powerInfo (k : PowerKind) (e : Param Number) (shift : Number) : Outcome DiagramInfo := do
  let shown (ignorePhase : Bool) : Outcome (Param Number) := shownExponent a ignorePhase k.factors e shift
  let plain (symbols : List String) : Outcome DiagramInfo := do .ok { symbols, exponent := .param (← shown true) }
  match k with
  | .x | .y | .z =>
    if halfShift shift then
      let name := "R" ++ k.baseName.map Char.toLower
      return { symbols := [angleSymbol name a (← shown false)] }
    if k = .z then
      let p ← shown true
      match p with
      | .num x =>
        if x == .float 0.25 || x == .float (-0.25) then
          return { symbols := ["T"], exponent := .param (.num (x * .int 4)) }
        if x == .float 0.5 || x == .float (-0.5) then
          return { symbols := ["S"], exponent := .param (.num (x * .int 2)) }
        return { symbols := ["Z"], exponent := .param p }
      | _ => return { symbols := ["Z"], exponent := .param p }
    plain [k.baseName]
  | .h => plain ["H"]
  | .cz => plain ["@","@"]
  | .cnot => plain ["@","X"]
  | .swap => plain (if a.unicode then ["×","×"] else ["swap","swap"])
  | .iswap => plain ["iSwap","iSwap"]
  | .xx =>
    if halfShift shift then
      let p ← shown false
      let halved := match p with
        | .num x => .num (x / .int 2)
        | .expr e => .expr (e.scaleBy (.fraction 1 2))
        | p => p
      let s := angleSymbol "MS" a halved
      return { symbols := [s,s] }
    plain ["XX","XX"]
  | .yy => plain ["YY","YY"]
  | .zz => plain ["ZZ","ZZ"]
  | .ccz => plain ["@","@","@"]
  | .ccx => plain ["@","@","X"]
end Diagram
namespace Gate
def diagramInfo (a : DiagramArgs) : Gate Number → Outcome (Option DiagramInfo)
  | power k e s _ => do .ok (some (← Diagram.powerInfo a k e s))
  | phasedX p e _ => do
    let t ← Diagram.limited (if p.isSymbol then none else a.precision) p
    .ok (some { symbols := [s!"PhasedX({t})"], exponent := .param e.canonicalHalfTurns })
  | identity n => .ok (some { symbols := List.replicate n "I" })
  | measurement n key invert => .ok (some { symbols := Diagram.measurementSymbols a n key invert })
  | matrix m isComplex =>
    let s := Diagram.matrixSymbol a m isComplex
    .ok (some { symbols := if m.rows = 2 then [s] else [s,"#2"] })
  | controlled cs sub => do
    match ← diagramInfo (a.dropFirst cs.length) sub with
    | none => .ok none
    | some i => .ok (some { symbols := List.replicate cs.length "@" ++ i.symbols, exponent := i.exponent })
  | clifford c =>
    let (s,quarters) := c.symbol
    .ok (some { symbols := [s], exponent := .param (.num (if quarters = 1 then .float 0.5
      else if quarters = -1 then .float (-0.5) else .int 1)) })
  | interaction p0 i0 p1 i1 e => do
    let shown ← Diagram.shownExponent a true [.float 0.0,.float 1.0] e (.float 0.0)
    .ok (some { symbols := [Diagram.interactionSymbol p0 i0,Diagram.interactionSymbol p1 i1], exponent := .param shown })
  | cswap => .ok (some { symbols := if a.unicode then ["@","×","×"] else ["@","swap","swap"] })
  | channel c => .ok (some { symbols := [c.symbol] })
  | universal .. | inverse _ => .ok none
  | opportunity n => .ok (some { symbols := List.replicate n (if a.unicode then "█" else "Acq") })
  | permutation p _ => do .ok ((← Diagram.permuterSymbols a p).map fun s => { symbols := s })
end Gate

/-! ## Written gates

`text` is a short form for reading, `structural` an expression that builds the gate. -/
open Text Diagram MatText
namespace PowerKind
def powerText (k : PowerKind) (e : Param Number) (shift : Number) : String :=
  let generic := s!"{k.familyName}(exponent={e.text}, global_shift={shift.text})"
  let base (mark : String) : String := if e.isInt 1 then k.baseName else k.baseName ++ mark ++ e.text
  match k with
  | .x | .y | .z =>
    if halfShift shift then
      "R" ++ k.baseName.map Char.toLower ++ (if e.isInt 1 then "(π)" else s!"({e.text}π)")
    else if shift == .int 0 then
      if k = .z then
        if e.isNum (.float 0.25) then "T"
        else if e.isNum (.float (-0.25)) then "T**-1"
        else if e.isNum (.float 0.5) then "S"
        else if e.isNum (.float (-0.5)) then "S**-1"
        else base "**"
      else base "**"
    else generic
  | .h => base "^"
  | .xx =>
    if halfShift shift then (if e.isInt 1 then "MS(π/2)" else s!"MS({e.text}π/2)") else base "**"
  | _ => base "**"

def powerStructural (k : PowerKind) (e : Param Number) (shift : Number) : String :=
  let generic :=
    s!"cirq.{k.familyName}(exponent={e.structural}, global_shift={shift.text})"
  let base : String :=
    if e.isInt 1 then "cirq." ++ k.baseName else s!"(cirq.{k.baseName}**{e.structural})"
  let angle : String := match e with
    | .num v => "np.pi*" ++ v.text
    | .expr f => (Param.expr (f.timesPower .circle 1)).structural
    | p => p.structural
  match k with
  | .x | .y | .z =>
    if halfShift shift then s!"cirq.R{k.baseName.map Char.toLower}({angle})"
    else if shift == .int 0 then
      if k = .z then
        if e.isNum (.float 0.25) then "cirq.T"
        else if e.isNum (.float (-0.25)) then "(cirq.T**-1)"
        else if e.isNum (.float 0.5) then "cirq.S"
        else if e.isNum (.float (-0.5)) then "(cirq.S**-1)"
        else base
      else base
    else generic
  | .xx =>
    if halfShift shift && !e.isParameterized then
      if e.isInt 1 then "cirq.MS(np.pi/2)" else s!"cirq.MS({e.text}*np.pi/2)"
    else if shift == .int 0 then base
    else generic
  | _ => if shift == .int 0 then base else generic
end PowerKind
namespace Gate
def tupleText (xs : List Nat) : String := parenthesized (xs.map toString)
def mapText (images : List (Nat × Nat)) : String :=
  braced (images.map fun (i,j) => s!"{i}: {j}")

/-- A text that would show where in memory a value lies; it stands for all such texts. -/
def addressText (path : String) : String := s!"<{path} object at 0x?>"

def permuterStructural (p : Permuter) (swap : Gate Number) (swapText : String) : String :=
  let start := "cirq.contrib.acquaintance."
  let extra := if swap == Gate.SWAP then "" else ", " ++ swapText
  match p with
  | .swap => addressText (start ++ "permutation.SwapPermutationGate")
  | .linear n images =>
    start ++ "LinearPermutationGate(" ++ toString n ++ ", " ++ mapText images ++ ", " ++ swapText ++ ")"
  | .shift n amount =>
    start ++ "CircularShiftGate(num_qubits=" ++ toString n ++ ", shift=" ++ toString amount ++ ", swap_gate=" ++ swapText ++ ")"
  | .swapNetwork parts size =>
    start ++ "SwapNetworkGate(" ++ tupleText parts ++ ", " ++ (match size with
      | some s => toString s
      | none => "None") ++ ")"
  | .shiftNetwork left right =>
    start ++ "shift_swap_network.ShiftSwapNetworkGate(" ++ tupleText left ++ ", " ++ tupleText right ++ extra ++ ")"
  | .bipartite kind k =>
    start ++ "bipartite.BipartiteSwapNetworkGate(cirq.contrib.acquaintance.bipartite.BipartiteGraphType."
      ++ (match kind with
        | .complete => "COMPLETE"
        | .matching => "MATCHING") ++ ", " ++ toString k ++ extra ++ ")"

def optQubitText : Option Qubit → String
  | some q => q.structural
  | none => "None"

def structural : Gate Number → String
  | power k e s _ => k.powerStructural e s
  | phasedX p e s =>
    let args := ["phase_exponent=" ++ p.structural]
      ++ (if e.isInt 1 then [] else ["exponent=" ++ e.structural])
      ++ (if s == .int 0 then [] else ["global_shift=" ++ s.text])
    "cirq.PhasedXPowGate(" ++ join ", " args ++ ")"
  | identity n => if n = 1 then "cirq.I" else s!"cirq.IdentityGate({n})"
  | measurement n key invert =>
    "cirq.MeasurementGate(" ++ toString n ++ ", " ++ quoted key ++ ", "
      ++ parenthesized (invert.map boolText) ++ ")"
  | matrix m isComplex =>
    "cirq." ++ (if m.rows = 2 then "Single" else "Two") ++ "QubitMatrixGate(np.array("
      ++ nestedText isComplex m ++ "))"
  | controlled cs sub =>
    if cs = [none] then s!"cirq.ControlledGate(sub_gate={structural sub})"
    else
      let upon := parenthesized (cs.map optQubitText)
      s!"cirq.ControlledGate(sub_gate={structural sub}, control_qubits={upon}, num_controls={cs.length})"
  | clifford c => c.structural
  | interaction p0 i0 p1 i1 e =>
    let base := s!"cirq.PauliInteractionGate(cirq.{p0.name}, {boolText i0}, cirq.{p1.name}, {boolText i1})"
    if e.isInt 1 then base else s!"({base}**{e.structural})"
  | cswap => "cirq.FREDKIN"
  | channel c => "cirq." ++ c.text
  | universal l t p => s!"cirq.QasmUGate({l.text}, {t.text}, {p.text})"
  | inverse g => s!"({structural g}**-1)"
  | opportunity n => s!"cirq.contrib.acquaintance.AcquaintanceOpportunityGate(num_qubits={n})"
  | permutation p swap => permuterStructural p swap (structural swap)

/-- The short form; it fails where an exact integer would have to be shortened. -/
def text : Gate Number → Outcome String
  | power k e s _ => .ok (k.powerText e s)
  | phasedX p e s => do
    match ← diagramInfo {} (phasedX p e s) with
    | some i =>
      let symbol := i.symbols.headD ""
      .ok (if i.exponent.isOne then symbol else s!"{symbol}^{i.exponent.plain}")
    | none => .ok ""
  | identity n => .ok (if n = 1 then "I" else s!"I({n})")
  | matrix m isComplex => .ok (printed isComplex (roundTo 3 m))
  | controlled cs sub => do .ok (repeatText cs.length "C" ++ (← text sub))
  | cswap => .ok "FREDKIN"
  | channel c => .ok c.text
  | g => .ok g.structural
end Gate
end QuantumCircuits
