import QuantumCircuits.Text
import Std.Data.HashMap
import QuantumCircuits.Numeric.Number

/-! # Box characters

The character where lines meet. -/
namespace QuantumCircuits
inductive LineStyle where
  | light
  | heavy
  | plain
  deriving DecidableEq
structure Sides (α : Type) where
  top : α
  bottom : α
  left : α
  right : α
def Sides.map {α β : Type} (f : α → β) (s : Sides α) : Sides β := ⟨f s.top,f s.bottom,f s.left,f s.right⟩
def Sides.any {α : Type} (p : α → Bool) (s : Sides α) : Bool := p s.top || p s.bottom || p s.left || p s.right
inductive Stroke where
  | none
  | old
  | new
  deriving DecidableEq
namespace BoxChar
def weighted : List Char :=
  " ╶╺╴─╼╸╾━╷┌┍┐┬┮┑┭┯╻┎┏┒┰┲┓┱┳╵└┕┘┴┶┙┵┷│├┝┤┼┾┥┽┿╽┟┢┧╁╆┪╅╈╹┖┗┚┸┺┛┹┻╿┞┡┦╀╄┩╃╇┃┠┣┨╂╊┫╉╋".toList
def simple : List Char := "   - /\\+ \\/+|+++".toList
def index (base : Nat) (s : Sides Nat) : Nat := ((s.top*base+s.bottom)*base+s.left)*base+s.right
def ofWeights (s : Sides Nat) : Char := weighted.getD (index 3 s) ' '
def ofPresence (s : Sides Nat) : Char := simple.getD (index 2 s) ' '
def weight : LineStyle → Nat
  | .light => 1
  | .heavy => 2
  | .plain => 0
def joint (old new : LineStyle) (s : Sides Stroke) : Option Char :=
  if !s.any (· ≠ .none) then none
  else
    let present := s.map fun k => if k = .none then 0 else 1
    let one (style : LineStyle) : Char := match style with
      | .plain => ofPresence present
      | style => ofWeights (present.map (· * weight style))
    if old = .plain ∨ new = .plain then some (one (if s.any (· = .new) then new else old))
    else some (ofWeights (s.map fun
      | .none => 0
      | .old => weight old
      | .new => weight new))
end BoxChar

/-! ## Block diagrams

A grid of blocks, each with lines to its sides and a text in the middle. -/
open Text
structure Block where
  sides : Sides String := ⟨"","","",""⟩
  center : String := ""
  content : String := ""
  /-- Where the middle of the block is, from zero at the left to one at the right. -/
  alignment : Number := .int 0
  lastStyle : Option LineStyle := none
namespace Block
def drawn (s : String) : Bool := !s.isEmpty
variable (b : Block)
def minWidth : Nat :=
  (lines b.content).foldl (fun w l => max w l.length) (if drawn b.sides.top || drawn b.sides.bottom then 1 else 0)
def minHeight : Nat :=
  max (if b.content.isEmpty then 0 else (lines b.content).length)
    (if drawn b.sides.left || drawn b.sides.right then 1 else 0)
def vertical : LineStyle → String
  | .light => "│"
  | .heavy => "┃"
  | .plain => "|"
def horizontal : LineStyle → String
  | .light => "─"
  | .heavy => "━"
  | .plain => "-"

/-- Draws lines from the middle to some sides; where lines go to all sides, the middle may have a character of its
own. -/
def drawCurve (style : LineStyle) (wanted : Sides Bool) (crossing : String) : Block :=
  if !wanted.any id then b
  else
    let stroke (isNew : Bool) (before : String) : Stroke := if isNew then .new else if drawn before then .old else .none
    let strokes : Sides Stroke := ⟨stroke wanted.top b.sides.top,stroke wanted.bottom b.sides.bottom,
      stroke wanted.left b.sides.left,stroke wanted.right b.sides.right⟩
    let put (isNew : Bool) (c before : String) : String := if isNew then c else before
    let sides : Sides String := ⟨put wanted.top (vertical style) b.sides.top,put wanted.bottom (vertical style) b.sides.bottom,
      put wanted.left (horizontal style) b.sides.left,put wanted.right (horizontal style) b.sides.right⟩
    let crossed := drawn crossing && !sides.any String.isEmpty
    let center := if crossed then crossing
      else match BoxChar.joint (b.lastStyle.getD style) style strokes with
        | some c => String.singleton c
        | none => ""
    { b with sides, center, lastStyle := some style }
abbrev Cells := List (List String)
def wrapped (n : Nat) (i : Int) : Outcome Nat :=
  let k := if i < 0 then i+n else i
  if 0 ≤ k ∧ k < n then .ok k.toNat else fails .index
def putCell (rows : Cells) (y x : Int) (c : String) : Outcome Cells := do
  let j ← wrapped rows.length y
  let row := rows.getD j []
  .ok (rows.set j (row.set (← wrapped row.length x) c))
def chars (s : String) : List String := s.toList.map String.singleton
def putLine (rows : Cells) (y x : Int) (line : List String) : Outcome Cells :=
  line.zipIdx.foldlM (fun rows (c,dx) => putCell rows y (x+(dx : Nat)) c) rows
def render (width height : Nat) : Outcome (List String) := do
  if width = 0 ∨ height = 0 then return List.replicate height ""
  let midX := ((.int (width-1) : Number)*b.alignment).trunc
  let midY := (height-1)/2
  let m := midX.toNat
  let times (n : Nat) (s : String) : List String := (List.replicate n (chars s)).flatten
  let row := List.replicate width " "
  let row := if drawn b.sides.left then times (m+1) b.sides.left ++ row.drop (m+1) else row
  let row := if drawn b.sides.right then row.take m ++ times (width-m) b.sides.right else row
  let blank : Cells := (List.replicate height (List.replicate width " ")).set midY row
  let rows := blank.zipIdx.map fun (row,y) =>
    let row := if drawn b.sides.top && y ≤ midY then row.set m b.sides.top else row
    if drawn b.sides.bottom && midY ≤ y then row.set m b.sides.bottom else row
  let lines := lines (if drawn b.content then b.content else b.center)
  let y : Int := midY-((lines.length-1)/2 : Nat)
  let rows ← lines.zipIdx.foldlM (fun rows (line,dy) =>
    let s := ((.int ((line.length : Int)-1) : Number)*b.alignment).trunc
    putLine rows (y+(dy : Nat)) (midX-s) (chars line)) rows
  return rows.map (join "")
end Block
structure BlockDiagram where
  blocks : Std.HashMap (Nat × Nat) Block
  columns : Nat
  rows : Nat
  minWidths : Std.HashMap Nat Int
  minHeights : Std.HashMap Nat Int
namespace BlockDiagram
def empty : BlockDiagram := ⟨∅,1,1,∅,∅⟩
variable (d : BlockDiagram)
def block (x y : Nat) : Block := d.blocks.getD (x,y) {}
def modify (x y : Int) (f : Block → Block) : Outcome BlockDiagram :=
  if x < 0 ∨ y < 0 then .error ⟨.index,some "x < 0 or y < 0"⟩
  else
    let i := x.toNat
    let j := y.toNat
    .ok { d with
      blocks := d.blocks.insert (i,j) (f (d.block i j))
      columns := max d.columns (i+1)
      rows := max d.rows (j+1) }
def setMinWidth (x : Int) (w : Int) : Outcome BlockDiagram :=
  if x < 0 then .error ⟨.index,some "x < 0"⟩
  else .ok { d with minWidths := d.minWidths.insert x.toNat w, columns := max d.columns (x.toNat+1) }
def setMinHeight (y : Int) (h : Int) : Outcome BlockDiagram :=
  if y < 0 then .error ⟨.index,some "y < 0"⟩
  else .ok { d with minHeights := d.minHeights.insert y.toNat h, rows := max d.rows (y.toNat+1) }
def render (spanX spanY : Option Nat) (minWidth minHeight : Int) : Outcome String := do
  let xs := List.range (spanX.getD d.columns)
  let ys := List.range (spanY.getD d.rows)
  if xs.isEmpty && !ys.isEmpty || ys.isEmpty && !xs.isEmpty then fails .value
  let width (x : Nat) : Nat :=
    let needed := ys.foldl (fun w y => max w (d.block x y).minWidth) 0
    (max (max (needed : Int) (d.minWidths.getD x 0)) minWidth).toNat
  let height (y : Nat) : Nat :=
    let needed := xs.foldl (fun h x => max h (d.block x y).minHeight) 0
    (max (max (needed : Int) (d.minHeights.getD y 0)) minHeight).toNat
  let widths := xs.map fun x => (x,width x)
  let rows ← ys.mapM fun y => do
    let h := height y
    let blocks ← widths.mapM fun (x,w) => (d.block x y).render w h
    .ok ((List.range h).map fun i => trimRight (join "" (blocks.map fun b => b.getD i "")))
  .ok (join "\n" rows.flatten)
end BlockDiagram

/-! ## Text diagrams

Texts on the points of a grid, with straight lines between points. -/
structure DiagramText where
  text : String
  transposed : String

/-- A line in one direction. All coordinates count half steps. -/
structure DiagramLine where
  at' : Int
  lo : Int
  hi : Int
  isHeavy : Bool
namespace DiagramLine
def between (at' a b : Int) (isHeavy : Bool) : DiagramLine := ⟨at',min a b,max a b,isHeavy⟩
def passes (l : DiagramLine) (at' along : Int) : Bool := l.at' == 2*at' && l.lo < 2*along && 2*along < l.hi
end DiagramLine
structure TextDiagram where
  entries : List ((Int × Int) × DiagramText)
  vertical : List DiagramLine
  horizontal : List DiagramLine
  /-- Spaces after columns and rows where they differ from the usual ones, in halves. -/
  columnPadding : List (Int × Int)
  rowPadding : List (Int × Int)
namespace TextDiagram
def empty : TextDiagram := ⟨[],[],[],[],[]⟩
def appendEntry (at' : Int × Int) (t : DiagramText) : List ((Int × Int) × DiagramText) → List ((Int × Int) × DiagramText)
  | [] => [(at',t)]
  | e :: es => if e.1 = at' then (at',⟨e.2.text ++ t.text,e.2.transposed ++ t.transposed⟩) :: es
    else e :: appendEntry at' t es
variable (d : TextDiagram) (o : RenderOptions)
def write (x y : Int) (text : String) (transposed : String := "") : TextDiagram :=
  { d with entries := appendEntry (x,y) ⟨text,if transposed.isEmpty then text else transposed⟩ d.entries }
def isTaken (x y : Int) : Bool :=
  d.entries.any (fun e => e.1.1 == x && e.1.2 == y) || d.vertical.any (fun l => l.passes x y)
    || d.horizontal.any (fun l => l.passes y x)
def verticalLine (x a b : Int) (isHeavy : Bool := false) : TextDiagram :=
  { d with vertical := d.vertical ++ [.between x a b isHeavy] }
def horizontalLine (y a b : Int) (isHeavy : Bool := false) : TextDiagram :=
  { d with horizontal := d.horizontal ++ [.between y a b isHeavy] }
def gridLine (x1 y1 x2 y2 : Int) (isHeavy : Bool) : Outcome TextDiagram :=
  if x1 = x2 then .ok (d.verticalLine x1 y1 y2 isHeavy)
  else if y1 = y2 then .ok (d.horizontalLine y1 x1 x2 isHeavy)
  else .error (.value "Line is neither horizontal nor vertical")
def transpose : TextDiagram where
  entries := d.entries.map fun ((x,y),t) => ((y,x),⟨t.transposed,t.text⟩)
  vertical := d.horizontal
  horizontal := d.vertical
  columnPadding := d.rowPadding
  rowPadding := d.columnPadding
def extent (halves : List Int) : Int := 1 + Int.tdiv (halves.foldl max (-2)) 2
def width : Int :=
  extent (d.entries.map (fun e => 2*e.1.1) ++ d.vertical.map (·.at') ++ d.horizontal.map (·.hi))
def height : Int :=
  extent (d.entries.map (fun e => 2*e.1.2) ++ d.horizontal.map (·.at') ++ d.vertical.map (·.hi))
def assign (k v : Int) (m : List (Int × Int)) : List (Int × Int) :=
  if m.any fun e => e.1 = k then m.map fun e => if e.1 = k then (k,v) else e else m ++ [(k,v)]
def padColumn (x halves : Int) : TextDiagram :=
  { d with columnPadding := assign x halves d.columnPadding }
def padRow (y halves : Int) : TextDiagram := { d with rowPadding := assign y halves d.rowPadding }
def pushed (start amount c : Int) : Int := if start ≤ c then c+amount else c
def insertColumns (x amount : Int) : TextDiagram :=
  let half := pushed (2*x) (2*amount)
  { d with
    entries := d.entries.map fun ((a,b),t) => ((pushed x amount a,b),t)
    vertical := d.vertical.map fun l => { l with at' := half l.at' }
    horizontal := d.horizontal.map fun l => { l with lo := half l.lo, hi := half l.hi }
    columnPadding := d.columnPadding.map fun (a,p) => (pushed x amount a,p) }
def insertRows (y amount : Int) : TextDiagram := (d.transpose.insertColumns y amount).transpose
structure RenderOptions where
  columnSpace : Int := 1
  rowSpace : Int := 1
  crossing : String := ""
  unicode : Bool := true
def lineStyle (l : DiagramLine) : LineStyle :=
  if !o.unicode then .plain else if l.isHeavy then .heavy else .light
def inside (lo hi : Int) : List Int := (List.range (hi-lo-1).toNat).map fun (k : Nat) => lo+1+k
def drawVertical (b : BlockDiagram) (l : DiagramLine) : Outcome BlockDiagram := do
  let style := lineStyle o l
  let b ← b.modify l.at' l.lo fun c => c.drawCurve style ⟨false,true,false,false⟩ ""
  let b ← b.modify l.at' l.hi fun c => c.drawCurve style ⟨true,false,false,false⟩ ""
  (inside l.lo l.hi).foldlM (fun b y => b.modify l.at' y fun c => c.drawCurve style ⟨true,true,false,false⟩ "") b
def drawHorizontal (b : BlockDiagram) (l : DiagramLine) : Outcome BlockDiagram := do
  let style := lineStyle o l
  let b ← b.modify l.lo l.at' fun c => c.drawCurve style ⟨false,false,false,true⟩ ""
  let b ← b.modify l.hi l.at' fun c => c.drawCurve style ⟨false,false,true,false⟩ ""
  (inside l.lo l.hi).foldlM (fun b x =>
    b.modify x l.at' fun c => c.drawCurve style ⟨false,false,true,true⟩ o.crossing) b
def padding (m : List (Int × Int)) (i space : Int) : Int := (m.lookup i).getD (2*space)

/-- Points become every second block; the blocks between them are spaces. -/
def blocks : Outcome BlockDiagram := do
  let between (n : Int) : List Int := (List.range (n-1).toNat).map fun (k : Nat) => (k : Int)
  let b ← (between d.width).foldlM (fun (b : BlockDiagram) x => do
    let b ← b.setMinWidth (2*x+1) (-(Int.fdiv (-(padding d.columnPadding x o.columnSpace)) 2))
    b.setMinWidth (2*x) 1) BlockDiagram.empty
  let b ← (between d.height).foldlM (fun (b : BlockDiagram) y => do
    let b ← b.setMinHeight (2*y+1) (Int.fdiv (padding d.rowPadding y o.rowSpace) 2)
    b.setMinHeight (2*y) 1) b
  let b ← d.vertical.foldlM (drawVertical o) b
  let b ← d.horizontal.foldlM (drawHorizontal o) b
  d.entries.foldlM (fun (b : BlockDiagram) ((x,y),t) => b.modify (2*x) (2*y) fun c => { c with content := t.text }) b
def render : Outcome String := do (← d.blocks o).render none none 0 0
end TextDiagram
end QuantumCircuits
