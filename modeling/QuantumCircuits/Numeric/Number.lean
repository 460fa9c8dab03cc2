/-! # Exact values of binary floating point numbers

A finite double is an integer times a power of two. The pair is read off the bits, and a ratio of integers is rounded
to the nearest double. -/
namespace QuantumCircuits
-- Powers and zeros are the same terms in all modules.
namespace PlainPow
attribute [scoped instance (high)] instPowNat
end PlainPow
namespace PlainZero
attribute [scoped instance (high)] Zero.ofOfNat0
end PlainZero
namespace Binary
open PlainPow
structure Parts where
  negative : Bool
  significand : Nat
  exponent : Int
variable (x : Float)
def parts : Parts :=
  let bits := x.toBits.toNat
  let field : Nat := bits/2^(52 : Nat) % 2^(11 : Nat)
  let fraction : Nat := bits % 2^(52 : Nat)
  let negative := bits/2^(63 : Nat) == 1
  if field == 0 then ⟨negative,fraction,-1074⟩ else ⟨negative,fraction+2^(52 : Nat),(field : Int)-1075⟩

def singleParts : Parts :=
  let bits := x.toFloat32.toBits.toNat
  let field : Nat := bits/2^(23 : Nat) % 2^(8 : Nat)
  let fraction : Nat := bits % 2^(23 : Nat)
  let negative := bits/2^(31 : Nat) == 1
  if field == 0 then ⟨negative,fraction,-149⟩ else ⟨negative,fraction+2^(23 : Nat),(field : Int)-150⟩

def isNegative : Bool := x.toBits.toNat/2^(63 : Nat) == 1
def Parts.integer (p : Parts) : Int := if p.negative then -(p.significand : Int) else p.significand

def ratioOf : Int × Nat :=
  let p := parts x
  if 0 ≤ p.exponent then (p.integer*2^p.exponent.toNat,1) else (p.integer,2^(-p.exponent).toNat)

def divEven (n d : Nat) : Nat :=
  let q := n/d
  let r := n % d
  if 2*r < d then q else if d < 2*r then q+1 else q+q % 2

/-- The double with significand `m < 2^53` and power of two `q`, which is at least `-1074`. -/
def assemble (negative : Bool) (m : Nat) (q : Int) : Float :=
  let sign := if negative then 2^(63 : Nat) else 0
  if m < 2^(52 : Nat) then Float.ofBits (UInt64.ofNat (sign+m))
  else if 971 < q then Float.ofBits (UInt64.ofNat (sign+2047*2^(52 : Nat)))
  else Float.ofBits (UInt64.ofNat (sign+(q+1075).toNat*2^(52 : Nat)+(m-2^(52 : Nat))))

def quotientAt (n d : Nat) (q : Int) : Nat :=
  if 0 ≤ q then divEven n (d*2^q.toNat) else divEven (n*2^(-q).toNat) d

def ofNatRatio (negative : Bool) (n d : Nat) : Float :=
  if n == 0 then assemble negative 0 (-1074)
  else
    let e : Int := (Nat.log2 n : Int) - Nat.log2 d
    let q0 := max (e-53) (-1074)
    let q := if quotientAt n d q0 < 2^(53 : Nat) then q0 else q0+1
    let m := quotientAt n d q
    if m < 2^(53 : Nat) then assemble negative m q else assemble negative (m/2) (q+1)

def ofRatio (n : Int) (d : Nat) : Float := ofNatRatio (n < 0) n.natAbs d
def ofInt (n : Int) : Float := if n.natAbs < 2^(53 : Nat) then Float.ofInt n else ofRatio n 1
def floor : Int := let r := ratioOf x; Int.fdiv r.1 r.2
def trunc : Int := let r := ratioOf x; Int.tdiv r.1 r.2

def round : Int :=
  let r := ratioOf x
  let m : Int := divEven r.1.natAbs r.2
  if r.1 < 0 then -m else m

def common (a b : Float) : Int × Int × Nat :=
  let x := ratioOf a
  let y := ratioOf b
  let d := max x.2 y.2
  (x.1*(d/x.2 : Nat),y.1*(d/y.2 : Nat),d)

def mod (a b : Float) : Float :=
  if a.isNaN || b.isNaN || a.isInf then 0.0/0.0
  else if b.isInf then
    if a == 0.0 then (if isNegative b then -0.0 else 0.0)
    else if isNegative a == isNegative b then a else b
  else
    let (x,y,d) := common a b
    let r := Int.fmod x y
    if r == 0 then (if isNegative b then -0.0 else 0.0) else ofRatio r d

def floorDiv (a b : Float) : Float :=
  if a.isNaN || b.isNaN || a.isInf || b.isInf then (a/b).floor
  else
    let (x,y,_) := common a b
    let q := Int.fdiv x y
    if q == 0 then (if isNegative (a/b) then -0.0 else 0.0) else ofInt q

def compareInt (n : Int) (x : Float) : Option Ordering :=
  if x.isNaN then none
  else if x.isInf then some (if isNegative x then .gt else .lt)
  else let r := ratioOf x; some (compare (n*r.2) r.1)
end Binary

/-! ## Nearby fractions -/
namespace Numeric
def nearestInt (n : Int) (d : Nat) : Int := Int.fdiv (2*n+d) (2*d)

def nearestFraction (limit : Nat) (n : Int) (d : Nat) : Int × Nat :=
  let distance (p : Int × Nat) : Nat := (n*p.2-p.1*d).natAbs
  (List.range (limit-1)).foldl (fun best k =>
    let c : Int × Nat := (nearestInt (n*(k+2 : Nat)) d,k+2)
    if distance c * best.2 < distance best * c.2 then c else best) (nearestInt n d,1)
end Numeric

/-! ## Decimal digits of positive ratios

The digits `d₁ d₂ … dₙ` at point `p` stand for `0.d₁d₂…dₙ · 10^p`. -/
namespace Decimal
open PlainPow
/-- Digits and the position of the point: `digits · 10^(point - number of digits)`. -/
structure Digits where
  digits : List Char
  point : Int

def natDigits (n : Nat) : List Char := Nat.toDigits 10 n
def stripZeros (cs : List Char) : List Char := (cs.reverse.dropWhile (· == '0')).reverse

def Digits.ofScaled (c : Nat) (s : Int) : Digits :=
  let ds := natDigits c
  ⟨stripZeros ds,ds.length+s⟩

def inUnits (n d : Nat) (s : Int) : Nat × Nat :=
  if 0 ≤ s then (n,d*10^s.toNat) else (n*10^(-s).toNat,d)

def pointOf (n d : Nat) : Int :=
  let guess : Int := ((Nat.log2 n : Int) - Nat.log2 d)*30103/100000
  let fits (p : Int) : Bool := let (a,b) := inUnits n d p; a < b
  if fits (guess-1) then guess-1
  else if fits guess then guess
  else if fits (guess+1) then guess+1
  else guess+2

/-- The first grid, from one digit on, that has a point in the interval of numbers that round to `v`. -/
def searchShortest (v lo hi d : Nat) (closed : Bool) (p : Int) : Nat → Nat → Digits
  | 0, k =>
    let (a,b) := inUnits v d (p-k)
    .ofScaled (Binary.divEven a b) (p-k)
  | fuel+1, k =>
    let s := p-k
    let (a,b) := inUnits v d s
    let (l,_) := inUnits lo d s
    let (h,_) := inUnits hi d s
    let c := a/b
    let inside (x : Nat) : Bool := if closed then l ≤ x*b && x*b ≤ h else l < x*b && x*b < h
    let below := c != 0 && inside c
    let above := inside (c+1)
    if below && above then
      if 2*(a % b) < b then .ofScaled c s
      else if b < 2*(a % b) then .ofScaled (c+1) s
      else .ofScaled (c+c % 2) s
    else if below then .ofScaled c s
    else if above then .ofScaled (c+1) s
    else searchShortest v lo hi d closed p fuel (k+1)

/-- The fewest digits that read back as the number with significand `m` and power of two `q`, in a format whose
significands start at `first` and whose least power of two is `least`. -/
def shortestIn (first : Nat) (least : Int) (m : Nat) (q : Int) : Digits :=
  let (v,d) := if 2 ≤ q then (4*m*2^(q-2).toNat,1) else (4*m,2^(2-q).toNat)
  let unit := if 2 ≤ q then 2^(q-2).toNat else 1
  let lower := if m == first && q != least then unit else 2*unit
  searchShortest v (v-lower) (v+2*unit) d (m % 2 == 0) (pointOf v d) 17 1

def shortest (m : Nat) (q : Int) : Digits := shortestIn (2^(52 : Nat)) (-1074) m q
def fixedUnits (n d k : Nat) : Nat := Binary.divEven (n*10^k) d

def significant (n d k : Nat) : Digits :=
  let p := pointOf n d
  let (a,b) := inUnits n d (p-k)
  let c := Binary.divEven a b
  if c < 10^k then ⟨natDigits c,p⟩ else ⟨natDigits (c/10),p+1⟩
end Decimal

/-! ## Written forms of doubles

Plain form is the fewest digits that read back, positional while the point stands between `-3` and `16`, with an
exponent of at least two digits otherwise. -/
namespace Written
open Decimal Binary PlainPow
def zeros (n : Nat) : List Char := List.replicate n '0'
variable (x : Float) (dotZero : Bool) (k : Nat)
def special? : Option String :=
  if x.isNaN then some "nan"
  else if x.isInf then some (if x < 0.0 then "-inf" else "inf")
  else none

def exponentText (e : Int) : List Char :=
  let ds := natDigits e.natAbs
  'e' :: (if e < 0 then '-' else '+') :: (zeros (2-ds.length) ++ ds)

/-- Digits with the point at its place; a whole number ends in `.0` if `dotZero`. -/
def positional (d : Decimal.Digits) : List Char :=
  let n : Int := d.digits.length
  if d.point ≤ 0 then '0' :: '.' :: (zeros (-d.point).toNat ++ d.digits)
  else if n ≤ d.point then
    d.digits ++ zeros (d.point-n).toNat ++ (if dotZero then ['.','0'] else [])
  else d.digits.take d.point.toNat ++ '.' :: d.digits.drop d.point.toNat

def scientific (d : Decimal.Digits) : List Char :=
  match d.digits with
  | [] => []
  | c :: r => c :: ((if r.isEmpty then [] else '.' :: r) ++ exponentText (d.point-1))

def signed (body : List Char) : String :=
  String.ofList (if isNegative x then '-' :: body else body)

def shortestDigits : Decimal.Digits :=
  let p := parts x
  if p.significand == 0 then ⟨['0'],1⟩ else shortest p.significand p.exponent

def singleDigits : Decimal.Digits :=
  let p := singleParts x
  if p.significand == 0 then ⟨['0'],1⟩ else shortestIn (2^(23 : Nat)) (-149) p.significand p.exponent

def textOfDigits (x : Float) (d : Decimal.Digits) : String :=
  signed x (if -4 < d.point && d.point ≤ 16 then positional dotZero d else scientific d)

def shortestText (x : Float) : String :=
  match special? x with
  | some t => t
  | none => textOfDigits dotZero x (shortestDigits x)

def singleText (x : Float) : String :=
  match special? x with
  | some t => t
  | none => textOfDigits dotZero x (singleDigits x)

def plain : String := shortestText true x
def bare : String := shortestText false x
def absRatio : Nat × Nat := let r := ratioOf x; (r.1.natAbs,r.2)

def unitsText (u k : Nat) : List Char :=
  let ds := natDigits u
  let ds := zeros (k+1-ds.length) ++ ds
  if k == 0 then ds else ds.take (ds.length-k) ++ '.' :: ds.drop (ds.length-k)

def fixed (x : Float) : String :=
  match special? x with
  | some t => t
  | none => let (n,d) := absRatio x; signed x (unitsText (fixedUnits n d k) k)

def exponential (x : Float) : String :=
  match special? x with
  | some t => t
  | none =>
    let (n,d) := absRatio x
    let g : Decimal.Digits := if n == 0 then ⟨zeros (k+1),1⟩ else significant n d (k+1)
    signed x (scientific g)

/-- At most `k` significant digits, with an exponent when the point falls outside `-3 … k`. -/
def general (dotZero : Bool) (x : Float) : String :=
  match special? x with
  | some t => t
  | none =>
    let k := max k 1
    let (n,d) := absRatio x
    let g : Decimal.Digits := if n == 0 then ⟨['0'],1⟩ else significant n d k
    let s : Decimal.Digits := if n == 0 then g else ⟨stripZeros g.digits,g.point⟩
    let limit : Int := if dotZero then k-1 else k
    signed x (if -4 < g.point && g.point ≤ limit then positional dotZero s else scientific s)

/-- At most `k` digits after the point, no trailing zeros, and no sign on zero. -/
def rounded (x : Float) : String :=
  match special? x with
  | some t => t
  | none =>
    let (n,d) := absRatio x
    let u := fixedUnits n d k
    if u == 0 then "0"
    else
      let whole := natDigits (u/10^k)
      let part := natDigits (u % 10^k)
      let part := stripZeros (zeros (k-part.length) ++ part)
      signed x (if part.isEmpty || k == 0 then whole else whole ++ '.' :: part)

def roundPlaces (x : Float) : Float :=
  if x.isNaN || x.isInf then x
  else
    let s := ofInt (10^k : Nat)
    let y := x*s
    if y.isInf then x
    else
      let r := round y
      let z := if r == 0 then (if isNegative x then -0.0 else 0.0) else ofInt r
      z / s

/-- A complex number from its two parts, each written by `part`: `(1+2j)`, and `2j` when the real part is positive
zero. -/
def complexBy (part : Float → String) (re im : Float) : String :=
  let imag := part im
  if re == 0.0 && !isNegative re then imag ++ "j"
  else
    let imag := if imag.startsWith "-" then imag else "+" ++ imag
    "(" ++ part re ++ imag ++ "j)"

def complexText (re im : Float) : String := complexBy bare re im

structure Spec where
  fill : Char := ' '
  align : Option Char := none
  sign : Char := '-'
  alternate : Bool := false
  width : Nat := 0
  grouping : Option Char := none
  precision : Option Nat := none
  form : Option Char := none

def takeNat (cs : List Char) : Option Nat × List Char :=
  let ds := cs.takeWhile Char.isDigit
  if ds.isEmpty then (none,cs)
  else (some (ds.foldl (fun n c => 10*n+(c.toNat-48)) 0),cs.dropWhile Char.isDigit)

def isAlign (c : Char) : Bool := c == '<' || c == '>' || c == '=' || c == '^'

def Spec.parse? (text : String) : Option Spec :=
  let cs := text.toList
  let (fill,align,cs) := match cs with
    | f :: a :: r => if isAlign a then (f,some a,r) else if isAlign f then (' ',some f,a :: r) else (' ',none,cs)
    | [a] => if isAlign a then (' ',some a,[]) else (' ',none,cs)
    | [] => (' ',none,[])
  let (sign,cs) := match cs with
    | c :: r => if c == '+' || c == '-' || c == ' ' then (c,r) else ('-',cs)
    | [] => ('-',[])
  let (alternate,cs) := match cs with
    | '#' :: r => (true,r)
    | _ => (false,cs)
  let (fill,align,cs) := match cs, align with
    | '0' :: r, none => ('0',some '=',r)
    | '0' :: r, some a => (fill,some a,r)
    | _, _ => (fill,align,cs)
  let (width,cs) := takeNat cs
  let (grouping,cs) := match cs with
    | c :: r => if c == ',' || c == '_' then (some c,r) else (none,cs)
    | [] => (none,[])
  let (precision,cs) := match cs with
    | '.' :: r => match takeNat r with
      | (some p,r) => (some p,r)
      | (none,_) => (none,cs)
    | _ => (none,cs)
  match cs with
  | [] => some ⟨fill,align,sign,alternate,width.getD 0,grouping,precision,none⟩
  | [c] => some ⟨fill,align,sign,alternate,width.getD 0,grouping,precision,some c⟩
  | _ => none

def padTo (s : Spec) (right : Bool) (text : String) : String :=
  let n := s.width-text.length
  let align := s.align.getD (if right then '>' else '<')
  let pad (k : Nat) : String := String.ofList (List.replicate k s.fill)
  if align == '<' then text ++ pad n
  else if align == '^' then pad (n/2) ++ text ++ pad (n-n/2)
  else if align == '=' then
    match text.toList with
    | c :: r => if c == '-' || c == '+' || c == ' ' then String.ofList [c] ++ pad n ++ String.ofList r else pad n ++ text
    | [] => pad n
  else pad n ++ text

def withSign (sign : Char) (text : String) : String :=
  if text.startsWith "-" || sign == '-' then text else String.ofList [sign] ++ text

def Spec.format? (s : Spec) (x : Float) : Option String := do
  let body ← match s.form with
    | none => some (match s.precision with
      | none => plain x
      | some p => general p true x)
    | some 'f' => some (fixed (s.precision.getD 6) x)
    | some 'F' => some ((fixed (s.precision.getD 6) x).map Char.toUpper)
    | some 'e' => some (exponential (s.precision.getD 6) x)
    | some 'E' => some ((exponential (s.precision.getD 6) x).map Char.toUpper)
    | some 'g' => some (general (s.precision.getD 6) false x)
    | some 'G' => some ((general (s.precision.getD 6) false x).map Char.toUpper)
    | some '%' => some (fixed (s.precision.getD 6) (x*100.0) ++ "%")
    | some _ => none
  some (padTo s true (withSign s.sign body))

def format? (spec : String) (x : Float) : Option String := do (← Spec.parse? spec).format? x
end Written

/-! ## Numbers

Integers stay integers under sums, differences, products, remainders and whole quotients; a ratio, or any operation
with a double, is a double. -/
open Binary PlainPow
inductive Number where
  | int (n : Int)
  | float (x : Float)
namespace Number
def toFloat : Number → Float
  | int n => ofInt n
  | float x => x

def isFloat : Number → Bool
  | int _ => false
  | float _ => true

def lift (f : Int → Int → Int) (g : Float → Float → Float) : Number → Number → Number
  | int a, int b => int (f a b)
  | a, b => float (g a.toFloat b.toFloat)

instance : Zero Number := ⟨int 0⟩
instance : One Number := ⟨int 1⟩
instance : Add Number := ⟨lift (· + ·) (· + ·)⟩
instance : Sub Number := ⟨lift (· - ·) (· - ·)⟩
instance : Mul Number := ⟨lift (· * ·) (· * ·)⟩

def neg : Number → Number
  | int n => int (-n)
  | float x => float (-x)

instance : Neg Number := ⟨neg⟩

/-- The ratio, always a double; dividing integers rounds their exact ratio once. -/
def div : Number → Number → Number
  | int a, int b =>
    if b == 0 then float (ofInt a / 0.0)
    else float (ofRatio (if b < 0 then -a else a) b.natAbs)
  | a, b => float (a.toFloat/b.toFloat)

instance : Div Number := ⟨div⟩
def floorDiv : Number → Number → Number := lift Int.fdiv Binary.floorDiv
def mod : Number → Number → Number := lift Int.fmod Binary.mod

def compare? : Number → Number → Option Ordering
  | int a, int b => some (compare a b)
  | int a, float b => compareInt a b
  | float a, int b => (compareInt b a).map Ordering.swap
  | float a, float b => if a < b then some .lt else if b < a then some .gt else if a == b then some .eq else none

instance : BEq Number := ⟨fun a b => compare? a b == some .eq⟩

def ltb (a b : Number) : Bool := compare? a b == some .lt
def leb (a b : Number) : Bool := match compare? a b with
  | some .gt => false
  | some _ => true
  | none => false

instance : LT Number := ⟨fun a b => ltb a b = true⟩
instance : LE Number := ⟨fun a b => leb a b = true⟩
instance (a b : Number) : Decidable (a < b) := inferInstanceAs (Decidable (ltb a b = true))
instance (a b : Number) : Decidable (a ≤ b) := inferInstanceAs (Decidable (leb a b = true))

def abs : Number → Number
  | int n => int n.natAbs
  | float x => float x.abs

def isZero (x : Number) : Bool := x == int 0

def floor : Number → Int
  | int n => n
  | float x => Binary.floor x

def trunc : Number → Int
  | int n => n
  | float x => Binary.trunc x

def round : Number → Int
  | int n => n
  | float x => Binary.round x

def isWhole : Number → Bool
  | int _ => true
  | float x => x.isFinite && Binary.ofInt (Binary.floor x) == x

def pow : Number → Number → Number
  | int a, int b => if 0 ≤ b then int (a^b.toNat) else float (ofInt a ^ ofInt b)
  | a, b => float (a.toFloat^b.toFloat)

def text : Number → String
  | int n => toString n
  | float x => Written.plain x
end Number
end QuantumCircuits
