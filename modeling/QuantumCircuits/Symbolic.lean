import QuantumCircuits.Numeric.RealScalar
import QuantumCircuits.Text

/-! # Coefficients of symbolic expressions

A coefficient is an exact fraction or a real number. -/
namespace QuantumCircuits
open RealScalar
inductive Coefficient (R : Type) where
  | fraction (n : Int) (d : Nat)
  | real (x : R)
namespace Coefficient
variable [RealScalar R]
def reduce (n : Int) (d : Nat) : Coefficient R :=
  let g := Nat.gcd n.natAbs d
  if g == 0 then .fraction n d else .fraction (n/g) (d/g)
def ofReal (x : R) : Coefficient R := match exactInt? x with
  | some n => .fraction n 1
  | none => .real x
def toReal : Coefficient R → R
  | .fraction n d => if d == 1 then ofInt n else ofInt n / ofInt d
  | .real x => x
def one : Coefficient R := .fraction 1 1
def mul : Coefficient R → Coefficient R → Coefficient R
  | .fraction a b, .fraction c d => reduce (a*c) (b*d)
  | a, b => .real (a.toReal*b.toReal)
def add : Coefficient R → Coefficient R → Coefficient R
  | .fraction a b, .fraction c d => reduce (a*d+c*b) (b*d)
  | a, b => .real (a.toReal+b.toReal)
def neg : Coefficient R → Coefficient R
  | .fraction n d => .fraction (-n) d
  | .real x => .real (-x)
def isZero : Coefficient R → Bool
  | .fraction n _ => n == 0
  | .real x => x == 0
def isOne : Coefficient R → Bool
  | .fraction n d => n == 1 && d == 1
  | .real _ => false
def isNegative (c : Coefficient R) : Bool := c.toReal < 0
def beq : Coefficient R → Coefficient R → Bool
  | .fraction a b, .fraction c d => a == c && b == d
  | .real x, .real y => x == y
  | _, _ => false
instance : BEq (Coefficient R) := ⟨beq⟩
end Coefficient

/-! ## Symbolic expressions

A sum of terms, each a coefficient times powers of symbols and of the circle constant, possibly times an outer product.
Terms are kept from higher to lower degree in the order of the symbols' names. -/
inductive Atom where
  | circle
  | symbol (name : String)
  deriving DecidableEq
namespace Atom
def before : Atom → Atom → Bool
  | circle, symbol _ => true
  | symbol a, symbol b => Text.lt a b
  | _, circle => false
end Atom
abbrev Powers := List (Atom × Int)
namespace Powers
def insert (a : Atom) (k : Int) : Powers → Powers
  | [] => [(a,k)]
  | (b,j) :: r =>
    if a = b then (if j+k == 0 then r else (b,j+k) :: r)
    else if a.before b then (a,k) :: (b,j) :: r
    else (b,j) :: insert a k r
def mul (p q : Powers) : Powers := q.foldl (fun acc (a,k) => acc.insert a k) p
def higher : Powers → Powers → Bool
  | [], _ => false
  | (_,k) :: _, [] => 0 < k
  | (a,j) :: r, (b,k) :: s =>
    if a = b then (if j = k then higher r s else k < j) else a.before b
end Powers
structure Term (R : Type) where
  coefficient : Coefficient R
  powers : Powers
structure Expression (R : Type) where
  outerCoefficient : Coefficient R
  outer : Powers
  terms : List (Term R)
namespace Expression
variable [RealScalar R] (e : Expression R)
def insertTerm (t : Term R) : List (Term R) → List (Term R)
  | [] => if t.coefficient.isZero then [] else [t]
  | u :: r =>
    if t.powers = u.powers then
      let c := u.coefficient.add t.coefficient
      if c.isZero then r else ⟨c,u.powers⟩ :: r
    else if Powers.higher t.powers u.powers then t :: u :: r
    else u :: insertTerm t r

/-- The product with the outer factor taken in when there is only one term, and a bare number distributed. -/
def normalize : Expression R :=
  match e.terms with
  | [t] => ⟨.one,[],[⟨e.outerCoefficient.mul t.coefficient,Powers.mul t.powers e.outer⟩]⟩
  | ts =>
    if e.outer.isEmpty then
      if e.outerCoefficient.isOne then e
      else ⟨.one,[],ts.map fun t => ⟨e.outerCoefficient.mul t.coefficient,t.powers⟩⟩
    else e
def symbol (name : String) : Expression R := ⟨.one,[],[⟨.one,[(.symbol name,1)]⟩]⟩
def constant (x : R) : Expression R := ⟨.one,[],insertTerm ⟨.ofReal x,[]⟩ []⟩
def scaleBy (c : Coefficient R) (e : Expression R) : Expression R :=
  if c.isZero then ⟨.one,[],[]⟩ else normalize { e with outerCoefficient := c.mul e.outerCoefficient }
def scale (x : R) (e : Expression R) : Expression R := scaleBy (.ofReal x) e
def timesPower (a : Atom) (k : Int) (e : Expression R) : Expression R :=
  normalize { e with outer := e.outer.insert a k }
def expanded : List (Term R) :=
  e.terms.map fun t => ⟨e.outerCoefficient.mul t.coefficient,Powers.mul t.powers e.outer⟩
def add (e f : Expression R) : Expression R :=
  ⟨.one,[],(e.expanded ++ f.expanded).foldl (fun acc t => insertTerm t acc) []⟩
def addReal (x : R) (e : Expression R) : Expression R :=
  if x == 0 then e else add e (constant x)
def neg : Expression R := scaleBy (.fraction (-1) 1) e
def mul (e f : Expression R) : Expression R :=
  match e.terms, f.terms with
  | [t], _ => normalize ⟨t.coefficient.mul f.outerCoefficient,Powers.mul f.outer t.powers,f.terms⟩
  | _, [t] => normalize ⟨t.coefficient.mul e.outerCoefficient,Powers.mul e.outer t.powers,e.terms⟩
  | _, _ =>
    let ts := e.expanded.flatMap fun t => f.expanded.map fun u => ⟨t.coefficient.mul u.coefficient,Powers.mul t.powers u.powers⟩
    ⟨.one,[],ts.foldl (fun acc t => insertTerm t acc) []⟩
def isSymbol : Bool :=
  match e.terms with
  | [⟨c,[(.symbol _,1)]⟩] => c.isOne && e.outer.isEmpty
  | _ => false
def symbolName? : Option String :=
  match e.terms with
  | [⟨c,[(.symbol s,1)]⟩] => if c.isOne && e.outer.isEmpty then some s else none
  | _ => none
def hasSymbols : Bool :=
  e.expanded.any fun t => t.powers.any fun (a,_) => a != .circle
def powInt (x : R) : Nat → R
  | 0 => ofInt 1
  | 1 => x
  | n+1 => x * powInt x n
def powerValue (x : R) (k : Int) : R :=
  if 0 ≤ k then powInt x k.toNat else ofInt 1 / powInt x (-k).toNat
def substitute (env : String → Option (Expression R)) (e : Expression R) : Expression R :=
  let power (x : Expression R) (k : Int) : Expression R :=
    match x.terms with
    | [⟨c,[]⟩] => constant (powerValue c.toReal k)
    | [] => constant 0
    | [⟨c,ps⟩] => if c.isOne then ⟨.one,[],[⟨.one,ps.map fun (a,j) => (a,j*k)⟩]⟩ else (List.replicate k.toNat x).foldl mul (constant (ofInt 1))
    | _ => (List.replicate k.toNat x).foldl mul (constant (ofInt 1))
  let term (t : Term R) : Expression R :=
    t.powers.foldl (fun acc (a,k) => match a with
      | .circle => acc.timesPower .circle k
      | .symbol s => match env s with
        | some x => mul acc (power x k)
        | none => acc.timesPower (.symbol s) k) ⟨.one,[],[⟨t.coefficient,[]⟩]⟩
  let total := e.terms.foldl (fun acc t => add acc (term t)) ⟨.one,[],[]⟩
  if e.outer.isEmpty then total else mul (term ⟨e.outerCoefficient,e.outer⟩) total
def value? : Option R :=
  if e.hasSymbols then none
  else
    some (e.expanded.foldl (fun acc t =>
      acc + t.powers.foldl (fun v (_,k) => v * powerValue pi k) t.coefficient.toReal) 0)
def termsEqual : List (Term R) → List (Term R) → Bool
  | [], [] => true
  | t :: r, u :: s => t.coefficient == u.coefficient && t.powers == u.powers && termsEqual r s
  | _, _ => false
instance : BEq (Expression R) :=
  ⟨fun e f => e.outerCoefficient == f.outerCoefficient && e.outer == f.outer && termsEqual e.terms f.terms⟩
end Expression

/-! ## Written expressions

`text` is the usual infix form; `structural` names every node. -/
namespace Expression
open Text
variable [RealScalar R] [NumberText R]
def realText (x : R) : String :=
  let s := NumberText.general 15 x
  if contains "." s || contains "e" s then s else s ++ ".0"
def atomText : Atom → String
  | .circle => "pi"
  | .symbol s => s
def powerText (a : Atom) (k : Int) : String := if k == 1 then atomText a else s!"{atomText a}**{k}"
def productText (c : Coefficient R) (ps : Powers) (tail : List String) : String :=
  let above := (ps.filter (0 < ·.2)).map fun (a,k) => powerText a k
  let below := (ps.filter (·.2 < 0)).map fun (a,k) => powerText a (-k)
  let (head,below) : List String × List String := match c with
    | .fraction n d =>
      (if n.natAbs == 1 then [] else [toString n.natAbs],if d == 1 then below else toString d :: below)
    | .real x => ([realText (RealScalar.abs x)],below)
  let top := head ++ above ++ tail
  let top := if top.isEmpty then ["1"] else top
  let bottom := match below with
    | [] => ""
    | [b] => "/" ++ b
    | bs => "/(" ++ join "*" bs ++ ")"
  join "*" top ++ bottom
def sumText : Bool → List (Term R) → String
  | _, [] => ""
  | first, t :: r =>
    let neg := t.coefficient.isNegative
    let sign := if first then (if neg then "-" else "") else if neg then " - " else " + "
    sign ++ productText t.coefficient t.powers [] ++ sumText false r
def text (e : Expression R) : String :=
  match e.terms with
  | [] => "0"
  | ts =>
    if e.outer.isEmpty && e.outerCoefficient.isOne then sumText true ts
    else
      (if e.outerCoefficient.isNegative then "-" else "") ++
        productText e.outerCoefficient e.outer [s!"({sumText true ts})"]
def coefficientNode : Coefficient R → String
  | .fraction n d =>
    if d == 1 then s!"sympy.Integer({n})"
    else s!"sympy.Rational({n}, {d})"
  | .real x => s!"sympy.Float('{NumberText.text x}', precision=53)"
def atomNode : Atom → String
  | .circle => "sympy.pi"
  | .symbol s => s!"sympy.Symbol({quoted s})"
def powerNode (a : Atom) (k : Int) : String :=
  if k == 1 then atomNode a else s!"Pow({atomNode a}, sympy.Integer({k}))"
def productNode (c : Coefficient R) (ps : Powers) (tail : List String) : String :=
  let minus : Coefficient R := .fraction (-1) 1
  let cs := if c.isOne then [] else
    if c.isNegative && !(c == minus) then [coefficientNode minus,coefficientNode c.neg]
    else [coefficientNode c]
  match cs ++ ps.map (fun (a,k) => powerNode a k) ++ tail with
  | [] => coefficientNode c
  | [x] => if ps.isEmpty && tail.isEmpty then coefficientNode c else x
  | xs => if ps.isEmpty && tail.isEmpty then coefficientNode c else "sympy.Mul(" ++ join ", " xs ++ ")"
def structural (e : Expression R) : String :=
  match e.terms with
  | [] => "sympy.Integer(0)"
  | [t] => productNode t.coefficient t.powers []
  | ts =>
    let sum := "sympy.Add(" ++ join ", " (ts.map fun t => productNode t.coefficient t.powers []) ++ ")"
    if e.outer.isEmpty && e.outerCoefficient.isOne then sum
    else productNode e.outerCoefficient e.outer [sum]
end Expression

/-! ## Parameters

A parameter of a gate is a number, an expression with symbols, or the remainder of such an expression. -/
inductive Param (R : Type) where
  | num (x : R)
  | expr (e : Expression R)
  | residue (e : Expression R) (modulus : R)
namespace Param
variable [RealScalar R] (p : Param R)
def isParameterized : Param R → Bool
  | num _ => false
  | _ => true
def isSymbol : Param R → Bool
  | expr e => e.isSymbol
  | _ => false
def value? : Param R → Option R
  | num x => some x
  | _ => none
def value : R := p.value?.getD 0
def isNum (x : R) : Bool := match p with
  | num y => y == x
  | _ => false
def isInt (n : Int) : Bool := p.isNum (ofInt n)
def beq : Param R → Param R → Bool
  | num x, num y => x == y
  | expr e, expr f => e == f
  | residue e m, residue f n => e == f && m == n
  | _, _ => false
instance : BEq (Param R) := ⟨beq⟩
def neg : Param R → Param R
  | num x => num (-x)
  | expr e => expr e.neg
  | residue e m => residue e.neg m
instance : Neg (Param R) := ⟨neg⟩
def mul : Param R → Param R → Param R
  | num x, num y => num (x*y)
  | num x, expr e | expr e, num x =>
    if x == ofInt 1 then expr e
    else if x == ofInt (-1) then expr e.neg
    else expr (e.scale x)
  | expr e, expr f => expr (e.mul f)
  | num x, residue e m | residue e m, num x => expr (e.scale (x*m))
  | residue e _, expr f | expr f, residue e _ => expr (e.mul f)
  | residue e _, residue f _ => expr (e.mul f)
def scale (x : R) : Param R → Param R
  | num y => num (x*y)
  | expr e => expr (e.scale x)
  | residue e m => residue (e.scale x) m
def addReal (x : R) : Param R → Param R
  | num y => num (y+x)
  | expr e => expr (e.addReal x)
  | residue e m => residue (e.addReal x) m
def add : Param R → Param R → Param R
  | num x, p | p, num x => p.addReal x
  | expr e, expr f | expr e, residue f _ | residue e _, expr f | residue e _, residue f _ => expr (e.add f)
def canonicalHalfTurns : Param R → Param R
  | num x =>
    let h := mod x (ofInt 2)
    num (if ofInt 1 < h then h - ofInt 2 else h)
  | p => p
def mod (m : R) : Param R := match p with
  | num x => num (RealScalar.mod x m)
  | expr e => residue e m
  | residue e _ => residue e m

/-- The parameter with symbols replaced; a value free of symbols is no longer an exact integer. -/
def resolve (env : String → Option (Param R)) (p : Param R) : Param R :=
  let lookup (s : String) : Option (Expression R) := match env s with
    | some (num x) => some (Expression.constant x)
    | some (expr e) => some e
    | some (residue e _) => some e
    | none => none
  match p with
  | num x => num x
  | expr e =>
    let v := e.substitute lookup
    match v.value? with
    | some x => num (inexact x)
    | none => expr v
  | residue e m =>
    let v := e.substitute lookup
    match v.value? with
    | some x => num (RealScalar.inexact (RealScalar.mod x m))
    | none => residue v m
section
variable [NumberText R]
def text : Param R → String
  | num x => NumberText.text x
  | expr e => e.text
  | residue e m => s!"Mod({e.text}, {NumberText.text m})"
def structural : Param R → String
  | num x => NumberText.text x
  | expr e => e.structural
  | residue e m => s!"sympy.Mod({e.structural}, {Expression.coefficientNode (Coefficient.ofReal m)})"
end
end Param
end QuantumCircuits
