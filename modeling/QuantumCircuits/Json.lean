import QuantumCircuits.Numeric.Number
import QuantumCircuits.Text

/-! # Documents

The fields of an object keep their written order. Integers and doubles are kept apart. -/
namespace QuantumCircuits
inductive Json where
  | null
  | bool (b : Bool)
  | num (x : Number)
  | str (s : String)
  | arr (xs : List Json)
  | obj (fields : List (String × Json))
abbrev Fields := List (String × Json)
abbrev Answer := Outcome Json
namespace Json
def int (n : Int) : Json := num (.int n)
def nat (n : Nat) : Json := num (.int n)
def field? (k : String) : Json → Option Json
  | obj fs => fs.lookup k
  | _ => none
def field (k : String) (j : Json) : Json := (j.field? k).getD null
def isNull : Json → Bool
  | null => true
  | _ => false
def isObj : Json → Bool
  | obj _ => true
  | _ => false
def elems : Json → List Json
  | arr xs => xs
  | _ => []
def fields : Json → Fields
  | obj fs => fs
  | _ => []
def text : Json → String
  | str s => s
  | _ => ""
def int? : Json → Option Int
  | num (.int n) => some n
  | _ => none
def toInt (j : Json) : Int := j.int?.getD 0
def toNat (j : Json) : Nat := j.toInt.toNat
def number? : Json → Option Number
  | num x => some x
  | bool b => some (.int (if b then 1 else 0))
  | _ => none
def number (j : Json) : Number := j.number?.getD (.int 0)
def truthy : Json → Bool
  | null => false
  | bool b => b
  | num x => !x.isZero
  | str s => !s.isEmpty
  | arr xs => !xs.isEmpty
  | obj fs => !fs.isEmpty
def setField (k : String) (v : Json) : Fields → Fields
  | [] => [(k,v)]
  | (k',v') :: r => if k == k' then (k,v) :: r else (k',v') :: setField k v r
mutual
/-- Equality of documents: numbers by value, objects whatever the order of their fields. -/
def same : Json → Json → Bool
  | null, null => true
  | bool a, bool b => a == b
  | num a, num b => a == b
  | bool a, num b => (Number.int (if a then 1 else 0)) == b
  | num a, bool b => a == Number.int (if b then 1 else 0)
  | str a, str b => a == b
  | arr a, arr b => sameList a b
  | obj a, obj b => a.length == b.length && sameFields a b
  | _, _ => false
def sameList : List Json → List Json → Bool
  | [], [] => true
  | a :: r, b :: s => same a b && sameList r s
  | _, _ => false
def sameFields : Fields → Fields → Bool
  | [], _ => true
  | (k,v) :: r, fs =>
    (match fs.lookup k with
      | some w => same v w
      | none => false) && sameFields r fs
end
end Json

/-! ## Reading documents

The reader is total: each step takes one unit of fuel, and a text as long as `n` characters needs at most `n + 1`.
-/
namespace Json
open PlainPow
variable (cs : List Char)
def skipBlank : List Char := cs.dropWhile fun c => c == ' ' || c == '\n' || c == '\t' || c == '\r'
def hexValue (c : Char) : Nat :=
  if c.isDigit then c.toNat-48 else if 'a' ≤ c && c ≤ 'f' then c.toNat-87 else if 'A' ≤ c && c ≤ 'F' then c.toNat-55 else 0
def hexNat : Nat := cs.foldl (fun n c => 16*n + hexValue c) 0
def readText : Nat → List Char → List Char → Option (String × List Char)
  | 0, _, _ => none
  | _+1, acc, '"' :: r => some (String.ofList acc.reverse,r)
  | n+1, acc, '\\' :: 'u' :: a :: b :: c :: d :: r =>
    let u := hexNat [a,b,c,d]
    match r with
    | '\\' :: 'u' :: e :: f :: g :: h :: r' =>
      let v := hexNat [e,f,g,h]
      if 0xd800 ≤ u && u < 0xdc00 && 0xdc00 ≤ v && v < 0xe000 then
        readText n (Char.ofNat (65536+(u-0xd800)*1024+(v-0xdc00)) :: acc) r'
      else readText n (Char.ofNat u :: acc) r
    | _ => readText n (Char.ofNat u :: acc) r
  | n+1, acc, '\\' :: c :: r =>
    let d := if c == 'n' then '\n' else if c == 't' then '\t' else if c == 'r' then '\r'
      else if c == 'b' then '\x08' else if c == 'f' then '\x0c' else c
    readText n (d :: acc) r
  | n+1, acc, c :: r => readText n (c :: acc) r
  | _+1, _, [] => none
def digitsNat : Nat := cs.foldl (fun n c => 10*n+(c.toNat-48)) 0
def ofDecimal (negative : Bool) (m : Nat) (e : Int) : Float :=
  if m == 0 then (if negative then -0.0 else 0.0)
  else if 400 < e then (if negative then -(1.0/0.0) else 1.0/0.0)
  else if 0 ≤ e then Binary.ofNatRatio negative (m*10^e.toNat) 1
  else Binary.ofNatRatio negative m (10^(-e).toNat)
def readNumber : Option (Number × List Char) :=
  let (negative,cs) := match cs with
    | '-' :: r => (true,r)
    | _ => (false,cs)
  let whole := cs.takeWhile Char.isDigit
  let cs := cs.dropWhile Char.isDigit
  if whole.isEmpty then none
  else
    let (frac,hasFrac,cs) := match cs with
      | '.' :: r => (r.takeWhile Char.isDigit,true,r.dropWhile Char.isDigit)
      | _ => ([],false,cs)
    let (exp,hasExp,cs) : Int × Bool × List Char := match cs with
      | c :: r =>
        if c == 'e' || c == 'E' then
          let (neg,r) := match r with
            | '-' :: r => (true,r)
            | '+' :: r => (false,r)
            | _ => (false,r)
          let n : Int := digitsNat (r.takeWhile Char.isDigit)
          (if neg then -n else n,true,r.dropWhile Char.isDigit)
        else (0,false,cs)
      | [] => (0,false,cs)
    if hasFrac || hasExp then
      some (.float (ofDecimal negative (digitsNat (whole ++ frac)) (exp-frac.length)),cs)
    else
      let n : Int := digitsNat whole
      some (.int (if negative then -n else n),cs)
def readWord (w : String) (v : Json) (cs : List Char) : Option (Json × List Char) :=
  (Text.afterStart? w.toList cs).map (v,·)
mutual
def readValue : Nat → List Char → Option (Json × List Char)
  | 0, _ => none
  | n+1, cs =>
    match skipBlank cs with
    | '"' :: r => (readText (r.length+1) [] r).map fun (s,r) => (str s,r)
    | '[' :: r =>
      match skipBlank r with
      | ']' :: r => some (arr [],r)
      | r => (readItems n r).map fun (xs,r) => (arr xs,r)
    | '\x7b' :: r =>
      match skipBlank r with
      | '\x7d' :: r => some (obj [],r)
      | r => (readFields n r).map fun (fs,r) => (obj (fs.foldl (fun acc kv => setField kv.1 kv.2 acc) []),r)
    | 't' :: r => readWord "rue" (bool true) r
    | 'f' :: r => readWord "alse" (bool false) r
    | 'n' :: r => readWord "ull" null r
    | 'N' :: r => readWord "aN" (num (.float (0.0/0.0))) r
    | 'I' :: r => readWord "nfinity" (num (.float (1.0/0.0))) r
    | '-' :: 'I' :: r => readWord "nfinity" (num (.float (-1.0/0.0))) r
    | cs => (readNumber cs).map fun (x,r) => (num x,r)
def readItems : Nat → List Char → Option (List Json × List Char)
  | 0, _ => none
  | n+1, cs => do
    let (v,r) ← readValue n cs
    match skipBlank r with
    | ',' :: r => (readItems n r).map fun (xs,r) => (v :: xs,r)
    | ']' :: r => some ([v],r)
    | _ => none
def readFields : Nat → List Char → Option (Fields × List Char)
  | 0, _ => none
  | n+1, cs =>
    match skipBlank cs with
    | '"' :: r => do
      let (k,r) ← readText (r.length+1) [] r
      match skipBlank r with
      | ':' :: r => do
        let (v,r) ← readValue n r
        match skipBlank r with
        | ',' :: r => (readFields n r).map fun (fs,r) => ((k,v) :: fs,r)
        | '\x7d' :: r => some ([(k,v)],r)
        | _ => none
      | _ => none
    | _ => none
end
def parse? (s : String) : Option Json :=
  let cs := s.toList
  match readValue (cs.length+1) cs with
  | some (v,r) => if (skipBlank r).isEmpty then some v else none
  | none => none
end Json

/-! ## Written documents

`compress` is the compact form, `literal` one with quoted texts and capitalised constants. -/
namespace Json
def escape (c : Char) : List Char :=
  let n := c.toNat
  if c == '"' || c == '\\' then ['\\',c]
  else if c == '\n' then ['\\','n']
  else if c == '\r' then ['\\','r']
  else if c == '\t' then ['\\','t']
  else if c == '\x08' then ['\\','b']
  else if c == '\x0c' then ['\\','f']
  else if 32 ≤ n && n < 127 then [c]
  else if n < 65536 then '\\' :: 'u' :: Text.hex 4 n
  else
    let m := n-65536
    '\\' :: 'u' :: (Text.hex 4 (0xd800+m/1024) ++ '\\' :: 'u' :: Text.hex 4 (0xdc00+m % 1024))
def quote (s : String) : String := String.ofList ('"' :: (s.toList.flatMap escape ++ ['"']))
def numberText : Number → String
  | .int n => toString n
  | .float x =>
    if x.isNaN then "NaN" else if x.isInf then (if x < 0.0 then "-Infinity" else "Infinity") else Written.plain x
mutual
def render (item key : String) : Json → String
  | null => "null"
  | bool b => if b then "true" else "false"
  | num x => numberText x
  | str s => quote s
  | arr xs => s!"[{Text.join item (renderList item key xs)}]"
  | obj fs => "\x7b" ++ Text.join item (renderFields item key fs) ++ "\x7d"
def renderList (item key : String) : List Json → List String
  | [] => []
  | x :: r => render item key x :: renderList item key r
def renderFields (item key : String) : Fields → List String
  | [] => []
  | (k,v) :: r => (quote k ++ key ++ render item key v) :: renderFields item key r
end
def compress : Json → String := render "," ":"
def spaced : Json → String := render ", " ": "
mutual
def literal : Json → String
  | null => "None"
  | bool b => Text.boolText b
  | num x => x.text
  | str s => Text.quoted s
  | arr xs => "[" ++ Text.join ", " (literalList xs) ++ "]"
  | obj fs => "\x7b" ++ Text.join ", " (literalFields fs) ++ "\x7d"
def literalList : List Json → List String
  | [] => []
  | x :: r => literal x :: literalList r
def literalFields : Fields → List String
  | [] => []
  | (k,v) :: r => s!"{Text.quoted k}: {literal v}" :: literalFields r
end
def display : Json → String
  | str s => s
  | j => literal j
end Json
end QuantumCircuits
