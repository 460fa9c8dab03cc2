import QuantumCircuits.Json
import QuantumCircuits.Symbolic
import QuantumCircuits.Circuit.Basic

/-! # Requests and answers

An answer is a result or a fault. Computed numbers are written with six decimals, exact ones in full. -/
namespace QuantumCircuits.Service
abbrev Handler := Json → Answer
def causeName : Cause → String
  | .value => "ValueError"
  | .type => "TypeError"
  | .key => "KeyError"
  | .index => "IndexError"
  | .attribute => "AttributeError"
  | .zeroDivision => "ZeroDivisionError"
  | .stopped => "StopIteration"
  | .notFound => "NotFoundError"
  | .system => "OSError"
  | .assertion => "AssertionError"
  | .overflow => "OverflowError"
  | .unimplemented => "NotImplementedError"
  | .recursion => "RecursionError"
  | .environment => "EnvironmentError"
  | .runtime => "RuntimeError"
  | .missingFile => "FileNotFoundError"
  | .named kind => kind

/-- An explanation is passed on unless it shows an address or a printed array. -/
def faultJson (f : Fault) : Json :=
  let kind := ("error",Json.str (causeName f.cause))
  match f.explanation with
  | some why =>
    if Text.contains " at 0x" why || Text.contains "[[" why || Text.contains "array(" why then .obj [kind]
    else .obj [kind,("message",.str why)]
  | none => .obj [kind]
def settle : Answer → Json
  | .ok j => j
  | .error f => faultJson f
def reply : Answer → Json
  | .ok j => .obj [("ok",j)]
  | .error f => faultJson f
def noAttribute {α : Type} : Outcome α := fails .attribute
structure Step where
  name : String
  args : List Json
def Step.ofJson : Json → Step
  | .str s => ⟨s,[]⟩
  | .arr (x :: r) => ⟨x.text,r⟩
  | _ => ⟨"",[]⟩
def Step.arg (s : Step) (i : Nat) : Json := s.args.getD i .null
instance : GetElem? Step Nat Json fun _ _ => True where
  getElem s i _ := s.arg i
  getElem? s i := s.args[i]?
instance : GetElem? Json String Json fun _ _ => True where
  getElem j k _ := j.field k
  getElem? j k := j.field? k
instance : GetElem Json Nat Json fun _ _ => True := ⟨fun j i _ => j.elems.getD i .null⟩
def fJson (x : Number) : Json := .str (Written.rounded 6 x.toFloat)
def cText (k : Nat) (z : Cpx Number) : String :=
  s!"{Written.rounded k z.re.toFloat},{Written.rounded k z.im.toFloat}"
def cJson (z : Cpx Number) : Json := .str (cText 6 z)
def nJson (x : Number) : Json := .str x.text
def scalarJson (a : Scalar Number) : Json := .str a.text
def paramJson : Param Number → Json
  | .num x => nJson x
  | p => .obj [("sym",.str p.text)]
def equality (same : Bool) : List Json := [.bool same,.bool !same]
def equalityAndHash (same : Bool) : List Json := equality same ++ [if same then .bool true else .null]
def optJson {α : Type} (f : α → Json) : Option α → Json
  | some a => f a
  | none => .null
def strs (xs : List String) : Json := .arr (xs.map .str)
def linear (k : Number) (name : String) (b : Number) : Param Number :=
  .expr (((Expression.symbol name).scale k).addReal b)
def param? : Json → Option (Param Number)
  | .num x => some (.num x)
  | .bool b => some (.num (.int (if b then 1 else 0)))
  | j =>
    match j["sym"]? with
    | some (.str s) => some (.expr (.symbol s))
    | _ =>
      match j["lin"]? with
      | some (.arr [k,.str s,b]) => some (linear k.number s b.number)
      | _ => none
def param (j : Json) : Param Number := (param? j).getD (.num (.int 0))
def scalar? : Json → Option (Scalar Number)
  | .num x => some (.real x)
  | .bool b => some (.real (.int (if b then 1 else 0)))
  | j =>
    match j["c"]? with
    | some (.arr [re,im]) => some (.ofParts re.number im.number)
    | _ => none
def scalar (j : Json) : Scalar Number := (scalar? j).getD (.real (.int 0))

/-! ## Values as documents -/
section
class Legible (α : Type) where
  read : Json → α
class Writable (α : Type) where
  write : α → Json
instance [Legible α] (j : Json) : CoeT Json j α := ⟨Legible.read j⟩
instance [Writable α] (a : α) : CoeT α a Json := ⟨Writable.write a⟩
instance : Legible String := ⟨Json.text⟩
instance : Legible Bool := ⟨Json.truthy⟩
instance : Legible Int := ⟨Json.toInt⟩
instance : Legible Nat := ⟨Json.toNat⟩
instance : Legible Number := ⟨Json.number⟩
instance : Legible Json := ⟨id⟩
instance : Legible (Param Number) := ⟨param⟩
instance : Legible (Scalar Number) := ⟨scalar⟩
instance [Legible α] : Legible (List α) := ⟨fun j => j.elems.map Legible.read⟩
instance [Legible α] [Legible β] : Legible (α × β) := ⟨fun j => (j[0],j[1])⟩
instance [Legible α] : Legible (Option α) := ⟨fun j => if j.isNull then none else some j⟩
instance : Writable Json := ⟨id⟩
instance : Writable String := ⟨.str⟩
instance : Writable Bool := ⟨.bool⟩
instance : Writable Int := ⟨.int⟩
instance : Writable Nat := ⟨.nat⟩
instance : Writable Unit := ⟨fun _ => .null⟩
instance : Writable Number := ⟨nJson⟩
instance : Writable (Param Number) := ⟨paramJson⟩
instance : Writable (Scalar Number) := ⟨scalarJson⟩
instance [Writable α] : Writable (List α) := ⟨fun xs => .arr (xs.map Writable.write)⟩
instance [Writable α] : Writable (Option α) := ⟨fun x => x.elim .null Writable.write⟩
instance [Writable α] [Writable β] : Writable (α × β) := ⟨fun x => .arr [Writable.write x.1,Writable.write x.2]⟩
end
def valueOr {α : Type} [Legible α] (k : String) (default : α) (j : Json) : α := match j[k] with
  | .null => default
  | v => v
def given (k : String) (answer : Json → Answer) (j : Json) : Outcome (Fields) := match j[k]? with
  | some v => do .ok [(k,← answer v)]
  | none => .ok []
section
def become (old : σ) : Outcome σ → σ × Answer
  | .ok new => (new,.ok .null)
  | .error f => (old,.error f)
def stepwise (step : σ → Step → σ × Answer) (seen : Json → σ → Answer) (start : σ) (j : Json) : Answer := do
  let (_,out) ← j["steps"].elems.foldlM (fun (s,out) x => do
    let (s,r) := step s (.ofJson x)
    .ok (s,(← seen (settle r) s) :: out)) (start,[])
  .ok (.arr out.reverse)
def asked (answer : Step → Answer) (j : Json) : Json := .arr (j["ask"].elems.map fun q => settle (answer (.ofJson q)))
end

/-! ## Requests about qubits -/
open Qubit
def qubit? : Json → Option Qubit
  | .num (.int n) => some (.line n)
  | .str s => some (.named s)
  | .arr [r,c] => some (.grid r c)
  | _ => none
def qubit (j : Json) : Qubit := (qubit? j).getD (.line 0)
instance : Legible Qubit := ⟨qubit⟩
instance : Writable Qubit := ⟨fun q => q.text⟩
def qubits (j : Json) : Qubits := j.elems.map qubit
def qubitReprs (qs : Qubits) : Json := strs (qs.map structural)
def intRange (a b s : Int) : List Int :=
  let n := if s == 0 then 0 else if 0 < s then ((b-a+s-1)/s).toNat else ((a-b-s-1)/(-s)).toNat
  (List.range n).map fun (i : Nat) => a+(i : Int)*s
def rangeOf (args : List Json) : List Int :=
  match args.map Json.toInt with
  | [b] => intRange 0 b 1
  | [a,b] => intRange a b 1
  | [a,b,s] => intRange a b s
  | _ => []

/-- The order a request names: fixed qubits with or without a fallback, by reversed texts, or through a map. -/
def orderOf (j : Json) : Outcome QubitOrder :=
  match j["by"] with
  | "reverse_str" => .ok (.sortedBy fun q => q.text.toList.reverse)
  | "map" =>
    .ok (.mapped .sorted (fun q => match q with
        | .named s => .line (-(s.toInt?.getD 0))
        | q => q)
      (fun q => match q with
        | .line x => .named (toString (-x))
        | q => q))
  | _ => match j["fixed"]? with
    | some f => QubitOrder.explicit? f (if valueOr "fallback" false j then some .sorted else none)
    | none => .ok .sorted
def qubitRequest : Handler := fun j =>
  let q := j["q"]
  match j["f"] with
  | "sort" => .ok (qubitReprs (sort q))
  | "show" =>
    let x := qubit q
    .ok (.obj (("str",x.text) :: ("repr",x.structural) :: match x with
      | .grid r c => [("proto",.obj [("row",r),("col",c)])]
      | .named s => [("key",String.ofList (paddedKey s))]
      | _ => []))
  | "cmp" => match qubits q with
    | [a,b] =>
      let lt := a.before b
      let gt := b.before a
      let eq := decide (a = b)
      .ok (.arr [eq,!eq,lt,gt,lt || eq,gt || eq,eq,if a.hasPlace then .bool (a.isAdjacent b) else .null])
    | _ => fails .value
  | "pad" => .ok (String.ofList (paddedKey j["v"]))
  | "named_range" => .ok (qubitReprs ((rangeOf j["args"].elems).map fun i => .named (j["prefix"] ++ toString i)))
  | "line_range" => .ok (qubitReprs ((rangeOf j["args"].elems).map .line))
  | "from_proto" =>
    let v := j["v"]
    match v["row"]?, v["col"]? with
    | some r, some c => .ok (grid r c).structural
    | _, _ => .error (.value ("Proto dict does not contain row or col: " ++ v.literal))
  | "order" => match j["bad"]? with
    | some b => .error (.value s!"Don't know how to interpret <{b.display}> as a Basis.")
    | none => do .ok (qubitReprs (← (← orderOf j).orderFor q))
  | _ => noAttribute
end QuantumCircuits.Service
