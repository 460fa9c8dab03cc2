import QuantumCircuits.Gate.Text
import QuantumCircuits.Operation.Basic

/-! # Written operations -/
namespace QuantumCircuits
open Text
namespace PauliString
def text (s : PauliString Number) : String :=
  let start := if s.coefficient == (-1 : Cpx Number) then "-"
    else if s.coefficient == (1 : Cpx Number) then "" else s.coefficient.text ++ "*"
  match s.qubits with
  | [] => start ++ "I"
  | qs => start ++ join "*" (qs.map fun q => (match s.get? q with
    | some p => p.name
    | none => "") ++ "(" ++ q.text ++ ")")

def structural (s : PauliString Number) : String :=
  "cirq.PauliString(" ++ braced (s.qubits.map fun q => q.structural ++ ": cirq." ++ (match s.get? q with
    | some p => p.name
    | none => "")) ++ ", " ++ s.coefficient.text ++ ")"
end PauliString
namespace Operation
def qubitTexts (qs : Qubits) : String := join ", " (qs.map Qubit.text)

def text : Operation Number → Outcome String
  | gate g qs | parallel g qs => do .ok s!"{← g.text}({qubitTexts qs})"
  | controlled cs (gate g qs) => do .ok (repeatText cs.length "C" ++ (← g.text) ++ "(" ++ qubitTexts (cs ++ qs) ++ ")")
  | controlled cs sub => do .ok s!"C({qubitTexts cs}, {← text sub})"
  | pauli p => .ok p.text
  | phasor p t => .ok s!"({p.text})**{t.text}"
  | expectation p s k => .ok (Gate.addressText (expectation p s k).kindPath)
  | acquainted qs _ =>
    .ok s!"cirq.contrib.acquaintance.AcquaintanceOpportunityGate(num_qubits={qs.length})({qubitTexts qs})"

def structural : Operation Number → String
  | gate g qs => g.structural ++ ".on(" ++ join ", " (qs.map Qubit.structural) ++ ")"
  | controlled cs sub =>
    "cirq.ControlledOperation(controls=" ++ parenthesized (cs.map Qubit.structural) ++ ", sub_operation="
      ++ structural sub ++ ")"
  | parallel g qs =>
    "cirq.ParallelGateOperation(gate=" ++ g.structural ++ ", qubits=" ++ bracketed (qs.map Qubit.structural) ++ ")"
  | pauli p => p.structural
  | phasor p t => s!"PauliStringPhasor({p.structural}, half_turns={t.text})"
  | expectation p s k => Gate.addressText (expectation p s k).kindPath
  | acquainted qs _ =>
    "cirq.contrib.acquaintance.AcquaintanceOpportunityGate(num_qubits=" ++ toString qs.length ++ ").on("
      ++ join ", " (qs.map Qubit.structural) ++ ")"

def diagramInfo (a : DiagramArgs) : Operation Number → Outcome (Option DiagramInfo)
  | gate g _ => g.diagramInfo a
  | controlled _ sub => do
    match ← diagramInfo (a.dropFirst 1) sub with
    | none => .ok none
    | some i => .ok (some { symbols := "@" :: i.symbols, exponent := i.exponent })
  | parallel g qs => do
    match ← g.diagramInfo a with
    | none => .ok none
    | some i => .ok (some { symbols := List.replicate qs.length (i.symbols.headD ""), exponent := i.exponent, connected := false })
  | phasor p t => do
    let qs := a.qubits.getD p.support
    let symbols ← qs.mapM fun q => match p.get? q with
      | some a => Except.ok s!"[{a.name}]"
      | none => Except.error (Fault.bare .key)
    .ok (some { symbols, exponent := .param (if p.coefficient == (-1 : Cpx Number) then -t else t) })
  | acquainted _ indices => .ok (some { symbols := indices.map fun i => "(" ++ toString i ++ ")" })
  | pauli _ | expectation .. => .ok none
end Operation

/-! ## Operations as things on qubits -/

class OperationText (R : Type) where
  structural : Operation R → String
  text : Operation R → String
  gate : Gate R → String

instance : OperationText Number where
  structural := Operation.structural
  text op := match op.text with
    | .ok s => s
    | .error _ => ""
  gate := Gate.structural

instance {R : Type} [RealScalar R] [OperationText R] : Located (Operation R) where
  qubits := Operation.qubits
  shown := OperationText.structural
  text := OperationText.text

/-! ## Gates put on qubits

A gate is put on as many qubits as it acts on. -/
open OperationText
variable [RealScalar R] [OperationText R]
def Gate.checkQubits (asList : Bool) (qs : Qubits) : Gate R → Check
  | .controlled cs sub =>
    let open' := (cs.filter Option.isNone).length
    if qs.length < open' then .error (.value "Not all control qubits specified.")
    else checkQubits asList (qs.drop open') sub
  | .matrix m _ => if qs.length == (if m.rows = 2 then 1 else 2) then .ok () else fails .value
  | g =>
    if qs.isEmpty then .error (.value ("Applied a gate to an empty set of qubits. Gate: " ++ gate g))
    else if qs.length ≠ g.numQubits then
      let shown := qs.map Qubit.structural
      .error (.value ("Wrong number of qubits for <" ++ gate g ++ ">. Expected " ++ toString g.numQubits
        ++ " qubits but got <" ++ (if asList then Text.bracketed shown else Text.parenthesized shown) ++ ">."))
    else .ok ()

def Gate.on (g : Gate R) (qs : Qubits) : Outcome (Operation R) :=
  match g with
  | .controlled .. =>
    if qs.isEmpty then .error (.value ("Applied a gate to an empty set of qubits. Gate: " ++ gate g))
    else do
      g.checkQubits false qs
      let op := Operation.ofGate g qs
      match op with
      | .gate h rs => h.checkQubits true rs
      | _ => pure ()
      .ok op
  | g => do
    g.checkQubits true qs
    .ok (.gate g qs)

def Gate.decomposeOn? (g : Gate R) (qs : Qubits) : Outcome (Option (Ops R)) := match g with
  | .permutation .swap swap => do .ok (some [← swap.on qs])
  | g => g.decomposeOnce? qs

def Operation.parallelOf (g : Gate R) (qs : Qubits) : Outcome (Operation R) :=
  if g.numQubits ≠ 1 then .error (.value "gate must be a single qubit gate")
  else if (Qubit.distinct qs).length ≠ qs.length then .error (.value "repeated qubits are not allowed")
  else .ok (.parallel g qs)

def Operation.withQubits (new : Qubits) : Operation R → Outcome (Operation R)
  | .gate g _ => g.on new
  | .controlled cs sub => do .ok (.controlled (new.take cs.length) (← withQubits (new.drop cs.length) sub))
  | .parallel g _ => Operation.parallelOf g new
  | .pauli p => .ok (.pauli (p.withQubits new))
  | .phasor p t =>
    if new.length ≠ p.size then .error (.value "Incorrect number of qubits for gate")
    else
      let old := p.qubits
      .ok (.phasorOf ((p.mapQubits? fun q => new[old.idxOf q]?).getD p) t)
  | .expectation p s k => .ok (.expectation (p.withQubits new) s k)
  | .acquainted qs _ => (Gate.opportunity qs.length).on new

/-! ## Phases along Pauli strings

Pauli strings, and phases along them, are moved past Clifford operations; phases along the same string are merged. -/

/-- The string on the other side of operations; those that do not touch it are passed over unseen. -/
def PauliString.passOperations (backward : Bool) (s : PauliString R) (ops : Ops R) : Outcome (PauliString R) :=
  ops.foldlM (fun s op =>
    if op.qubits.all fun q => !s.support.contains q then .ok s
    else match op.passing? with
      | some p => .ok (s.passOver backward [p])
      | none => .error (.type ("Unsupported operation: " ++ OperationText.structural op))) s

structure Phasor (R : Type) where
  string : PauliString R
  halfTurns : Param R
namespace Phasor
def of? : Operation R → Option (Phasor R)
  | .phasor p t => some ⟨p,t⟩
  | _ => none

def toOp (p : Phasor R) : Operation R := .phasorOf p.string p.halfTurns
def pass (backward : Bool) (ops : Ops R) (p : Phasor R) : Outcome (Phasor R) := do
  .ok { p with string := ← p.string.passOperations backward ops }

def merge (p q : Phasor R) : Outcome (Phasor R) :=
  if !p.string.sameTerms q.string then
    .error (.value s!"Cannot merge operations: {OperationText.text p.toOp}, {OperationText.text q.toOp}")
  else
    let c := q.string.coefficient*p.string.coefficient
    let sum (sign : Int) : Outcome (Phasor R) := match Operation.phasorOf p.string
        (p.halfTurns.add (q.halfTurns.mul (.num (RealScalar.ofInt sign)))) with
      | .phasor s t => .ok ⟨s,t⟩
      | _ => .ok p
    if c == (1 : Cpx R) then sum 1
    else if c == (-1 : Cpx R) then sum (-1)
    else .error ⟨.unimplemented,some "TODO: merge phased pauli operations."⟩
end Phasor
end QuantumCircuits
