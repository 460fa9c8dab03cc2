import QuantumCircuits.Service.Basic
import QuantumCircuits.Linear

/-! # Requests about matrices and tensors -/
namespace QuantumCircuits.Service
open OperatorBasis Mat Json Bidiagonal RealScalar Spectral Text PlainPow
def entry (j : Json) : Cpx Number := match scalar j with
  | .real x => ⟨x,.int 0⟩
  | .complex z => z
instance : Legible (Cpx Number) := ⟨entry⟩
instance : Writable (Cpx Number) := ⟨cJson⟩
def shapeOf : Nat → Json → List Nat
  | 0, _ => []
  | n+1, .arr xs => xs.length :: (match xs with
    | x :: _ => shapeOf n x
    | [] => [])
  | _, _ => []
def flatEntries : Nat → Json → List (Cpx Number)
  | 0, _ => []
  | n+1, .arr xs => xs.flatMap (flatEntries n)
  | _, j => [entry j]
def tensor (j : Json) : Tensor Number :=
  match j["shape"]? with
  | some s => ⟨s.elems.map toNat,(j["v"].elems.map entry).toArray⟩
  | none => ⟨shapeOf 12 j,(flatEntries 12 j).toArray⟩
def matrix (j : Json) : Mat Number :=
  let t := tensor j
  ⟨t.shape.getD 0 0,t.shape.getD 1 0,t.entries⟩
instance : Legible (Tensor Number) := ⟨tensor⟩
instance : Legible (Mat Number) := ⟨matrix⟩
def nested (f : Cpx Number → Json) : List Nat → List (Cpx Number) → Json
  | [], xs => f (xs.headD 0)
  | d :: ds, xs =>
    let n := ds.foldr (· * ·) 1
    .arr ((List.range d).map fun i => nested f ds ((xs.drop (i*n)).take n))
variable (t : Tensor Number)
def tensorJson : Json := nested cJson t.shape t.entries.toList
def matJson (a : Mat Number) : Json := .arr (a.toRows.map fun r => .arr (r.map cJson))
instance : Writable (Tensor Number) := ⟨tensorJson⟩
instance : Writable (Mat Number) := ⟨matJson⟩
def flatJson (xs : Array (Cpx Number)) : Json := .arr (xs.toList.map cJson)
def broadcastShape : List Nat → List Nat → Option (List Nat) := fun a b =>
  let n := max a.length b.length
  let pad (s : List Nat) : List Nat := List.replicate (n-s.length) 1 ++ s
  ((pad a).zip (pad b)).mapM fun (x,y) => if x == y || y == 1 then some x else if x == 1 then some y else none
def broadcastGet (i : Index) : Cpx Number :=
  let i := i.drop (i.length-t.shape.length)
  t.get ((i.zip t.shape).map fun (k,d) => if d == 1 then 0 else k)
def tensorsClose (t : Tolerance Number) (a b : Tensor Number) : Answer :=
  match broadcastShape a.shape b.shape with
  | none => fails .value
  | some s => .ok ((Index.all s).all fun i => (broadcastGet a i).close t (broadcastGet b i))
inductive SliceAtom where
  | at (i : Int)
  | full
  | rest
  deriving DecidableEq
def sliceAtom : Json → SliceAtom
  | .num x => .at x.floor
  | .str "..." => .rest
  | _ => .full
def expandSlice (rank : Nat) (s : List SliceAtom) : List SliceAtom :=
  let given := (s.filter (· != .rest)).length
  let fill := List.replicate (rank-given) SliceAtom.full
  if s.contains .rest then s.flatMap fun a => if a = .rest then fill else [a] else s ++ fill
def slicePlaces (shape : List Nat) (s : List SliceAtom) : List Nat :=
  let atoms := expandSlice shape.length s
  ((Index.all shape).filter fun i => (i.zip (shape.zip atoms)).all fun (k,d,a) => match a with
    | .at v => (k : Int) == if v < 0 then v+d else v
    | _ => true).map (Index.flatten shape)
def mixSlices (m : Mat Number) (slices : List (List SliceAtom)) : Tensor Number :=
  let places := slices.map fun s => (slicePlaces t.shape s).toArray
  let out := (List.range places.length).foldl (fun out i =>
    let here := places.getD i #[]
    let out := here.foldl (fun (o : Array (Cpx Number)) k => o.setIfInBounds k (o.getD k 0 * m.get i i)) out
    (List.range places.length).foldl (fun out j =>
      if i == j then out
      else
        let there := places.getD j #[]
        (List.range here.size).foldl (fun (o : Array (Cpx Number)) p =>
          let k := here.getD p 0
          o.setIfInBounds k (o.getD k 0 + t.entries.getD (there.getD p 0) 0 * m.get i j)) out) out) t.entries
  { t with entries := out }
def qubitSlice (axes : List Nat) (v : Int) (n : Option Nat) : Answer :=
  let len := match n with
    | some k => k
    | none => if axes.isEmpty then 1 else axes.foldl max 0 + 2
  if axes.any (len ≤ ·) then fails .index
  else
    let base : List Json := List.replicate len (.str ":")
    let set := (axes.zip (List.range axes.length)).foldl (fun acc (a,k) =>
      acc.set a (Int.emod (Int.fdiv v (2^k)) 2)) base
    .ok (if n.isNone then set.set (len-1) (.str "...") else set)
def usualTolerance (kw : Json) : Tolerance Number :=
  ⟨valueOr "rtol" (.float 1e-5) kw,valueOr "atol" (.float 1e-8) kw⟩
def reflectionPow (m : Mat Number) (isComplex : Bool) (e : Number) : Mat Number :=
  let squared := Cpx.sum ((List.range m.rows).map fun k => m.get k 0 * m.get 0 k)
  let phase : Cpx Number :=
    if isComplex then squared.rpow (.float 0.5) else ⟨sqrt squared.re,.float 0.0⟩
  let i := (identity m.rows).scale phase
  let half : Cpx Number := ⟨.float 0.5,.int 0⟩
  let posFactor := phase.rpow (e-1)
  let negFactor := posFactor * (⟨.float (-1.0),.float 0.0⟩ : Cpx Number).rpow e
  ((i+m).scale half).scale posFactor + ((i-m).scale half).scale negFactor
def isComplexJson : Nat → Json → Bool
  | 0, _ => false
  | n+1, .arr xs => xs.any (isComplexJson n)
  | _, j => j["c"]?.isSome || (match j["v"]? with
    | some (.arr xs) => xs.any fun x => x["c"]?.isSome
    | _ => false)
def anglesJson : Number × Number × Number → Json
  | (x,y,z) => .arr [fJson x,fJson y,fJson z]
def sortLists (xs : List (List String)) : List (List String) :=
  let rec le : List String → List String → Bool
    | [], _ => true
    | _ :: _, [] => false
    | a :: r, b :: s => if a == b then le r s else lt a b
  xs.mergeSort le
def dotAll : List (Mat Number) → Outcome (Mat Number)
  | [] => fails .value
  | m :: ms => ms.foldlM (fun acc b => if acc.cols == b.rows then .ok (acc*b) else fails .value) m
def blockDiagonal (ms : List (Mat Number)) : Outcome (Mat Number) :=
  if ms.any fun m => !m.isSquare then .error (.value "Blocks must be square.")
  else .ok (ms.foldl directSum (zero 0 0))
def basisJson (n : Nat) (m : Mat Number) : Json := if n == 0 then m.get 0 0 else m
def linalg : Handler := fun j =>
  let a := j["a"]
  let kw := j["kw"]
  let t := usualTolerance kw
  let m0 := matrix a[0]
  let m1 := matrix a[1]
  let x := tensor a[0]
  let y := tensor a[1]
  let num (i : Nat) : Number := a[i]
  let axes : List Nat := a[2]
  let test (p : Tolerance Number → Mat Number → Bool) : Answer :=
    if x.rank < 2 then fails .index else .ok (p t m0)
  let diagonals (m : Mat Number) : Json := m.diag.map fun z => fJson z.re
  let wrapped (z : Number) : Bool := decide ((mod (z + num 1 / .int 2) (num 1) - num 1 / .int 2).abs ≤ t.atol)
  let matched (f : Tensor Number → Tensor Number → Answer) : Answer :=
    if x.shape == y.shape then
      if x.entries.isEmpty then fails .value
      else
        let (p,q) := matchPhase x.entries y.entries
        f { x with entries := p } { y with entries := q }
    else f x y
  match j["f"] with
  | "is_diagonal" => if x.rank < 2 && x.shape.any (· == 0) then .ok true else test fun t m => m.isDiagonal t.atol
  | "is_hermitian" => test isHermitian
  | "is_orthogonal" => test isOrthogonal
  | "is_special_orthogonal" => test isSpecialOrthogonal
  | "is_unitary" => test isUnitary
  | "is_special_unitary" => test isSpecialUnitary
  | "commutes" => .ok (m0.commutes t m1)
  | "allclose_up_to_global_phase" => matched (tensorsClose t)
  | "match_global_phase" => matched fun x y => .ok (.arr [x,y])
  | "all_near_zero" => .ok (x.entries.all fun z => decide (z.norm ≤ t.atol))
  | "all_near_zero_mod" => .ok (x.entries.all fun z => wrapped z.re)
  | "near_zero" => .ok (decide ((entry a[0]).norm ≤ t.atol))
  | "near_zero_mod" => .ok (wrapped (num 0))
  | "slice" => qubitSlice a[0] a[1] kw["num_qubits"]
  | "reflection_pow" => .ok (reflectionPow m0 (isComplexJson 6 a[0]) (num 1))
  | "left_multiply" => .ok (flatJson (x.leftMultiply y axes).entries)
  | "conjugate_about" =>
    let given : List Nat := a[3]
    let conj := if given.isEmpty then axes.map (· + y.rank/2) else given
    .ok (flatJson (x.conjugateAbout y axes conj).entries)
  | "matrix_to_slices" =>
    let slices := a[2].elems.map fun s => s.elems.map sliceAtom
    if a[3].text == "same" then .error (.value "Can't write output over the input.")
    else if m1.rows != slices.length || m1.cols != slices.length then
      .error (.value "matrix.shape != (len(slices), len(slices))")
    else .ok (mixSlices x m1 slices)
  | "partial_trace" =>
    let keep : List Nat := a[1]
    let n := x.rank/2
    if (List.range n).any fun i => x.shape.getD i 0 != x.shape.getD (i+n) 0 then
      .error (.value ("Tensors must have shape (d_0,...,d_\x7bk-1\x7d,d_0,...,d_\x7bk-1\x7d) but had shape ("
        ++ parenthesized (x.shape.map toString) ++ ")."))
    else if keep.any (n ≤ ·) then
      .error (.value s!"keep_indices were {bracketed (keep.map toString)} but must be in first half, i.e. have index less that {n}.")
    else
      let r := x.partialTrace keep
      .ok (.obj [("shape",r.shape),("v",flatJson r.entries)])
  | "kron" => .ok (matJson (a.elems.foldl (fun acc (m : Json) => acc.kron m) (identity 1)))
  | "kron_with_controls" =>
    let tag : Mat Number := .ofRealRows [[.float (0.0/0.0),.int 0],[.int 0,.int 1]]
    let p := a.elems.foldl (fun acc m => acc.kron (if m.text == "C" then tag else m)) (identity 1)
    .ok (ofFn p.rows p.cols fun i k =>
      let z := p.get i k
      if z.re.toFloat.isNaN || z.im.toFloat.isNaN then (if i == k then 1 else 0) else z)
  | "dot" => if a.elems.length == 1 then .ok x else dotAll a
  | "block_diag" => blockDiagonal a
  | "diag_symmetric" => do
    let p ← symmetric m0
    let d := p.transpose*m0*p
    .ok (.obj [("diag",diagonals d),("is_diag",d.isDiagonal (.float 1e-8)),("orth",p.isOrthogonal .usual)])
  | "diag_symmetric_and_sorted" => do
    let p ← symmetricAndSorted t true m0 m1
    let d := p.transpose*m0*p
    let k := p.transpose*m1*p
    .ok (.obj [("diag",diagonals d),("is_diag",d.isDiagonal (.float 1e-8)),("kept",k.close .usual m1)])
  | "bidiag_pair" => do
    let (l,r) ← pair t true m0 m1
    let x := l*m0*r
    let y := l*m1*r
    let rows := (x.diag.zip y.diag).map fun (p,q) =>
      [p.re*p.re,q.re*q.re,p.re*q.re].map fun v => Written.rounded 6 v.toFloat
    .ok (.obj [("is_diag",[x,y].map (isDiagonal (.float 1e-7))),("orth",[l,r].map (isOrthogonal .usual)),("pairs",sortLists rows)])
  | "bidiag_unitary" => do
    let (l,d,r) ← unitary t true m0
    .ok (.obj [("ok",(l*m0*r).close .usual (diagonal d)),("so",[l,r].map (isSpecialOrthogonal .usual)),
      ("squares",sort (d.map fun z => cText 6 (z*z)))])
  | "map_eigenvalues" => .ok (mapValues (fun z => z.rpow (num 1)) m0)
  | "kron_factor" =>
    let (g,f1,f2) := Kak.factorKron m0
    .ok (.arr [g,f1,f2])
  | "so4" => Kak.ofOrthogonal t true m0
  | "angles" => .ok (anglesJson (SingleQubit.angles m0))
  | "kak_vector" =>
    let k := Kak.canonicalize (num 0) (num 1) (num 2)
    .ok (.obj [("coef",anglesJson k.coefficients),("phase",k.phase),("before",k.before),("after",k.after),("unitary",k.unitary)])
  | "kak" => do
    let k ← Kak.ofUnitary t m0
    .ok (.obj [("coef",anglesJson k.coefficients),("ok",k.unitary.close ⟨.float 1e-5,.float 1e-7⟩ m0),
      ("unit",[k.before.1,k.before.2,k.after.1,k.after.2].map (isUnitary .usual))])
  | "expand" => .ok (expand m0 (products (Nat.log2 m0.rows)))
  | "from_basis" =>
    let n : Nat := a[1]
    match assemble (2^n) (products n) (a[0].elems.map fun (p : Json) => ((p[0] : Json),(p[1] : Json))) with
    | some m => .ok (basisJson n m)
    | none => fails .key
  | "inner" => .ok (innerProduct m0 m1)
  | "basis_names" =>
    let n : Nat := a[0]
    .ok ((products n).map fun ((s,m) : String × Mat Number) => (s,basisJson n m))
  | "groups" =>
    let v := (a[0] : List Number).toArray
    .ok (contiguous v.size fun x y => decide ((v.getD x 0 - v.getD y 0).abs < num 1))
  | "group_similar" =>
    let v : List Number := a[0]
    .ok (.arr ((groupSimilar (fun x y => decide ((x-y).abs < num 1)) v.length v).map fun g => .arr (g.map .num)))
  | _ => noAttribute
end QuantumCircuits.Service
