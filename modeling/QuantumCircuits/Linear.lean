import QuantumCircuits.Numeric.RealScalar
import QuantumCircuits.Text

/-! # Matrices

A matrix keeps its entries row by row. -/
namespace QuantumCircuits
structure Mat (R : Type) where
  rows : Nat
  cols : Nat
  entries : Array (Cpx R)
namespace Mat
variable [RealScalar R] (a : Mat R)
def ofFn (m n : Nat) (f : Nat → Nat → Cpx R) : Mat R :=
  ⟨m,n,Array.ofFn fun k : Fin (m*n) => f (k.val/n) (k.val % n)⟩
def get (i j : Nat) : Cpx R := a.entries.getD (i*a.cols+j) 0
instance : Inhabited (Mat R) := ⟨⟨0,0,#[]⟩⟩
def ofRows (rs : List (List (Cpx R))) : Mat R :=
  ⟨rs.length,(rs.headD []).length,(rs.flatten).toArray⟩
def ofRealRows (rs : List (List R)) : Mat R := ofRows (rs.map fun r => r.map Cpx.ofReal)
def toRows : List (List (Cpx R)) :=
  (List.range a.rows).map fun i => (List.range a.cols).map fun j => a.get i j
def identity (n : Nat) : Mat R := ofFn n n fun i j => if i = j then 1 else 0
def zero (m n : Nat) : Mat R := ofFn m n fun _ _ => 0
def diagonal (d : List (Cpx R)) : Mat R :=
  ofFn d.length d.length fun i j => if i = j then d.getD i 0 else 0
def map (f : Cpx R → Cpx R) (a : Mat R) : Mat R := { a with entries := a.entries.map f }
def transpose : Mat R := ofFn a.cols a.rows fun i j => a.get j i
def conj : Mat R := a.map Cpx.conj
def adjoint : Mat R := ofFn a.cols a.rows fun i j => (a.get j i).conj
def scale (c : Cpx R) (a : Mat R) : Mat R := a.map fun x => c*x
def add (a b : Mat R) : Mat R := ofFn a.rows a.cols fun i j => a.get i j + b.get i j
def sub (a b : Mat R) : Mat R := ofFn a.rows a.cols fun i j => a.get i j - b.get i j
def mul (a b : Mat R) : Mat R :=
  ofFn a.rows b.cols fun i j => Cpx.sum ((List.range a.cols).map fun k => a.get i k * b.get k j)
instance : Add (Mat R) := ⟨add⟩
instance : Sub (Mat R) := ⟨sub⟩
instance : Mul (Mat R) := ⟨mul⟩
def kron (a b : Mat R) : Mat R :=
  ofFn (a.rows*b.rows) (a.cols*b.cols) fun i j =>
    a.get (i/b.rows) (j/b.cols) * b.get (i % b.rows) (j % b.cols)
def outer (a b : Mat R) : Mat R :=
  ofFn (a.rows*a.cols) (b.rows*b.cols) fun i j => a.entries.getD i 0 * b.entries.getD j 0
def directSum (a b : Mat R) : Mat R :=
  ofFn (a.rows+b.rows) (a.cols+b.cols) fun i j =>
    if i < a.rows ∧ j < a.cols then a.get i j
    else if a.rows ≤ i ∧ a.cols ≤ j then b.get (i-a.rows) (j-a.cols)
    else 0
def trace : Cpx R := Cpx.sum ((List.range a.rows).map fun i => a.get i i)
def block (r0 r1 c0 c1 : Nat) : Mat R :=
  ofFn (r1-r0) (c1-c0) fun i j => a.get (r0+i) (c0+j)
def minor (r c : Nat) : Mat R :=
  ofFn (a.rows-1) (a.cols-1) fun i j => a.get (if i < r then i else i+1) (if j < c then j else j+1)
def detOf : Nat → Mat R → Cpx R
  | 0, _ => 1
  | n+1, a =>
    Cpx.sum ((List.range (n+1)).map fun j =>
      let t := a.get 0 j * detOf n (a.minor 0 j)
      if j % 2 = 0 then t else -t)
def det : Cpx R := detOf a.rows a
def col (j : Nat) : List (Cpx R) := (List.range a.rows).map fun i => a.get i j
def diag : List (Cpx R) := (List.range (min a.rows a.cols)).map fun i => a.get i i
def isSquare : Bool := a.rows == a.cols
def sameShape (a b : Mat R) : Bool := a.rows == b.rows && a.cols == b.cols
def all (p : Cpx R → Bool) (a : Mat R) : Bool := a.entries.all p
def beq (a b : Mat R) : Bool :=
  a.sameShape b && (List.range a.entries.size).all fun k => a.entries.getD k 0 == b.entries.getD k 0
instance : BEq (Mat R) := ⟨beq⟩
def isReal : Bool := a.all fun z => z.im == 0
end Mat

/-! ## Expansions in products of Pauli matrices -/
namespace OperatorBasis
variable [RealScalar R]
def pauliBasis : List (String × Mat R) :=
  [("I",.ofRealRows [[1,0],[0,1]]),("X",.ofRealRows [[0,1],[1,0]]),
   ("Y",.ofRows [[0,-Cpx.I],[Cpx.I,0]]),("Z",.ofRealRows [[1,0],[0,-1]])]
def products : Nat → List (String × Mat R)
  | 0 => [("",Mat.identity 1)]
  | n+1 => (products n).flatMap fun (s,a) => pauliBasis.map fun (t,b) => (s ++ t,a.kron b)
def innerProduct (a b : Mat R) : Cpx R :=
  Cpx.sum ((List.range a.rows).flatMap fun i => (List.range a.cols).map fun j => (a.get i j).conj * b.get i j)
def expand (m : Mat R) (basis : List (String × Mat R)) : List (String × Cpx R) :=
  basis.map fun (s,b) => (s,innerProduct b m / innerProduct b b)
def assemble (n : Nat) (basis : List (String × Mat R)) (terms : List (String × Cpx R)) : Option (Mat R) :=
  terms.foldlM (fun acc (s,c) => do
    let b ← basis.lookup s
    some (acc + b.scale c)) (Mat.zero n n)
end OperatorBasis

/-! ## Closeness of numbers and matrices

Two numbers are close when they differ by at most an absolute tolerance plus a relative one times the second. -/
variable [RealScalar R]
structure Tolerance (R : Type) where
  rtol : R
  atol : R
def Tolerance.usual : Tolerance R := ⟨RealScalar.ratio 1 100000,RealScalar.ratio 1 100000000⟩
def Tolerance.absolute (atol : R) : Tolerance R := ⟨0,atol⟩
namespace Cpx
def close (t : Tolerance R) (a b : Cpx R) : Bool := (a-b).norm ≤ t.atol+t.rtol*b.norm
end Cpx
namespace Mat
def close (t : Tolerance R) (a b : Mat R) : Bool :=
  (List.range (max a.entries.size b.entries.size)).all fun k => (a.entries.getD k 0).close t (b.entries.getD k 0)
def isDiagonal (atol : R) (a : Mat R) : Bool :=
  (List.range a.rows).all fun i => (List.range a.cols).all fun j => i == j || decide ((a.get i j).norm ≤ atol)
def isHermitian (t : Tolerance R) (a : Mat R) : Bool := a.isSquare && a.close t a.adjoint
def isOrthogonal (t : Tolerance R) (a : Mat R) : Bool :=
  a.isSquare && a.isReal && (a*a.transpose).close t (identity a.rows)
def isUnitary (t : Tolerance R) (a : Mat R) : Bool :=
  a.isSquare && (a*a.adjoint).close t (identity a.rows)
def hasUnitDet (t : Tolerance R) (a : Mat R) : Bool := a.rows == 0 || a.det.close t 1
def isSpecialOrthogonal (t : Tolerance R) (a : Mat R) : Bool := a.isOrthogonal t && a.hasUnitDet t
def isSpecialUnitary (t : Tolerance R) (a : Mat R) : Bool := a.isUnitary t && a.hasUnitDet t
def commutes (t : Tolerance R) (a b : Mat R) : Bool :=
  a.isSquare && a.sameShape b && (a*b).close t (b*a)
def largestAt (xs : Array (Cpx R)) : Nat :=
  ((List.range xs.size).foldl (fun best k =>
    if (xs.getD best 0).normSq < (xs.getD k 0).normSq then k else best) 0)
def dephasing (v : Cpx R) : Cpx R :=
  if v.im == 0 then (if v.re < 0 then -1 else 1)
  else if v.re == 0 then (if v.im < 0 then Cpx.I else -Cpx.I)
  else Cpx.cis (-(v.arg))
end Mat
def matchPhase (a b : Array (Cpx R)) : Array (Cpx R) × Array (Cpx R) :=
  let k := Mat.largestAt b
  let da := Mat.dephasing (a.getD k 0)
  let db := Mat.dephasing (b.getD k 0)
  (a.map (· * da),b.map (· * db))
def Mat.closeUpToPhase (t : Tolerance R) (a b : Mat R) : Bool :=
  if a.sameShape b then
    let (x,y) := matchPhase a.entries b.entries
    Mat.close t { a with entries := x } { b with entries := y }
  else false

/-! ## Tensors

A tensor has a shape and one entry for each index within it, kept with the last axis running fastest. -/
structure Tensor (R : Type) where
  shape : List Nat
  entries : Array (Cpx R)
abbrev Index := List Nat
namespace Index
def flatten : List Nat → Index → Nat
  | _ :: ds, i :: is => i * ds.foldr (· * ·) 1 + flatten ds is
  | _, _ => 0
def unflatten : List Nat → Nat → Index
  | [], _ => []
  | d :: ds, k => k / ds.foldr (· * ·) 1 % d :: unflatten ds k
def set (i : Index) (axis v : Nat) : Index := List.set i axis v
def pick (i : Index) (axes : List Nat) : Index := axes.map fun a => i.getD a 0
def put (i : Index) (axes : List Nat) (v : Index) : Index :=
  (axes.zip v).foldl (fun j (a,x) => j.set a x) i
def all : List Nat → List Index
  | [] => [[]]
  | d :: ds => (List.range d).flatMap fun i => (all ds).map fun r => i :: r
end Index
namespace Tensor
variable (shape : List Nat) (t : Tensor R)
def sizeOf : Nat := shape.foldr (· * ·) 1
def ofFn (f : Index → Cpx R) : Tensor R :=
  ⟨shape,Array.ofFn fun k : Fin (sizeOf shape) => f (Index.unflatten shape k.val)⟩
def get (i : Index) : Cpx R := t.entries.getD (Index.flatten t.shape i) 0
def rank : Nat := t.shape.length
def map (f : Cpx R → Cpx R) (t : Tensor R) : Tensor R := { t with entries := t.entries.map f }
def conj : Tensor R := t.map Cpx.conj
def scale (c : Cpx R) (t : Tensor R) : Tensor R := t.map fun x => c*x
def add (s t : Tensor R) : Tensor R := ofFn s.shape fun i => s.get i + t.get i
def reshape : Tensor R := { t with shape := shape }
def qubitShape (n : Nat) : List Nat := List.replicate n 2
def toMat (rows cols : Nat) (t : Tensor R) : Mat R := ⟨rows,cols,t.entries⟩
def ofMat (a : Mat R) : Tensor R := ⟨shape,a.entries⟩

/-- Contracts the right half of the axes of `m` with the axes of `t`, whose places the left half takes. -/
def leftMultiply (m t : Tensor R) (axes : List Nat) : Tensor R :=
  let summed := m.shape.drop axes.length
  let columns := Index.all summed
  ofFn t.shape fun i =>
    let row := i.pick axes
    Cpx.sum (columns.map fun c => m.get (row ++ c) * t.get (i.put axes c))
def conjugateAbout (m t : Tensor R) (axes conjAxes : List Nat) : Tensor R :=
  (m.conj).leftMultiply (m.leftMultiply t axes) conjAxes

/-- A contraction by labels: axes with the same label run together, and labels that are not asked for are summed over. -/
def contract (get : Index → Cpx R) (labels out : List Nat) : Tensor R :=
  let size (a : Nat) : Nat := shape.getD (labels.idxOf a) 0
  let summed := (labels.filter fun a => !out.contains a).eraseDups
  ofFn (out.map size) fun i => Cpx.sum ((Index.all (summed.map size)).map fun r =>
    get (labels.map fun a => if out.contains a then i.getD (out.idxOf a) 0 else r.getD (summed.idxOf a) 0))

/-- Sums over the axes of the first half that are not kept, paired with those of the second half; the kept axes
stand in the order of the list, once for each half, because they bear their labels in increasing order. -/
def partialTrace (keep : List Nat) : Tensor R :=
  let n := t.rank/2
  let names := (keep.zip (keep.mergeSort (· ≤ ·))).reverse
  let left := (List.range n).map fun i => (names.lookup i).getD i
  let labels := left ++ left.map fun a => if keep.contains a then n+a else a
  contract t.shape t.get labels ((labels.filter fun a => labels.count a = 1).mergeSort (· ≤ ·))
end Tensor

/-! ## Updates of tensors along some axes

Entries are exchanged, those of a subspace multiplied by a phase, the two halves along an axis mixed. -/
namespace Tensor
open Index
variable (axes : List Nat) (t : Tensor R)
def phase (c : Cpx R) (t : Tensor R) : Tensor R := if c == 1 then t else t.map fun x => x*c
def phaseWhere (bits : Index) (c : Cpx R) (t : Tensor R) : Tensor R :=
  ofFn t.shape fun i => if pick i axes = bits then t.get i * c else t.get i
def exchange (bits others : Index) (t : Tensor R) : Tensor R :=
  ofFn t.shape fun i =>
    if pick i axes = bits then t.get (put i axes others)
    else if pick i axes = others then t.get (put i axes bits)
    else t.get i
def mixAxis (m : Mat R) (axis : Nat) : Tensor R :=
  ofFn t.shape fun i =>
    let b := i.getD axis 0
    m.get b 0 * t.get (set i axis 0) + m.get b 1 * t.get (set i axis 1)
def halves (axis : Nat) (t : Tensor R) : Tensor R :=
  ofFn t.shape fun i =>
    let zero := t.get (set i axis 0)
    let one := t.get (set i axis 1)
    let d := Cpx.scale (RealScalar.ratio (-1) 2) (one-zero)
    if i.getD axis 0 = 1 then d else zero-d
def remaining (removed : List Nat) : List Nat :=
  (List.range t.rank).filter fun a => !removed.contains a
def slice : Tensor R :=
  let kept := t.remaining axes
  ofFn (kept.map fun a => t.shape.getD a 0) fun j =>
    t.get ((List.range t.rank).map fun a => if axes.contains a then 1 else j.getD (kept.idxOf a) 0)
def setSlice (axes : List Nat) (part : Tensor R) : Tensor R :=
  let kept := t.remaining axes
  ofFn t.shape fun i => if axes.all fun a => i.getD a 0 = 1 then part.get (pick i kept) else t.get i
def placeWithout (removed : List Nat) (axis : Nat) : Nat := axis - (removed.filter (· < axis)).length
def applyMatrix (m : Mat R) (axes : List Nat) (t : Tensor R) : Tensor R :=
  match axes with
  | [a] => t.mixAxis m a
  | _ => (ofMat (List.replicate (2*axes.length) 2) m).leftMultiply t axes
end Tensor

/-! ## Eigenvalues and singular values

Hermitian matrices are diagonalised by plane rotations that each clear one pair of entries; singular values come from
rotating pairs of columns until they are orthogonal. -/
namespace Spectral
open RealScalar Cpx Mat
variable (a : Mat R)
structure Rotation (R : Type) where
  cosine : R
  sine : Cpx R
def rotation (a b : R) (g : Cpx R) : Rotation R :=
  let m := g.norm
  if m == 0 then ⟨1,0⟩
  else
    let tau := (b-a)/(two*m)
    let root := sqrt (1+tau*tau)
    let t := if tau < 0 then -(1/(root-tau)) else 1/(tau+root)
    let c := 1 / sqrt (1+t*t)
    ⟨c,scale (t*c/m) g⟩
def rotateColumns (r : Rotation R) (p q : Nat) (a : Mat R) : Mat R :=
  ofFn a.rows a.cols fun i j =>
    if j = p then scale r.cosine (a.get i p) - r.sine.conj * a.get i q
    else if j = q then r.sine * a.get i p + scale r.cosine (a.get i q)
    else a.get i j
def pairs (n : Nat) : List (Nat × Nat) :=
  (List.range n).flatMap fun p => ((List.range n).filter (p < ·)).map fun q => (p,q)
def hermitianStep (s : Mat R × Mat R) (pq : Nat × Nat) : Mat R × Mat R :=
  let (p,q) := pq
  let (h,v) := s
  let r := rotation (h.get p p).re (h.get q q).re (h.get p q)
  let h' := rotateColumns r p q h
  let h'' := (rotateColumns r p q h'.adjoint).adjoint
  (h'',rotateColumns r p q v)
def sweeps {α β : Type} (step : α → β → α) (moves : List β) : Nat → α → α
  | 0, s => s
  | n+1, s => sweeps step moves n (moves.foldl step s)
def permuteColumns (order : List Nat) (a : Mat R) : Mat R :=
  ofFn a.rows order.length fun i j => a.get i (order.getD j 0)
def sweepCount : Nat := 16
def hermitian : List R × Mat R :=
  let (h,v) := sweeps hermitianStep (pairs a.rows) sweepCount (a,identity a.rows)
  let values := h.diag.map re
  let order := (List.range a.rows).mergeSort fun i j => values.getD i 0 ≤ values.getD j 0
  (order.map fun i => values.getD i 0,permuteColumns order v)
def inner (u v : List (Cpx R)) : Cpx R := sum ((u.zip v).map fun (x,y) => x.conj*y)
def columnStep (s : Mat R × Mat R) (pq : Nat × Nat) : Mat R × Mat R :=
  let (p,q) := pq
  let (a,v) := s
  let x := a.col p
  let y := a.col q
  let r := rotation (inner x x).re (inner y y).re (inner x y)
  (rotateColumns r p q a,rotateColumns r p q v)
def normOf (v : List (Cpx R)) : R := sqrt (inner v v).re
def reject (us : List (List (Cpx R))) (v : List (Cpx R)) : List (Cpx R) :=
  us.foldl (fun w u => let c := inner u w; (w.zip u).map fun (x,y) => x-c*y) v
def unitVector (n k : Nat) : List (Cpx R) := (List.range n).map fun i => if i = k then 1 else 0
def normalized (v : List (Cpx R)) : List (Cpx R) :=
  let n := normOf v
  v.map fun x => ⟨x.re/n,x.im/n⟩
def freshVector (n : Nat) (us : List (List (Cpx R))) : List (Cpx R) :=
  let candidates := (List.range n).map fun k => reject us (reject us (unitVector n k))
  let best := candidates.foldl (fun b c => if normOf b < normOf c then c else b) []
  normalized best

/-- Orthonormal columns that follow the given ones, with fresh vectors in the place of columns too short. -/
def completeColumns (n : Nat) (tooShort : R) : List (List (Cpx R)) → List (List (Cpx R)) → List (List (Cpx R))
  | done, [] => done
  | done, c :: rest =>
    completeColumns n tooShort (done ++ [if normOf c ≤ tooShort then freshVector n done else normalized c]) rest
def ofColumns (n : Nat) (cs : List (List (Cpx R))) : Mat R := ofFn n cs.length fun i j => (cs.getD j []).getD i 0

/-- The singular value decomposition of a square matrix: left vectors as columns, values in decreasing order, right
vectors as rows. -/
def singular : Mat R × List R × Mat R :=
  let (b,v) := sweeps columnStep (pairs a.cols) sweepCount (a,identity a.cols)
  let values := (List.range a.cols).map fun j => normOf (b.col j)
  let order := (List.range a.cols).mergeSort fun i j => values.getD j 0 ≤ values.getD i 0
  let sorted := order.map fun i => values.getD i 0
  let tooShort := ratio 1 1000000000000 * sorted.headD 0
  let u := completeColumns a.rows tooShort [] (order.map b.col)
  (ofColumns a.rows u,sorted,(permuteColumns order v).adjoint)
def realIfClose (z : Cpx R) : Cpx R :=
  if abs z.im ≤ ratio 1 100000000000000 then ⟨z.re,0⟩ else z
def normal : List (Cpx R) × Mat R :=
  let c : R := ratio 7390905 10000000
  let s : R := ratio 6736120 10000000
  let plus := a+a.adjoint
  let minus := (a-a.adjoint).scale (-Cpx.I)
  let (_,v) := hermitian (plus.scale ⟨c,0⟩ + minus.scale ⟨s,0⟩)
  let d := (v.adjoint*a*v).diag
  (d.map realIfClose,v)
def mapValues (f : Cpx R → Cpx R) (a : Mat R) : Mat R :=
  let (d,v) := normal a
  v * diagonal (d.map f) * v.adjoint
def ofTwoRows : Cpx R × Cpx R :=
  let t := scale half a.trace
  let d := (t*t-a.det).rpow half
  (t+d,t-d)

/-- Runs of neighbours that a comparison with the first of the run accepts, as half-open ranges from `start`. -/
def contiguousFrom (similar : Nat → Nat → Bool) (start past : Nat) : Nat → List (Nat × Nat)
  | 0 => if start < past then [(start,past)] else []
  | n+1 =>
    if start < past && !similar start past then (start,past) :: contiguousFrom similar past (past+1) n
    else contiguousFrom similar start (past+1) n
def contiguous (length : Nat) (similar : Nat → Nat → Bool) : List (Nat × Nat) := contiguousFrom similar 0 0 length
def groupSimilar {α : Type} (similar : α → α → Bool) : Nat → List α → List (List α)
  | 0, _ => []
  | _+1, [] => []
  | n+1, x :: r => (x :: r.filter (similar x)) :: groupSimilar similar n (r.filter fun y => !similar x y)
end Spectral

/-! ## Simultaneous diagonalisation

One pair of orthogonal matrices makes two real matrices diagonal: the singular values of one of them, then
eigenvectors of the other within each group of equal singular values. -/
namespace Bidiagonal
open Spectral Mat
variable (a : Mat R) (t : Tolerance R)
def symmetric : Outcome (Mat R) :=
  if !a.isReal || !a.isHermitian .usual then .error (.value "Input must be real and symmetric.")
  else .ok (hermitian a).2

/-- Descending along the diagonal, when the last row and column are compared with the first. -/
def descending : Bool :=
  (List.range (a.rows-1)).all fun i => (List.range (a.cols-1)).all fun j =>
    !decide ((a.get i j).re < (a.get (i+1) (j+1)).re)

/-- An orthogonal matrix that diagonalises a symmetric matrix and keeps a sorted diagonal one. -/
def symmetricAndSorted (check : Bool) (s d : Mat R) : Outcome (Mat R) := do
  if check then
    if !s.isReal || !s.isHermitian t then throw (.value "symmetric_matrix must be real symmetric.")
    if !d.isDiagonal t.atol || !d.isReal || !descending d then
      throw (.value "diagonal_matrix must be real diagonal descending.")
    if !d.commutes t s then throw (.value "Given matrices must commute.")
  let wide : Tolerance R := ⟨t.rtol,RealScalar.ratio 1 100000000⟩
  let ranges := contiguous d.rows fun i j => (d.get i i).close wide (d.get j j)
  let blocks ← ranges.mapM fun (a,b) => symmetric (s.block a b a b)
  .ok (blocks.foldl directSum (zero 0 0))
def rankFrom (atol : R) (values : List R) : Nat :=
  (values.reverse.dropWhile fun x => decide (RealScalar.abs x ≤ atol)).length
def realPart : Mat R := a.map fun z => ⟨z.re,0⟩
def imagPart : Mat R := a.map fun z => ⟨z.im,0⟩

/-- Orthogonal matrices `l`, `r` with `l * m1 * r` and `l * m2 * r` diagonal. -/
def pair (check : Bool) (m1 m2 : Mat R) : Outcome (Mat R × Mat R) := do
  if check then
    if !m1.isReal then throw (.value "mat1 must be real.")
    if !m2.isReal then throw (.value "mat2 must be real.")
    if !(m1*m2.transpose).isHermitian t then throw (.value "mat1 @ mat2.T must be symmetric.")
    if !(m1.transpose*m2).isHermitian t then throw (.value "mat1.T @ mat2 must be symmetric.")
  let (left,values,right) := singular (realPart m1)
  let n := values.length
  let rank := rankFrom t.atol values
  let sorted := diagonal ((values.take rank).map Cpx.ofReal)
  let corrected := left.transpose * realPart m2 * right.transpose
  let adjust ← symmetricAndSorted t check (corrected.block 0 rank 0 rank) sorted
  let (extraLeft,_,extraRight) := singular (corrected.block rank n rank n)
  let leftAdjust := adjust.directSum extraLeft
  let rightAdjust := adjust.transpose.directSum extraRight
  .ok (leftAdjust.transpose*left.transpose,right.transpose*rightAdjust.transpose)

/-- Special orthogonal matrices `l`, `r` and the diagonal `d` with `l * m * r = diag d`. -/
def unitary (check : Bool) (m : Mat R) : Outcome (Mat R × List (Cpx R) × Mat R) := do
  if check && !m.isUnitary t then throw (.value "matrix must be unitary.")
  let (left,right) ← pair t check (realPart m) (imagPart m)
  let left := if left.det.re < 0 then ofFn left.rows left.cols fun i j => if i = 0 then -(left.get i j) else left.get i j
    else left
  let right := if right.det.re < 0 then ofFn right.rows right.cols fun i j => if j = 0 then -(right.get i j) else right.get i j
    else right
  .ok (left,(left*m*right).diag,right)
end Bidiagonal

/-! ## Factoring one- and two-qubit unitaries

A two-qubit unitary is a product of single-qubit unitaries, an interaction along the three axes, and single-qubit
unitaries again. -/
open RealScalar Mat
structure Kak (R : Type) where
  phase : Cpx R
  before : Mat R × Mat R
  coefficients : R × R × R
  after : Mat R × Mat R
namespace Kak
def pauliX : Mat R := .ofRealRows [[0,1],[1,0]]
def pauliY : Mat R := .ofRows [[0,-Cpx.I],[Cpx.I,0]]
def pauliZ : Mat R := .ofRealRows [[1,0],[0,-1]]
def interaction (m : Mat R) (c : R) : Mat R :=
  (identity 4).scale ⟨cos c,0⟩ + (m.kron m).scale ⟨0,sin c⟩
def unitary (k : Kak R) : Mat R :=
  let (x,y,z) := k.coefficients
  ((k.after.1.kron k.after.2) * interaction pauliZ z * interaction pauliY y * interaction pauliX x
    * (k.before.1.kron k.before.2)).scale k.phase
def rootHalf : R := sqrt half

/-- The basis in which pairs of single-qubit unitaries are real orthogonal matrices. -/
def magic : Mat R :=
  (ofRows [[1,0,0,Cpx.I],[0,Cpx.I,1,0],[0,Cpx.I,-1,0],[1,0,0,-Cpx.I]]).scale ⟨rootHalf,0⟩
def factorKron (m : Mat R) : Cpx R × Mat R × Mat R :=
  let k := largestAt m.entries
  let a := k/4
  let b := k % 4
  let f1 := ofFn 2 2 fun p q => m.get (2*p+a % 2) (2*q+b % 2)
  let f2 := ofFn 2 2 fun p q => m.get (2*(a/2)+p) (2*(b/2)+q)
  let unit (f : Mat R) : Mat R :=
    let d := f.det.rpow half
    if d == 0 then f else f.map (· / d)
  let f1 := unit f1
  let f2 := unit f2
  let g := m.get a b / (f1.get (a/2) (b/2) * f2.get (a % 2) (b % 2))
  if g.re < 0 then (-g,f1.map (- ·),f2) else (g,f1,f2)
def ofOrthogonal (t : Tolerance R) (check : Bool) (m : Mat R) : Outcome (Mat R × Mat R) :=
  if check && !(m.rows == 4 && m.cols == 4 && m.isSpecialOrthogonal t) then
    .error (.value "mat must be 4x4 special orthogonal.")
  else
    let (_,a,b) := factorKron (magic*m*magic.adjoint)
    .ok (a,b)
def flipper : Nat → Mat R
  | 0 => pauliX.scale Cpx.I
  | 1 => pauliY.scale Cpx.I
  | _ => pauliZ.scale Cpx.I
def swapper : Nat → Mat R
  | 0 => (ofRows [[1,-Cpx.I],[Cpx.I,-1]]).scale ⟨0,rootHalf⟩
  | 1 => (ofRealRows [[1,1],[1,-1]]).scale ⟨0,rootHalf⟩
  | _ => (ofRows [[0,1-Cpx.I],[1+Cpx.I,0]]).scale ⟨0,rootHalf⟩
structure Progress (R : Type) where
  phase : Cpx R
  left : Mat R × Mat R
  right : Mat R × Mat R
  v : List R
namespace Progress
def at' (s : Progress R) (k : Nat) : R := s.v.getD k 0
def shift (k : Nat) (up : Bool) (s : Progress R) : Progress R :=
  let f : Mat R := if up then flipper k else (flipper k).map fun z => z*z*z
  let quarter := pi/two
  { s with
    v := s.v.set k (if up then s.at' k + quarter else s.at' k - quarter)
    phase := s.phase*(if up then Cpx.I else -Cpx.I)
    right := (f*s.right.1,f*s.right.2) }
def negate (k1 k2 : Nat) (s : Progress R) : Progress R :=
  let f : Mat R := flipper (3-k1-k2)
  { s with
    v := (s.v.set k1 (-(s.at' k1))).set k2 (-(s.at' k2))
    phase := -s.phase
    left := (s.left.1,s.left.2*f)
    right := (s.right.1,f*s.right.2) }
def exchange (k1 k2 : Nat) (s : Progress R) : Progress R :=
  let f : Mat R := swapper (3-k1-k2)
  { s with
    v := (s.v.set k1 (s.at' k2)).set k2 (s.at' k1)
    left := (s.left.1*f,s.left.2*f)
    right := (f*s.right.1,f*s.right.2) }
def eighth : R := pi / ofInt 4
def raise (k : Nat) : Nat → Progress R → Progress R
  | 0, s => s
  | n+1, s => if s.at' k ≤ -eighth then raise k n (s.shift k true) else s
def lower (k : Nat) : Nat → Progress R → Progress R
  | 0, s => s
  | n+1, s => if eighth < s.at' k then lower k n (s.shift k false) else s

/-- Quarter turns until the coefficient lies in the interval `(-π/4, π/4]`. -/
def canonicalShift (k : Nat) (s : Progress R) : Progress R :=
  let n := (floor (abs (s.at' k))).toNat+2
  lower k n (raise k n s)
def orderPair (k1 k2 : Nat) (s : Progress R) : Progress R :=
  if abs (s.at' k1) < abs (s.at' k2) then s.exchange k1 k2 else s
def sort (s : Progress R) : Progress R := ((s.orderPair 0 1).orderPair 1 2).orderPair 0 1
end Progress
/-- Canonical form of an interaction: sizes decrease, and only the last coefficient may be negative. -/
def canonicalize (x y z : R) : Kak R :=
  let start : Progress R := ⟨1,(identity 2,identity 2),(identity 2,identity 2),[x,y,z]⟩
  let s := (((start.canonicalShift 0).canonicalShift 1).canonicalShift 2).sort
  let s := if s.at' 0 < 0 then s.negate 0 2 else s
  let s := if s.at' 1 < 0 then s.negate 1 2 else s
  let s := s.canonicalShift 2
  ⟨s.phase,(s.right.2,s.right.1),(s.at' 0,s.at' 1,s.at' 2),(s.left.2,s.left.1)⟩
def ofUnitary (t : Tolerance R) (m : Mat R) : Outcome (Kak R) := do
  let (left,d,right) ← Bidiagonal.unitary t false (magic.adjoint*m*magic)
  let (a1,a0) ← ofOrthogonal t false left.transpose
  let (b1,b0) ← ofOrthogonal t false right.transpose
  let angles := d.map Cpx.arg
  let q : R := ratio 1 4
  let combine (signs : List Int) : R :=
    sum ((signs.zip angles).map fun (s,a) => ofInt s * q*a)
  let w := combine [1,1,1,1]
  let inner := canonicalize (combine [1,1,-1,-1]) (combine [-1,1,-1,1]) (combine [1,-1,-1,1])
  .ok ⟨Cpx.cis w * inner.phase,(inner.before.1*b1,inner.before.2*b0),inner.coefficients,(a1*inner.after.1,a0*inner.after.2)⟩
end Kak
namespace SingleQubit
def phaseMatrix (angle : R) : Mat R := diagonal [1,Cpx.cis angle]
def rotationMatrix (angle : R) : Mat R :=
  .ofRealRows [[cos angle,-(sin angle)],[sin angle,cos angle]]

/-- Angles of a phase, a rotation and a phase whose product is the matrix up to a global phase. -/
def angles (m : Mat R) : R × R × R :=
  let right := (m.get 0 1 * (m.get 0 0).conj).arg+pi
  let m := m * phaseMatrix (-right)
  let bottom := (m.get 1 0 * (m.get 0 0).conj).arg
  let m := phaseMatrix (-bottom) * m
  let rotation := atan2 (m.get 1 0).norm (m.get 0 0).norm
  let m := rotationMatrix (-rotation) * m
  let diagonal := (m.get 1 1 * (m.get 0 0).conj).arg
  (right+diagonal,rotation*two,bottom)
end SingleQubit
end QuantumCircuits
