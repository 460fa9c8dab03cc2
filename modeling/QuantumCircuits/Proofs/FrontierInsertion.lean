import QuantumCircuits.Proofs.Assignments
import QuantumCircuits.Proofs.MomentSearches
import QuantumCircuits.Proofs.WireOrder
import QuantumCircuits.Circuit.Insert

/-! # Insertion at a frontier

A frontier divides the operations on each qubit into those that have been dealt with and those that are still open.
Operations inserted at the frontier go between the two: they follow on every qubit what stands before the place of
insertion, they precede what stands from this place on, and the advanced frontier leaves exactly the same operations open.
-/
namespace QuantumCircuits.FrontierInsertion
open WireOrder MomentSearches StatefulReplacer List Moment SameOrder Qubit Int Prod
variable [Located α] {i : Nat} {placed : List (α × Int)} {ms : Moments α} {new : Nat → List α} (c : Circuit α) (f : Frontier)
variable (qs : Qubits)
section
variable {f} {qs}
lemma get?_set (q r i) : (f.set q i).get? r = if r = q then some i else f.get? r := by
  have hput : f.set q i = Carrying.put f q i := (Assignments.put_eq f q i).symm
  rw [hput]
  exact Assignments.get?_put f q r i
@[simp] lemma get_set (f : Frontier) (q r i) : (f.set q i).get r = if r = q then i else f.get r := by
  by_cases h : r = q <;> simp [Frontier.get,get?_set,h]
lemma foldl_max_le_iff {β γ : Type} [LinearOrder γ] {g : β → γ} {xs : List β} {a b} :
    xs.foldl (fun m x => max m (g x)) a ≤ b ↔ a ≤ b ∧ ∀ x ∈ xs, g x ≤ b := by
  induction xs generalizing a with
  | nil => simp
  | cons x xs ih => rw [foldl_cons,ih,max_le_iff,forall_mem_cons,and_assoc]
lemma le_foldl_max {β γ : Type} [LinearOrder γ] (g : β → γ) (xs : List β) (a) :
    a ≤ xs.foldl (fun m x => max m (g x)) a ∧ ∀ x ∈ xs, g x ≤ xs.foldl (fun m x => max m (g x)) a :=
  foldl_max_le_iff.mp le_rfl
lemma le_foldl_min_iff {β : Type} {g : β → Int} {xs : List β} {a b} :
    b ≤ xs.foldl (fun m x => min m (g x)) a ↔ b ≤ a ∧ ∀ x ∈ xs, b ≤ g x := foldl_max_le_iff (γ := Intᵒᵈ)
lemma get_advance (i r) :
    (qs.foldl (fun f q => f.set q (max (f.get q) (i+1))) f).get r = if r ∈ qs then max (f.get r) (i+1) else f.get r := by
  induction qs generalizing f with
  | nil => simp
  | cons q qs ih =>
    rw [foldl_cons,ih]
    by_cases hq : r = q <;> by_cases hr : r ∈ qs <;> simp [hq]
end
/-- Operations with consecutive places between two frontiers. -/
structure Consecutive (start : Int) (f g : Frontier) (placed : List (α × Int)) : Prop where
  start_le : ∀ e ∈ placed, start ≤ e.2
  frontier_le : ∀ e ∈ placed, ∀ q ∈ qubits e.1, f.get q ≤ e.2
  lt_frontier : ∀ e ∈ placed, ∀ q ∈ qubits e.1, e.2 < g.get q
  increasing : placed.Pairwise fun a b => ∀ q ∈ qubits a.1, q ∈ qubits b.1 → a.2 < b.2
  advances : ∀ q, f.get q ≤ g.get q
  attained : ∀ q, g.get q = f.get q ∨ ∃ e ∈ placed, q ∈ qubits e.1 ∧ g.get q = e.2+1
lemma assignPlaces_spec (start) (ops : List α) (f) (hops : ∀ op ∈ ops, qubits op ≠ []) :
    ∃ placed g, Circuit.assignPlaces start ops f = .ok (placed,g) ∧ placed.map fst = ops ∧
      Consecutive start f g placed := by
  induction ops generalizing f with
  | nil => exact ⟨[],f,rfl,rfl,by simp,by simp,by simp,by simp,by simp,by simp⟩
  | cons op ops ih =>
    have hne := hops op mem_cons_self
    have hs := le_foldl_max f.get (qubits op) start
    generalize hi : (qubits op).foldl (fun m q => max m (f.get q)) start = i at hs
    generalize hf : (qubits op).foldl (fun f q => f.set q (max (f.get q) (i+1))) f = f'
    have hget : ∀ q, f'.get q = if q ∈ qubits op then max (f.get q) (i+1) else f.get q := by
      intro q
      rw [← hf,get_advance]
    obtain ⟨placed,g,ha,hmap,hc⟩ := ih f' (forall_mem_cons.mp hops).2
    refine ⟨(op,i) :: placed,g,?_,by simp [hmap],?_⟩
    · unfold Circuit.assignPlaces
      cases hqs : qubits op with
      | nil => exact absurd hqs hne
      | cons q qs =>
        have hqs' : qubits op = q :: qs := hqs
        simp only [← hqs',hi,hf,ha]
        rfl
    · have hadv : ∀ q, f.get q ≤ f'.get q := by
        intro q
        rw [hget q]
        split <;> omega
      have hop : ∀ q ∈ qubits op, i < f'.get q := by
        intro q hq
        rw [hget q,if_pos hq]
        omega
      refine ⟨?_,?_,?_,?_,?_,?_⟩
      · simpa using ⟨hs.1,fun a b => hc.start_le (a,b)⟩
      · simp only [forall_mem_cons]
        exact ⟨hs.2,fun e he q hq => le_trans (hadv q) (hc.frontier_le e he q hq)⟩
      · simp only [forall_mem_cons]
        exact ⟨fun q hq => lt_of_lt_of_le (hop q hq) (hc.advances q),hc.lt_frontier⟩
      · refine pairwise_cons.mpr ⟨fun e he q hq hqe => ?_,hc.increasing⟩
        exact lt_of_lt_of_le (hop q hq) (hc.frontier_le e he q hqe)
      · exact fun q => le_trans (hadv q) (hc.advances q)
      · intro q
        rcases hc.attained q with hq | ⟨e,he,hq⟩
        · rw [hq,hget q]
          split
          case isTrue hqo => exact .inr ⟨_,mem_cons_self,hqo,max_eq_right (by have := hs.2 q hqo; omega)⟩
          case isFalse => exact .inl rfl
        · exact .inr ⟨e,mem_cons_of_mem _ he,hq⟩
def StandsAt (ms : Moments α) (j : Nat) (op : α) : Prop := ∃ m, ms[j]? = some m ∧ op ∈ m.ops
def widened (ms : Moments α) (a n : Nat) : Moments α := ms.take a ++ replicate n empty ++ ms.drop a
def filled (ms : Moments α) (new : Nat → List α) : Moments α := ms.mapIdx fun j m => ⟨m.ops ++ new j⟩
def newAt (placed : List (α × Int)) (j : Nat) : List α := (placed.filter fun e => e.2 = (j : Int)).map Prod.fst
section
omit [Located α]
variable {j : Nat} {op : α} (n : Nat)
lemma opsOf_empties : opsOf (replicate n (empty : Moment α)) = [] := by simp [opsOf,empty]
lemma StandsAt.lt_length (h : StandsAt ms j op) : j < ms.length := by
  obtain ⟨m,hm,-⟩ := h
  exact (List.getElem?_eq_some_iff.mp hm).1
lemma standsAt_drop : StandsAt (ms.drop i) j op ↔ StandsAt ms (i+j) op := by simp [StandsAt]
lemma standsAt_take {a} : StandsAt (ms.take a) j op ↔ j < a ∧ StandsAt ms j op := by
  unfold StandsAt
  rw [getElem?_take]
  by_cases hj : j < a <;> simp [hj]
lemma not_standsAt_empties : ¬ StandsAt (replicate n empty) j op := by
  rintro ⟨m,hm,hop⟩
  rw [getElem?_replicate] at hm
  split at hm
  · simp [← Option.some.inj hm,empty] at hop
  · simp at hm
lemma standsAt_append {ns} : StandsAt (ms ++ ns) j op ↔ StandsAt ms j op ∨ ms.length ≤ j ∧ StandsAt ns (j-ms.length) op := by
  unfold StandsAt
  rw [getElem?_append]
  split
  case isTrue h => simp [Nat.not_le.mpr h]
  case isFalse h =>
    have hle := Nat.not_lt.mp h
    simp [hle]
lemma standsAt_padded : StandsAt (ms ++ replicate n empty) j op ↔ StandsAt ms j op := by
  rw [standsAt_append]
  simp [not_standsAt_empties]

/-- Every operation of the wider circuit stood in the narrower one, at its place or as much earlier as there is room. -/
lemma StandsAt.of_widened {a n} (ha : a ≤ ms.length) (h : StandsAt (widened ms a n) j op) :
    ∃ k, StandsAt ms k op ∧ (k < a ∧ j = k ∨ a ≤ k ∧ j = k+n) := by
  have hlen : (ms.take a).length = a := length_take_of_le ha
  rw [widened,standsAt_append,standsAt_append,length_append,length_replicate] at h
  rcases h with (h | ⟨-,h⟩) | ⟨hle,h⟩
  · obtain ⟨hj,h⟩ := standsAt_take.mp h
    exact ⟨j,h,.inl ⟨hj,rfl⟩⟩
  · exact absurd h (not_standsAt_empties n)
  · exact ⟨_,standsAt_drop.mp h,.inr ⟨by omega,by omega⟩⟩
lemma standsAt_filled : StandsAt (filled ms new) j op ↔ StandsAt ms j op ∨ j < ms.length ∧ op ∈ new j := by
  unfold StandsAt filled
  by_cases hj : j < ms.length <;> simp [hj]
lemma filled_cons (m : Moment α) (ms new) : filled (m :: ms) new = ⟨m.ops ++ new 0⟩ :: filled ms fun j => new (j+1) := by
  simp [filled]
lemma filled_append (ms ns : Moments α) (new) :
    filled (ms ++ ns) new = filled ms new ++ filled ns fun j => new (ms.length+j) := by
  simp [filled,mapIdx_append,Nat.add_comm]
lemma drop_filled (i) : (filled ms new).drop i = filled (ms.drop i) fun j => new (i+j) := by
  apply ext_getElem?
  simp [filled]
lemma filled_of_nil (h : ∀ j < ms.length, new j = []) : filled ms new = ms := by
  induction ms generalizing new with
  | nil => rfl
  | cons m ms ih =>
    rw [filled_cons,h 0 (by simp),ih fun j hj => h (j+1) (by simpa using hj),append_nil]
@[simp] lemma length_filled : (filled ms new).length = ms.length := by simp [filled]
lemma newAt_cons (e : α × Int) (placed j) : newAt (e :: placed) j = if e.2 = j then e.1 :: newAt placed j else newAt placed j := by
  by_cases h : e.2 = j <;> simp [newAt,h]
lemma mem_newAt : op ∈ newAt placed j ↔ (op,(j : Int)) ∈ placed := by simp [newAt]
variable {n}
lemma widened_split (ms : Moments α) (n) (hi : i ≤ a) : widened ms a n = ms.take i ++ widened (ms.drop i) (a-i) n := by
  have ht : ms.take a = ms.take i ++ (ms.drop i).take (a-i) := by
    rw [← take_add]
    congr 1
    omega
  have hd : (ms.drop i).drop (a-i) = ms.drop a := by
    rw [drop_drop]
    congr 1
    omega
  simp [widened,ht,hd]
lemma opsOf_widened (ms : Moments α) (a n) : opsOf (widened ms a n) = opsOf ms := by
  rw [widened,opsOf_append,opsOf_append,opsOf_empties,append_nil,← opsOf_append,take_append_drop]
lemma StandsAt.widened (h : StandsAt ms j op) (hj : j < a) : StandsAt (FrontierInsertion.widened ms a n) j op :=
  standsAt_append.mpr (.inl (standsAt_append.mpr (.inl (standsAt_take.mpr ⟨hj,h⟩))))

/-- The moments with room and the new operations, from a place up to which nothing changes. -/
lemma filled_split (hi : i ≤ a) (ha : a ≤ ms.length) (k new) (hnew : ∀ j < i, new j = []) :
    filled (widened ms a n ++ replicate k empty) new = ms.take i ++
      filled (widened (ms.drop i) (a-i) n ++ replicate k empty) fun j => new (i+j) := by
  have hlen : (ms.take i).length = i := length_take_of_le (hi.trans ha)
  have hs : filled (ms.take i) new = ms.take i := filled_of_nil fun j hj => hnew j (by omega)
  rw [widened_split ms n hi,append_assoc,filled_append,hs,hlen]
lemma opsOf_drop_widened (ha : a ≤ ms.length) (n p) :
    opsOf ((widened ms a n).drop p) = opsOf (ms.drop (if p ≤ a then p else max a (p-n))) := by
  split
  case isTrue hp =>
    have hlen : (ms.take p).length = p := length_take_of_le (hp.trans ha)
    rw [widened_split ms n hp,drop_left' hlen,opsOf_widened]
  case isFalse hp =>
    have hd : a+(p-a-n) = max a (p-n) := by omega
    rw [widened,drop_append,drop_append,length_append,length_replicate,length_take_of_le ha,drop_eq_nil_of_le (by simp; omega),
      drop_replicate,nil_append,opsOf_append,opsOf_empties,nil_append,drop_drop,← hd]
    congr 2
    omega
lemma place?_nat {i : Int} (h : 0 ≤ i) (hi : i < c.size) : c.place? i = some i.toNat := by
  simp [Circuit.place?,not_lt.mpr h,hi]
lemma set_filled {m t} (hm : ms[t]? = some m) (ops) :
    (filled ms new).set t ⟨m.ops ++ ops⟩ = filled ms fun j => if j = t then ops else new j := by
  apply ext_getElem?
  intro j
  obtain ⟨ht,rfl⟩ := List.getElem?_eq_some_iff.mp hm
  unfold filled
  by_cases hj : t = j
  · subst hj
    simp [ht]
  · simp [hj,Ne.symm hj]
lemma get_mapPlaces (shift : Qubit → Int → Int) {r} (hr : shift r 0 = 0) :
    Frontier.get (f.map fun e => (e.1,shift e.1 e.2)) r = shift r (f.get r) := by
  induction f with
  | nil => exact hr.symm
  | cons e f ih =>
    simp only [Frontier.get,Frontier.get?] at ih ⊢
    by_cases he : e.1 = r
    · simp [he]
    · simpa [he] using ih
lemma get?_ofQubits (l : Qubit → Int) (r) :
    Frontier.get? (qs.map fun q => (q,l q)) r = if r ∈ qs then some (l r) else none := by
  induction qs with
  | nil => rfl
  | cons q qs ih =>
    simp only [Frontier.get?] at ih ⊢
    by_cases hq : q = r
    · simp [hq]
    · have hr : r ≠ q := fun h => hq h.symm
      simpa [hq,hr] using ih
variable (early : Frontier)
/-- Room for so many moments at a place: the qubits that asked for it find enough before their next operations, and the
frontier of all others moves with the moments. -/
structure Room (qs : Qubits) (next : Qubit → Int) (early late : Frontier) (a n : Nat) : Prop where
  before_next : ∀ q ∈ qs, a ≤ next q
  enough : ∀ b : Nat, n ≤ b ↔ ∀ q ∈ qs, early.get q ≤ next q + b
  asked : ∀ q ∈ qs, late.get q = early.get q
  moved : ∀ q, q ∉ qs → late.get q = if a < early.get q then early.get q + n else early.get q
lemma makeRoom_cons (q₀ qs) (next : Qubit → Int) : ∃ place missing, (∀ b, b ≤ place ↔ ∀ q ∈ q₀ :: qs, b ≤ next q) ∧
      (∀ b, missing ≤ b ↔ ∀ q ∈ q₀ :: qs, early.get q ≤ next q + b) ∧
      c.makeRoom early ((q₀ :: qs).map fun q => (q,next q)) = if missing ≤ 0 then (c,early) else
        (⟨widened c.moments place.toNat missing.toNat⟩,early.map fun e =>
          (e.1,if e.1 ∉ q₀ :: qs ∧ place < e.2 then e.2+missing else e.2)) := by
  refine ⟨(qs.map fun q => (q,next q)).foldl (fun m e => min m e.2) (next q₀),
    (qs.map fun q => (q,next q)).foldl (fun m e => max m (early.get e.1 - e.2)) (early.get q₀ - next q₀),fun b => ?_,fun b => ?_,?_⟩
  · exact le_foldl_min_iff.trans (by simp)
  · exact foldl_max_le_iff.trans (by simp [add_comm])
  · rw [map_cons]
    refine if_congr Iff.rfl rfl (Prod.ext_iff.mpr ⟨rfl,map_congr_left fun e _ => ?_⟩)
    have hl := get?_ofQubits (q₀ :: qs) next e.1
    rw [map_cons] at hl
    simp only [hl]
    by_cases he : e.1 ∈ q₀ :: qs
    · simp [he]
    · simp only [he,if_false,Option.isNone_none,Bool.true_and,decide_eq_true_eq,not_false_eq_true,true_and]
      split <;> rfl
lemma makeRoom_spec (qs) (next : Qubit → Int) (hi : i ≤ c.size) (hne : ∀ q ∈ qs, i ≤ next q ∧ next q ≤ c.size) :
    ∃ a n late, c.makeRoom early (qs.map fun q => (q,next q)) = (⟨widened c.moments a n⟩,late) ∧
      i ≤ a ∧ a ≤ c.size ∧ Room qs next early late a n := by
  have hno : (∀ q ∈ qs, early.get q ≤ next q) → Room qs next early early i 0 := fun hle =>
    ⟨fun q hq => (hne q hq).1,fun b => ⟨fun _ q hq => by have := hle q hq; omega,fun _ => b.zero_le⟩,fun _ _ => rfl,by simp⟩
  have hs : c = ⟨widened c.moments i 0⟩ := by simp [widened]
  cases qs with
  | nil => exact ⟨i,0,early,Prod.ext_iff.mpr ⟨hs,rfl⟩,le_rfl,hi,hno (by simp)⟩
  | cons q₀ qs =>
    obtain ⟨place,missing,hmin,hmax,heq⟩ := makeRoom_cons c early q₀ qs next
    rw [heq]
    split
    case isTrue hle => exact ⟨i,0,early,Prod.ext_iff.mpr ⟨hs,rfl⟩,le_rfl,hi,hno (by simpa using (hmax 0).mp hle)⟩
    case isFalse hlt =>
      have hp := (hmin i).mpr fun q hq => (hne q hq).1
      have hend := (hmin place).mp le_rfl
      have hget : ∀ q, Frontier.get (early.map fun e => (e.1,if e.1 ∉ q₀ :: qs ∧ place < e.2 then e.2+missing else e.2)) q =
          if q ∉ q₀ :: qs ∧ place < early.get q then early.get q + missing else early.get q := fun q =>
        get_mapPlaces early (fun q j => if q ∉ q₀ :: qs ∧ place < j then j+missing else j) (by split <;> omega)
      refine ⟨place.toNat,missing.toNat,_,rfl,by omega,?_,fun q hq => ?_,fun b => ?_,fun q hq => ?_,fun q hq => ?_⟩
      · have := hend q₀ mem_cons_self
        have := (hne q₀ mem_cons_self).2
        omega
      · have := hend q hq
        omega
      · rw [← hmax]
        omega
      · rw [hget,if_neg fun h => h.1 hq]
      · rw [hget]
        simp only [hq,not_false_eq_true,true_and]
        split <;> split <;> omega
end
variable {op : α}
lemma sameOrder_filled_cons {p} (hp : p < ms.length)
    (hb : ∀ j < p, ∀ o, StandsAt (filled ms new) j o → (qubits op).Disjoint (qubits o))
    (hat : ∀ o, StandsAt ms p o → (qubits op).Disjoint (qubits o)) :
    SameOrder (opsOf (filled ms fun j => if p = j then op :: new j else new j)) (op :: opsOf (filled ms new)) := by
  have hs : ∀ xs, (∀ o ∈ xs, (qubits op).Disjoint (qubits o)) → SameOrder (xs ++ [op]) ([op] ++ xs) :=
    fun xs h => (swap (forall_mem_singleton.mpr h)).symm
  induction ms generalizing p new with
  | nil => simp at hp
  | cons m ms ih =>
    simp only [filled_cons]
    cases p with
    | zero =>
      have hr := (hs m.ops fun o ho => hat o ⟨m,rfl,ho⟩).append_right (new 0 ++ opsOf (filled ms fun j => new (j+1)))
      simpa using hr
    | succ p =>
      have hr : SameOrder (opsOf (filled ms fun j => if p = j then op :: new (j+1) else new (j+1)))
          (op :: opsOf (filled ms fun j => new (j+1))) :=
        ih (by simpa using hp) (fun j hj o ho => hb (j+1) (by omega) o (by rw [filled_cons]; exact ho)) hat
      have hm := (hs (m.ops ++ new 0) fun o ho => hb 0 (by omega) o (by rw [filled_cons]; exact ⟨_,rfl,ho⟩)).append_right
        (opsOf (filled ms fun j => new (j+1)))
      simp only [Nat.add_right_cancel_iff]
      refine (hr.append_left _).trans ?_
      simpa using hm
lemma sameOrder_filled (i : Nat) (hr : ∀ e ∈ placed, i ≤ e.2 ∧ e.2 < i+ms.length)
    (hf : ∀ e ∈ placed, ∀ j o, StandsAt ms j o → (i+j) ≤ e.2 → (qubits e.1).Disjoint (qubits o))
    (hinc : placed.Pairwise fun a b => ∀ q ∈ qubits a.1, q ∈ qubits b.1 → a.2 < b.2) :
    SameOrder (opsOf (filled ms fun j => newAt placed (i+j))) (placed.map fst ++ opsOf ms) := by
  induction placed with
  | nil =>
    have hnil : filled ms (fun j => newAt [] (i+j)) = ms := filled_of_nil fun j _ => rfl
    rw [hnil]
    rfl
  | cons e placed ih =>
    obtain ⟨hlt,hinc⟩ := pairwise_cons.mp hinc
    have hre := ih (forall_mem_cons.mp hr).2 (forall_mem_cons.mp hf).2 hinc
    obtain ⟨hge,hle⟩ := hr e mem_cons_self
    have hnew : (fun j => newAt (e :: placed) (i+j)) =
        fun j => if e.2.toNat-i = j then e.1 :: newAt placed (i+j) else newAt placed (i+j) := by
      funext j
      rw [newAt_cons]
      exact if_congr (by omega) rfl rfl
    rw [hnew]
    refine (sameOrder_filled_cons (by omega) ?_ ?_).trans (hre.append_left [e.1])
    · intro j hj o ho
      rcases standsAt_filled.mp ho with ho | ⟨-,ho⟩
      · exact hf e mem_cons_self j o ho (by omega)
      · intro q hq hqo
        have ha := hlt _ (mem_newAt.mp ho) q hq hqo
        omega
    · exact fun o ho => hf e mem_cons_self _ o ho (by omega)

/-- The operations from a place on that a frontier leaves open. -/
def openFrom (i : Nat) (ms : Moments α) : List α := (ms.zipIdx i).flatMap fun (m,j) => m.ops.filter (isOpen f j)
lemma isOpen_iff {f} : isOpen f i op ↔ ∀ q ∈ qubits op, f.get q ≤ i := by simp [isOpen]
section
variable {f}
@[simp] lemma openFrom_nil : openFrom f i ([] : Moments α) = [] := rfl
lemma openFrom_cons (m) : openFrom f i (m :: ms) = m.ops.filter (isOpen f i) ++ openFrom f (i+1) ms := by
  simp [openFrom]
lemma openFrom_append : openFrom f i (ms ++ ns) = openFrom f i ms ++ openFrom f (i+ms.length) ns := by
  simp [openFrom,zipIdx_append]
lemma openFrom_empties (n) : openFrom f i (replicate n (empty : Moment α)) = [] := by
  induction n generalizing i with
  | zero => rfl
  | succ n ih =>
    rw [replicate_succ,openFrom_cons,ih]
    rfl
lemma openFrom_congr (h : ∀ k op, StandsAt ms k op → isOpen f (i+k) op = isOpen g (j+k) op) :
    openFrom f i ms = openFrom g j ms := by
  rw [openFrom,openFrom,zipIdx_eq_map_add,zipIdx_eq_map_add (i := j),flatMap_map,flatMap_map]
  refine flatMap_congr fun e he => filter_congr fun op hop => ?_
  exact h e.2 op ⟨e.1,mem_zipIdx_iff_getElem?.mp he,hop⟩
lemma openFrom_filled (h : ∀ k < ms.length, ∀ op ∈ new k, isOpen f (i+k) op = false) :
    openFrom f i (filled ms new) = openFrom f i ms := by
  induction ms generalizing i new with
  | nil => rfl
  | cons m ms ih =>
    have hnew : (new 0).filter (isOpen f i) = [] :=
      filter_eq_nil_iff.mpr fun op hop => by simp [show isOpen f i op = false from h 0 (by simp) op hop]
    rw [filled_cons,openFrom_cons,filter_append,hnew,append_nil]
    refine congrArg _ (ih fun k hk op hop => ?_)
    rw [show i+1+k = i+(k+1) by omega]
    exact h (k+1) (by simpa using hk) op hop
end
lemma touched_iff (q) (j : Nat) : Touched c [q] j ↔ ∃ op, StandsAt c.moments j op ∧ q ∈ qubits op := by
  simp only [Touched,Circuit.momentAt?,natCast_nonneg,not_lt.mpr,if_false,toNat_natCast,mem_singleton,exists_eq_right]
  constructor
  · rintro ⟨m,hm,op,hop,hq⟩
    exact ⟨op,⟨m,hm,hop⟩,hq⟩
  · rintro ⟨op,⟨m,hm,hop⟩,hq⟩
    exact ⟨m,hm,op,hop,hq⟩
def nextOn (i : Nat) (q : Qubit) : Int := (c.next? [q] i none).getD c.size
lemma nextOf_eq (i : Nat) : c.nextOf qs i = qs.map fun q => (q,nextOn c i q) := rfl
lemma nextOn_spec (i q) :
    (nextOn c i q ≤ c.size ∧ ∀ j op, i ≤ j → StandsAt c.moments j op → q ∈ qubits op → nextOn c i q ≤ j) ∧
      (nextOn c i q = c.size ∨ ∃ j op, i ≤ j ∧ StandsAt c.moments j op ∧ q ∈ qubits op ∧ nextOn c i q = j) := by
  have ha : ∀ j op, i ≤ j → StandsAt c.moments j op → q ∈ qubits op → Ahead c [q] i none j := fun j op hij hop hq =>
    ⟨(touched_iff c q j).mpr ⟨op,hop,hq⟩,by omega,nofun⟩
  have hn : Nearest (· ≤ ·) (Ahead c [q] i none) (c.next? [q] i none) := next?_nearest i none
  unfold nextOn
  cases hk : c.next? [q] i none with
  | none =>
    rw [hk] at hn
    exact ⟨⟨le_refl _,fun j op hij hop hq => absurd (ha j op hij hop hq) (hn j)⟩,.inl rfl⟩
  | some k =>
    rw [hk] at hn
    obtain ⟨⟨ht,hik,-⟩,hb⟩ := hn
    have hle := ht.bounds
    obtain ⟨j,rfl⟩ := eq_ofNat_of_zero_le hle.1
    obtain ⟨op,hop,hq⟩ := (touched_iff c q j).mp ht
    exact ⟨⟨hle.2.le,fun j op hij hop hq => hb j (ha j op hij hop hq)⟩,.inr ⟨j,op,by omega,hop,hq,rfl⟩⟩
lemma nodup_eraseDups : (xs : List Int) → xs.eraseDups.Nodup
  | [] => by simp
  | x :: xs => by
    rw [eraseDups_cons,nodup_cons]
    exact ⟨by simp,nodup_eraseDups _⟩
termination_by xs => xs.length
decreasing_by exact Nat.lt_succ_of_le (length_filter_le _ _)
def putTarget (placed : List (α × Int)) (e : Circuit.Edit α Unit) (i : Int) : Circuit.Edit α Unit := match e with
  | (c,.error f) => (c,.error f)
  | (c,.ok ()) => match c.place? i with
    | none => (c,.error (.bare .index))
    | some p =>
      match ofList ((c.moments.getD p .empty).ops ++ (placed.filter fun e => e.2 = i).map (·.1)) with
      | .error f => (c,.error f)
      | .ok m => (c.setMoment p m,.ok ())
lemma putTarget_filled {t : Int} (ht : 0 ≤ t) (hlt : t < ms.length) (hnew : new t.toNat = [])
    (hfit : ∀ m ∈ filled ms (newAt placed), OverlapFree m) : putTarget placed (⟨filled ms new⟩,.ok ()) t =
      (⟨filled ms fun j => if j = t.toNat then newAt placed j else new j⟩,.ok ()) := by
  have hget : ms[t.toNat]? = some ms[t.toNat] := getElem?_eq_getElem (by omega)
  have hm : ((filled ms new).getD t.toNat empty).ops = (ms[t.toNat]).ops := by simp [filled,hget,hnew]
  have hc : (placed.filter fun e => e.2 = t).map fst = newAt placed t.toNat := by rw [newAt,toNat_of_nonneg ht]
  have hf : OverlapFree ⟨(ms[t.toNat]).ops ++ newAt placed t.toNat⟩ := by
    refine hfit _ (mem_iff_getElem?.mpr ⟨t.toNat,?_⟩)
    simp [filled,hget]
  have hp : Circuit.place? ⟨filled ms new⟩ t = some t.toNat := place?_nat _ ht (by simpa [Circuit.size] using hlt)
  have hset : (filled ms fun j => if j = t.toNat then newAt placed t.toNat else new j) =
      filled ms fun j => if j = t.toNat then newAt placed j else new j := by
    refine congrArg (filled ms) (funext fun j => ?_)
    split
    case isTrue hj => rw [hj]
    case isFalse => rfl
  simp only [putTarget,hp,hm,hc,ofList_eq_ok hf,Circuit.setMoment,set_filled hget,hset]
lemma foldl_putTarget (hfit : ∀ m ∈ filled ms (newAt placed), OverlapFree m) (ts : List Int) (hts : ts.Nodup)
    (hr : ∀ t ∈ ts, 0 ≤ t ∧ t < ms.length) (hnew : ∀ t ∈ ts, new t.toNat = []) :
    ts.foldl (putTarget placed) (⟨filled ms new⟩,.ok ()) =
      (⟨filled ms fun j => if (j : Int) ∈ ts then newAt placed j else new j⟩,.ok ()) := by
  induction ts generalizing new with
  | nil => simp
  | cons t ts ih =>
    obtain ⟨ht,hts⟩ := nodup_cons.mp hts
    obtain ⟨hpos,hlt⟩ := hr t mem_cons_self
    rw [foldl_cons,putTarget_filled hpos hlt (hnew t mem_cons_self) hfit,ih hts (forall_mem_cons.mp hr).2]
    · refine congrArg (fun new => ((⟨filled ms new⟩ : Circuit α),Except.ok ())) (funext fun j => ?_)
      have hj : j = t.toNat ↔ j = t := by omega
      by_cases hjt : j = t <;> by_cases hjs : (j : Int) ∈ ts <;> simp [hj,hjt]
    · intro u hu
      have hne : u.toNat ≠ t.toNat := by
        have hut : u ≠ t := fun h => ht (h ▸ hu)
        have := hr u (mem_cons_of_mem _ hu)
        omega
      rw [if_neg hne]
      exact hnew u (mem_cons_of_mem _ hu)
lemma putAll_spec (hpos : ∀ e ∈ placed, 0 ≤ e.2)
    (hfit : ∀ k, ∀ m ∈ filled (c.moments ++ replicate k empty) (newAt placed), OverlapFree m) :
    ∃ k, k = (placed.foldl (fun (m : Int) e => max m (e.2+1)) 0).toNat-c.size ∧
      c.putAll placed = (⟨filled (c.moments ++ replicate k empty) (newAt placed)⟩,.ok ()) ∧
      ∀ e ∈ placed, e.2 < (c.moments ++ replicate k empty).length := by
  have hmax := (le_foldl_max (fun e : α × Int => e.2+1) placed 0).2
  have hput : c.putAll placed = ((placed.map snd).eraseDups).foldl (putTarget placed)
      (c.padTo (placed.foldl (fun m (e : α × Int) => max m (e.2+1)) 0).toNat,.ok ()) := rfl
  generalize placed.foldl (fun m e => max m (e.2+1)) 0 = size at hmax hput
  set ms := c.moments ++ replicate (size.toNat-c.size) empty with hms
  have hlt : ∀ e ∈ placed, e.2 < ms.length := by
    intro e he
    have := hmax e he
    rw [hms,length_append,length_replicate,Circuit.size]
    omega
  refine ⟨size.toNat-c.size,rfl,?_,hlt⟩
  have hr : ∀ t ∈ (placed.map snd).eraseDups, 0 ≤ t ∧ t < ms.length := by
    intro t ht
    obtain ⟨e,he,rfl⟩ := mem_map.mp (mem_eraseDups.mp ht)
    exact ⟨hpos e he,hlt e he⟩
  have hnil : c.padTo size.toNat = ⟨filled ms fun _ => []⟩ := by
    rw [filled_of_nil fun _ _ => rfl]
    rfl
  rw [hput,hnil,foldl_putTarget (hfit _) _ (nodup_eraseDups _) hr fun _ _ => rfl]
  refine congrArg (fun new => ((⟨filled _ new⟩ : Circuit α),Except.ok ())) (funext fun j => ?_)
  split
  case isTrue => rfl
  case isFalse hj =>
    refine (eq_nil_iff_forall_not_mem.mpr fun op hop => hj ?_).symm
    exact mem_eraseDups.mpr (mem_map.mpr ⟨_,mem_newAt.mp hop,rfl⟩)

/-- Every operation from a place on is either open on all its qubits or has been dealt with on all of them. -/
def Divides (i : Nat) (ms : Moments α) : Prop :=
  ∀ j op, i ≤ j → StandsAt ms j op → (∀ q ∈ qubits op, f.get q ≤ j) ∨ ∀ q ∈ qubits op, (j : Int) < f.get q

/-- Places for operations in moments that have been widened at `a`, with the frontier before and after: the places are free,
the new frontier closes them, and it keeps open what was open. -/
structure Opening (ms : Moments α) (i : Nat) (f late : Frontier) (placed : List (α × Int)) (a n : Nat) : Prop where
  after : i ≤ a
  inside : a ≤ ms.length
  start_le : ∀ e ∈ placed, i ≤ e.2
  increasing : placed.Pairwise fun x y => ∀ q ∈ qubits x.1, q ∈ qubits y.1 → x.2 < y.2
  free : ∀ e ∈ placed, ∀ j o, i ≤ j → StandsAt (widened ms a n) j o → (j : Int) ≤ e.2 → (qubits e.1).Disjoint (qubits o)
  closes : ∀ e ∈ placed, ∀ q ∈ qubits e.1, e.2 < late.get q
  keeps : ∀ j op, i ≤ j → StandsAt ms j op → ∀ q ∈ qubits op,
    late.get q ≤ (if j < a then j else j+n : Nat) ↔ f.get q ≤ j
lemma Opening.of_room {a n s} {f early late : Frontier} {qs next} (his : i ≤ s) (ha : i ≤ a) (hle : a ≤ ms.length)
    (hp : Consecutive s f early placed) (hr : Room qs next early late a n)
    (hqs : ∀ q, q ∈ qs ↔ ∃ e ∈ placed, q ∈ qubits e.1) (hf : ∀ q ∈ qs, ∀ j < ms.length, i ≤ j → f.get q ≤ j)
    (hn : ∀ q ∈ qs, ∀ j op, i ≤ j → StandsAt ms j op → q ∈ qubits op → next q ≤ j) : Opening ms i f late placed a n := by
  refine ⟨ha,hle,fun e he => (ofNat_le.mpr his).trans (hp.start_le e he),hp.increasing,fun e he j o hij ho hje q hq hqo => ?_,fun e he q hq => ?_,
    fun j op hij hop q hq => ?_⟩
  · have hmem := (hqs q).mpr ⟨e,he,hq⟩
    obtain ⟨k,hk,hjk⟩ := ho.of_widened hle
    have hlt := hp.lt_frontier e he q hq
    have hroom₁ := hr.before_next q hmem
    have hroom₂ := (hr.enough _).mp le_rfl q hmem
    have hn := hn q hmem k o (by omega) hk hqo
    omega
  · rw [hr.asked q ((hqs q).mpr ⟨e,he,hq⟩)]
    exact hp.lt_frontier e he q hq
  · by_cases hmem : q ∈ qs
    · have hfr := hf q hmem j hop.lt_length hij
      have hroom₁ := hr.before_next q hmem
      have hroom₂ := (hr.enough _).mp le_rfl q hmem
      have hn := hn q hmem j op hij hop hq
      rw [hr.asked q hmem,if_neg (by omega)]
      omega
    · have hs : early.get q = f.get q := (hp.attained q).resolve_right fun ⟨e,he,hqe,_⟩ => hmem ((hqs q).mpr ⟨e,he,hqe⟩)
      rw [hr.moved q hmem]
      split <;> split <;> omega
section
variable {a n j : Nat} {f} {late : Frontier}
namespace Opening
variable (h : Opening ms i f late placed a n)
include h
lemma newAt_eq_nil (hj : j < i) : newAt placed j = [] := by
  refine eq_nil_iff_forall_not_mem.mpr fun op hop => ?_
  have := h.start_le _ (mem_newAt.mp hop)
  omega
lemma order (hlt : ∀ e ∈ placed, e.2 < (widened ms a n ++ replicate k empty).length) :
    SameOrder (opsOf (filled (widened ms a n ++ replicate k empty) (newAt placed)))
      (opsOf (ms.take i) ++ placed.map fst ++ opsOf (ms.drop i)) := by
  have hw := widened_split ms n h.after
  have hlen : (ms.take i).length = i := length_take_of_le (h.after.trans h.inside)
  rw [filled_split h.after h.inside k _ fun _ => h.newAt_eq_nil,opsOf_append,append_assoc]
  refine append_left ((sameOrder_filled i ?_ ?_ h.increasing).trans (of_eq ?_)) _
  · intro e he
    have hlt := hlt e he
    have hge := h.start_le e he
    rw [hw,append_assoc,length_append] at hlt
    omega
  · intro e he j o ho hje
    refine h.free e he (i+j) o (by omega) ?_ (by omega)
    rw [hw,standsAt_append,hlen]
    exact .inr ⟨by omega,by simpa using (standsAt_padded k).mp ho⟩
  · rw [opsOf_append,opsOf_empties,append_nil,opsOf_widened]
lemma overlapFree (hms : ∀ m ∈ ms, OverlapFree m) (hops : ∀ e ∈ placed, (qubits e.1).Nodup) (k) :
    ∀ m ∈ filled (widened ms a n ++ replicate k empty) (newAt placed), OverlapFree m := by
  intro m hm
  obtain ⟨j,hj⟩ := mem_iff_getElem?.mp hm
  rw [filled,getElem?_mapIdx,Option.map_eq_some_iff] at hj
  obtain ⟨m,hget,rfl⟩ := hj
  have hold : OverlapFree m := by
    have hmem := mem_of_getElem? hget
    simp only [widened,mem_append,mem_replicate] at hmem
    rcases hmem with ((hmem | ⟨-,rfl⟩) | hmem) | ⟨-,rfl⟩
    · exact hms m (mem_of_mem_take hmem)
    · exact overlapFree_empty
    · exact hms m (mem_of_mem_drop hmem)
    · exact overlapFree_empty
  refine overlapFree_append hold (overlapFree_iff.mpr ⟨fun op hop => hops _ (mem_newAt.mp hop),?_⟩) ?_
  · rw [newAt,pairwise_map]
    refine (h.increasing.filter _).imp_of_mem fun {x y} hx hy hxy q hqx hqy => ?_
    have hx := (mem_filter.mp hx).2
    have hy := (mem_filter.mp hy).2
    have := hxy q hqx hqy
    simp only [decide_eq_true_eq] at hx hy
    omega
  · intro o ho op hop q hqo hqp
    have hp := mem_newAt.mp hop
    have hij := h.start_le _ hp
    refine h.free _ hp j o (by simpa using hij) ((standsAt_padded k).mp ⟨m,hget,ho⟩) ?_ hqp hqo
    exact le_refl _
lemma divides (hf : Divides f i ms) : Divides late i (filled (widened ms a n ++ replicate k empty) (newAt placed)) := by
  intro j op hij hop
  rcases standsAt_filled.mp hop with hop | ⟨-,hop⟩
  · obtain ⟨l,hl,hjl⟩ := ((standsAt_padded k).mp hop).of_widened h.inside
    have hle : i ≤ l := by
      have := h.after
      omega
    have hj : j = if l < a then l else l+n := by split <;> omega
    rw [hj]
    rcases hf l op hle hl with ho | hc
    · exact .inl fun q hq => (h.keeps l op hle hl q hq).mpr (ho q hq)
    · exact .inr fun q hq => not_le.mp fun hq' => not_le.mpr (hc q hq) ((h.keeps l op hle hl q hq).mp hq')
  · exact .inr fun q hq => h.closes _ (mem_newAt.mp hop) q hq
lemma isOpen_eq (hij : i ≤ j) (hop : StandsAt ms j op) : isOpen late (if j < a then j else j+n) op = isOpen f j op := by
  rw [Bool.eq_iff_iff,isOpen_iff,isOpen_iff]
  exact forall₂_congr fun q hq => h.keeps j op hij hop q hq
lemma openFrom_eq (hne : ∀ e ∈ placed, qubits e.1 ≠ []) {l} (hil : i ≤ l) (hla : l ≤ a) :
    openFrom late l ((filled (widened ms a n ++ replicate k empty) (newAt placed)).drop l) = openFrom f l (ms.drop l) := by
  have ha := h.inside
  have hlen : (ms.take l).length = l := length_take_of_le (hla.trans ha)
  have hlen' : ((ms.drop l).take (a-l)).length = a-l := length_take_of_le (by rw [length_drop]; omega)
  have hd : (widened ms a n ++ replicate k empty).drop l =
      widened (ms.drop l) (a-l) n ++ replicate k empty := by
    rw [widened_split ms n hla,append_assoc,drop_left' hlen]
  have hnew : ∀ j < (widened (ms.drop l) (a-l) n ++ replicate k empty).length,
      ∀ op ∈ newAt placed (l+j), isOpen late (l+j) op = false := by
    intro j _ op hop
    obtain ⟨q,hq⟩ := exists_mem_of_ne_nil _ (hne _ (mem_newAt.mp hop))
    have hc := h.closes _ (mem_newAt.mp hop) q hq
    rw [Bool.eq_false_iff,ne_eq,isOpen_iff]
    exact fun ho => not_le.mpr hc (ho q hq)
  have hb : openFrom late l ((ms.drop l).take (a-l)) = openFrom f l ((ms.drop l).take (a-l)) := by
    refine openFrom_congr fun j op hop => ?_
    obtain ⟨hj,hop⟩ := standsAt_take.mp hop
    rw [← h.isOpen_eq (by omega) (standsAt_drop.mp hop),if_pos (by omega)]
  have haf : openFrom late (a+n) (ms.drop a) = openFrom f a (ms.drop a) := by
    refine openFrom_congr fun j op hop => ?_
    rw [← h.isOpen_eq (by omega) (standsAt_drop.mp hop),if_neg (by omega)]
    congr 1
    omega
  have hs := take_append_drop (a-l) (ms.drop l)
  rw [drop_filled,hd,openFrom_filled hnew,openFrom_append,openFrom_empties,append_nil,widened,
    openFrom_append,openFrom_append,openFrom_empties,append_nil,length_append,hlen',length_replicate,
    hb,drop_drop,show l+(a-l+n) = a+n by omega,show l+(a-l) = a by omega,haf]
  conv_rhs => rw [← hs,openFrom_append,hlen',drop_drop,show l+(a-l) = a by omega]
end Opening
end
lemma distinct_eq_dedup : distinct qs = qs.reverse.dedup.reverse := by
  induction qs using reverseRecOn with
  | nil => rfl
  | append_singleton qs q ih =>
    have hs : distinct (qs ++ [q]) = if (distinct qs).contains q then distinct qs else distinct qs ++ [q] := by
      simp [distinct]
    rw [hs,ih]
    by_cases hq : q ∈ qs <;> simp [hq]
lemma mem_distinct {q qs} : q ∈ distinct qs ↔ q ∈ qs := by simp [distinct_eq_dedup]

/-- What an insertion leaves: the new operations between those before and those from the place on, and a frontier past them. -/
structure Inserted (c d : Circuit α) (ops : List α) (i : Nat) (f g : Frontier) : Prop where
  overlapFree : Legal d
  order : SameOrder d.operations (opsOf (c.moments.take i) ++ ops ++ opsOf (c.moments.drop i))
  divides : Divides g i d.moments
  later : openFrom g (i+1) (d.moments.drop (i+1)) = openFrom f (i+1) (c.moments.drop (i+1))
  stays : ∀ op, StandsAt c.moments i op → StandsAt d.moments i op ∧ isOpen g i op = isOpen f i op
section
variable {c} {f} {ops : List α} (hne : ops ≠ []) (hc : Legal c) (hops : ∀ op ∈ ops, qubits op ≠ [] ∧ (qubits op).Nodup)
  (hf : ∀ op ∈ ops, ∀ q ∈ qubits op, f.get q ≤ i)
include hne hc hops hf

/-- Operations on qubits whose frontier has not passed a place are put into free places of the moments, which have been widened
at a place `a` after all places that lie before the next operations. -/
lemma insertAtFrontier_run {b} (hib : min i c.size ≤ b) (hb : b ≤ c.size) (hnext : ∀ op ∈ ops, ∀ q ∈ qubits op, b ≤ nextOn c i q) :
    ∃ placed early late qs a n k, placed.map fst = ops ∧ b ≤ a ∧ Circuit.assignPlaces i ops f = .ok (placed,early) ∧
      Consecutive i f early placed ∧ k = (placed.foldl (fun (m : Int) e => max m (e.2+1)) 0).toNat-(widened c.moments a n).length ∧
      (∀ q, q ∈ qs ↔ ∃ e ∈ placed, q ∈ qubits e.1) ∧ Room qs (nextOn c i) early late a n ∧
      Opening c.moments (min i c.size) f late placed a n ∧
      c.insertAtFrontier ops i f = (⟨filled (widened c.moments a n ++ replicate k empty) (newAt placed)⟩,.ok late) ∧
      ∀ e ∈ placed, e.2 < (widened c.moments a n ++ replicate k empty).length := by
  obtain ⟨placed,early,ha,rfl,hp⟩ := assignPlaces_spec i ops f fun op hop => (hops op hop).1
  have hmem : ∀ q, q ∈ distinct ((placed.map fst).flatMap qubits) ↔ ∃ e ∈ placed, q ∈ qubits e.1 := by simp [mem_distinct]
  generalize hqs : distinct ((placed.map fst).flatMap qubits) = qs at hmem
  have hall : ∀ q ∈ qs, f.get q ≤ i ∧ b ≤ nextOn c i q := by
    intro q hq
    obtain ⟨e,he,hqe⟩ := (hmem q).mp hq
    exact ⟨hf e.1 (mem_map_of_mem he) q hqe,hnext e.1 (mem_map_of_mem he) q hqe⟩
  obtain ⟨a,n,late,hm,hba,hac,hr⟩ := makeRoom_spec c early qs (nextOn c i) hb
    fun q hq => ⟨(hall q hq).2,(nextOn_spec c i q).1.1⟩
  have hon : Opening c.moments (min i c.size) f late placed a n :=
    .of_room (Nat.min_le_left ..) (hib.trans hba) hac hp hr hmem (fun q hq j hj hij => by have := hall q hq; rw [← Circuit.size] at hj; omega)
      fun q _ j op hij hop => (nextOn_spec c i q).1.2 j op (by have := hop.lt_length; rw [← Circuit.size] at this; omega) hop
  obtain ⟨k,hk,hput,hlt⟩ := putAll_spec ⟨widened c.moments a n⟩
    (fun e he => le_trans (natCast_nonneg i) (hp.start_le e he))
    (hon.overlapFree hc fun e he => (hops e.1 (mem_map_of_mem he)).2)
  refine ⟨placed,early,late,qs,a,n,k,rfl,hba,ha,hp,hk,hmem,hr,hon,?_,hlt⟩
  have hno : ¬ (qs.any fun q => decide (i < f.get q)) := by simpa using fun q hq => (hall q hq).1
  rw [Circuit.insertAtFrontier,if_neg (by simpa using hne),hqs,if_neg hno,ha]
  simp only [nextOf_eq,hm,hput]
end

/-- Operations on qubits whose frontier has not passed a place, and that are free in its moment, can be inserted there. -/
lemma insertAtFrontier_spec {c} {ops : List α} {f : Frontier} (hi : i < c.size) (hc : Legal c)
    (hops : ∀ op ∈ ops, qubits op ≠ [] ∧ (qubits op).Nodup) (hf : ∀ op ∈ ops, ∀ q ∈ qubits op, f.get q ≤ i)
    (hfre : ∀ op ∈ ops, ∀ o, StandsAt c.moments i o → (qubits op).Disjoint (qubits o)) (hdiv : Divides f i c.moments) :
    ∃ d g, c.insertAtFrontier ops i f = (d,.ok g) ∧ Inserted c d ops i f g := by
  by_cases hnil : ops = []
  · subst hnil
    refine ⟨c,f,rfl,hc,of_eq ?_,hdiv,rfl,fun op hop => ⟨hop,rfl⟩⟩
    rw [append_nil,← opsOf_append,take_append_drop]
    rfl
  · have hn : ∀ op ∈ ops, ∀ q ∈ qubits op, i+1 ≤ nextOn c i q := by
      intro op hop q hq
      rcases (nextOn_spec c i q).2 with hl | ⟨j,o,hij,ho,hqo,hl⟩
      · omega
      · have hne : i ≠ j := by
          rintro rfl
          exact hfre op hop o ho hq hqo
        omega
    obtain ⟨placed,early,late,qs,a,n,k,rfl,hia,-,-,-,-,-,hon,hrun,hlt⟩ :=
      insertAtFrontier_run hnil hc hops hf (b := i+1) (by omega) hi hn
    rw [Nat.min_eq_left hi.le] at hon
    have hea : ∀ e ∈ placed, qubits e.1 ≠ [] ∧ (qubits e.1).Nodup := fun e he => hops e.1 (mem_map_of_mem he)
    refine ⟨_,late,hrun,hon.overlapFree hc (fun e he => (hea e he).2) k,hon.order hlt,hon.divides hdiv,
      hon.openFrom_eq (fun e he => (hea e he).1) (by omega) hia,fun op hop => ⟨?_,?_⟩⟩
    · exact standsAt_filled.mpr (.inl ((standsAt_padded k).mpr (hop.widened hia)))
    · simpa [Nat.lt_of_succ_le hia] using hon.isOpen_eq (Nat.le_refl i) hop

/-! ## Where the frontier comes to stand -/
section
lemma onWire_filled (h : ∀ j < ms.length, ∀ op ∈ new j, q ∉ qubits op) :
    onWire q (opsOf (filled ms new)) = onWire q (opsOf ms) := by
  induction ms generalizing new with
  | nil => rfl
  | cons m ms ih =>
    have hnew : onWire q (new 0) = [] := filter_eq_nil_iff.mpr fun op hop => by simpa using h 0 (by simp) op hop
    have hms := ih fun j hj => h (j+1) (by simpa using hj)
    rw [filled_cons]
    simp only [opsOf_cons,onWire_append,hnew,hms,append_nil]
lemma onWire_drop_eq {i j} (hij : i ≤ j) (h : ∀ k op, i ≤ k → k < j → StandsAt ms k op → q ∉ qubits op) :
    onWire q (opsOf (ms.drop i)) = onWire q (opsOf (ms.drop j)) := by
  have hnil : onWire q (stretch ms i j) = [] := by
    refine filter_eq_nil_iff.mpr fun op hop => ?_
    obtain ⟨m,hm,hop⟩ := mem_opsOf.mp hop
    obtain ⟨k,hk⟩ := mem_iff_getElem?.mp hm
    obtain ⟨hkj,hs⟩ := standsAt_take.mp (standsAt_drop.mp ⟨m,hk,hop⟩)
    simpa using h _ op (Nat.le_add_right i k) hkj hs
  rw [opsOf_drop_eq ms hij,onWire_append,hnil,nil_append]

/-- What stands from a place on after the new operations on a qubit is what stood from a corresponding place on. -/
lemma Opening.onWire_drop {f late placed} (h : Opening ms i f late placed a n) (k) {p : Nat}
    (hp : ∀ e ∈ placed, q ∈ qubits e.1 → e.2 < p) :
    onWire q (opsOf ((filled (widened ms a n ++ replicate k empty) (newAt placed)).drop p)) =
      onWire q (opsOf (ms.drop (if p ≤ a then p else max a (p-n)))) := by
  rw [drop_filled,onWire_filled,drop_append,drop_replicate,opsOf_append,opsOf_empties,append_nil,opsOf_drop_widened h.inside]
  intro j _ op hop hq
  have := hp _ (mem_newAt.mp hop) hq
  omega

/-- Operations inserted at a frontier stand on every qubit between those before and those from a place on. The frontier of
their qubits comes to stand right after the last of them, before what is left from the place on, and the frontier of any
other qubit stands before the same operations as it did. -/
theorem insertAtFrontier_order {c : Circuit α} (hc : Legal c) {ops : List α} (hne : ops ≠ [])
    (hops : ∀ op ∈ ops, qubits op ≠ [] ∧ (qubits op).Nodup) (start : Nat) (f : Frontier) :
    ((∀ op ∈ ops, ∀ q ∈ qubits op, f.get q ≤ start) → ∃ d g, c.insertAtFrontier ops start f = (d, .ok g) ∧ Legal d ∧
      (∀ q, d.onQubit q = (⟨c.moments.take start⟩ : Circuit α).onQubit q ++ onWire q ops ++
        (⟨c.moments.drop start⟩ : Circuit α).onQubit q) ∧
      (∀ op ∈ ops, ∀ q ∈ qubits op, (∃ (j : Nat) (o : α), g.get q = j+1 ∧ StandsAt d.moments j o ∧ q ∈ qubits o) ∧
        (⟨d.moments.drop (g.get q).toNat⟩ : Circuit α).onQubit q = (⟨c.moments.drop start⟩ : Circuit α).onQubit q) ∧
      ∀ q, (∀ op ∈ ops, q ∉ qubits op) →
        (⟨d.moments.drop (g.get q).toNat⟩ : Circuit α).onQubit q = (⟨c.moments.drop (f.get q).toNat⟩ : Circuit α).onQubit q) ∧
    ((∃ op ∈ ops, ∃ q ∈ qubits op, start < f.get q) → ∃ why, c.insertAtFrontier ops start f = (c, .error (.value why))) := by
  refine ⟨fun hf => ?_,fun ⟨op,hop,q,hq,hlt⟩ => ?_⟩
  · have hnext : ∀ q, ((min start c.size : Nat) : Int) ≤ nextOn c start q := by
      intro q
      rcases (nextOn_spec c start q).2 with h | ⟨j,-,hij,-,-,h⟩ <;> omega
    obtain ⟨placed,early,late,qs,a,n,k,rfl,hia,-,hp,-,hqs,hr,hon,hrun,hlt⟩ :=
      insertAtFrontier_run hne hc hops hf le_rfl (Nat.min_le_right ..) fun _ _ q _ => hnext q
    have htake : c.moments.take (min start c.size) = c.moments.take start := by simp [Circuit.size]
    have hdrop : c.moments.drop (min start c.size) = c.moments.drop start := by simp [Circuit.size]
    refine ⟨_,late,hrun,hon.overlapFree hc (fun e he => (hops e.1 (mem_map_of_mem he)).2) k,fun q => ?_,
      fun op hop q hq => ?_,fun q hq => ?_⟩
    · have hwire := (hon.order hlt).wire q
      rwa [htake,hdrop,onWire_append,onWire_append] at hwire
    · obtain ⟨e,he,rfl⟩ := mem_map.mp hop
      have hmem := (hqs q).mpr ⟨e,he,hq⟩
      obtain ⟨e',he',hq',hlast⟩ : ∃ e' ∈ placed, q ∈ qubits e'.1 ∧ early.get q = e'.2+1 := by
        refine (hp.attained q).resolve_left fun h => ?_
        have := hp.lt_frontier e he q hq
        have := hp.start_le e he
        have := hf _ hop q hq
        omega
      have hstart := hp.start_le e' he'
      obtain ⟨j,hj⟩ := Int.eq_ofNat_of_zero_le ((Int.natCast_nonneg start).trans hstart)
      rw [hr.asked q hmem,hlast,hj]
      refine ⟨⟨j,e'.1,rfl,standsAt_filled.mpr (.inr ⟨by have := hlt e' he'; omega,mem_newAt.mpr (hj ▸ he')⟩),hq'⟩,?_⟩
      have hbefore := hr.before_next q hmem
      have henough := (hr.enough _).mp le_rfl q hmem
      rw [← hdrop]
      refine (hon.onWire_drop k fun e he hq => ?_).trans (onWire_drop_eq (by split <;> omega) fun l op hl hlt hop hqo => ?_).symm
      · have := hp.lt_frontier e he q hq
        omega
      · have := (nextOn_spec c start q).1.2 l op (by have := hop.lt_length; rw [← Circuit.size] at this; omega) hop hqo
        split at hlt <;> omega
    · have hnot : q ∉ qs := fun h => by
        obtain ⟨e,he,hqe⟩ := (hqs q).mp h
        exact hq _ (mem_map_of_mem he) hqe
      have hsame : early.get q = f.get q := (hp.attained q).resolve_right fun ⟨e,he,hqe,_⟩ => hq _ (mem_map_of_mem he) hqe
      rw [hr.moved q hnot,hsame]
      refine (hon.onWire_drop k fun e he hqe => absurd hqe (hq _ (mem_map_of_mem he))).trans ?_
      congr 3
      split <;> split <;> omega
  · have hany : (distinct (ops.flatMap qubits)).any (fun q => decide ((start : Int) < f.get q)) = true := by
      simpa [mem_distinct] using ⟨q,⟨op,hop,hq⟩,hlt⟩
    exact ⟨_,(if_neg (by simpa using hne)).trans (if_pos hany)⟩

/-- An operation comes to stand between two others on its qubit, and the frontier right after it. -/
theorem between_neighbours_inserted : ∃ (d : Circuit (Operation Number)) (g : Frontier),
    (⟨[⟨[lineGate .x 0]⟩,⟨[lineGate .y 0]⟩]⟩ : Circuit (Operation Number)).insertAtFrontier [lineGate .z 0] 1 [] = (d,.ok g) ∧
      d.onQubit (.line 0) = [lineGate .x 0,lineGate .z 0,lineGate .y 0] ∧
      (⟨d.moments.drop (g.get (.line 0)).toNat⟩ : Circuit (Operation Number)).onQubit (.line 0) = [lineGate .y 0] := by
  have hc : Legal (⟨[⟨[lineGate .x 0]⟩,⟨[lineGate .y 0]⟩]⟩ : Circuit (Operation Number)) := by simp [Legal,overlapFree_singleton]
  obtain ⟨d,g,hrun,-,horder,hafter,-⟩ :=
    (insertAtFrontier_order hc (cons_ne_nil (lineGate .z 0) []) (by simp) 1 []).1 (by simp [Frontier.get,Frontier.get?])
  exact ⟨d,g,hrun,horder _,(hafter _ mem_cons_self _ mem_cons_self).2⟩
end
end QuantumCircuits.FrontierInsertion
