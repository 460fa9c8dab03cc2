import QuantumCircuits.Proofs.BatchInsertion
import QuantumCircuits.Optimizer

/-! # Carrying out edits

A pass notes for each operation what comes right before it and what stands in its place. At the end operations are
taken out of their moments, others are put into these moments, and the rest is inserted before them. On every qubit the
operations then stand in the order of the notes.
-/
namespace QuantumCircuits.CircuitEdits
open WireOrder Circuit BatchInsertion List Function SameOrder
variable {i : Nat}

/-! ## Insertions that pass no moment -/
section
variable [Located α]
/-- A batch whose operations are held by the moments of their indices comes to stand as it is requested. -/
lemma batchInsert_held {c} (hc : Legal c) {ins : List (Int × α)}
    (hins : ∀ e ∈ ins, 0 ≤ e.1 ∧ e.1 ≤ c.size) (hn : ∀ e ∈ ins, (qubits e.2).Nodup)
    (hh : ∀ e ∈ ins, ∀ m ∈ c.moments[e.1.toNat]?, ¬ Apart [e.2] m.ops) :
    ∃ d, c.batchInsert .none (ins.map fun e => (e.1,.leaf e.2)) = .ok d ∧ Legal d ∧
      SameOrder d.operations (requested c ins) := by
  obtain ⟨d,shift,ts,hrun,hf,hadv,hord,ha,-,-,hp,-⟩ := (ready_start hc).run (coming_grouped hins hn)
  have hgr : ∀ g ∈ grouped ins, Held c.moments g.1.toNat g.2 := fun g hg x hx => hh _ (mem_of_mem_grouped hg hx)
  have hs := weave_sameOrder le_rfl hadv (hp hgr (by simp [excess]))
  rw [ha,laidOut_grouped hins] at hs
  exact ⟨d,batchInsert_eq hrun,hf,hord.trans hs.symm⟩
end

/-! ## Changes within moments -/
section
variable {α : Type}
def opsAt (es : List (Int × α)) (i : Nat) : List α := (es.filter fun e => e.1 = (i : Int)).map Prod.snd
lemma opsAt_cons_self (i : Nat) (op) (es : List (Int × α)) : opsAt ((i,op) :: es) i = op :: opsAt es i := by
  simp [opsAt]
lemma opsAt_cons_of_ne {i j : Nat} (h : j ≠ i) (op) (es : List (Int × α)) : opsAt ((i,op) :: es) j = opsAt es j := by
  have hne : i ≠ j := by omega
  simp [opsAt,hne]
lemma place?_natCast {c : Circuit α} (hi : i < c.size) : c.place? i = some i := by
  have hneg : ¬ (i : Int) < 0 := by omega
  simp [place?,hneg,hi]
lemma getD_setMoment (c : Circuit α) (hi : i < c.size) (m j) :
    (c.setMoment i m).moments.getD j ⟨[]⟩ = if j = i then m else c.moments.getD j ⟨[]⟩ := by
  have hi' : i < c.moments.length := hi
  by_cases h : j = i
  · subst h
    simp [setMoment,hi']
  · simp [setMoment,h,getElem?_set_ne (.symm h)]
lemma foldlM_takeOut [BEq α] {take : Moment α → α → Outcome (Moment α)}
    (ht : ∀ m op, m.ops.contains op → take m op = .ok ⟨m.ops.filter fun o => !(op == o)⟩) {m} {xs : List α}
    (hmem : ∀ x ∈ xs, x ∈ m.ops ∧ (x == x)) (hne : xs.Pairwise fun x y => (x == y) = false) :
    xs.foldlM take m = .ok ⟨m.ops.filter fun o => xs.all fun x => !(x == o)⟩ := by
  induction xs generalizing m with
  | nil => simp; rfl
  | cons x xs ih =>
    obtain ⟨hx,hxx⟩ := hmem x mem_cons_self
    obtain ⟨hf,hr⟩ := pairwise_cons.mp hne
    have hco : m.ops.contains x := contains_iff_exists_mem_beq.mpr ⟨x,hx,hxx⟩
    rw [foldlM_cons,ht m x hco]
    refine (ih (fun y hy => ?_) hr).trans ?_
    · obtain ⟨hym,hyy⟩ := hmem y (mem_cons_of_mem _ hy)
      exact ⟨mem_filter.mpr ⟨hym,by simp [hf y hy]⟩,hyy⟩
    · simp [Bool.and_comm]
lemma foldlM_withOp [Located α] {m} {xs : List α} (h : OverlapFree ⟨m.ops ++ xs⟩) : xs.foldlM Moment.withOp m = .ok ⟨m.ops ++ xs⟩ := by
  induction xs generalizing m with
  | nil => simp; rfl
  | cons x xs ih =>
    have ha : m.ops ++ x :: xs = (m.ops ++ [x]) ++ xs := by simp
    rw [ha] at h ⊢
    have hf : m.withOp x = .ok ⟨m.ops ++ [x]⟩ := ofList_eq_ok (overlapFree_sublist h (sublist_append_left _ _))
    rw [foldlM_cons,hf]
    exact ih h
variable {c : Circuit α} {es : List (Int × α)} (hes : ∀ e ∈ es, ∃ i : Nat, i < c.size ∧ e.1 = i)
include hes
lemma foldlM_moments {step : Circuit α → Int × α → Outcome (Circuit α)} {change : Nat → Moment α → α → Outcome (Moment α)}
    (hst : ∀ c i op m, i < c.size → change i (c.moments.getD i ⟨[]⟩) op = .ok m → step c (i,op) = .ok (c.setMoment i m))
    {g} (hg : ∀ i < c.size, (opsAt es i).foldlM (change i) (c.moments.getD i ⟨[]⟩) = .ok (g i)) :
    es.foldlM step c = .ok ⟨(range c.size).map g⟩ := by
  induction es generalizing c with
  | nil =>
    have hsa : (range c.size).map g = c.moments := by
      apply ext_getElem (by simp [size])
      intro i hi hi'
      have hget := Except.ok.inj (hg i hi')
      simpa [hi'] using hget.symm
    rw [hsa]
    rfl
  | cons e es ih =>
    obtain ⟨i,hi,hei⟩ := hes e mem_cons_self
    obtain ⟨k,op⟩ := e
    obtain rfl : k = i := hei
    have hf := hg i hi
    rw [opsAt_cons_self,foldlM_cons] at hf
    cases hm : change i (c.moments.getD i ⟨[]⟩) op with
    | error f =>
      rw [hm] at hf
      cases hf
    | ok m =>
      rw [hm] at hf
      have hs : (c.setMoment i m).size = c.size := by simp [setMoment,size]
      rw [foldlM_cons,hst c i op m hi hm,← hs]
      refine ih (fun e he => ?_) fun j hj => ?_
      · rw [hs]
        exact hes e (mem_cons_of_mem _ he)
      · rw [hs] at hj
        rw [getD_setMoment c hi]
        by_cases hji : j = i
        · rw [if_pos hji,hji]
          exact hf
        · rw [if_neg hji,← opsAt_cons_of_ne hji op es]
          exact hg j hj
variable [Located α]
lemma batchRemove_eq [BEq α] (hmem : ∀ i < c.size, ∀ x ∈ opsAt es i, x ∈ (c.moments.getD i ⟨[]⟩).ops ∧ (x == x))
    (hne : ∀ i < c.size, (opsAt es i).Pairwise fun x y => (x == y) = false) :
    c.batchRemove .none es = .ok ⟨(range c.size).map fun i =>
      ⟨(c.moments.getD i ⟨[]⟩).ops.filter fun o => (opsAt es i).all fun x => !(x == o)⟩⟩ := by
  have hf := @foldlM_moments α _ _ hes (fun c e => do
      let p ← orFail .index (c.place? e.1)
      let m := c.moments.getD p .empty
      if m.ops.contains e.2 then .ok (c.setMoment p ⟨m.ops.filter fun o => !(e.2 == o)⟩)
      else .error (.value ("Can't remove " ++ Located.text e.2 ++ " @ " ++ toString e.1 ++ " because it doesn't exist.")))
    (fun i m op => if m.ops.contains op then .ok ⟨m.ops.filter fun o => !(op == o)⟩
      else .error (.value ("Can't remove " ++ Located.text op ++ " @ " ++ toString i ++ " because it doesn't exist.")))
    ?_ _ fun i hi => foldlM_takeOut (fun m op h => if_pos h) (hmem i hi) (hne i hi)
  · simp only [batchRemove]
    rw [hf]
    rfl
  · intro c i op m hi hm
    simp only [place?_natCast hi]
    split at hm
    case isTrue hco =>
      obtain rfl := Except.ok.inj hm
      exact if_pos hco
    case isFalse => cases hm
lemma batchInsertInto_eq (hfr : ∀ i < c.size, OverlapFree ⟨(c.moments.getD i ⟨[]⟩).ops ++ opsAt es i⟩) :
    c.batchInsertInto .none es = .ok ⟨(range c.size).map fun i => ⟨(c.moments.getD i ⟨[]⟩).ops ++ opsAt es i⟩⟩ := by
  have hf := @foldlM_moments α _ _ hes (fun c e => do
      let p ← orFail .index (c.place? e.1)
      .ok (c.setMoment p (← (c.moments.getD p .empty).withOp e.2)))
    (fun _ => Moment.withOp) ?_ _ fun i hi => foldlM_withOp (hfr i hi)
  · simp only [batchInsertInto]
    rw [hf]
    rfl
  · intro c i op m hi hm
    simp only [place?_natCast hi]
    exact congrArg (· >>= fun m => Except.ok (c.setMoment i m)) hm
end

/-! ## Plans -/
section
variable {α : Type} (c : Circuit α)
/-- What a pass notes for an operation: what comes right before it, and what stands in its place unless it stays. -/
structure Change (α : Type) where
  index : Nat
  op : α
  before : List α
  instead : Option (List α)
namespace Change
variable (t : Change α)
def taken : List α := if t.instead.isSome then [t.op] else []
def kept : List α := if t.instead.isSome then [] else [t.op]
def put : List α := t.instead.getD []
def now : List α := t.kept ++ t.put
@[simp] lemma now_keep (i op) (ws : List α) : now ⟨i,op,ws,none⟩ = [op] := rfl
@[simp] lemma now_instead (i op) (ws new : List α) : now ⟨i,op,ws,some new⟩ = new := rfl
lemma eq_op_of_mem_taken {t : Change α} {x} (hx : x ∈ t.taken) : x = t.op ∧ t.instead.isSome := by
  unfold taken at hx
  split at hx
  case isTrue h => exact ⟨mem_singleton.mp hx,h⟩
  case isFalse => cases hx
end Change
open Change
def changesAt (ts : List (Change α)) (i : Nat) : List (Change α) := ts.filter fun t => t.index = i
def circuitOf (n : Nat) (part : List (Change α) → List α) (ts : List (Change α)) : Circuit α :=
  ⟨(List.range n).map fun i => ⟨part (changesAt ts i)⟩⟩
@[simp] lemma size_circuitOf (n part) (ts : List (Change α)) :
    (circuitOf n part ts).size = n := by
  simp [circuitOf,size]
lemma getD_circuitOf {n i} (hi : i < n) (part) (ts : List (Change α)) :
    (circuitOf n part ts).moments.getD i ⟨[]⟩ = ⟨part (changesAt ts i)⟩ := by
  simp [circuitOf,hi]
def noted (part : Change α → List α) (ts : List (Change α)) : List (Int × α) :=
  ts.flatMap fun t => (part t).map fun o => ((t.index : Int),o)
lemma noted_append (part) (ts us : List (Change α)) :
    noted part (ts ++ us) = noted part ts ++ noted part us := flatMap_append ..
lemma opsAt_append (es fs : List (Int × α)) (i) : opsAt (es ++ fs) i = opsAt es i ++ opsAt fs i := by simp [opsAt]
lemma opsAt_map_pair (i j : Nat) (os : List α) : opsAt (os.map fun o => (j,o)) i = if j = i then os else [] := by
  by_cases h : j = i <;> simp [opsAt,h,filter_map]
lemma opsAt_noted (part) (ts : List (Change α)) (i) :
    opsAt (noted part ts) i = (changesAt ts i).flatMap part := by
  induction ts with
  | nil => rfl
  | cons t ts ih =>
    have hco : noted part (t :: ts) = (part t).map (fun o => ((t.index : Int),o)) ++ noted part ts := rfl
    rw [hco,opsAt_append,opsAt_map_pair,ih]
    by_cases h : t.index = i <;> simp [changesAt,h]
lemma index_of_mem_noted {part ts} {e : Int × α} (he : e ∈ noted part ts) : ∃ t ∈ ts, e.1 = t.index ∧ e.2 ∈ part t := by
  obtain ⟨t,ht,he⟩ := mem_flatMap.mp he
  obtain ⟨o,ho,rfl⟩ := mem_map.mp he
  exact ⟨t,ht,rfl,ho⟩

/-- A list in the order of its keys is the lists of its keys one after the other. -/
lemma flatMap_filter_key {β : Type} (key : β → Nat) {p n xs} (hs : xs.Pairwise fun a b => key a ≤ key b)
    (hkey : ∀ x ∈ xs, p ≤ key x ∧ key x < p+n) : keyed key (fun x => [x]) (fun _ => []) xs p n = xs := by
  induction xs generalizing p n with
  | nil => simp [keyed_nil]
  | cons x xs ih =>
    obtain ⟨hle,hs⟩ := pairwise_cons.mp hs
    obtain ⟨⟨hp,hn⟩,hr⟩ := forall_mem_cons.mp hkey
    rw [keyed_cons hp hn hle,ih hs fun y hy => ⟨hle y hy,by have := hr y hy; omega⟩]
    simp
lemma placed_eq : c.placed = (range c.size).flatMap fun i => (c.moments.getD i ⟨[]⟩).ops.map fun op => (i,op) := by
  have hzip : c.moments.zipIdx = (range c.size).map fun i => (c.moments.getD i ⟨[]⟩,i) := by
    apply ext_getElem (by simp [size])
    intro i hi hi'
    have hlt : i < c.moments.length := by simpa using hi
    simp [hlt]
  rw [placed,hzip,flatMap_map]
lemma map_placed : c.placed.map Prod.snd = c.operations := by
  simp only [placed,operations,map_flatMap,map_map,comp_def,map_id']
  rw [← flatMap_map,zipIdx_map_fst]
lemma sorted_placed : c.placed.Pairwise fun a b => a.1 ≤ b.1 := by
  rw [placed_eq]
  refine pairwise_flatMap.mpr ⟨fun i _ => ?_,pairwise_lt_range.imp ?_⟩
  · exact pairwise_map.mpr (pairwise_of_forall fun _ _ => le_rfl)
  · intro i j hij a ha b hb
    obtain ⟨x,-,rfl⟩ := mem_map.mp ha
    obtain ⟨y,-,rfl⟩ := mem_map.mp hb
    exact hij.le
lemma lt_of_mem_placed {c : Circuit α} {e} (he : e ∈ c.placed) : e.1 < c.size := by
  rw [placed_eq] at he
  obtain ⟨i,hi,he⟩ := mem_flatMap.mp he
  obtain ⟨op,-,rfl⟩ := mem_map.mp he
  exact mem_range.mp hi
lemma placed_at (hi : i < c.size) : (c.placed.filter fun e => e.1 = i).map Prod.snd = (c.moments.getD i ⟨[]⟩).ops := by
  have hs : ∀ j, ((c.moments.getD j ⟨[]⟩).ops.map fun op => (j,op)).filter (fun e => e.1 = i) =
      if j = i then (c.moments.getD j ⟨[]⟩).ops.map fun op => (j,op) else [] := by
    intro j
    by_cases h : j = i <;> simp [h,filter_map,comp_def]
  rw [placed_eq,filter_flatMap]
  simp only [hs]
  have hone : ∀ n (f : Nat → List (Nat × α)), (range n).flatMap (fun j => if j = i then f j else []) =
      if i < n then f i else [] := by
    intro n f
    induction n with
    | zero => rfl
    | succ n ih =>
      rw [range_succ,flatMap_append,ih,flatMap_singleton]
      grind
  rw [hone,if_pos hi]
  simp
def Covers (ts : List (Change α)) (c : Circuit α) : Prop := ts.map (fun t => (t.index,t.op)) = c.placed
namespace Covers
variable {ts : List (Change α)} {c} (h : Covers ts c)
include h
lemma lt_size {t} (ht : t ∈ ts) : t.index < c.size := by
  have hmem : (t.index,t.op) ∈ c.placed := h ▸ mem_map_of_mem ht
  exact lt_of_mem_placed hmem
lemma ops_changesAt (hi : i < c.size) : (changesAt ts i).map op = (c.moments.getD i ⟨[]⟩).ops := by
  rw [← placed_at c hi,← h,filter_map,map_map]
  rfl
lemma flatMap_changesAt : (range c.size).flatMap (changesAt ts) = ts := by
  have hs : ts.Pairwise fun t u => t.index ≤ u.index := by
    have hp := sorted_placed c
    rw [← h,pairwise_map] at hp
    exact hp
  have hk := flatMap_filter_key index (p := 0) (n := c.size) hs fun t ht => ⟨Nat.zero_le _,by simpa using h.lt_size ht⟩
  simp only [keyed,append_nil,flatMap_singleton'] at hk
  rw [range_eq_range']
  exact hk
lemma exists_index {part} : ∀ e ∈ noted part ts, ∃ i, i < c.size ∧ e.1 = i := by
  intro e he
  obtain ⟨t,ht,hidx,-⟩ := index_of_mem_noted he
  exact ⟨t.index,h.lt_size ht,hidx⟩
end Covers
variable [Located α]
/-- A change that stays on the qubits of its operation, and can be carried out without touching others. -/
structure Change.Sound [BEq α] (t : Change α) : Prop where
  within : ∀ o ∈ t.before ++ t.now, qubits o ⊆ qubits t.op
  before_free : OverlapFree ⟨t.before⟩
  now_free : OverlapFree ⟨t.now⟩
  held : ∀ o ∈ t.before, ¬ Apart [o] t.now
  found : ∀ x ∈ t.taken, (x == x) = true ∧ ∀ o, (x == o) = true → ¬ (qubits x).Disjoint (qubits o)
lemma sameOrder_flatMap {β : Type} {f g : β → List α} {xs : List β} (h : ∀ x ∈ xs, SameOrder (f x) (g x)) :
    SameOrder (xs.flatMap f) (xs.flatMap g) := by
  induction xs with
  | nil => exact refl _
  | cons x xs ih => exact (h x mem_cons_self).append (ih (forall_mem_cons.mp h).2)
lemma overlapFree_perm {xs ys : List α} (hp : xs.Perm ys) (h : OverlapFree ⟨xs⟩) : OverlapFree ⟨ys⟩ :=
  (hp.flatMap_right qubits).nodup h
section
variable [BEq α] {us : List (Change α)} (hpair : us.Pairwise fun t u => (qubits t.op).Disjoint (qubits u.op))
include hpair
omit [BEq α] in
lemma overlapFree_flatMap {part : Change α → List α} (hf : ∀ t ∈ us, OverlapFree ⟨part t⟩)
    (hw : ∀ t ∈ us, ∀ o ∈ part t, qubits o ⊆ qubits t.op) : OverlapFree ⟨us.flatMap part⟩ := by
  induction us with
  | nil => exact overlapFree_empty
  | cons t us ih =>
    obtain ⟨hfi,hr⟩ := pairwise_cons.mp hpair
    refine overlapFree_append (hf t mem_cons_self) (ih hr ?_ ?_) ?_
    · exact (forall_mem_cons.mp hf).2
    · exact (forall_mem_cons.mp hw).2
    · intro x hx y hy q hqx hqy
      obtain ⟨u,hu,hy⟩ := mem_flatMap.mp hy
      exact hfi u hu (hw t mem_cons_self x hx hqx) (hw u (mem_cons_of_mem _ hu) y hy hqy)
variable (hsound : ∀ t ∈ us, t.Sound)
include hsound
lemma sameOrder_blocks : SameOrder (us.flatMap before ++ us.flatMap now) (us.flatMap fun t => t.before ++ t.now) := by
  induction us with
  | nil => exact refl _
  | cons t us ih =>
    obtain ⟨hf,hr⟩ := pairwise_cons.mp hpair
    have ha : Apart (us.flatMap before) t.now := by
      intro x hx y hy q hqx hqy
      obtain ⟨u,hu,hx⟩ := mem_flatMap.mp hx
      have hqu := (hsound u (mem_cons_of_mem _ hu)).within x (mem_append_left _ hx) hqx
      exact hf u hu ((hsound t mem_cons_self).within y (mem_append_right _ hy) hqy) hqu
    have hs := ((swap ha).append_left t.before).append_right (us.flatMap now)
    have ht := (ih hr (forall_mem_cons.mp hsound).2).append_left (t.before ++ t.now)
    simp only [flatMap_cons,append_assoc] at hs ht ⊢
    exact hs.trans ht
lemma filter_taken :
    (us.map op).filter (fun o => (us.flatMap taken).all fun x => !(x == o)) = us.flatMap kept := by
  have hk : us.flatMap kept = (us.filter fun t => !t.instead.isSome).map op := by
    clear hpair hsound
    induction us with
    | nil => rfl
    | cons t us ih => cases h : t.instead <;> simp [kept,h,ih]
  rw [hk,filter_map]
  congr 1
  refine filter_congr fun t ht => ?_
  have hs : Std.Symm fun t u : Change α => (qubits t.op).Disjoint (qubits u.op) := ⟨fun _ _ h _ ha hb => h hb ha⟩
  cases hin : t.instead with
  | some os =>
    have hta : t.op ∈ t.taken := by simp [taken,hin]
    simp only [comp_apply,Option.isSome_some,Bool.not_true,all_eq_false]
    exact ⟨t.op,mem_flatMap.mpr ⟨t,ht,hta⟩,by simp [((hsound t ht).found t.op hta).1]⟩
  | none =>
    simp only [comp_apply,Option.isSome_none,Bool.not_false,all_eq_true]
    intro x hx
    obtain ⟨u,hu,hxu⟩ := mem_flatMap.mp hx
    have hux := eq_op_of_mem_taken hxu
    have hne : u ≠ t := by
      rintro rfl
      simp [hin] at hux
    rw [hux.1] at hxu ⊢
    by_contra hbeq
    exact ((hsound u hu).found u.op hxu).2 t.op (by simpa using hbeq) (hpair.forall hu ht hne)
lemma pairwise_taken : (us.flatMap taken).Pairwise fun x y => (x == y) = false := by
  refine pairwise_flatMap.mpr ⟨fun t _ => ?_,?_⟩
  · unfold taken
    split
    · exact pairwise_singleton _ _
    · exact Pairwise.nil
  · refine hpair.imp_of_mem fun {t u} ht hu hd x hx y hy => ?_
    by_contra hbeq
    refine ((hsound t ht).found x hx).2 y (by simpa using hbeq) ?_
    rw [(eq_op_of_mem_taken hx).1,(eq_op_of_mem_taken hy).1]
    exact hd
end
section
variable [BEq α] {c} (hc : Legal c) {ts : List (Change α)} (hcovers : Covers ts c) (hsound : ∀ t ∈ ts, t.Sound)
include hc hcovers
omit [BEq α] in
lemma pairwise_changesAt (hi : i < c.size) : (changesAt ts i).Pairwise fun t u => (qubits t.op).Disjoint (qubits u.op) := by
  have hget : c.moments.getD i ⟨[]⟩ ∈ c.moments := by
    have hlt : i < c.moments.length := hi
    simp [hlt]
  have hpair := (overlapFree_iff.mp (hc _ hget)).2
  rw [← hcovers.ops_changesAt hi,pairwise_map] at hpair
  exact hpair
include hsound
lemma batchRemove_changes : c.batchRemove .none (noted taken ts) = .ok (circuitOf c.size (flatMap kept) ts) := by
  have hsound' : ∀ i, ∀ t ∈ changesAt ts i, t.Sound := fun i t ht => hsound t (mem_filter.mp ht).1
  rw [batchRemove_eq hcovers.exists_index]
  · congr 2
    refine map_congr_left fun i hi => ?_
    have hi' := mem_range.mp hi
    rw [opsAt_noted,← hcovers.ops_changesAt hi',filter_taken (pairwise_changesAt hc hcovers hi') (hsound' i)]
  · intro i hi x hx
    rw [opsAt_noted] at hx
    obtain ⟨t,ht,hx⟩ := mem_flatMap.mp hx
    refine ⟨?_,((hsound' i t ht).found x hx).1⟩
    rw [← hcovers.ops_changesAt hi,(eq_op_of_mem_taken hx).1]
    exact mem_map_of_mem ht
  · intro i hi
    rw [opsAt_noted]
    exact pairwise_taken (pairwise_changesAt hc hcovers hi) (hsound' i)
def standing (us : List (Change α)) : List α := us.flatMap Change.kept ++ us.flatMap Change.put
lemma overlapFree_standing (hi : i < c.size) : OverlapFree ⟨standing (changesAt ts i)⟩ := by
  have hsound' : ∀ t ∈ changesAt ts i, t.Sound := fun t ht => hsound t (mem_filter.mp ht).1
  have hnow : OverlapFree ⟨(changesAt ts i).flatMap now⟩ :=
    overlapFree_flatMap (pairwise_changesAt hc hcovers hi) (fun t ht => (hsound' t ht).now_free)
      fun t ht o ho => (hsound' t ht).within o (mem_append_right _ ho)
  exact overlapFree_perm (flatMap_append_perm _ _ _).symm hnow
lemma batchInsertInto_changes : (circuitOf c.size (flatMap kept) ts).batchInsertInto .none (noted put ts) =
    .ok (circuitOf c.size standing ts) := by
  have hes : ∀ e ∈ noted put ts, ∃ i, i < (circuitOf c.size (flatMap kept) ts).size ∧ e.1 = i := by
    rw [size_circuitOf]
    exact hcovers.exists_index
  rw [batchInsertInto_eq hes,size_circuitOf]
  · congr 2
    refine map_congr_left fun i hi => ?_
    rw [getD_circuitOf (mem_range.mp hi),opsAt_noted]
    rfl
  · intro i hi
    rw [size_circuitOf] at hi
    rw [getD_circuitOf hi,opsAt_noted]
    exact overlapFree_standing hc hcovers hsound hi
def insertions (ts : List (Change α)) (n : Nat) (tail : List α) : List (Int × α) :=
  noted Change.before ts ++ tail.map fun o => ((n : Int),o)
omit [Located α] [BEq α] hc hcovers hsound in
lemma insertedAt_insertions (n tail) (i : Nat) :
    insertedAt (insertions ts n tail) i = ((changesAt ts i).flatMap before ++ if n = i then tail else []).reverse := by
  have hat : insertedAt (insertions ts n tail) i = (opsAt (insertions ts n tail) i).reverse := rfl
  rw [hat,insertions,opsAt_append,opsAt_noted,opsAt_map_pair]
lemma sameOrder_at (hi : i < c.size) (tail) :
    SameOrder (insertedAt (insertions ts c.size tail) i ++ standing (changesAt ts i))
      ((changesAt ts i).flatMap fun t => t.before ++ t.now) := by
  have hsound' : ∀ t ∈ changesAt ts i, t.Sound := fun t ht => hsound t (mem_filter.mp ht).1
  have hpair := pairwise_changesAt hc hcovers hi
  have hb : OverlapFree ⟨(changesAt ts i).flatMap before⟩ :=
    overlapFree_flatMap hpair (fun t ht => (hsound' t ht).before_free)
      fun t ht o ho => (hsound' t ht).within o (mem_append_left _ ho)
  rw [insertedAt_insertions,if_neg (Nat.ne_of_gt hi),append_nil]
  refine trans (append ?_ ?_) (sameOrder_blocks hpair hsound')
  · exact (sameOrder_of_overlapFree hb (reverse_perm _).symm).symm
  · exact sameOrder_of_overlapFree (overlapFree_standing hc hcovers hsound hi) (flatMap_append_perm _ _ _)
lemma sameOrder_requested {tail} (hta : OverlapFree ⟨tail⟩) :
    SameOrder (requested (circuitOf c.size standing ts) (insertions ts c.size tail))
      (ts.flatMap (fun t => t.before ++ t.now) ++ tail) := by
  have hend : insertedAt (insertions ts c.size tail) c.size = tail.reverse := by
    have hn : changesAt ts c.size = [] := filter_eq_nil_iff.mpr fun t ht => by simpa using (hcovers.lt_size ht).ne
    rw [insertedAt_insertions,hn,if_pos rfl]
    rfl
  have hl : (circuitOf c.size standing ts).moments.getD c.size ⟨[]⟩ = ⟨[]⟩ := by simp [circuitOf]
  have hb : ts.flatMap (fun t => t.before ++ t.now) =
      (range c.size).flatMap fun i => (changesAt ts i).flatMap fun t => t.before ++ t.now := by
    nth_rewrite 1 [← hcovers.flatMap_changesAt]
    exact flatMap_assoc
  rw [requested,size_circuitOf,range_succ,flatMap_append,hb]
  refine append (sameOrder_flatMap fun i hi => ?_) ?_
  · have hi' := mem_range.mp hi
    have hget := getD_circuitOf hi' standing ts
    rw [Moment.empty,hget]
    exact sameOrder_at hc hcovers hsound hi' tail
  · rw [flatMap_singleton,hend,Moment.empty,hl,append_nil]
    exact (sameOrder_of_overlapFree hta (reverse_perm _).symm).symm

/-- The three batches that carry out all changes succeed, and leave the operations in the order of the changes. -/
lemma batches_order {tail} (hta : OverlapFree ⟨tail⟩) :
    ∃ d, c.batchRemove .none (noted taken ts) = .ok (circuitOf c.size (flatMap kept) ts) ∧
      (circuitOf c.size (flatMap kept) ts).batchInsertInto .none (noted put ts) =
        .ok (circuitOf c.size standing ts) ∧
      (circuitOf c.size standing ts).batchInsert .none ((insertions ts c.size tail).map fun e => (e.1,.leaf e.2)) = .ok d ∧
      Legal d ∧ SameOrder d.operations (ts.flatMap (fun t => t.before ++ t.now) ++ tail) := by
  have hf : ∀ m ∈ (circuitOf c.size standing ts).moments, OverlapFree m := by
    intro m hm
    obtain ⟨i,hi,rfl⟩ := mem_map.mp hm
    exact overlapFree_standing hc hcovers hsound (mem_range.mp hi)
  have hins : ∀ e ∈ insertions ts c.size tail, (∃ t ∈ ts, e.1 = t.index ∧ e.2 ∈ t.before) ∨ e.1 = c.size ∧ e.2 ∈ tail := by
    intro e he
    rcases mem_append.mp he with he | he
    · exact .inl (index_of_mem_noted he)
    · obtain ⟨o,ho,rfl⟩ := mem_map.mp he
      exact .inr ⟨rfl,ho⟩
  have hp : ∀ e ∈ insertions ts c.size tail, 0 ≤ e.1 ∧ e.1 ≤ (circuitOf c.size standing ts).size := by
    intro e he
    rw [size_circuitOf]
    rcases hins e he with ⟨t,ht,hidx,-⟩ | ⟨hidx,-⟩
    · have := hcovers.lt_size ht
      omega
    · omega
  have hn : ∀ e ∈ insertions ts c.size tail, (qubits e.2).Nodup := by
    intro e he
    rcases hins e he with ⟨t,ht,-,hmem⟩ | ⟨-,hmem⟩
    · exact (overlapFree_iff.mp (hsound t ht).before_free).1 _ hmem
    · exact (overlapFree_iff.mp hta).1 _ hmem
  have hh : ∀ e ∈ insertions ts c.size tail, ∀ m ∈ (circuitOf c.size standing ts).moments[e.1.toNat]?,
      ¬ Apart [e.2] m.ops := by
    intro e he m hm ha
    rcases hins e he with ⟨t,ht,hidx,hmem⟩ | ⟨hidx,-⟩
    · have hget := getD_circuitOf (hcovers.lt_size ht) standing ts
      rw [hidx,Int.toNat_natCast] at hm
      rw [getD_eq_getElem?_getD,Option.mem_def.mp hm,Option.getD_some] at hget
      -- What stands in the place of the operation is among what the moment holds.
      refine (hsound t ht).held _ hmem fun x hx y hy => ha x hx y ?_
      have hat : t ∈ changesAt ts t.index := mem_filter.mpr ⟨ht,by simp⟩
      rw [hget]
      exact (flatMap_append_perm _ _ _).mem_iff.mpr (mem_flatMap.mpr ⟨t,hat,hy⟩)
    · rw [hidx] at hm
      simp [circuitOf] at hm
  obtain ⟨d,hrun,hf',hord⟩ := batchInsert_held hf hp hn hh
  exact ⟨d,batchRemove_changes hc hcovers hsound,batchInsertInto_changes hc hcovers hsound,hrun,hf',
    hord.trans (sameOrder_requested hc hcovers hsound hta)⟩
end
end
def editsOf {R : Type} (ts : List (Change (Operation R))) (n : Nat) (tail : Ops R) : Edits R where
  removed := noted Change.taken ts
  added := noted Change.put ts
  inserted := insertions ts n tail

/-- Edits that follow the operations of a circuit are carried out, and leave the operations in the order of the changes. -/
lemma apply_order {R : Type} [RealScalar R] [OperationText R] {c} (hc : Legal c) {ts}
    (hcovers : Covers ts c) (hsound : ∀ t ∈ ts, t.Sound) {tail : Ops R} (ht : OverlapFree ⟨tail⟩) :
    ∃ d, (editsOf ts c.size tail).apply .none c = (d,.ok ()) ∧ Legal d ∧
      SameOrder d.operations (ts.flatMap (fun t => t.before ++ t.now) ++ tail) := by
  obtain ⟨d,hr,hadd,hin,hf,hord⟩ := batches_order hc hcovers hsound ht
  refine ⟨d,?_,hf,hord⟩
  simp only [Edits.apply,editsOf,hr,hadd,hin]
end QuantumCircuits.CircuitEdits
