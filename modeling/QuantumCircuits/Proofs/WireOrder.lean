import Mathlib
import QuantumCircuits.Operation.Placing

/-! # The order of operations on each qubit

A list of operations says which operations it holds and in which order those on one qubit stand. Two lists that agree
in this have the same product under every reading in which operations on different qubits commute.
-/
namespace QuantumCircuits.WireOrder
open List
variable {q : Qubit}
lemma mapM_eq_pure {m : Type → Type} [Monad m] [LawfulMonad m] {α β : Type} {f : α → m β} {g : α → β}
    {xs : List α} (h : ∀ x ∈ xs, f x = pure (g x)) : xs.mapM f = pure (xs.map g) := by
  induction xs with
  | nil => rfl
  | cons x xs ih =>
    obtain ⟨hx,hxs⟩ := forall_mem_cons.mp h
    simp [hx,ih hxs]
section
variable {α M : Type} [Monoid M] {effect : α → M} {xs : List α} {m : Moment α} {ys : List α}
def opsOf (ms : Moments α) : List α := ms.flatMap Moment.ops
@[simp] lemma opsOf_nil : opsOf ([] : Moments α) = [] := rfl
@[simp] lemma opsOf_cons (m) (ms : Moments α) : opsOf (m :: ms) = m.ops ++ opsOf ms := rfl
@[simp] lemma opsOf_append (ms ns : Moments α) : opsOf (ms ++ ns) = opsOf ms ++ opsOf ns := by simp [opsOf]
variable {op : α}
lemma mem_opsOf {ms} : op ∈ opsOf ms ↔ ∃ m ∈ ms, op ∈ m.ops := by simp [opsOf]
def product (effect : α → M) (ops : List α) : M := (ops.map effect).prod
lemma product_append (xs ys) : product effect (xs ++ ys) = product effect xs * product effect ys := by simp [product]
lemma product_flatMap (f) (xs : List β) :
    product effect (xs.flatMap f) = product (fun x => product effect (f x)) xs := by
  induction xs with
  | nil => rfl
  | cons x xs ih =>
    rw [flatMap_cons,product_append,ih]
    rfl
lemma commute_product {us} (h : ∀ u ∈ us, Commute (effect op) (effect u)) : Commute (effect op) (product effect us) := by
  apply Commute.list_prod_right
  intro m hm
  obtain ⟨u,hu,rfl⟩ := mem_map.mp hm
  exact h u hu
variable [Located α]
def onWire (q : Qubit) (ops : List α) : List α := ops.filter fun op => (qubits op).contains q
def Apart (xs ys : List α) : Prop := ∀ x ∈ xs, ∀ y ∈ ys, (qubits x).Disjoint (qubits y)

/-- The same operations, and on every qubit in the same order. -/
structure SameOrder (xs ys : List α) : Prop where
  perm : xs.Perm ys
  wire : ∀ q, onWire q xs = onWire q ys
@[simp] lemma onWire_append (q) (xs ys : List α) : onWire q (xs ++ ys) = onWire q xs ++ onWire q ys := filter_append ..
@[simp] lemma mem_onWire : op ∈ onWire q xs ↔ op ∈ xs ∧ q ∈ qubits op := by simp [onWire]
lemma onWire_cons_of_mem (h : q ∈ qubits op) (xs) : onWire q (op :: xs) = op :: onWire q xs := by simp [onWire,h]
lemma onWire_cons_of_notMem (h : q ∉ qubits op) (xs) : onWire q (op :: xs) = onWire q xs := by simp [onWire,h]
lemma onWire_eq_nil : onWire q xs = [] ↔ ∀ op ∈ xs, q ∉ qubits op := by simp [onWire]
@[simp] lemma apart_nil_left (ys : List α) : Apart [] ys := by simp [Apart]
lemma Apart.symm (h : Apart xs ys) : Apart ys xs := fun y hy x hx _ hqy hqx => h x hx y hy hqx hqy
lemma Apart.onWire_eq_nil_or (h : Apart xs ys) (q) : onWire q xs = [] ∨ onWire q ys = [] := by
  by_cases hx : onWire q xs = []
  · exact .inl hx
  · obtain ⟨x,hx⟩ := exists_mem_of_ne_nil _ hx
    obtain ⟨hxs,hq⟩ := mem_onWire.mp hx
    exact .inr (onWire_eq_nil.mpr fun y hy hqy => h x hxs y hy hq hqy)
lemma apart_iff_onWire : Apart xs ys ↔ ∀ q, onWire q xs = [] ∨ onWire q ys = [] := by
  constructor
  · exact Apart.onWire_eq_nil_or
  · intro h x hx y hy q hqx hqy
    rcases h q with h | h
    · exact onWire_eq_nil.mp h x hx hqx
    · exact onWire_eq_nil.mp h y hy hqy
namespace SameOrder
@[refl] lemma refl (xs : List α) : SameOrder xs xs := ⟨Perm.refl _,fun _ => rfl⟩
lemma of_eq (h : xs = ys) : SameOrder xs ys := h ▸ refl xs
section
variable {zs : List α} (h : SameOrder xs ys)
include h
@[symm] lemma symm : SameOrder ys xs := ⟨h.perm.symm,fun q => (h.wire q).symm⟩
@[trans] lemma trans (h' : SameOrder ys zs) : SameOrder xs zs :=
  ⟨h.perm.trans h'.perm,fun q => (h.wire q).trans (h'.wire q)⟩
lemma append {xs' ys'} (h' : SameOrder xs' ys') : SameOrder (xs ++ xs') (ys ++ ys') :=
  ⟨h.perm.append h'.perm,fun q => by simp only [onWire_append,h.wire q,h'.wire q]⟩
lemma append_left (zs) : SameOrder (zs ++ xs) (zs ++ ys) := (refl zs).append h
lemma append_right (zs) : SameOrder (xs ++ zs) (ys ++ zs) := h.append (refl zs)
end
lemma swap (h : Apart xs ys) : SameOrder (xs ++ ys) (ys ++ xs) := by
  refine ⟨perm_append_comm,fun q => ?_⟩
  rcases h.onWire_eq_nil_or q with hq | hq <;> simp [hq]
lemma exists_of_cons (h : SameOrder (op :: xs) ys) : ∃ us vs, ys = us ++ op :: vs ∧ Apart [op] us ∧ SameOrder xs (us ++ vs) := by
  have hmem : op ∈ ys := h.perm.mem_iff.mp mem_cons_self
  obtain ⟨us,vs,rfl,hnot⟩ := eq_append_cons_of_mem hmem
  have ha : Apart [op] us := by
    intro o ho u hu q hq hqu
    obtain rfl := mem_singleton.mp ho
    have hw := h.wire q
    rw [onWire_cons_of_mem hq,onWire_append] at hw
    cases hus : onWire q us with
    | nil => exact onWire_eq_nil.mp hus u hu hqu
    | cons v rest =>
      rw [hus] at hw
      have hv : v ∈ onWire q us := hus ▸ mem_cons_self
      exact hnot ((cons.inj hw).1 ▸ (mem_onWire.mp hv).1)
  have hf : SameOrder (op :: xs) (op :: (us ++ vs)) := by
    refine h.trans ?_
    simpa using (swap ha.symm).append_right vs
  refine ⟨us,vs,rfl,ha,hf.perm.cons_inv,fun q => ?_⟩
  have hw := hf.wire q
  by_cases hq : q ∈ qubits op
  · rw [onWire_cons_of_mem hq,onWire_cons_of_mem hq] at hw
    exact (cons.inj hw).2
  · rwa [onWire_cons_of_notMem hq,onWire_cons_of_notMem hq] at hw
lemma partition {p} (h : ∀ x ∈ xs, p x → ∀ y ∈ xs, p y = false → (qubits x).Disjoint (qubits y)) :
    SameOrder xs (xs.filter p ++ xs.filter fun x => !p x) := by
  induction xs with
  | nil => exact refl []
  | cons x xs ih =>
    have hr := (ih fun y hy hpy z hz => h y (mem_cons_of_mem _ hy) hpy z (mem_cons_of_mem _ hz)).append_left [x]
    cases hx : p x with
    | true => simpa [hx] using hr
    | false =>
      have ha : Apart [x] (xs.filter p) := by
        intro o ho y hy q hqo hqy
        obtain rfl := mem_singleton.mp ho
        obtain ⟨hy,hpy⟩ := mem_filter.mp hy
        exact h y (mem_cons_of_mem _ hy) hpy o mem_cons_self hx hqy hqo
      have hs := (swap ha).append_right (xs.filter fun x => !p x)
      refine hr.trans ?_
      simpa [hx] using hs

/-- A block between the same surroundings is exchanged for another one on the same qubits. -/
lemma exchange {us us' vs vs' old new : List α} {qs : Qubits} (h : SameOrder (us ++ old ++ vs) (us' ++ old ++ vs'))
    (hold : ∀ o ∈ old, ∀ q ∈ qubits o, q ∈ qs) (hnew : ∀ o ∈ new, ∀ q ∈ qubits o, q ∈ qs)
    (hqs : ∀ q ∈ qs, onWire q vs = onWire q vs') : SameOrder (us ++ new ++ vs) (us' ++ new ++ vs') := by
  have hmid : ∀ xs ys zs : List α, (xs ++ ys ++ zs).Perm (ys ++ (xs ++ zs)) := fun xs ys zs => by
    simpa using perm_append_comm.append_right zs
  refine ⟨?_,fun q => ?_⟩
  · have hr := ((hmid us old vs).symm.trans h.perm).trans (hmid us' old vs')
    rw [perm_append_left_iff] at hr
    exact (hmid us new vs).trans ((hr.append_left new).trans (hmid us' new vs').symm)
  · have hw := h.wire q
    simp only [onWire_append] at hw ⊢
    by_cases hq : q ∈ qs
    · rw [hqs q hq,append_left_inj,append_left_inj] at hw
      rw [hqs q hq,hw]
    · have hn : ∀ ops : List α, (∀ o ∈ ops, ∀ q ∈ qubits o, q ∈ qs) → onWire q ops = [] := fun ops hops =>
        onWire_eq_nil.mpr fun o ho hqo => hq (hops o ho q hqo)
      simpa [hn old hold,hn new hnew] using hw
end SameOrder
/-- Lists with the same order on every qubit have the same product, when those of their operations that share no qubit
commute. -/
lemma SameOrder.product_eq_of_mem (h : SameOrder xs ys)
    (hc : ∀ a ∈ xs, ∀ b ∈ xs, (qubits a).Disjoint (qubits b) → Commute (effect a) (effect b)) :
    product effect xs = product effect ys := by
  induction xs generalizing ys with
  | nil => rw [nil_perm.mp h.perm]
  | cons op xs ih =>
    obtain ⟨us,vs,rfl,hap,ht⟩ := h.exists_of_cons
    have hp : Commute (effect op) (product effect us) := by
      refine commute_product fun u hu => hc op mem_cons_self u ?_ (hap op (mem_singleton_self op) u hu)
      exact h.perm.mem_iff.mpr (mem_append_left _ hu)
    have hr := ih ht fun a ha b hb => hc a (mem_cons_of_mem _ ha) b (mem_cons_of_mem _ hb)
    calc product effect (op :: xs) = effect op * product effect xs := by simp [product]
      _ = effect op * (product effect us * product effect vs) := by rw [hr,product_append]
      _ = product effect us * (effect op * product effect vs) := by rw [← mul_assoc,hp.eq,mul_assoc]
      _ = product effect (us ++ op :: vs) := by simp [product]
lemma SameOrder.product_eq (hc : ∀ a b, (qubits a).Disjoint (qubits b) → Commute (effect a) (effect b))
    (h : SameOrder xs ys) : product effect xs = product effect ys :=
  h.product_eq_of_mem fun a _ b _ => hc a b
def OverlapFree (m : Moment α) : Prop := (Moment.allQubits m.ops).Nodup
abbrev Legal (c : Circuit α) : Prop := ∀ m ∈ c.moments, OverlapFree m
lemma overlapFree_iff :
    OverlapFree m ↔ (∀ op ∈ m.ops, (qubits op).Nodup) ∧ m.ops.Pairwise fun a b => (qubits a).Disjoint (qubits b) :=
  nodup_flatMap
lemma overlapFree_empty : OverlapFree (Moment.empty : Moment α) := nodup_nil
lemma overlapFree_singleton : OverlapFree ⟨[op]⟩ ↔ (qubits op).Nodup := by simp [OverlapFree,Moment.allQubits]
lemma overlapFree_sublist (h : OverlapFree ⟨ys⟩) (hsub : xs.Sublist ys) : OverlapFree ⟨xs⟩ := by
  obtain ⟨he,hp⟩ := overlapFree_iff.mp h
  exact overlapFree_iff.mpr ⟨fun o ho => he o (hsub.subset ho),hp.sublist hsub⟩
lemma sameOrder_of_overlapFree (h : OverlapFree ⟨xs⟩) (hpe : xs.Perm ys) : SameOrder xs ys := by
  refine ⟨hpe,fun q => ?_⟩
  have hw : (onWire q xs).Perm (onWire q ys) := hpe.filter _
  have hp : (onWire q xs).Pairwise fun a b => (qubits a).Disjoint (qubits b) := (overlapFree_iff.mp h).2.filter _
  have hq : ∀ op ∈ onWire q xs, q ∈ qubits op := fun op hop => (mem_onWire.mp hop).2
  match hops : onWire q xs with
  | [] =>
    rw [hops] at hw
    exact (nil_perm.mp hw).symm
  | [op] =>
    rw [hops] at hw
    exact (singleton_perm.mp hw)
  | a :: b :: _ =>
    rw [hops] at hp hq
    exact absurd (hq b (by simp)) ((rel_of_pairwise_cons hp (by simp)) (hq a (by simp)))
lemma overlapFree_append (hx : OverlapFree ⟨xs⟩) (hy : OverlapFree ⟨ys⟩) (h : Apart xs ys) : OverlapFree ⟨xs ++ ys⟩ := by
  obtain ⟨hxe,hxp⟩ := overlapFree_iff.mp hx
  obtain ⟨hye,hyp⟩ := overlapFree_iff.mp hy
  exact overlapFree_iff.mpr ⟨forall_mem_append.mpr ⟨hxe,hye⟩,pairwise_append.mpr ⟨hxp,hyp,h⟩⟩
lemma overlapFree_concat (hm : OverlapFree m) (hop : (qubits op).Nodup) (hf : Apart [op] m.ops) : OverlapFree ⟨m.ops ++ [op]⟩ :=
  overlapFree_append hm (overlapFree_singleton.mpr hop) hf.symm
lemma ofList_eq_ok {ops : List α} (h : OverlapFree ⟨ops⟩) : Moment.ofList ops = .ok ⟨ops⟩ := if_pos h
lemma actsOnAny_eq_false : m.actsOnAny (qubits op) = false ↔ Apart [op] m.ops := by
  have hmem : ∀ q, q ∈ m.qubits ↔ ∃ o ∈ m.ops, q ∈ qubits o := by simp [Moment.qubits,Moment.allQubits]
  simp only [Moment.actsOnAny,any_eq_false,Moment.actsOn,contains_iff_mem,hmem]
  constructor
  · intro h o ho b hb q hqo hqb
    obtain rfl := mem_singleton.mp ho
    exact h q hqo ⟨b,hb,hqb⟩
  · rintro h q hq ⟨b,hb,hqb⟩
    exact h op (mem_singleton_self op) b hb hq hqb
lemma actsAt_nat (c : Circuit α) (qs) (k : Nat) : c.actsAt qs k = (c.moments[k]?).any fun m => m.actsOnAny qs := by
  simp only [Circuit.actsAt,Circuit.momentAt?,Int.toNat_natCast]
  cases c.moments[k]? <;> rfl
def lineGate (kind : PowerKind) (i : Int) : Operation Number := .gate (.power kind (.num 1) 0 false) [.line i]
@[simp] lemma qubits_lineGate (kind i) : qubits (lineGate kind i) = [.line i] := rfl
end

/-! ## Operations put between moments

Operations are put between the moments of a circuit, each asked for at one place and put in at another, at least as
late. The order that was asked for comes about exactly if none was carried past a moment that acts on its qubits.
-/
section
variable {α : Type} {p p' : Nat}
/-- Operations with the number of moments that they were to follow, and of those that they do follow. -/
structure Turn (α : Type) where
  asked : Nat
  reached : Nat
  ops : List α
def stretch (ms : Moments α) (p j : Nat) : List α := opsOf ((ms.take j).drop p)

/-- The operations of the moments from a place on, with others put in after so many moments each. -/
def weave (ms : Moments α) (place : Turn α → Nat) : Nat → List (Turn α) → List α
  | p, [] => opsOf (ms.drop p)
  | p, t :: ts => stretch ms p (place t) ++ (t.ops ++ weave ms place (place t) ts)
def Advancing : Nat → Nat → List (Turn α) → Prop
  | _, _, [] => True
  | p, p', t :: ts => p ≤ t.asked ∧ p' ≤ t.reached ∧ t.asked ≤ t.reached ∧ Advancing t.asked t.reached ts
variable (ms : Moments α) {j : Nat}
lemma opsOf_drop_eq (h : p ≤ j) : opsOf (ms.drop p) = stretch ms p j ++ opsOf (ms.drop j) := by
  have hs : ms.drop p = (ms.take j).drop p ++ ms.drop j := by
    conv_lhs => rw [← take_append_drop j ms,drop_append]
    by_cases hj : j ≤ ms.length
    · rw [length_take,Nat.min_eq_left hj,Nat.sub_eq_zero_of_le h,drop_zero]
    · rw [drop_eq_nil_of_le (Nat.le_of_not_le hj),drop_nil]
  rw [hs,opsOf_append,stretch]
lemma stretch_append {p i j} (hp : p ≤ i) (hi : i ≤ j) : stretch ms p i ++ stretch ms i j = stretch ms p j := by
  have h := opsOf_drop_eq (ms.take j) hp
  rw [stretch,take_take,Nat.min_eq_left hi] at h
  exact h.symm
@[simp] lemma stretch_self (p) : stretch ms p p = [] := by
  have h : (ms.take p).drop p = [] := drop_eq_nil_of_le (length_take_le p ms)
  rw [stretch,h,opsOf_nil]
lemma mem_of_mem_stretch {ms} {op : α} (h : op ∈ stretch ms p j) : op ∈ opsOf ms := by
  obtain ⟨m,hm,hop⟩ := mem_opsOf.mp h
  exact mem_opsOf.mpr ⟨m,mem_of_mem_take (mem_of_mem_drop hm),hop⟩
variable {ts : List (Turn α)} (place : Turn α → Nat)
lemma weave_skip (h : p ≤ j) (hts : ∀ t ∈ ts.head?, j ≤ place t) : weave ms place p ts = stretch ms p j ++ weave ms place j ts := by
  cases ts with
  | nil => exact opsOf_drop_eq ms h
  | cons t ts =>
    have ht : j ≤ place t := hts t rfl
    rw [weave,weave,← stretch_append ms h ht,append_assoc]
lemma Advancing.mono {p p' r r' : Nat} (hr : r ≤ p) (hr' : r' ≤ p') (h : Advancing p p' ts) : Advancing r r' ts := by
  cases ts with
  | nil => trivial
  | cons t ts =>
    obtain ⟨ha,hre,hrs⟩ := h
    exact ⟨hr.trans ha,hr'.trans hre,hrs⟩
lemma Advancing.head_asked (h : Advancing p p' ts) : ∀ t ∈ ts.head?, p ≤ t.asked := by
  cases ts with
  | nil => simp
  | cons u ts => simpa using h.1
lemma Advancing.head_reached (h : Advancing p p' ts) : ∀ t ∈ ts.head?, p' ≤ t.reached := by
  cases ts with
  | nil => simp
  | cons u ts => simpa using h.2.1
lemma weave_perm (h : Advancing p p' ts) : (weave ms Turn.reached p' ts).Perm (opsOf (ms.drop p') ++ ts.flatMap Turn.ops) := by
  induction ts generalizing p p' with
  | nil => simp [weave]
  | cons t ts ih =>
    obtain ⟨-,hr,-,hre⟩ := h
    rw [opsOf_drop_eq ms hr,append_assoc]
    refine Perm.append_left _ ?_
    calc (t.ops ++ weave ms Turn.reached t.reached ts).Perm (t.ops ++ (opsOf (ms.drop t.reached) ++ ts.flatMap Turn.ops)) :=
        (ih hre).append_left _
      _ = (t.ops ++ opsOf (ms.drop t.reached)) ++ ts.flatMap Turn.ops := (append_assoc ..).symm
      Perm _ ((opsOf (ms.drop t.reached) ++ t.ops) ++ ts.flatMap Turn.ops) := perm_append_comm.append_right _
      _ = opsOf (ms.drop t.reached) ++ (t.ops ++ ts.flatMap Turn.ops) := append_assoc ..
lemma weave_const {p k} (h : p ≤ k) {us} (hts : ∀ t ∈ ts, place t = k) (hus : ∀ u ∈ us.head?, k ≤ place u) :
    weave ms place p (ts ++ us) = stretch ms p k ++ (ts.flatMap Turn.ops ++ weave ms place k us) := by
  induction ts generalizing p with
  | nil => exact weave_skip ms place h hus
  | cons t ts ih =>
    have ht := ih le_rfl (forall_mem_cons.mp hts).2
    rw [cons_append,weave,hts t mem_cons_self,ht,stretch_self,flatMap_cons,append_assoc,nil_append]
variable {ms}
lemma exists_place_of_drop {passed rest} (hj : j ≤ ms.length) (h : ms.drop j = passed ++ rest) :
    ∃ i, i ≤ ms.length ∧ j ≤ i ∧ rest = ms.drop i ∧ opsOf passed = stretch ms j i := by
  have hlen : passed.length+rest.length = ms.length-j := by rw [← length_drop,h,length_append]
  have hr : rest = ms.drop (j+passed.length) := by rw [← drop_drop,h,drop_left]
  refine ⟨j+passed.length,by omega,by omega,hr,?_⟩
  have hops := opsOf_drop_eq ms (Nat.le_add_right j passed.length)
  rw [h,opsOf_append,← hr] at hops
  exact append_cancel_right hops
lemma eq_of_append_cons_eq {y} {as as' bs bs' : List α} (ha : y ∉ as) (ha' : y ∉ as') (h : as ++ y :: bs = as' ++ y :: bs') :
    as = as' ∧ bs = bs' := by
  -- Either list before `y` goes on where the other ends, but not with `y`.
  rcases append_eq_append_iff.mp h with ⟨cs,rfl,hcs⟩ | ⟨cs,rfl,hcs⟩
  all_goals cases cs <;> simp_all
variable [Located α]
/-- Operations that were not carried past moments on their qubits stand in the order that was asked for. -/
lemma weave_sameOrder (hp : p ≤ p') (hadv : Advancing p p' ts) (ha : ∀ t ∈ ts, Apart (stretch ms t.asked t.reached) t.ops) :
    SameOrder (weave ms Turn.asked p ts) (stretch ms p p' ++ weave ms Turn.reached p' ts) := by
  induction ts generalizing p p' with
  | nil => exact SameOrder.of_eq (opsOf_drop_eq ms hp)
  | cons t ts ih =>
    obtain ⟨has,hr,hle,hre⟩ := hadv
    have ht := ih hle hre (forall_mem_cons.mp ha).2
    have hpa := SameOrder.swap (ha t mem_cons_self).symm
    have hb : stretch ms p p' ++ stretch ms p' t.reached = stretch ms p t.asked ++ stretch ms t.asked t.reached := by
      rw [stretch_append ms hp hr,stretch_append ms has hle]
    have hmid : SameOrder (t.ops ++ weave ms Turn.asked t.asked ts)
        (stretch ms t.asked t.reached ++ (t.ops ++ weave ms Turn.reached t.reached ts)) := by
      refine (ht.append_left t.ops).trans ?_
      simpa only [append_assoc] using hpa.append_right (weave ms Turn.reached t.reached ts)
    rw [weave,weave,← append_assoc (stretch ms p p'),hb,append_assoc]
    exact hmid.append_left _

/-- Where the operations put in can be told from those of the moments, the order asked for shows that none was carried
past a moment on its qubits. -/
lemma wire_clear_of_eq {as as'} (hadv : Advancing p p' ts) (hf : ∀ t ∈ ts, ∀ x ∈ t.ops, x ∉ opsOf ms)
    (has : ∀ a ∈ as, a ∈ opsOf ms) (has' : ∀ a ∈ as', a ∈ opsOf ms)
    (hold : as ++ onWire q (opsOf (ms.drop p)) = as' ++ onWire q (opsOf (ms.drop p')))
    (heq : as ++ onWire q (weave ms Turn.asked p ts) = as' ++ onWire q (weave ms Turn.reached p' ts)) :
    ∀ t ∈ ts, onWire q (stretch ms t.asked t.reached) = [] ∨ onWire q t.ops = [] := by
  induction ts generalizing p p' as as' with
  | nil => simp
  | cons t ts ih =>
    obtain ⟨hak,hr,hle,hre⟩ := hadv
    have hf' : ∀ u ∈ ts, ∀ x ∈ u.ops, x ∉ opsOf ms := (forall_mem_cons.mp hf).2
    have hmem : ∀ {bs : List α} {i j : Nat}, (∀ a ∈ bs, a ∈ opsOf ms) →
        ∀ a ∈ bs ++ onWire q (stretch ms i j), a ∈ opsOf ms := fun hbs =>
      forall_mem_append.mpr ⟨hbs,fun a ha => mem_of_mem_stretch (mem_onWire.mp ha).1⟩
    rw [opsOf_drop_eq ms hak,opsOf_drop_eq ms hr] at hold
    simp only [onWire_append,← append_assoc] at hold
    have hw : (as ++ onWire q (stretch ms p t.asked)) ++ (onWire q t.ops ++ onWire q (weave ms Turn.asked t.asked ts)) =
        (as' ++ onWire q (stretch ms p' t.reached)) ++ (onWire q t.ops ++ onWire q (weave ms Turn.reached t.reached ts)) := by
      simpa only [weave,onWire_append,append_assoc] using heq
    cases hops : onWire q t.ops with
    | nil =>
      simp only [hops] at hw
      exact forall_mem_cons.mpr ⟨.inr hops,ih hre hf' (hmem has) (hmem has') hold hw⟩
    | cons y ys =>
      -- `y` is not an operation of the moments, so both sides have the same operations before it.
      have hy : y ∉ opsOf ms := by
        have hyw : y ∈ onWire q t.ops := hops ▸ mem_cons_self
        exact hf t mem_cons_self y (mem_onWire.mp hyw).1
      simp only [hops] at hw
      obtain ⟨hpre,hp⟩ := eq_of_append_cons_eq (fun h => hy (hmem has y h)) (fun h => hy (hmem has' y h)) hw
      have hd : onWire q (opsOf (ms.drop t.asked)) = onWire q (opsOf (ms.drop t.reached)) := by
        rw [hpre] at hold
        exact append_cancel_left hold
      have hc : onWire q (stretch ms t.asked t.reached) = [] := by
        rw [opsOf_drop_eq ms hle,onWire_append] at hd
        exact append_left_eq_self.mp hd
      have hnil : ∀ a ∈ ([]), a ∈ opsOf ms := by simp
      exact forall_mem_cons.mpr ⟨.inl hc,ih hre hf' hnil hnil hd (append_cancel_left hp)⟩
lemma apart_of_weave_eq (hadv : Advancing p p ts) (hf : ∀ t ∈ ts, ∀ x ∈ t.ops, x ∉ opsOf ms)
    (heq : ∀ q, onWire q (weave ms Turn.asked p ts) = onWire q (weave ms Turn.reached p ts)) :
    ∀ t ∈ ts, Apart (stretch ms t.asked t.reached) t.ops := by
  intro t ht
  rw [apart_iff_onWire]
  intro q
  have hnil : ∀ a ∈ ([]), a ∈ opsOf ms := by simp
  exact wire_clear_of_eq hadv hf hnil hnil rfl (by simpa using heq q) t ht
end
end QuantumCircuits.WireOrder
