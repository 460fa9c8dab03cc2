import QuantumCircuits.Proofs.ExactNumbers
import QuantumCircuits.Schedule

/-! # Collisions in schedules

A query looks at a window of start times only, as wide as the longest duration that was ever included. No operation
that lasts into the time asked for starts before the window. -/
namespace QuantumCircuits.Collisions
open List Schedule ScheduleQuery
variable {s : Schedule ℝ} {x : Scheduled ℝ} {q : ScheduleQuery ℝ}
def Meet (x y : Scheduled ℝ) : Prop := ∃ q ∈ x.op.qubits, q ∈ y.op.qubits
def Overlap (x y : Scheduled ℝ) : Prop := x.time < y.stop ∧ y.time < x.stop
def Apart (x y : Scheduled ℝ) : Prop := Meet x y → ¬ Overlap x y
lemma Apart.symm (h : Apart x y) : Apart y x := by
  rintro ⟨q,hy,hx⟩ ⟨hyx,hxy⟩
  exact h ⟨q,hx,hy⟩ ⟨hxy,hyx⟩

/-! ## Queries -/
def Bounded (s : Schedule ℝ) : Prop := ∀ x ∈ s.ops, x.duration ≤ s.longest

/-- The window of a query leaves out nothing that the query asks for. -/
lemma query_eq_filter (h : Bounded s) (q) : s.query q = s.ops.filter fun x => q.meets x && q.touches x := by
  refine filter_congr fun x hx => ?_
  cases hm : q.meets x with
  | false => simp
  | true =>
    simp only [meets,Bool.and_eq_true,decide_eq_true_eq] at hm
    obtain ⟨⟨-,hs⟩,hend⟩ := hm
    have hd : x.duration.picos ≤ s.longest.picos := h x hx
    have hl : q.time.picos ≤ x.time.picos+x.duration.picos := hs
    have hw : q.time.before s.longest ≤ x.time := show q.time.picos-s.longest.picos ≤ x.time.picos by linarith
    simp [hw,hend]
lemma meets_iff_ends : q.meets x ↔ (q.time < x.stop ∨ q.countEnding ∧ x.stop.picos = q.time.picos) ∧
    (x.time < q.stop ∨ q.countStarting ∧ x.time.picos = q.stop.picos) := by
  change ((q.countEnding || !(x.stop.picos == q.time.picos)) && (q.countStarting || !(x.time.picos == q.stop.picos)) &&
    decide (q.time.picos ≤ x.stop.picos) && decide (x.time.picos ≤ q.stop.picos)) ↔
      (q.time.picos < x.stop.picos ∨ _) ∧ (x.time.picos < q.stop.picos ∨ _)
  grind
lemma meets_iff (hs : q.countStarting = false) (hend : q.countEnding = false) :
    q.meets x ↔ q.time < x.stop ∧ x.time < q.stop := by
  simp [meets_iff_ends,hs,hend]

/-- What a query asks for: operations that end after its time, or then if ends count, that start before its end, or then if
this counts, and that touch one of its qubits, if it names some. -/
structure Asked (q : ScheduleQuery ℝ) (x : Scheduled ℝ) : Prop where
  lasts : q.time < x.stop ∨ q.countEnding = true ∧ x.stop.picos = q.time.picos
  begins : x.time < q.stop ∨ q.countStarting = true ∧ x.time.picos = q.stop.picos
  touches : ∀ qs, q.qubits = some qs → ∃ r ∈ x.op.qubits, r ∈ qs
lemma asked_iff : (q.meets x && q.touches x) ↔ Asked q x := by
  have ht : q.touches x ↔ ∀ qs, q.qubits = some qs → ∃ r ∈ x.op.qubits, r ∈ qs := by
    unfold touches
    cases q.qubits <;> simp
  rw [Bool.and_eq_true,meets_iff_ends,ht]
  exact ⟨fun h => ⟨h.1.1,h.1.2,h.2⟩,fun h => ⟨⟨h.lasts,h.begins⟩,h.touches⟩⟩
lemma beq_power_self (t u k e a b qs) :
    ((⟨t,u,.gate (.power k e a b) qs⟩ : Scheduled ℝ) == ⟨t,u,.gate (.power k e a b) qs⟩) := by
  have hop := Exact.gate_beq_self (Exact.power_beq_self k e a b) qs
  change (t.picos == t.picos && _ == _ && u.picos == u.picos)
  simp [hop]

/-! ## Operations in their places -/
lemma place_perm (x) (xs : List (Scheduled ℝ)) : place x xs ~ x :: xs := by
  induction xs with
  | nil => rfl
  | cons y ys ih =>
    rw [place]
    split
    · rfl
    · exact (ih.cons y).trans (.swap x y ys)
lemma le_longer (a b : Duration ℝ) : a ≤ longer a b ∧ b ≤ longer a b := by
  unfold longer
  split
  · next h => exact ⟨le_of_lt (α := ℝ) h,le_refl b.picos⟩
  · next h => exact ⟨le_refl a.picos,le_of_not_gt (α := ℝ) h⟩
def InTurn (ops : List (Scheduled ℝ)) : Prop := ops.Pairwise fun x y => x.time ≤ y.time
lemma InTurn.place {ops} (h : InTurn ops) (x) : InTurn (place x ops) := by
  induction ops with
  | nil => exact pairwise_singleton _ _
  | cons y ys ih =>
    obtain ⟨hy,hys⟩ := pairwise_cons.mp h
    rw [Schedule.place]
    split
    case isTrue hlt =>
      have hle : x.time ≤ y.time := le_of_lt (α := ℝ) hlt
      exact pairwise_cons.mpr ⟨forall_mem_cons.mpr ⟨hle,fun z hz => le_trans (α := ℝ) hle (hy z hz)⟩,h⟩
    case isFalse hnot =>
      refine pairwise_cons.mpr ⟨fun z hz => ?_,ih hys⟩
      rcases mem_cons.mp ((place_perm x ys).mem_iff.mp hz) with rfl | hz
      · exact le_of_not_gt (α := ℝ) hnot
      · exact hy z hz
lemma ofList_spec (d ops) :
    Bounded (.ofList d ops) ∧ InTurn (ofList d ops).ops ∧ (ofList d ops).ops ~ ops := by
  have hp : InTurn (ofList d ops).ops ∧ (ofList d ops).ops ~ ops := by
    induction ops using reverseRecOn with
    | nil => exact ⟨.nil,.refl _⟩
    | append_singleton ops x ih =>
      simp only [ofList,foldl_append] at ih ⊢
      exact ⟨ih.1.place x,(place_perm x _).trans ((ih.2.cons x).trans (perm_append_singleton x ops).symm)⟩
  have hl : ∀ ds (e : Duration ℝ), ∀ d ∈ e :: ds, d ≤ ds.foldl longer e := by
    intro ds
    induction ds with
    | nil => exact fun e => forall_mem_singleton.mpr (le_refl e.picos)
    | cons d ds ih =>
      intro e
      obtain ⟨hf,hr⟩ := forall_mem_cons.mp (ih (longer e d))
      obtain ⟨he,hd⟩ := le_longer e d
      exact forall_mem_cons.mpr ⟨le_trans (α := ℝ) he hf,forall_mem_cons.mpr ⟨le_trans (α := ℝ) hd hf,hr⟩⟩
  refine ⟨fun x hx => ?_,hp⟩
  have hdu := mem_map_of_mem (f := Scheduled.duration) (hp.2.mem_iff.mp hx)
  simp only [ofList]
  cases hops : ops.map Scheduled.duration with
  | nil => simp [hops] at hdu
  | cons e ds => exact hl ds e _ (hops ▸ hdu)

/-! ## Calls -/
variable [OperationText ℝ] [NumberText ℝ]
inductive Call where
  | insert (x : Scheduled ℝ)
  | erase (x : Scheduled ℝ)
noncomputable def Call.apply (s : Schedule ℝ) : Call → Schedule ℝ
  | insert x => (s.insert x).1
  | erase x => (s.erase x).1
lemma insert_cases (h : Bounded s) (x) :
    (s.insert x = ({ s with ops := place x s.ops, longest := longer s.longest x.duration },.ok ()) ∧ ∀ y ∈ s.ops, Apart x y) ∨
      ∃ f, s.insert x = (s,.error f) ∧ ∃ y ∈ s.ops, Meet x y ∧ Overlap x y := by
  have hmem : ∀ y, y ∈ s.query { time := x.time, duration := x.duration, qubits := some x.op.qubits } ↔
      y ∈ s.ops ∧ Meet x y ∧ Overlap x y := by
    intro y
    have ht : touches ⟨x.time,x.duration,some x.op.qubits,false,false⟩ y ↔ Meet x y := by
      simp [touches,Meet,and_comm]
    rw [query_eq_filter h,mem_filter,Bool.and_eq_true,ht,meets_iff rfl rfl]
    exact and_congr_right fun _ => and_comm
  unfold Schedule.insert
  split
  · next hn =>
    refine .inl ⟨rfl,fun y hy hm ho => ?_⟩
    have hf := (hmem y).mpr ⟨hy,hm,ho⟩
    rw [hn] at hf
    cases hf
  · next hs =>
    obtain ⟨y,hy⟩ := exists_mem_of_ne_nil _ hs
    exact .inr ⟨_,rfl,y,(hmem y).mp hy⟩

/-- What a call does: an operation that collides with nothing is put in its place, or some operations are taken out. -/
lemma apply_cases (h : Bounded s) (c : Call) :
    (∃ x, c.apply s = { s with ops := place x s.ops, longest := longer s.longest x.duration } ∧ ∀ y ∈ s.ops, Apart x y) ∨
      ∃ ops, ops <+ s.ops ∧ c.apply s = { s with ops } := by
  cases c with
  | insert x =>
    rcases insert_cases h x with ⟨hin,hx⟩ | ⟨f,hin,-⟩
    · exact .inl ⟨x,congrArg Prod.fst hin,hx⟩
    · exact .inr ⟨_,.refl _,congrArg Prod.fst hin⟩
  | erase x =>
    refine .inr ?_
    rw [Call.apply,erase]
    split
    · exact ⟨_,erase_sublist,rfl⟩
    · exact ⟨_,.refl _,rfl⟩
lemma apply_bounded (h : Bounded s) (c : Call) : Bounded (c.apply s) := by
  rcases apply_cases h c with ⟨x,hc,-⟩ | ⟨ops,hops,hc⟩ <;> rw [hc] <;> intro y hy
  · obtain ⟨hl,hnew⟩ := le_longer s.longest x.duration
    rcases mem_cons.mp ((place_perm x s.ops).mem_iff.mp hy) with rfl | hy
    · exact hnew
    · exact le_trans (α := ℝ) (h y hy) hl
  · exact h y (hops.subset hy)

/-- An invariant of the operations that is kept by putting one in its place and by leaving some out is kept by all calls. -/
lemma calls_keep {P : List (Scheduled ℝ) → Prop} (hp : ∀ x ops, P ops → (∀ y ∈ ops, Apart x y) → P (place x ops))
    (hsub : ∀ {ops ops'}, ops' <+ ops → P ops → P ops') (calls : List Call) (hb : Bounded s) (hs : P s.ops) :
    Bounded (calls.foldl Call.apply s) ∧ P (calls.foldl Call.apply s).ops := by
  induction calls generalizing s with
  | nil => exact ⟨hb,hs⟩
  | cons c calls ih =>
    refine ih (apply_bounded hb c) ?_
    rcases apply_cases hb c with ⟨x,hc,hx⟩ | ⟨ops,hops,hc⟩ <;> rw [hc]
    · exact hp x s.ops hs hx
    · exact hsub hops hs

/-- Whatever is included and excluded, no two operations of the schedule collide. An operation is refused exactly when it collides
with one of the schedule, and then everything goes on as if it had not been offered. -/
theorem calls_collisionFree (d : Device ℝ) (calls : List Call) :
    let s := calls.foldl Call.apply (.empty d)
    s.ops.Pairwise Apart ∧ ∀ x, ((∃ f, (s.insert x).2 = .error f) ↔ ∃ y ∈ s.ops, Meet x y ∧ Overlap x y) ∧
      ∀ f, (s.insert x).2 = .error f → (s.insert x).1 = s ∧
        ∀ later q, ((Call.insert x :: later).foldl Call.apply s).query q = (later.foldl Call.apply s).query q := by
  intro s
  obtain ⟨hbound,hapart⟩ : Bounded s ∧ s.ops.Pairwise Apart := by
    refine calls_keep (fun x ops h hx => ?_) (fun hsub h => h.sublist hsub) calls (by simp [Bounded,Schedule.empty]) .nil
    exact ((place_perm x ops).pairwise_iff Apart.symm).mpr (pairwise_cons.mpr ⟨hx,h⟩)
  refine ⟨hapart,fun x => ?_⟩
  rcases insert_cases hbound x with ⟨hinsert,hx⟩ | ⟨f,hinsert,hcollision⟩
  · rw [hinsert]
    refine ⟨⟨?_,?_⟩,?_⟩
    · rintro ⟨f,hf⟩
      cases hf
    · rintro ⟨y,hy,hmeet,hoverlap⟩
      exact absurd hoverlap (hx y hy hmeet)
    · rintro f hf
      cases hf
  · refine ⟨?_,fun _ _ => ⟨?_,fun later q => ?_⟩⟩
    · rw [hinsert]
      exact ⟨fun _ => hcollision,fun _ => ⟨f,rfl⟩⟩
    · rw [hinsert]
    · rw [foldl_cons,Call.apply,hinsert]
open Classical in
/-- Whatever the schedule is made from and whatever is then included and excluded, a query finds, in the order of their
starts, exactly those of all its operations that it asks for. -/
theorem query_misses_nothing (d : Device ℝ) (initial : List (Scheduled ℝ)) (calls : List Call) (q : ScheduleQuery ℝ) :
    let s := calls.foldl Call.apply (.ofList d initial)
    s.query q = s.ops.filter (fun x => decide (Asked q x)) ∧ InTurn s.ops := by
  obtain ⟨hbound,hturn,-⟩ := ofList_spec d initial
  obtain ⟨hbound,hturn⟩ := calls_keep (fun x _ h _ => h.place x) (fun hsub h => h.sublist hsub) calls hbound hturn
  refine ⟨?_,hturn⟩
  rw [query_eq_filter hbound]
  exact filter_congr fun x _ => Bool.eq_iff_iff.mpr (by rw [asked_iff,decide_eq_true_eq])
end QuantumCircuits.Collisions
