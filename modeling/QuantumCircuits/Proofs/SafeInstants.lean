import QuantumCircuits.Proofs.Collisions
import QuantumCircuits.Proofs.WireOrder

/-! # Schedules of neutral atoms, instant by instant

A scheduled operation is checked by a moment of the others that overlap it, without itself. So two operations that run at the same
time are compared only if a third one runs with both, and no check ever counts all that runs at an instant. -/
namespace QuantumCircuits.SafeInstants
open List Collisions NeutralAtomDevice ScheduleQuery
open XmonDevice (gateOf?)
open WireOrder (OverlapFree overlapFree_iff ofList_eq_ok)

/-! ## Equal gates -/
def shared : List AtomKind := [.z,.xy,.controlled]
lemma beq_euclidean {f g h : Gate ℝ} (hf : kind f ∈ shared) (hg : (f == g)) (hh : (f == h)) : (g == h) := by
  have hbeq : ∀ a b : Gate ℝ, (a == b) = Gate.beqAt a.depth a b := fun _ _ => rfl
  rw [hbeq] at *
  cases f with
  | power | phasedX =>
    -- Both others are then of the same form.
    cases g <;> try cases hg
    cases h <;> try cases hh
    simp only [Gate.depth,Gate.beqAt,Gate.beqWith,Bool.and_eq_true,beq_iff_eq] at hg hh ⊢
    obtain ⟨⟨rfl,he⟩,rfl⟩ := hg
    obtain ⟨⟨rfl,he'⟩,rfl⟩ := hh
    exact ⟨⟨rfl,he.symm.trans he'⟩,rfl⟩
  | _ => simp [kind,shared] at hf

/-! ## Moments -/
section
variable {d : NeutralAtomDevice ℝ} {ops : Ops ℝ}
def kindOf (op : Operation ℝ) : Option AtomKind := (gateOf? op).map kind
def Turns (op : Operation ℝ) : Prop := (kindOf op = some .z ∨ kindOf op = some .xy) ∧ op.qubits ≠ []
def Excludes (a b : Operation ℝ) : Prop :=
  kindOf a = some .controlled ∧ Turns b ∨ kindOf a = some .measure ∧ (kindOf b = some .controlled ∨ Turns b)

/-- What the device asks of two operations at the same time. -/
structure Compatible (d : NeutralAtomDevice ℝ) (a b : Operation ℝ) : Prop where
  disjoint : a.qubits.Disjoint b.qubits
  alike : ∀ g ∈ gateOf? a, ∀ h ∈ gateOf? b, kind g = kind h → kind g ∈ shared → (g == h) = true
  unmixed : ¬ Excludes a b ∧ ¬ Excludes b a
  distant : kindOf a = some .controlled → kindOf b = some .controlled → ∀ p ∈ a.qubits, ∀ q ∈ b.qubits, d.radius < distance p q

/-- What the device asks of all operations at the same time. -/
structure Within (d : NeutralAtomDevice ℝ) (ops : Ops ℝ) : Prop where
  controlled : qubitCount .controlled ops ≤ d.maxControlled
  z : qubitCount .z ops ≤ d.maxZ
  xy : qubitCount .xy ops ≤ d.maxXY ∨ qubitCount .xy ops = d.qubits.length
lemma ofKind_eq (k ops) : ofKind k ops = ops.filter fun op => decide (kindOf op = some k) := by
  refine filter_congr fun op _ => ?_
  cases h : gateOf? op <;> simp [kindOf,h]
lemma ofKind_eq_nil : ofKind k ops = [] ↔ ∀ op ∈ ops, kindOf op ≠ some k := by simp [ofKind_eq]
lemma areAlike_iff (hk : k ∈ shared) : areAlike k ops ↔
    ops.Pairwise fun a b => ∀ g ∈ gateOf? a, ∀ h ∈ gateOf? b, kind g = k → kind h = k → (g == h) := by
  have hall : areAlike k ops ↔ ((ofKind k ops).filterMap gateOf?).Pairwise fun g h => (g == h) := by
    have hki : ∀ g ∈ (ofKind k ops).filterMap gateOf?, kind g = k := by
      intro g hg
      obtain ⟨op,hop,hgt⟩ := mem_filterMap.mp hg
      rw [ofKind_eq,mem_filter] at hop
      simpa [kindOf,hgt] using hop.2
    unfold areAlike
    cases hga : (ofKind k ops).filterMap gateOf? with
    | nil => simp
    | cons g gs =>
      rw [hga] at hki
      simp only [all_eq_true,pairwise_cons]
      refine ⟨fun h => ⟨h,?_⟩,fun h => h.1⟩
      have hg : kind g ∈ shared := hki g mem_cons_self ▸ hk
      exact pairwise_of_forall_mem_list fun a ha b hb => beq_euclidean hg (h a ha) (h b hb)
  rw [hall,pairwise_filterMap,ofKind_eq,pairwise_filter]
  refine Pairwise.iff fun a b => ?_
  simp only [kindOf,decide_eq_true_eq,Option.map_eq_some_iff]
  constructor
  · intro h g hg h' hh hgk hhk
    exact h ⟨g,hg,hgk⟩ ⟨h',hh,hhk⟩ g hg h' hh
  · rintro h ⟨g,hg,hgk⟩ ⟨h',hh,hhk⟩ g₁ hg₁ h₁ hh₁
    obtain rfl := Option.some.inj (hg.symm.trans hg₁)
    obtain rfl := Option.some.inj (hh.symm.trans hh₁)
    exact h g hg h' hh hgk hhk
lemma tooClose_iff {groups} : d.tooClose groups = false ↔
    groups.Pairwise fun ps qs => ∀ p ∈ ps, ∀ q ∈ qs, d.radius < distance p q := by
  induction groups with
  | nil => simp [tooClose]
  | cons ps groups ih =>
    rw [tooClose,Bool.or_eq_false_iff,ih]
    simp
lemma not_turns_iff : qubitCount .xy ops + qubitCount .z ops = 0 ↔ ∀ op ∈ ops, ¬ Turns op := by
  have hc : ∀ k, qubitCount k ops = 0 ↔ ∀ op ∈ ops, kindOf op = some k → op.qubits = [] := by
    intro k
    simp only [qubitCount,ofKind_eq,sum_eq_zero_iff,forall_mem_map,length_eq_zero_iff,mem_filter,decide_eq_true_eq,and_imp]
  rw [Nat.add_eq_zero_iff,hc,hc]
  simp only [Turns,not_and,not_not]
  exact ⟨fun h op hop hk => hk.elim (h.2 op hop) (h.1 op hop),fun h => ⟨fun op hop hk => h op hop (.inr hk),fun op hop hk => h op hop (.inl hk)⟩⟩
lemma unmixed_iff : (ofKind .controlled ops = [] ∨ qubitCount .xy ops + qubitCount .z ops = 0) ∧
    (ofKind .measure ops = [] ∨ ofKind .controlled ops = [] ∧ qubitCount .xy ops + qubitCount .z ops = 0) ↔
      ops.Pairwise fun a b => ¬ Excludes a b ∧ ¬ Excludes b a := by
  have hall : (∀ a ∈ ops, ∀ b ∈ ops, ¬ Excludes a b) ↔ ops.Pairwise fun a b => ¬ Excludes a b ∧ ¬ Excludes b a := by
    have hs : ∀ a, ¬ Excludes a a := by rintro a (⟨hc,⟨hz | hxy,-⟩⟩ | ⟨hm,hc | ⟨hz | hxy,-⟩⟩) <;> simp_all
    constructor
    · intro h
      exact pairwise_of_forall_mem_list fun a ha b hb => ⟨h a ha b hb,h b hb a ha⟩
    · intro h a ha b hb
      have hsy : Std.Symm fun a b : Operation ℝ => ¬ Excludes a b ∧ ¬ Excludes b a := ⟨fun _ _ h => h.symm⟩
      exact (h.forall_of_forall (fun a _ => ⟨hs a,hs a⟩) ha hb).1
  rw [← hall,not_turns_iff,ofKind_eq_nil,ofKind_eq_nil]
  simp only [Excludes]
  grind
def Safe [OperationText ℝ] (d : NeutralAtomDevice ℝ) (ops : Ops ℝ) : Prop := ∃ m, Moment.ofList ops = .ok m ∧ d.checkMoment m = .ok ()
lemma checkTogether_iff : d.checkTogether ops = .ok () ↔ Within d ops ∧ (∀ k ∈ shared, areAlike k ops) ∧
    ((ofKind .controlled ops = [] ∨ qubitCount .xy ops + qubitCount .z ops = 0) ∧
      (ofKind .measure ops = [] ∨ ofKind .controlled ops = [] ∧ qubitCount .xy ops + qubitCount .z ops = 0)) ∧
        d.tooClose ((ofKind .controlled ops).map Operation.qubits) = false := by
  have hp : ∀ c : Bool × String, (if c.1 then .error (.value c.2) else .ok () : Check) = .ok () ↔ c.1 = false := by
    intro c
    cases h : c.1 <;> simp
  rw [checkTogether,forM_eq_ok_iff]
  simp only [hp,conflicts,shared,forall_mem_cons,not_mem_nil,IsEmpty.forall_iff,implies_true,and_true]
  simp only [Bool.not_eq_false',Bool.and_eq_false_imp,Bool.or_eq_false_iff,Bool.not_eq_true',decide_eq_false_iff_not,decide_eq_true_eq,not_lt,
    isEmpty_map,List.isEmpty_iff,isEmpty_eq_false_iff,Nat.le_zero,not_not]
  constructor
  · rintro ⟨hz,hxy,hc,hmx,hmi,hcl,hmz,hma,hm⟩
    exact ⟨⟨hmx,hmz,or_iff_not_imp_left.mpr fun h => hma (not_le.mp h)⟩,⟨hz,hxy,hc⟩,
      ⟨or_iff_not_imp_left.mpr hmi,or_iff_not_imp_left.mpr hm⟩,hcl⟩
  · rintro ⟨⟨hmx,hmz,hma⟩,⟨hz,hxy,hc⟩,⟨hmi,hm⟩,hcl⟩
    exact ⟨hz,hxy,hc,hmx,or_iff_not_imp_left.mp hmi,hcl,hmz,fun h => hma.resolve_left (not_le.mpr h),or_iff_not_imp_left.mp hm⟩
lemma safe_iff [OperationText ℝ] :
    Safe d ops ↔ (∀ op ∈ ops, op.qubits.Nodup ∧ d.checkOp op = .ok ()) ∧ Within d ops ∧ ops.Pairwise (Compatible d) := by
  have hp : ops.Pairwise (Compatible d) ↔ (ops.Pairwise fun a b => a.qubits.Disjoint b.qubits) ∧
      (∀ k ∈ shared, areAlike k ops) ∧ (ops.Pairwise fun a b => ¬ Excludes a b ∧ ¬ Excludes b a) ∧
        d.tooClose ((ofKind .controlled ops).map Operation.qubits) = false := by
    rw [tooClose_iff,pairwise_map,ofKind_eq,pairwise_filter]
    simp only [shared,forall_mem_cons,not_mem_nil,IsEmpty.forall_iff,implies_true,and_true,areAlike_iff (k := .z) (by decide),
      areAlike_iff (k := .xy) (by decide),areAlike_iff (k := .controlled) (by decide),← pairwise_and_iff]
    refine Pairwise.iff fun a b => ?_
    simp only [decide_eq_true_eq]
    constructor
    · rintro ⟨hd,ha,hu,hdi⟩
      have hki : ∀ k ∈ shared, ∀ g ∈ gateOf? a, ∀ h ∈ gateOf? b, kind g = k → kind h = k → (g == h) := by
        rintro k hk g hg h hh rfl hki
        exact ha g hg h hh hki.symm hk
      exact ⟨hd,⟨hki _ (by decide),hki _ (by decide),hki _ (by decide)⟩,hu,hdi⟩
    · rintro ⟨hd,⟨hz,hxy,hc⟩,hu,hdi⟩
      refine ⟨hd,fun g hg h hh hki hs => ?_,hu,hdi⟩
      simp only [shared,mem_cons,not_mem_nil,or_false] at hs
      rcases hs with hk | hk | hk
      exacts [hz g hg h hh hk (hki ▸ hk),hxy g hg h hh hk (hki ▸ hk),hc g hg h hh hk (hki ▸ hk)]
  have hm : d.checkMoment ⟨ops⟩ = .ok () ↔ (∀ op ∈ ops, d.checkOp op = .ok ()) ∧ d.checkTogether ops = .ok () := by
    rw [← forM_eq_ok_iff,checkMoment]
    cases ops.forM d.checkOp <;> simp [bind,Except.bind]
  have hsa : Safe d ops ↔ OverlapFree ⟨ops⟩ ∧ d.checkMoment ⟨ops⟩ = .ok () := by
    rw [Safe,Moment.ofList]
    split
    all_goals next h => simp [OverlapFree,h]
  rw [hsa,hm,checkTogether_iff,unmixed_iff,overlapFree_iff,hp]
  constructor
  · rintro ⟨⟨he,hd⟩,hops,hw,hr⟩
    exact ⟨fun op hop => ⟨he op hop,hops op hop⟩,hw,hd,hr⟩
  · rintro ⟨he,hw,hd,hr⟩
    exact ⟨⟨fun op hop => (he op hop).1,hd⟩,fun op hop => (he op hop).2,hw,hr⟩
end

/-! ## Schedules -/
section
variable {d : NeutralAtomDevice ℝ} {s : Schedule ℝ} {x y z : Scheduled ℝ} {t : Timestamp ℝ}
noncomputable def running (s : Schedule ℝ) (t : Timestamp ℝ) : List (Scheduled ℝ) := s.ops.filter fun x => decide (x.time < t ∧ t < x.stop)
lemma mem_running : x ∈ running s t ↔ x ∈ s.ops ∧ x.time < t ∧ t < x.stop := by simp [running]
variable [OperationText ℝ]
lemma checked (h : d.checkScheduled s x = .ok ()) : d.checkOp x.op = .ok () ∧ Safe d ((s.sameTime x).map Scheduled.op) := by
  obtain ⟨duration,hd,hc⟩ := of_bind_eq_ok h
  obtain ⟨_,hop,-⟩ := of_bind_eq_ok hd
  refine ⟨hop,?_⟩
  split at hc
  · cases hc
  · exact of_bind_eq_ok hc
lemma checkScheduled_of_safe (hd : d.duration x.op = .ok x.duration) (h : Safe d ((s.sameTime x).map Scheduled.op)) :
    d.checkScheduled s x = .ok () := by
  obtain ⟨m,hm,hmo⟩ := h
  have hl : ¬ x.duration < x.duration := lt_irrefl x.duration.picos
  simp [checkScheduled,hd,bind,Except.bind,hl,hm,hmo]
variable [NumberText ℝ]
/-- An accepted schedule consists of operations that pass on their own, each among others that form an accepted moment. -/
lemma accepted_each (h : (Device.neutralAtom d).checkSchedule s = .ok ()) (hx : x ∈ s.ops) :
    d.checkOp x.op = .ok () ∧ Safe d ((s.sameTime x).map Scheduled.op) := by
  have he : ∀ xs measured, d.checkAll s xs measured = .ok () → ∀ x ∈ xs, d.checkScheduled s x = .ok () := by
    intro xs
    induction xs with
    | nil => simp
    | cons x xs ih =>
      intro measured h
      obtain ⟨_,hx,hxs⟩ := of_bind_eq_ok h
      refine forall_mem_cons.mpr ⟨hx,?_⟩
      split at hxs
      · split at hxs
        · cases hxs
        · exact ih _ hxs
      · exact ih _ hxs
  exact checked (he s.ops false h x hx)

/-- Two operations that run while a third one runs are compared when that one is checked. -/
lemma compatible_of_seen (hs : Bounded s) (h : (Device.neutralAtom d).checkSchedule s = .ok ()) (hxy : [x,y] <+ running s t)
    (hz : z ∈ running s t) (hxz : (x == z) = false) (hyz : (y == z) = false) : Compatible d x.op y.op := by
  have hsub : [x,y] <+ s.sameTime z := by
    have ho : ∀ w ∈ running s t, (w == z) = false → (!(w == z)) ∧
        meets ⟨z.time,z.duration,none,false,false⟩ w := by
      intro w hw hwz
      obtain ⟨-,hst,hsp⟩ := mem_running.mp hw
      obtain ⟨-,hzs,hzt⟩ := mem_running.mp hz
      exact ⟨by rw [hwz]; rfl,(meets_iff rfl rfl).mpr ⟨lt_trans (α := ℝ) hzs hsp,lt_trans (α := ℝ) hst hzt⟩⟩
    have hall := (hxy.trans filter_sublist).filter fun w =>
      meets ⟨z.time,z.duration,none,false,false⟩ w && touches ⟨z.time,z.duration,none,false,false⟩ w
    have hx := ho x (hxy.subset (by simp)) hxz
    have hy := ho y (hxy.subset (by simp)) hyz
    rw [← query_eq_filter hs] at hall
    rw [Schedule.sameTime]
    simpa [hx,hy,touches] using hall.filter fun w => !(w == z)
  have hp := (safe_iff.mp (accepted_each h (mem_running.mp hz).1).2).2.2
  exact pairwise_iff_forall_sublist.mp (pairwise_map.mp hp) hsub

/-- Whatever an accepted schedule runs at an instant forms an accepted moment just if it keeps the limits of the device and any two
operations that no third one then sees are compatible. -/
theorem accepted_safe_iff (hs : Bounded s) (hnodup : ∀ x ∈ s.ops, x.op.qubits.Nodup)
    (h : (Device.neutralAtom d).checkSchedule s = .ok ()) (t : Timestamp ℝ) : Safe d ((running s t).map Scheduled.op) ↔
      Within d ((running s t).map Scheduled.op) ∧ (running s t).Pairwise fun x y =>
        (∃ z ∈ running s t, (x == z) = false ∧ (y == z) = false) ∨ Compatible d x.op y.op := by
  have heach : ∀ op ∈ (running s t).map Scheduled.op, op.qubits.Nodup ∧ d.checkOp op = .ok () := by
    refine forall_mem_map.mpr fun x hx => ?_
    have hmem := (mem_running.mp hx).1
    exact ⟨hnodup x hmem,(accepted_each h hmem).1⟩
  rw [safe_iff,pairwise_map]
  constructor
  · rintro ⟨-,hwithin,hpairs⟩
    exact ⟨hwithin,hpairs.imp .inr⟩
  · rintro ⟨hwithin,hpairs⟩
    refine ⟨heach,hwithin,pairwise_iff_forall_sublist.mpr fun {x y} hxy => ?_⟩
    rcases pairwise_iff_forall_sublist.mp hpairs hxy with ⟨z,hz,hxz,hyz⟩ | hcompatible
    · exact compatible_of_seen hs h hxy hz hxz hyz
    · exact hcompatible
end
noncomputable def firstTurn (k : PowerKind) (c : Int) : Scheduled ℝ := ⟨⟨0⟩,⟨2⟩,.gate (.power k (.num 1) 0 false) [.grid 0 c]⟩

/-- Turns about two axes at the same time pass, as each of them is checked without itself. -/
theorem crossedAxes_accepted :
    let _ : OperationText ℝ := ⟨fun _ => "",fun _ => "",fun _ => ""⟩
    let _ : NumberText ℝ := ⟨fun _ => "",fun _ _ => "",fun _ _ => "",fun _ _ => "",fun _ => "",fun _ _ => "",fun _ _ _ => ""⟩
    let d : NeutralAtomDevice ℝ := ⟨⟨2⟩,⟨2⟩,1,3,3,3,[.grid 0 0,.grid 0 1]⟩
    let s : Schedule ℝ := ⟨.neutralAtom d,[firstTurn .x 0,firstTurn .y 1],⟨2⟩⟩
    (Device.neutralAtom d).checkSchedule s = .ok () ∧ ¬ Safe d ((running s ⟨1⟩).map Scheduled.op) := by
  intro _ _ d s
  have hs : Bounded s := by simp [Bounded,s,firstTurn,show ∀ a : Duration ℝ, a ≤ a from fun a => le_refl a.picos]
  have hself : ∀ k c, (firstTurn k c == firstTurn k c) = true := fun _ _ => beq_power_self ..
  have hcross : ∀ k k' c c', k ≠ k' → (firstTurn k c == firstTurn k' c') = false := by
    intro k k' c c' hk
    change (_ == _ && ((k == k' && _ == _ && _ == _) && _) && _ == _) = false
    simp [hk]
  have hruns : ∀ k c, (firstTurn k c).time < ⟨1⟩ ∧ (⟨1⟩ : Timestamp ℝ) < (firstTurn k c).stop := by
    intro k c
    change (0 : ℝ) < 1 ∧ (1 : ℝ) < 0 + 2
    norm_num
  have hrunning : running s ⟨1⟩ = [firstTurn .x 0,firstTurn .y 1] := by simp [running,s,hruns]
  have hmeet : ∀ k c k' c', ScheduleQuery.meets ⟨(firstTurn k c).time,(firstTurn k c).duration,none,false,false⟩ (firstTurn k' c') = true := by
    intro k c k' c'
    have hlt : (firstTurn k c).time < (firstTurn k' c').stop := lt_trans (α := ℝ) (hruns k c).1 (hruns k' c').2
    exact (meets_iff rfl rfl).mpr ⟨hlt,hlt⟩
  have hstep : ∀ x y xs, d.duration x.op = .ok x.duration → x.op.isMeasurement = false → s.sameTime x = [y] → y.op.qubits.Nodup →
      d.checkOp y.op = .ok () → Within d [y.op] → d.checkAll s (x :: xs) false = d.checkAll s xs false := by
    intro x y xs hduration hread hsame hnodup hop hwithin
    have hsafe : Safe d [y.op] := safe_iff.mpr ⟨forall_mem_singleton.mpr ⟨hnodup,hop⟩,hwithin,pairwise_singleton _ _⟩
    rw [checkAll,checkScheduled_of_safe hduration (by rwa [hsame]),hread]
    rfl
  have hcheck : (Device.neutralAtom d).checkSchedule s = .ok () := by
    change d.checkAll s [firstTurn .x 0,firstTurn .y 1] false = .ok ()
    rw [hstep _ (firstTurn .y 1) _ rfl rfl _ (nodup_singleton _) rfl ⟨by decide,by decide,by decide⟩,
      hstep _ (firstTurn .x 0) _ rfl rfl _ (nodup_singleton _) rfl ⟨by decide,by decide,by decide⟩,checkAll]
    · simp only [Schedule.sameTime,query_eq_filter hs]
      simp [s,hmeet,ScheduleQuery.touches,hself,hcross]
    · simp only [Schedule.sameTime,query_eq_filter hs]
      simp [s,hmeet,ScheduleQuery.touches,hself,hcross]
  refine ⟨hcheck,fun h => ?_⟩
  have hpairs := ((accepted_safe_iff hs (by simp [s,firstTurn,Operation.qubits]) hcheck ⟨1⟩).mp h).2
  rw [hrunning,pairwise_cons] at hpairs
  rcases hpairs.1 (firstTurn .y 1) mem_cons_self with ⟨z,hz,hxz,hyz⟩ | hcompatible
  · simp only [mem_cons,not_mem_nil,or_false] at hz
    rcases hz with rfl | rfl
    · rw [hself] at hxz
      cases hxz
    · rw [hself] at hyz
      cases hyz
  · have halike := hcompatible.alike _ rfl _ rfl rfl (by decide)
    cases halike
end QuantumCircuits.SafeInstants
