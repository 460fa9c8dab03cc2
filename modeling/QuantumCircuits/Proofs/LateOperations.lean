import QuantumCircuits.Proofs.SafeInstants

/-! # What may end after a measurement

Only measurements may end after a measurement. The check is made once, for the measurement that starts first, and
refuses whatever ends after it. A gate that ends after a later measurement could only escape by running together with
both, which no moment allows. -/
namespace QuantumCircuits.LateOperations
open List Collisions NeutralAtomDevice SafeInstants
def tooLate : Fault := .value "Non-measurement operation after measurement"
def first? (xs : List (Scheduled ℝ)) : Option (Scheduled ℝ) := xs.find? fun x => x.op.isMeasurement

/-- A gate that cannot run together with a measurement; only the identity can. -/
def Acting (op : Operation ℝ) : Prop := kindOf op = some .controlled ∨ Turns op
def Violated (s : Schedule ℝ) : Prop :=
  ∃ x ∈ s.ops, ∃ y ∈ s.ops, x.op.isMeasurement = true ∧ y.op.isMeasurement = false ∧ x.stop < y.stop
section
variable {d : NeutralAtomDevice ℝ} {s : Schedule ℝ} {x y z : Scheduled ℝ} {xs : List (Scheduled ℝ)}
lemma times_of_beq (h : (x == y)) : x.time.picos = y.time.picos ∧ x.duration.picos = y.duration.picos := by
  change (x.time.picos == y.time.picos && _ && x.duration.picos == y.duration.picos) at h
  simp only [Bool.and_eq_true,beq_iff_eq] at h
  exact ⟨h.1.1,h.2⟩
lemma beq_of_stop (h : x.stop.picos ≠ y.stop.picos) : (x == y) = false := by
  refine Bool.eq_false_iff.mpr fun hbeq => h ?_
  obtain ⟨ht,hd⟩ := times_of_beq hbeq
  exact congrArg₂ (· + ·) ht hd
lemma mem_sameTime (hs : Bounded s) (hy : y ∈ s.ops) (hst : x.time.picos < y.stop.picos) (hend : y.time.picos < x.stop.picos)
    (hne : (y == x) = false) : y ∈ s.sameTime x := by
  have hm : ScheduleQuery.meets ⟨x.time,x.duration,none,false,false⟩ y := (meets_iff rfl rfl).mpr ⟨hst,hend⟩
  simp [Schedule.sameTime,query_eq_filter hs,hy,hne,hm,ScheduleQuery.touches]
variable [OperationText ℝ]
lemma safe_unmixed {a b} (h : Safe d ops) (ha : a ∈ ops) (hb : b ∈ ops)
    (hr : a.isMeasurement) : ¬ Acting b := by
  have hk : kindOf a = some .measure := by
    unfold Operation.isMeasurement Operation.measurementKey? at hr
    split at hr
    · rfl
    · cases hr
  obtain ⟨-,hm⟩ := unmixed_iff.mpr ((safe_iff.mp h).2.2.imp Compatible.unmixed)
  rcases hm with hn | ⟨hc,ht⟩
  · exact absurd hk (ofKind_eq_nil.mp hn a ha)
  · rintro (hb' | hb')
    · exact ofKind_eq_nil.mp hc b hb hb'
    · exact not_turns_iff.mp ht b hb hb'
lemma not_acting (hz : d.checkScheduled s z = .ok ()) (hx : x ∈ s.sameTime z) (hy : y ∈ s.sameTime z)
    (hr : x.op.isMeasurement) : ¬ Acting y.op :=
  safe_unmixed (checked hz).2 (mem_map_of_mem hx) (mem_map_of_mem hy) hr

/-- A gate that ends after some measurement but not after the first one runs together with both. -/
lemma late_of_violated (hs : Bounded s) (ht : InTurn s.ops) (h : ∀ x ∈ s.ops, d.checkScheduled s x = .ok ())
    (hops : ∀ x ∈ s.ops, 0 < x.duration.picos ∧ (x.op.isMeasurement ∨ Acting x.op)) (hv : Violated s) :
    ∃ x ∈ first? s.ops, ∃ y ∈ s.ops, x.stop < y.stop := by
  obtain ⟨x,hx,y,hy,hr,hg,hlt⟩ := hv
  obtain ⟨f,hf⟩ : ∃ f, first? s.ops = some f := Option.isSome_iff_exists.mp (find?_isSome.mpr ⟨x,hx,hr⟩)
  obtain ⟨hfr,before,after,hsp,hb⟩ := find?_eq_some_iff_append.mp hf
  have hfm : f ∈ s.ops := by simp [hsp]
  by_contra hn
  have hl : ∀ z ∈ s.ops, z.stop.picos ≤ f.stop.picos := fun z hz => not_lt.mp fun hlt => hn ⟨f,hf,z,hz,hlt⟩
  have hfi : f.time.picos ≤ x.time.picos := by
    rw [hsp] at hx ht
    rcases mem_append.mp hx with hx | hx
    · exact absurd hr (by simpa using hb x hx)
    · rcases mem_cons.mp hx with rfl | hx
      · exact le_rfl
      · exact (pairwise_cons.mp (pairwise_append.mp ht).2.1).1 x hx
  have ha : Acting y.op := (hops y hy).2.resolve_left (by simp [hg])
  have hxs : x.stop.picos = x.time.picos+x.duration.picos := rfl
  have hys : y.stop.picos = y.time.picos+y.duration.picos := rfl
  have hxn := (hops x hx).1
  have hyn := (hops y hy).1
  have hyl := hl y hy
  have hxy : x.stop.picos < y.stop.picos := hlt
  have hxl : x.stop.picos < f.stop.picos := hxy.trans_le hyl
  by_cases hsa : (y == f)
  · obtain ⟨hti,hd⟩ := times_of_beq hsa
    exact not_acting (h x hx) (mem_sameTime hs hfm (by linarith) (by linarith) (beq_of_stop hxl.ne'))
      (mem_sameTime hs hy (by linarith) (by linarith) (beq_of_stop hxy.ne')) hfr ha
  · exact not_acting (h f hfm) (mem_sameTime hs hx (by linarith) (by linarith) (beq_of_stop hxl.ne))
      (mem_sameTime hs hy (by linarith) (by linarith) (by simpa using hsa)) hr ha
lemma checkAll_measured (h : ∀ x ∈ xs, d.checkScheduled s x = .ok ()) : d.checkAll s xs true = .ok () := by
  induction xs with
  | nil => rfl
  | cons x xs ih =>
    obtain ⟨hx,hxs⟩ := forall_mem_cons.mp h
    simp [checkAll,hx,ih hxs,bind,Except.bind]
lemma checkAll_eq (h : ∀ x ∈ xs, d.checkScheduled s x = .ok ()) : d.checkAll s xs false =
    (first? xs).elim (.ok ()) fun x => if s.ops.any fun y => x.stop < y.stop then .error tooLate else .ok () := by
  induction xs with
  | nil => rfl
  | cons x xs ih =>
    obtain ⟨hx,hxs⟩ := forall_mem_cons.mp h
    rw [checkAll,hx]
    cases hr : x.op.isMeasurement with
    | false => simpa [hr,bind,Except.bind,first?] using ih hxs
    | true =>
      simp only [first?,find?_cons,hr,checkAll_measured hxs]
      rfl
variable [NumberText ℝ]
lemma checkSchedule_eq_tooLate (h : ∀ x ∈ s.ops, d.checkScheduled s x = .ok ()) :
    ((Device.neutralAtom d).checkSchedule s = .error tooLate ↔ ∃ x ∈ first? s.ops, ∃ y ∈ s.ops, x.stop < y.stop) ∧
      ((Device.neutralAtom d).checkSchedule s ≠ .error tooLate → (Device.neutralAtom d).checkSchedule s = .ok ()) := by
  change (d.checkAll s s.ops false = _ ↔ _) ∧ (d.checkAll s s.ops false ≠ _ → d.checkAll s s.ops false = _)
  rw [checkAll_eq h]
  cases first? s.ops with
  | none => simp
  | some x => simp

/-- A schedule whose operations pass is refused just if something ends after the measurement that starts first. If all operations
last and none is an identity, this is a gate that ends after some measurement, or a measurement that ends after the first one. -/
theorem late_refused_iff (d : NeutralAtomDevice ℝ) (initial : List (Scheduled ℝ)) (calls : List Call) :
    let s := calls.foldl Call.apply (.ofList (.neutralAtom d) initial)
    (∀ x ∈ s.ops, d.checkScheduled s x = .ok ()) →
      ((Device.neutralAtom d).checkSchedule s = .error tooLate ↔ ∃ x ∈ first? s.ops, ∃ y ∈ s.ops, x.stop < y.stop) ∧
      ((Device.neutralAtom d).checkSchedule s ≠ .error tooLate → (Device.neutralAtom d).checkSchedule s = .ok ()) ∧
      ((∀ x ∈ s.ops, 0 < x.duration.picos ∧ (x.op.isMeasurement = true ∨ Acting x.op)) →
        ((Device.neutralAtom d).checkSchedule s = .error tooLate ↔ Violated s ∨
          ∃ x ∈ first? s.ops, ∃ y ∈ s.ops, y.op.isMeasurement = true ∧ x.stop < y.stop)) := by
  intro s h
  obtain ⟨hbound,hturn,-⟩ := ofList_spec (.neutralAtom d) initial
  obtain ⟨hbound,hturn⟩ := calls_keep (fun x _ h _ => h.place x) (fun hsub h => h.sublist hsub) calls hbound hturn
  obtain ⟨hiff,hok⟩ := checkSchedule_eq_tooLate h
  refine ⟨hiff,hok,fun hops => hiff.trans ⟨?_,?_⟩⟩
  · rintro ⟨x,hx,y,hy,hlt⟩
    cases hread : y.op.isMeasurement with
    | false => exact .inl ⟨x,mem_of_find?_eq_some hx,y,hy,by simpa using find?_some hx,hread,hlt⟩
    | true => exact .inr ⟨x,hx,y,hy,hread,hlt⟩
  · rintro (hviolated | ⟨x,hx,y,hy,-,hlt⟩)
    · exact late_of_violated hbound hturn h hops hviolated
    · exact ⟨x,hx,y,hy,hlt⟩
end
noncomputable def reading (start : ℝ) (c : Int) : Scheduled ℝ := ⟨⟨start⟩,⟨1⟩,.gate (.measurement 1 "m" []) [.grid 0 c]⟩

/-- One measurement after another is refused although there is no gate. -/
theorem readings_refused :
    let _ : OperationText ℝ := ⟨fun _ => "",fun _ => "",fun _ => ""⟩
    let _ : NumberText ℝ := ⟨fun _ => "",fun _ _ => "",fun _ _ => "",fun _ _ => "",fun _ => "",fun _ _ => "",fun _ _ _ => ""⟩
    let d : NeutralAtomDevice ℝ := ⟨⟨1⟩,⟨1⟩,1,3,3,3,[.grid 0 0,.grid 0 1]⟩
    let s := Schedule.ofList (.neutralAtom d) [reading 0 0,reading 2 1]
    (∀ x ∈ s.ops, d.checkScheduled s x = .ok ()) ∧ ¬ Violated s ∧ (Device.neutralAtom d).checkSchedule s = .error tooLate := by
  intro _ _ d s
  have hops : s.ops = [reading 0 0,reading 2 1] := by
    have hlater : ¬ (reading 2 1).time < (reading 0 0).time := by
      change ¬ (2 : ℝ) < 0
      norm_num
    simp [s,Schedule.ofList,Schedule.place,hlater]
  have hmeets : ∀ a b c e, ScheduleQuery.meets ⟨(reading a c).time,(reading a c).duration,none,false,false⟩ (reading b e) =
      decide (a < b+1 ∧ b < a+1) := fun _ _ _ _ => Bool.eq_iff_iff.mpr ((meets_iff rfl rfl).trans decide_eq_true_iff.symm)
  have hsame : ∀ x ∈ s.ops, s.sameTime x = [x].filter fun y => !(y == x) := by
    have hbound : Bounded s := (ofList_spec _ _).1
    rw [hops]
    simp only [forall_mem_cons,not_mem_nil,IsEmpty.forall_iff,implies_true,and_true]
    constructor <;> norm_num [Schedule.sameTime,query_eq_filter hbound,hops,hmeets,ScheduleQuery.touches]
  have hpass : ∀ x ∈ s.ops, d.checkScheduled s x = .ok () := by
    intro x hx
    obtain ⟨hduration,hnodup,hop,hwithin⟩ :
        d.duration x.op = .ok x.duration ∧ x.op.qubits.Nodup ∧ d.checkOp x.op = .ok () ∧ Within d [x.op] := by
      rw [hops] at hx
      simp only [mem_cons,not_mem_nil,or_false] at hx
      rcases hx with rfl | rfl <;> exact ⟨rfl,nodup_singleton _,rfl,by decide,by decide,by decide⟩
    refine checkScheduled_of_safe hduration ?_
    rw [hsame x hx]
    cases hself : x == x
    · simpa [hself] using safe_iff.mpr ⟨forall_mem_singleton.mpr ⟨hnodup,hop⟩,hwithin,pairwise_singleton _ _⟩
    · simpa [hself] using safe_iff.mpr ⟨forall_mem_nil _,⟨by decide,by decide,by decide⟩,.nil⟩
  obtain ⟨hiff,-⟩ := late_refused_iff d [reading 0 0,reading 2 1] [] hpass
  refine ⟨hpass,?_,hiff.mpr ⟨reading 0 0,?_,reading 2 1,?_,?_⟩⟩
  · rintro ⟨-,-,y,hy,-,hgate,-⟩
    rw [hops] at hy
    simp only [mem_cons,not_mem_nil,or_false] at hy
    rcases hy with rfl | rfl <;> cases hgate
  · change s.ops.find? _ = _
    rw [hops]
    rfl
  · change _ ∈ s.ops
    simp [hops]
  · change (0 : ℝ) + 1 < 2+1
    norm_num
end QuantumCircuits.LateOperations
