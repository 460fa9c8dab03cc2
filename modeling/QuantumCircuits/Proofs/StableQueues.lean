import Mathlib
import QuantumCircuits.Circuit.Insert

/-! # Queues of buckets

A queue with a bucket for each priority behaves as a list by ascending priority, in which an entry goes behind those of its
own priority. Buckets that have become empty, and the place where the buckets begin, do not show.
-/
namespace QuantumCircuits.StableQueues
open List BucketQueue
variable {α : Type}
inductive Call (α : Type) where
  | enqueue (p : Int) (a : α)
  | dequeue

/-- A list by ascending priority with another entry, behind those of the same priority. -/
def joined (e : Int × α) (es : List (Int × α)) : List (Int × α) := es.takeWhile (·.1 ≤ e.1) ++ e :: es.dropWhile (·.1 ≤ e.1)

/-- What a queue shows of its entries, and that it drops those which it keeps already if it should. -/
structure Shows (drops : Bool) (q : BucketQueue α) (es : List (Int × α)) : Prop where
  sorted : es.Pairwise (·.1 ≤ ·.1)
  entries : q.entries = es
  size : q.size = es.length
  isEmpty : q.isEmpty = es.isEmpty
  drops : q.dropsDuplicates = drops
  queued : ∀ ds ∈ q.queued, ds.Perm es

/-- The calls of a sequence are answered from a list by ascending priority, which the queue shows before and after each. -/
def Serves [DecidableEq α] (drops : Bool) : BucketQueue α → List (Int × α) → List (Call α) → Prop
  | q, es, [] => Shows drops q es
  | q, es, .enqueue p a :: calls => Shows drops q es ∧ if drops ∧ (p,a) ∈ es
      then (q.enqueue p a).2 = false ∧ Serves drops (q.enqueue p a).1 es calls
      else (q.enqueue p a).2 = true ∧ Serves drops (q.enqueue p a).1 (joined (p,a) es) calls
  | q, [], .dequeue :: calls => Shows drops q [] ∧ q.dequeue = .error (.value "BucketPriorityQueue is empty.") ∧ Serves drops q [] calls
  | q, e :: es, .dequeue :: calls => Shows drops q (e :: es) ∧ ∃ q', q.dequeue = .ok (e,q') ∧ Serves drops q' es calls
variable {p : Int} {a : α} {e : Int × α} {q : BucketQueue α} {es : List (Int × α)} {drops : Bool}
lemma le_of_mem_entriesFrom {o : Int} {bs : List (List α)} (he : e ∈ entriesFrom o bs) : o ≤ e.1 := by
  induction bs generalizing o with
  | nil => cases he
  | cons b bs ih =>
    rcases mem_append.mp he with he | he
    · obtain ⟨a,-,rfl⟩ := mem_map.mp he
      exact le_rfl
    · exact le_trans (by omega) (ih he)
lemma entriesFrom_sorted (o : Int) (bs : List (List α)) : (entriesFrom o bs).Pairwise (·.1 ≤ ·.1) := by
  induction bs generalizing o with
  | nil => exact .nil
  | cons b bs ih =>
    refine pairwise_append.mpr ⟨pairwise_map.mpr (pairwise_of_forall fun _ _ => le_rfl),ih (o+1),fun e he e' he' => ?_⟩
    obtain ⟨a,-,rfl⟩ := mem_map.mp he
    exact le_trans (by omega) (le_of_mem_entriesFrom he')
lemma entriesFrom_replicate {o o' : Int} {k : Nat} (h : o+k = o') (bs : List (List α)) :
    entriesFrom o (replicate k [] ++ bs) = entriesFrom o' bs := by
  induction k generalizing o with
  | zero => simp_all
  | succ k ih => exact ih (by omega)
lemma joined_append {ds : List (Int × α)} (h : ∀ d ∈ ds, d.1 ≤ e.1) (es) : joined e (ds ++ es) = ds ++ joined e es := by
  have hd : ∀ d ∈ ds, decide (d.1 ≤ e.1) = true := fun d hd => decide_eq_true (h d hd)
  rw [joined,takeWhile_append_of_pos hd,dropWhile_append_of_pos hd,append_assoc,joined]
lemma joined_of_lt (h : ∀ d ∈ es, e.1 < d.1) : joined e es = e :: es := by
  cases es with
  | nil => rfl
  | cons d es => simp [joined,h d mem_cons_self]
lemma joined_perm (e) (es : List (Int × α)) : (joined e es).Perm (e :: es) := by
  have h : (joined e es).Perm (e :: (es.takeWhile (·.1 ≤ e.1) ++ es.dropWhile (·.1 ≤ e.1))) := perm_middle
  rwa [takeWhile_append_dropWhile] at h
lemma entriesFrom_appendAt {o : Int} {n : Nat} (h : o+n = p) (bs : List (List α)) :
    entriesFrom o (appendAt a n bs) = joined (p,a) (entriesFrom o bs) := by
  fun_induction appendAt a n bs generalizing o with
  | case1 => simp_all [entriesFrom,joined]
  | case2 b bs =>
    obtain rfl : o = p := by simpa using h
    rw [entriesFrom,entriesFrom,joined_append (by simp),joined_of_lt fun d hd => ?_]
    · simp
    · have := le_of_mem_entriesFrom hd
      exact Int.lt_of_add_one_le this
  | case3 n ih => exact ih (by omega)
  | case4 n b bs ih => rw [entriesFrom,entriesFrom,joined_append (by simp; omega),ih (by omega)]
lemma entries_push (q : BucketQueue α) (p : Int) (a : α) : (q.push p a).entries = joined (p,a) q.entries := by
  unfold push
  split_ifs with hb hp
  · simp [BucketQueue.entries,isEmpty_iff.mp hb,entriesFrom,joined]
  · rw [BucketQueue.entries,entriesFrom_appendAt (add_zero p),entriesFrom_replicate (show p+_ = q.offset by omega)]
    rfl
  · exact entriesFrom_appendAt (show q.offset+_ = p by omega) _
lemma popFrom_eq (o : Int) (bs : List (List α)) :
    (popFrom o bs).elim (entriesFrom o bs = []) fun r => entriesFrom o bs = r.1 :: entriesFrom r.2.1 r.2.2 := by
  fun_induction popFrom o bs <;> simp_all [entriesFrom]
lemma isEmpty_eq (h : q.size = es.length) : q.isEmpty = es.isEmpty := by cases es <;> simp_all [BucketQueue.isEmpty]
namespace Shows
lemma size_push (h : Shows drops q es) (p : Int) (a : α) : (q.push p a).size = (joined (p,a) es).length := by
  rw [(joined_perm _ es).length_eq,length_cons,← h.size]
  unfold push
  split_ifs with hb
  · rw [h.size,← h.entries,BucketQueue.entries,isEmpty_iff.mp hb]
    rfl
  all_goals rfl
variable [DecidableEq α]
lemma enqueue (h : Shows drops q es) (p : Int) (a : α) : if drops ∧ (p,a) ∈ es then q.enqueue p a = (q,false)
    else (q.enqueue p a).2 = true ∧ Shows drops (q.enqueue p a).1 (joined (p,a) es) := by
  have hc : q.queued.any (·.contains (p,a)) = true ↔ drops = true ∧ (p,a) ∈ es := by
    rw [← h.drops,dropsDuplicates]
    cases hq : q.queued with
    | none => simp
    | some ds => simp [(h.queued ds hq).mem_iff]
  unfold BucketQueue.enqueue
  split_ifs with hd hd'
  · rfl
  · exact absurd (hc.mpr hd) hd'
  · exact absurd (hc.mp ‹_›) hd
  · have he := h.entries ▸ entries_push q p a
    refine ⟨rfl,he ▸ entriesFrom_sorted ..,he,h.size_push p a,isEmpty_eq (h.size_push p a),?_,fun ds hds => ?_⟩
    · rw [← h.drops]; simp [dropsDuplicates]
    · obtain ⟨ds,hq,rfl⟩ := Option.map_eq_some_iff.mp hds
      exact ((h.queued ds hq).cons _).trans (joined_perm _ es).symm
lemma dequeue (h : Shows drops q (e :: es)) : ∃ q', q.dequeue = .ok (e,q') ∧ Shows drops q' es := by
  have hpop := popFrom_eq q.offset q.buckets
  have he : entriesFrom q.offset q.buckets = e :: es := h.entries
  rw [BucketQueue.dequeue,if_neg (by simp [h.isEmpty])]
  cases hb : popFrom q.offset q.buckets with
  | none => simp [hb,he] at hpop
  | some r =>
    obtain ⟨rfl,rfl⟩ : e = r.1 ∧ es = entriesFrom r.2.1 r.2.2 := by simpa [hb,he] using hpop
    have hs : q.size-1 = (entriesFrom r.2.1 r.2.2).length := by simp [h.size]
    refine ⟨_,rfl,h.sorted.of_cons,rfl,hs,isEmpty_eq hs,?_,fun ds hds => ?_⟩
    · rw [← h.drops]; simp [dropsDuplicates]
    · obtain ⟨ds,hq,rfl⟩ := Option.map_eq_some_iff.mp hds
      simpa using (h.queued ds hq).erase r.1
end Shows
/-- A queue of buckets serves every sequence of calls as a stable priority queue does. -/
theorem buckets_serve_stably [DecidableEq α] (drops : Bool) (calls : List (Call α)) : Serves drops (.empty drops) [] calls := by
  have hrun : ∀ (q : BucketQueue α) es, Shows drops q es → Serves drops q es calls := by
    induction calls with
    | nil => exact fun q es h => h
    | cons c calls ih =>
      intro q es h
      match c,es with
      | .enqueue p a,es =>
        have he := h.enqueue p a
        refine ⟨h,?_⟩
        split_ifs at he ⊢
        · rw [he]
          exact ⟨rfl,ih q es h⟩
        · exact ⟨he.1,ih _ _ he.2⟩
      | .dequeue,[] => exact ⟨h,if_pos h.isEmpty,ih q [] h⟩
      | .dequeue,e :: es =>
        obtain ⟨q',hq,h'⟩ := h.dequeue
        exact ⟨h,q',hq,ih q' es h'⟩
  refine hrun _ _ ⟨.nil,rfl,rfl,rfl,?_,?_⟩
  · cases drops <;> rfl
  · cases drops <;> simp [empty]
end QuantumCircuits.StableQueues
