import Mathlib
import QuantumCircuits.Circuit.Basic

/-! # The order of named qubits

Names are compared by their padded keys. A key can be read back run by run, so that different names have different
keys, and numbers of up to eight digits are compared by their values.
-/
namespace QuantumCircuits.NaturalOrder
open List Qubit
variable {d : Bool} {c : Char} {a b r s t x y : List Char} {m n : Nat}
/-! ## Keys, run by run -/
abbrev key (s : List Char) : List Char := keyFrom false [] s
abbrev Run (d : Bool) (a : List Char) : Prop := ∀ c ∈ a, Text.isDigit c = d
abbrev Ends (d : Bool) (x : List Char) : Prop := x.head?.map Text.isDigit ≠ some d
lemma key_eq : key (c :: s) = keyFrom (Text.isDigit c) [c] s := by
  cases h : Text.isDigit c <;> simp [keyFrom,runKey,h]
lemma keyFrom_eq (d run s) : keyFrom d run s =
    runKey d (run.reverse ++ s.takeWhile (Text.isDigit · == d)) ++ key (s.dropWhile (Text.isDigit · == d)) := by
  induction s generalizing run with
  | nil => simp [keyFrom,runKey]
  | cons c s ih =>
    rw [keyFrom]
    split
    case isTrue h => simp [ih,h]
    case isFalse h => simp [h,key_eq]
lemma key_cons (h : Text.isDigit c = d) (s) : key (c :: s) =
    runKey d ((c :: s).takeWhile (Text.isDigit · == d)) ++ key ((c :: s).dropWhile (Text.isDigit · == d)) := by
  subst h
  simpa using key_eq.trans (keyFrom_eq ..)

/-- A key starts with a digit if and only if its text does. -/
lemma head_key (s) : (key s).head?.map Text.isDigit = s.head?.map Text.isDigit := by
  cases s with
  | nil => rfl
  | cons c s =>
    rw [key_eq,keyFrom_eq,runKey]
    split
    case isTrue h =>
      cases 8-([c].reverse ++ s.takeWhile (Text.isDigit · == Text.isDigit c)).length with
      | zero => rfl
      | succ k => exact congrArg some h.symm
    case isFalse => rfl

/-! ## Reading back -/
lemma takeWhile_run (ha : Run d a) (hx : Ends d x) :
    (a ++ x).takeWhile (Text.isDigit · == d) = a ∧ (a ++ x).dropWhile (Text.isDigit · == d) = x := by
  have hd : ∀ c ∈ a, (Text.isDigit c == d) = true := fun c hc => beq_iff_eq.mpr (ha c hc)
  rw [takeWhile_append_of_pos hd,dropWhile_append_of_pos hd]
  cases x <;> simp_all
lemma append_inj_of_ends (ha : Run d a) (hb : Run d b) (hx : Ends d x) (hy : Ends d y) (h : a ++ x = b ++ y) : a = b ∧ x = y := by
  have hab : a = b := by rw [← (takeWhile_run ha hx).1,h,(takeWhile_run hb hy).1]
  exact ⟨hab,append_cancel_left (hab ▸ h)⟩
lemma run_toDigits (n) : Run true (Nat.toDigits 10 n) := fun c hc => by
  rw [Text.isDigit,Nat.isDigit_of_mem_toDigits (by decide) (by decide) hc,Bool.true_or]
lemma runKey_append_inj (ha : Run d a) (hb : Run d b) (hx : Ends d x) (hy : Ends d y) (h : runKey d a ++ x = runKey d b ++ y) :
    a = b ∧ x = y := by
  cases d with
  | false => exact append_inj_of_ends ha hb hx hy h
  | true =>
    have hpad : ∀ {k b}, Run true b → Run true (replicate k '0' ++ b) := fun hb c hc =>
      (mem_append.mp hc).elim (fun hc => eq_of_mem_replicate hc ▸ rfl) (hb c)
    have hcolon : ∀ {x}, Ends true (':' :: x) := by simp; decide
    simp only [runKey,if_pos,append_assoc (_ ++ _),cons_append] at h
    obtain ⟨hab,h⟩ := append_inj_of_ends (hpad ha) (hpad hb) hcolon hcolon h
    obtain ⟨hn,h⟩ := append_inj_of_ends (run_toDigits _) (run_toDigits _) hx hy (List.cons.inj h).2
    have hlen : a.length = b.length := by simpa [Nat.ofDigitChars_toDigits] using congrArg (Nat.ofDigitChars 10 · 0) hn
    exact ⟨(append_inj' hab hlen).2,h⟩
lemma key_injective (h : key s = key t) : s = t := by
  induction hn : s.length using Nat.strongRecOn generalizing s t with
  | ind n ih =>
    have hhead : s.head?.map Text.isDigit = t.head?.map Text.isDigit := by rw [← head_key,h,head_key]
    cases s with
    | nil => cases t <;> simp_all
    | cons c s =>
      cases t with
      | nil => simp at hhead
      | cons e t =>
        set p := (Text.isDigit · == Text.isDigit c)
        have hrun : ∀ s, Run (Text.isDigit c) (takeWhile p s) := fun s e he => by simpa [p] using mem_takeWhile_imp he
        have hends : ∀ s, Ends (Text.isDigit c) (key (dropWhile p s)) := by
          intro s
          have hs := head?_dropWhile_not p s
          rw [Ends,head_key]
          cases hh : (dropWhile p s).head? <;> simp_all [p]
        rw [key_cons rfl,key_cons (by simpa using hhead.symm)] at h
        obtain ⟨hb,hr⟩ := runKey_append_inj (hrun _) (hrun _) (hends _) (hends _) h
        have hlt : ((c :: s).dropWhile p).length < n := by
          have := length_dropWhile_le p s
          simp [← hn,p]
          omega
        rw [← takeWhile_append_dropWhile (p := p) (l := c :: s),hb,ih _ hlt hr rfl,takeWhile_append_dropWhile]

/-! ## Numbers -/
lemma before_append (a x y : List Char) : Text.before (a ++ x) (a ++ y) = Text.before x y := by
  induction a with
  | nil => rfl
  | cons c a ih => simp [Text.before,ih]
lemma before_iff : Text.before x y = true ↔ x < y := by
  fun_induction Text.before x y <;> simp_all [cons_lt_cons_iff]

/-- A number filled up with zeros. -/
def filled (k n : Nat) : List Char := replicate (k-(Nat.toDigits 10 n).length) '0' ++ Nat.toDigits 10 n
lemma filled_succ (k n : Nat) : filled (k+2) n = filled (k+1) (n/10) ++ [(n % 10).digitChar] := by
  rcases Nat.lt_or_ge n 10 with h | h
  · rw [filled,filled,Nat.toDigits_of_lt_base h,Nat.div_eq_of_lt h,Nat.mod_eq_of_lt h]
    simp [replicate_succ']
  · rw [filled,filled,Nat.toDigits_of_base_le (by decide) h]
    simp
lemma before_filled (hmn : m < n) (k : Nat) (hn : n < 10 ^ (k+1)) (x y : List Char) :
    Text.before (filled (k+1) m ++ x) (filled (k+1) n ++ y) = true := by
  have hdigit : ∀ n < 10, ∀ m < n, ∀ x y, Text.before (m.digitChar :: x) (n.digitChar :: y) = true := by
    intro n hn m hmn x y
    have hlt : m.digitChar < n.digitChar := by revert m; revert n; decide
    simp [Text.before,hlt,hlt.ne]
  induction k generalizing m n x y with
  | zero =>
    have hn : n < 10 := hn
    rw [filled,filled,Nat.toDigits_of_lt_base hn,Nat.toDigits_of_lt_base (hmn.trans hn)]
    exact hdigit n hn m hmn x y
  | succ k ih =>
    rw [filled_succ,filled_succ,append_assoc,append_assoc]
    rcases Nat.lt_or_ge (m/10) (n/10) with h | h
    · exact ih h (by omega) ..
    · rw [show m/10 = n/10 by omega,before_append]
      exact hdigit _ (by omega) _ (by omega) x y
lemma keyFrom_append (run) (hc : Text.isDigit c = true) (ha : a.getLast?.elim d Text.isDigit = false) :
    keyFrom d run (a ++ c :: r) = keyFrom d run a ++ key (c :: r) := by
  induction a generalizing d run with
  | nil =>
    obtain rfl : d = false := ha
    simp [keyFrom,key_eq,hc]
  | cons e a ih =>
    have ha : a.getLast?.elim (Text.isDigit e) Text.isDigit = false := by
      rw [getLast?_cons] at ha
      cases hl : a.getLast? <;> simp_all
    rw [cons_append,keyFrom,keyFrom]
    split
    case isTrue he => exact ih _ (beq_iff_eq.mp he ▸ ha)
    case isFalse => rw [ih [e] ha,append_assoc]
lemma exists_paddedKey {p u : String} (hp : ∀ c ∈ p.toList.getLast?, Text.isDigit c = false)
    (hu : ∀ c ∈ u.toList.head?, Text.isDigit c = false) (n : Nat) :
    ∃ x, paddedKey (p ++ toString n ++ u) = paddedKey p ++ (filled 8 n ++ x) := by
  have hends : Ends true u.toList := by cases h : u.toList.head? <;> simp_all [Ends]
  obtain ⟨c,b,hb⟩ := exists_cons_of_ne_nil (Nat.toDigits_ne_nil (n := n) (b := 10))
  have hc : Text.isDigit c = true := run_toDigits n c (hb ▸ mem_cons_self)
  have hs : (p ++ toString n ++ u).toList = p.toList ++ c :: (b ++ u.toList) := by simp [Nat.toString_eq_repr,Nat.repr,hb]
  have hrun := takeWhile_run (run_toDigits n) hends
  rw [hb,cons_append] at hrun
  refine ⟨':' :: Nat.toDigits 10 (c :: b).length ++ key u.toList,?_⟩
  rw [paddedKey,hs,keyFrom_append [] hc,key_cons hc,hrun.1,hrun.2,← hb,runKey,if_pos rfl,append_assoc]
  · rfl
  · cases h : p.toList.getLast? <;> simp_all

/-- Different names have different keys, so that qubits with the same key are the same. The order is a strict total one. In
it, numbers at the same place of two names are compared by their values. -/
theorem names_in_natural_order :
    (∀ s t : String, (named s = named t ↔ paddedKey s = paddedKey t) ∧ (paddedKey s = paddedKey t ↔ s = t)) ∧
    IsStrictTotalOrder String (fun s t => (named s).before (named t) = true) ∧
    ∀ (p u v : String) (m n : Nat), (∀ c ∈ p.toList.getLast?, Text.isDigit c = false) →
      (∀ c ∈ u.toList.head?, Text.isDigit c = false) → (∀ c ∈ v.toList.head?, Text.isDigit c = false) →
      m < n → n < 10 ^ 8 → (named (p ++ toString m ++ u)).before (named (p ++ toString n ++ v)) = true := by
  have hinj : ∀ s t : String, paddedKey s = paddedKey t ↔ s = t := fun s t =>
    ⟨fun h => String.toList_inj.mp (key_injective h),congrArg paddedKey⟩
  refine ⟨fun s t => ⟨named.injEq s t ▸ (hinj s t).symm,hinj s t⟩,?_,fun p u v m n hp hu hv hmn hn => ?_⟩
  · exact RelEmbedding.isStrictTotalOrder (s := (· < ·)) ⟨⟨paddedKey,fun s t => (hinj s t).mp⟩,before_iff.symm⟩
  · obtain ⟨x,hx⟩ := exists_paddedKey hp hu m
    obtain ⟨y,hy⟩ := exists_paddedKey hp hv n
    rw [before,hx,hy,before_append]
    exact before_filled hmn 7 hn x y
theorem names_in_natural_order_wires : (named ("a1:" ++ toString 9 ++ "")).before (named ("a1:" ++ toString 10 ++ ":2")) = true :=
  names_in_natural_order.2.2 "a1:" "" ":2" 9 10 (by simp; decide) (by simp) (by simp; decide) (by decide) (by decide)
end QuantumCircuits.NaturalOrder
