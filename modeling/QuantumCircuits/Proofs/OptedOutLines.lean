import Mathlib
import QuantumCircuits.Tooling.World

/-! # Lines that are opted out of coverage

Lines are read one after another, and a comment of its own skips its whole block. The markers in the block need not be
looked at: each stands at least as deep as the block, so that its own block ends no later.
-/
namespace QuantumCircuits.OptedOutLines
open List Text Tooling Coverage
/-- A line ends with the comment, blanks aside. -/
def Marked (line : String) : Prop := "#coverage:ignore".toList <:+ line.toList.filter (!isBlank ·)

/-- A line holds the comment only, blanks aside. -/
def MarksBlock (line : String) : Prop := line.toList.filter (!isBlank ·) = "#coverage:ignore".toList

/-- A line is blank or starts with the indentation of another. -/
def InBlock (first line : String) : Prop :=
  (∀ c ∈ line.toList, isBlank c) ∨ first.toList.takeWhile isBlank <+: line.toList

/-- Line `j` is marked, or all lines from one that marks a block down to it are in this block. -/
def OptedOut (ls : List String) (j : Nat) : Prop :=
  ∃ line, ls[j]? = some line ∧ (Marked line ∨
    ∃ i < j+1, ∃ first, ls[i]? = some first ∧ MarksBlock first ∧ ∀ l ∈ (ls.take (j+1)).drop i, InBlock first l)
variable {first line : String} {ls : List String} {i : Nat}
lemma afterStart?_isSome_iff : (afterStart? p cs).isSome = true ↔ p <+: cs := by
  fun_induction afterStart? p cs <;> simp_all
lemma isLineMarker_iff : isLineMarker line = true ↔ Marked line := by
  rw [isLineMarker,endsWith,afterStart?_isSome_iff, reverse_prefix,unblanked,String.toList_ofList]
  rfl
lemma isScopeMarker_iff : isScopeMarker line = true ↔ MarksBlock line := by
  simp [isScopeMarker,unblanked,MarksBlock,optOut,String.ext_iff]
lemma inBlock_iff : inBlock (indentation first) line = true ↔ InBlock first line := by
  simp [inBlock,startsWith,afterStart?_isSome_iff,unblanked,indentation,InBlock,String.isEmpty_iff]
lemma inBlock_self : InBlock line line := .inr ( takeWhile_prefix _)

/-- A marker in a block is at least as deep as the block. -/
lemma InBlock.trans (h : InBlock first l) (hl : MarksBlock l) (hline : InBlock l line) : InBlock first line := by
  rcases h with hb | hp
  · have hnil : l.toList.filter (!isBlank ·) = [] := by simpa using hb
    simp [MarksBlock,hnil] at hl
  · refine hline.imp id fun hline => (IsPrefix.trans ?_ hline)
    obtain ⟨r,hr⟩ := hp
    rw [← hr,takeWhile_append_of_pos fun c hc => (mem_takeWhile_imp hc)]
    exact prefix_append ..
lemma optedOut_zero : OptedOut (line :: ls) 0 ↔ Marked line := by
  have hm : MarksBlock line → Marked line := fun h => by rw [Marked,h]
  simpa [OptedOut,inBlock_self] using hm
lemma optedOut_succ : OptedOut (line :: ls) (j+1) ↔
    OptedOut ls j ∨ ∃ l, ls[j]? = some l ∧ MarksBlock line ∧ ∀ l ∈ ls.take (j+1), InBlock line l := by
  simp only [OptedOut,Nat.exists_lt_succ_left (n := j+1),getElem?_cons_succ,getElem?_cons_zero,Option.some.injEq,exists_eq_left',
    take_succ_cons,drop_zero,drop_succ_cons,forall_mem_cons,inBlock_self,true_and]
  grind

/-- Behind a block, the markers in it do not count. -/
lemma optedOut_append (hb : ∀ l ∈ block, InBlock first l) (hls : ∀ l ∈ ls.head?, ¬InBlock first l) :
    OptedOut (block ++ ls) (block.length+j) ↔ OptedOut ls j := by
  induction block with
  | nil => simp
  | cons l block ih =>
    obtain ⟨hl,hb⟩ := forall_mem_cons.mp hb
    rw [cons_append,length_cons,Nat.add_right_comm,optedOut_succ,ih hb,or_iff_left]
    rintro ⟨k,hk,hm,h⟩
    cases ls with
    | nil => simp at hk
    | cons line ls =>
      rw [Nat.add_assoc,take_length_add_append] at h
      exact hls line rfl (hl.trans hm (h line (by simp)))
lemma optedOut_of_lt (hm : MarksBlock first) (hb : ∀ l ∈ first :: block, InBlock first l) (hj : j < (first :: block).length) :
    OptedOut (first :: block ++ ls) j := by
  refine ⟨_,getElem?_append_left hj |>.trans (getElem?_eq_getElem hj),.inr ⟨0,by omega,first,rfl,hm,fun l hl => ?_⟩⟩
  rw [take_append_of_le_length hj] at hl
  exact hb l (mem_of_mem_take hl)
lemma exists_optedOut_cons (hm : ¬MarksBlock line) : (∃ j, n = i+j ∧ OptedOut (line :: ls) j) ↔
    n = i ∧ Marked line ∨ ∃ j, n = i+1+j ∧ OptedOut ls j := by
  simp [← Nat.or_exists_add_one (p := fun j => n = i+j ∧ _),optedOut_zero,optedOut_succ,hm,Nat.add_assoc,Nat.add_comm 1]
lemma mem_optedOutFrom_iff : n ∈ optedOutFrom i ls ↔ ∃ j, n = i+j ∧ OptedOut ls j := by
  fun_induction optedOutFrom i ls with
  | case1 i => simp [OptedOut]
  | case2 i line ls hm size ih =>
    set p := inBlock (indentation line)
    have hb : ∀ l ∈ line :: ls.takeWhile p, InBlock line l :=
      forall_mem_cons.mpr ⟨inBlock_self,fun l hl => inBlock_iff.mp (mem_takeWhile_imp hl)⟩
    have hd : ls.drop size = ls.dropWhile p := by
      conv_lhs => rw [← takeWhile_append_dropWhile (p := p) (l := ls)]
      exact drop_left
    have hls : line :: ls = line :: ls.takeWhile p ++ ls.drop size := by rw [hd,cons_append,takeWhile_append_dropWhile]
    have hout : ∀ j, OptedOut (line :: ls) (size+1+j) ↔ OptedOut (ls.drop size) j := fun j => by
      rw [hls]
      refine optedOut_append hb fun l hl h => ?_
      have hn := head?_dropWhile_not p ls
      rw [← hd,hl] at hn
      exact Bool.false_ne_true (hn.symm.trans (inBlock_iff.mpr h))
    rw [mem_append,mem_range'_1,ih]
    constructor
    · rintro (h | ⟨j,rfl,hj⟩)
      · exact ⟨n-i,by omega,hls ▸ optedOut_of_lt (isScopeMarker_iff.mp hm) hb (show n-i < size+1 by omega)⟩
      · exact ⟨size+1+j,by omega,(hout j).mpr hj⟩
    · rintro ⟨j,rfl,hj⟩
      rcases Nat.lt_or_ge j (size+1) with h | h
      · exact .inl (by omega)
      · obtain ⟨j,rfl⟩ := Nat.exists_eq_add_of_le h
        exact .inr ⟨j,by omega,(hout j).mp hj⟩
  | case3 i line ls hm hl ih =>
    rw [mem_cons,ih,exists_optedOut_cons (mt isScopeMarker_iff.mpr hm),and_iff_left (isLineMarker_iff.mp hl)]
  | case4 i line ls hm hl ih =>
    rw [ih,exists_optedOut_cons (mt isScopeMarker_iff.mpr hm),or_iff_right fun h => hl (isLineMarker_iff.mpr h.2)]

/-- The numbers of the lines that are opted out, the first line being line 1. -/
theorem optedOut_covers_blocks (content : String) (n : Nat) :
    n ∈ optedOut content ↔ ∃ j, n = j+1 ∧ OptedOut (lines content) j := by
  rw [optedOut,mem_optedOutFrom_iff]
  simp_rw [Nat.add_comm]
end QuantumCircuits.OptedOutLines
