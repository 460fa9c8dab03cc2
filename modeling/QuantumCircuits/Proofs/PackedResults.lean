import Mathlib
import QuantumCircuits.Wire

/-! # Packed results

Results are packed into bytes bit after bit. The place of every bit in the stream is known beforehand. -/
namespace QuantumCircuits.PackedResults
open List Packing
variable {bs : List Bool} {data : List ℕ} {n : ℕ}

/-! ## Bits and bytes -/

/-! ## Tables -/
abbrev Layout := List (String × ℕ)
abbrev Results := List (String × List (List Bool))
def width (layout : Layout) : ℕ := (layout.map (·.2)).sum

/-- Results under the keys of a layout, with a row for each repetition and as many bits in it as the layout says. -/
def Fits (layout : Layout) (reps : ℕ) (ms : Results) : Prop :=
  Forall₂ (fun e m => m.1 = e.1 ∧ m.2.length = reps ∧ ∀ row ∈ m.2, row.length = e.2) layout ms
def rowOf (ms : Results) (r : ℕ) : List Bool := ms.flatMap fun m => m.2.getD r []
def tableOf (reps : ℕ) (ms : Results) : List (List Bool) := (range reps).map (rowOf ms)
variable {m : String × List (List Bool)} {layout : Layout} {ms : Results} {reps r w : ℕ} {table : List (List Bool)}
lemma Fits.getD_length (h : m.2.length = reps ∧ ∀ row ∈ m.2, row.length = n) (hr : r < reps) : (m.2.getD r []).length = n := by
  have hr' : r < m.2.length := h.1 ▸ hr
  simpa [hr'] using h.2 _ (getElem_mem hr')
lemma rowOf_cons (m ms r) : rowOf (m :: ms) r = m.2.getD r [] ++ rowOf ms r := flatMap_cons
section
variable (h : Fits layout reps ms)
include h
lemma Fits.columns_rowOf (hr : r < reps) : columns layout (rowOf ms r) = ms.map fun m => (m.1,m.2.getD r []) := by
  induction h with
  | nil => rfl
  | cons hm _ ih =>
    rw [rowOf_cons,columns,← Fits.getD_length hm.2 hr,take_left,drop_left,ih,← hm.1]
    rfl
end
lemma Fits.blocks (h : Fits layout reps ms) : (layout.zipIdx.map fun e => (e.1.1,blockAt layout (tableOf reps ms) e.2)) = ms := by
  have hlen : layout.length = ms.length := h.length_eq
  refine ext_getElem (by simpa using hlen) fun i hi hi' => ?_
  obtain ⟨hkey,hre,-⟩ := h.get (by omega) hi'
  have hb : blockAt layout (tableOf reps ms) i = ms[i].2 := by
    refine ext_getElem (by simpa [blockAt,tableOf] using hre.symm) fun r hr hr' => ?_
    simp [blockAt,tableOf] at hr
    simp_all [blockAt,tableOf,h.columns_rowOf hr]
  simpa [hb] using (Prod.ext hkey.symm rfl : (layout[i].1,ms[i].2) = ms[i])
def crossing : Results :=
  [("a",[[true,false,true],[false,false,true]]),("b",[[true,true,false,false,true,true],[false,true,true,false,false,true]])]
end QuantumCircuits.PackedResults
