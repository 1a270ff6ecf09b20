import Mathlib
import QuantumCircuits.Proofs.Simulation.Lowering
import QuantumCircuits.Proofs.Simulation.Realization

/-! Slices of a state. The indices of a slice read a local index on the listed wires, in the order of
the list, and the fixed index on the others, in ascending order. A placement acts on each slice over its
targets alone: by its matrix, or not at all. -/

noncomputable section
namespace QuantumCircuits
open Matrix QuantumCircuits.Basis Operator

namespace Basis

variable {n d : ℕ} {wires : List ℕ}

theorem mem_others {w : ℕ} : w ∈ others n wires ↔ w < n ∧ w ∉ wires := by
  rw [others, List.mem_filter, List.mem_range, Bool.not_eq_true', List.contains_eq_mem, decide_eq_false_iff_not]

theorem Selects.others (h : Selects n d wires) : Selects n (n - d) (others n wires) := by
  refine ⟨?_, List.nodup_range.filter _, fun w hw => (mem_others.1 hw).1⟩
  have hsplit := List.length_eq_length_filter_add (l := List.range n) wires.contains
  have hlisted : ((List.range n).filter wires.contains).length = d := h.ascending.length
  rw [List.length_range, hlisted] at hsplit
  rw [Basis.others]
  omega

end Basis

namespace State

variable {n d rest bits : ℕ} {wires : List ℕ}

theorem testBit_sliceIndex_getD (h : Selects n d wires) {j : ℕ} (hj : j < d) :
    (sliceIndex n wires rest bits).testBit (wires.getD j 0) = bits.testBit j := by
  have hother : wires.getD j 0 ∉ others n wires := fun hmem => (mem_others.1 hmem).2 (h.getD_mem hj)
  have hlen : j < wires.length := h.length ▸ hj
  rw [sliceIndex, Nat.testBit_or, testBit_scatter_of_not_mem hother, List.getD_eq_getElem _ _ hlen,
    testBit_scatter h.nodup hlen, Bool.false_or]

theorem testBit_sliceIndex_of_not_mem (h : Selects n d wires) {w : ℕ} (hw : w < n) (hmem : w ∉ wires) :
    (sliceIndex n wires rest bits).testBit w = rest.testBit ((others n wires).idxOf w) := by
  have hplace : (others n wires).idxOf w < (others n wires).length :=
    List.idxOf_lt_length_iff.2 (mem_others.2 ⟨hw, hmem⟩)
  have hbit : (scatter rest _).testBit _ = rest.testBit _ := testBit_scatter h.others.nodup hplace
  rw [List.getElem_idxOf] at hbit
  rw [sliceIndex, Nat.testBit_or, testBit_scatter_of_not_mem hmem, hbit, Bool.or_false]

theorem sliceIndex_lt (h : Selects n d wires) : sliceIndex n wires rest bits < 2 ^ n := by
  apply Nat.lt_pow_two_of_testBit
  intro w hw
  have hmem : w ∉ wires := fun hmem => absurd (h.below w hmem) (not_lt.2 hw)
  have hother : w ∉ others n wires := fun hmem => absurd (mem_others.1 hmem).1 (not_lt.2 hw)
  rw [sliceIndex, Nat.testBit_or, testBit_scatter_of_not_mem hmem, testBit_scatter_of_not_mem hother, Bool.or_false]

section Entries

variable {R : Type} [Scalar R] {s : State R}

theorem length_slice (h : wires.length = d) : (s.slice wires rest).length = 2 ^ d := by
  rw [slice, List.length_map, indices, List.length_range, h]

theorem getElem?_slice (h : Selects s.qubits d wires) (hbits : bits < 2 ^ d) :
    (s.slice wires rest)[bits]? = s.amplitude? (sliceIndex s.qubits wires rest bits) := by
  rw [slice, List.getElem?_map, indices, List.getElem?_range (h.length ▸ hbits), amplitude?_of_lt (sliceIndex_lt h)]
  rfl

end Entries

def slicePoint (h : Selects n d wires) (rest bits : ℕ) : Fin (2 ^ n) :=
  ⟨sliceIndex n wires rest bits, sliceIndex_lt h⟩

theorem read_slicePoint (h : Selects n d wires) (b : Fin (2 ^ d)) :
    read d wires (slicePoint h rest b).val = b := by
  apply ext_testBit
  intro j hj
  rw [h.testBit_read _ hj]
  exact testBit_sliceIndex_getD h hj

theorem gather_sliceIndex (h : Selects n d wires) (hbits : bits < 2 ^ d) :
    gather (sliceIndex n wires rest bits) wires = bits := by
  rw [← h.val_read]
  exact congrArg Fin.val (read_slicePoint h ⟨bits, hbits⟩)

theorem write_slicePoint (h : Selects n d wires) (b : Fin (2 ^ d)) :
    write wires (slicePoint h rest bits) b = slicePoint h rest b := by
  apply ext_testBit
  intro w hw
  by_cases hmem : w ∈ wires
  · obtain ⟨j, hj, rfl⟩ := List.getElem_of_mem hmem
    have hj' : j < d := h.length ▸ hj
    rw [← List.getD_eq_getElem _ 0 hj, h.testBit_write_getD _ _ hj']
    exact (testBit_sliceIndex_getD h hj').symm
  · rw [h.testBit_write_of_not_mem _ _ hmem]
    exact (testBit_sliceIndex_of_not_mem h hw hmem).trans (testBit_sliceIndex_of_not_mem h hw hmem).symm

theorem holds_slicePoint (h : Selects n d wires) {controls : List (ℕ × Bool)}
    (below : ∀ c ∈ controls, c.1 < n) (free : ∀ c ∈ controls, c.1 ∉ wires) :
    holds controls (slicePoint h rest bits).val = true ↔
      ∀ c ∈ controls, rest.testBit ((others n wires).idxOf c.1) = c.2 := by
  rw [holds, List.all_eq_true]
  refine forall₂_congr fun c hc => ?_
  have hbit : (slicePoint h rest bits).val.testBit c.1 = _ := testBit_sliceIndex_of_not_mem h (below c hc) (free c hc)
  rw [beq_iff_eq, ← hbit]

end State

namespace DenseMatrix

variable {m : DenseMatrix (Cx ℝ)} {r c : ℕ}

def mulVec (m : DenseMatrix (Cx ℝ)) (xs : List (Cx ℝ)) : List (Cx ℝ) :=
  (List.range m.rows).map fun i => Cx.sum (List.zipWith (· * ·) (m.row i) xs)

theorem mulVec_map_range (hm : m.Shaped r c) (x : ℕ → Cx ℝ) : m.mulVec ((List.range c).map x) =
    (List.range r).map fun i => .ofComplex (∑ j : Fin c, (m.get i j).toComplex * (x j).toComplex) := by
  rw [mulVec, hm.rows]
  refine List.map_congr_left fun i _ => Cx.toComplex_injective ?_
  rw [row, hm.columns, List.zipWith_map, List.zipWith_self, Cx.toComplex_sum, List.map_map, Cx.toComplex_ofComplex]
  exact sum_map_range (fun j => (m.get i j).toComplex * (x j).toComplex) c

end DenseMatrix

namespace Placement

variable {p : Placement ℝ}

theorem amp_apply_sliceIndex {v : State ℝ} (h : p.Fits v.qubits) (rest : ℕ) {bits : ℕ}
    (hbits : bits < 2 ^ p.targets.length) :
    ((p.apply v).amp (State.sliceIndex v.qubits p.targets rest bits)).toComplex =
      if ∀ c ∈ p.controls, rest.testBit ((others v.qubits p.targets).idxOf c.1) = c.2 then
        ∑ b : Fin (2 ^ p.targets.length), (p.matrix.get bits b).toComplex *
          (v.amp (State.sliceIndex v.qubits p.targets rest b)).toComplex
      else (v.amp (State.sliceIndex v.qubits p.targets rest bits)).toComplex := by
  obtain ⟨hcontrols, htargets, hfree⟩ := Selects.controls_iff.1 h.wires
  have hbelow : ∀ c ∈ p.controls, c.1 < v.qubits := fun c hc => hcontrols.below _ (List.mem_map_of_mem hc)
  have hread : read _ p.targets (State.slicePoint htargets rest bits).val = ⟨bits, hbits⟩ :=
    State.read_slicePoint htargets ⟨bits, hbits⟩
  have happly := congrFun (vector_apply htargets (p := p) (s := v) rfl) (State.slicePoint htargets rest bits)
  rw [placed_mulVec htargets, hread] at happly
  simp only [State.write_slicePoint, State.holds_slicePoint htargets hbelow hfree] at happly
  exact happly

/-- A placement multiplies the slices over its targets in which every control reads its flag by its
matrix, and leaves the others as they are. -/
theorem slice_apply {v : State ℝ} (h : p.Fits v.qubits) (rest : ℕ) :
    (p.apply v).slice p.targets rest =
      if ∀ c ∈ p.controls, rest.testBit ((others v.qubits p.targets).idxOf c.1) = c.2 then
        p.matrix.mulVec (v.slice p.targets rest)
      else v.slice p.targets rest := by
  rw [State.slice, State.slice, indices, DenseMatrix.mulVec_map_range h.matrix, qubits_apply]
  split
  · next hactive =>
    refine List.map_congr_left fun bits hbits => Cx.toComplex_injective ?_
    rw [amp_apply_sliceIndex h rest (List.mem_range.1 hbits), if_pos hactive, Cx.toComplex_ofComplex]
  · next hinactive =>
    refine List.map_congr_left fun bits hbits => Cx.toComplex_injective ?_
    rw [amp_apply_sliceIndex h rest (List.mem_range.1 hbits), if_neg hinactive]

def shiftAround : Placement ℝ :=
  ⟨[(1, false)], [2, 0], .ofFn 4 4 fun i j => if i = (j + 1) % 4 then 1 else 0⟩

theorem slice_apply_shiftAround : shiftAround.Fits 3 ∧
    (shiftAround.apply (.basis 3 4)).slice [2, 0] 0 = shiftAround.matrix.mulVec ((State.basis 3 4).slice [2, 0] 0) ∧
      (shiftAround.apply (.basis 3 4)).slice [2, 0] 1 = (State.basis 3 4).slice [2, 0] 1 := by
  have hfits : shiftAround.Fits 3 := ⟨by decide, ⟨rfl, rfl⟩⟩
  exact ⟨hfits, (slice_apply (v := .basis 3 4) hfits 0).trans (if_pos (by decide)),
    (slice_apply (v := .basis 3 4) hfits 1).trans (if_neg (by decide))⟩

end Placement
end QuantumCircuits
end
