import Mathlib
import QuantumCircuits.Algorithm.ErrorCorrection
import QuantumCircuits.Proofs.Basis.Wires
import QuantumCircuits.Proofs.Simulation.Outcomes

/-! The fidelity of the code register. A state of a code and a syndrome register is read by slices, one
for each reading of the syndrome register, and a state that is a product of the reference and some state
of the syndrome register has the fidelity that the lengths of the two give. -/

noncomputable section
namespace QuantumCircuits
open QuantumCircuits.Basis Operator

namespace State

variable {n k : ℕ}

theorem sliceIndex_range' {rest bits : ℕ} (hrest : rest < 2 ^ k) (hbits : bits < 2 ^ n) :
    sliceIndex (n + k) (List.range' 0 n) rest bits = bits + 2 ^ n * rest := by
  apply Nat.eq_of_testBit_eq
  intro w
  rw [sliceIndex, others_range', Nat.testBit_or, testBit_scatter_range', testBit_scatter_range', testBit_split hbits,
    Nat.zero_add, Nat.sub_zero]
  by_cases hw : w < n
  · have hle : ¬ n ≤ w := Nat.not_le.2 hw
    simp [hw, hle]
  · have hlow : bits.testBit w = false :=
      Nat.testBit_lt_two_pow (hbits.trans_le (Nat.pow_le_pow_right Nat.two_pos (not_lt.1 hw)))
    rw [hlow, Bool.and_false, Bool.or_false, if_neg hw]
    by_cases hwk : w < n + k
    · rw [decide_eq_true ⟨not_lt.1 hw, hwk⟩, Bool.true_and]
    · have hhigh : rest.testBit (w - n) = false :=
        Nat.testBit_lt_two_pow (hrest.trans_le (Nat.pow_le_pow_right Nat.two_pos (by omega)))
      rw [hhigh, Bool.and_false]

theorem slice_range' {s : State ℝ} (hs : s.qubits = n + k) {rest : ℕ} (hrest : rest < 2 ^ k) :
    s.slice (List.range' 0 n) rest = (List.range (2 ^ n)).map fun i => s.amp (i + 2 ^ n * rest) := by
  rw [slice, hs, List.length_range', indices]
  exact List.map_congr_left fun i hi => congrArg s.amp (sliceIndex_range' hrest (List.mem_range.1 hi))

/-- The state reads as the one state on the first `n` wires and as the other on the `k` wires after them. -/
def IsProduct (n k : ℕ) (s low high : State ℝ) : Prop :=
  ∀ i < 2 ^ n, ∀ j < 2 ^ k, s.amp (i + 2 ^ n * j) = low.amp i * high.amp j

theorem IsProduct.mass_vector {s low high : State ℝ} (h : s.IsProduct n k low high) :
    mass (s.vector (n + k)) = (∑ i : Fin (2 ^ n), (low.amp i).normSq) * mass (high.vector k) := by
  have hterm (j : Fin (2 ^ k)) (i : Fin (2 ^ n)) :
      Complex.normSq (s.amp (i + 2 ^ n * j)).toComplex = (low.amp i).normSq * Complex.normSq (high.vector k j) := by
    rw [h i i.isLt j j.isLt, Cx.toComplex_mul, map_mul, Cx.normSq_toComplex]
    rfl
  calc mass (s.vector (n + k))
      = ∑ j : Fin (2 ^ k), ∑ i : Fin (2 ^ n), Complex.normSq (s.amp (i + 2 ^ n * j)).toComplex :=
        Basis.sum_split n k fun i => Complex.normSq (s.amp i).toComplex
    _ = ∑ j : Fin (2 ^ k), (∑ i : Fin (2 ^ n), (low.amp i).normSq) * Complex.normSq (high.vector k j) := by
        simp only [hterm, Finset.sum_mul]
    _ = _ := (Finset.mul_sum _ _ _).symm

end State

namespace ErrorCorrection

variable {e : ErrorCorrection ℝ} {reference output rest : State ℝ}

theorem logicalFidelity_eq (hcode : e.code.offset = 0) (hreference : reference.qubits = e.wires)
    (houtput : output.qubits = e.wires) : e.logicalFidelity reference output =
      .ok (∑ j : Fin (2 ^ e.syndrome.size), Complex.normSq (∑ i : Fin (2 ^ e.code.size),
        star (reference.amp i).toComplex * (output.amp (i + 2 ^ e.code.size * j)).toComplex)) := by
  have hwires : e.code.wires = List.range' 0 e.code.size := by rw [Register.wires, hcode]
  have hsize {s : State ℝ} (hs : s.qubits = e.wires) : e.checkSize s = .ok () := if_pos hs
  have hexpected := State.slice_range' (n := e.code.size) hreference (Nat.two_pow_pos e.syndrome.size)
  have hpart : ∀ j ∈ List.range (2 ^ e.syndrome.size),
      (Cx.innerProduct (reference.slice e.code.wires 0) (output.slice e.code.wires j)).normSq =
        Complex.normSq (∑ i : Fin (2 ^ e.code.size),
          star (reference.amp i).toComplex * (output.amp (i + 2 ^ e.code.size * j)).toComplex) := by
    intro j hj
    rw [hwires, hexpected, State.slice_range' houtput (List.mem_range.1 hj), ← Cx.normSq_toComplex,
      Cx.toComplex_innerProduct]
    simp only [Nat.mul_zero, Nat.add_zero]
  refine bind_eq_ok_iff.2 ⟨_, hsize hreference, bind_eq_ok_iff.2 ⟨_, hsize houtput, congrArg Except.ok ?_⟩⟩
  rw [Scalar.sum_real, indices, List.map_congr_left hpart]
  exact (Fin.sum_univ_eq_sum_range _ _).symm

theorem logicalFidelity_of_isProduct (hcode : e.code.offset = 0) (hreference : reference.qubits = e.wires)
    (houtput : output.qubits = e.wires) (hproduct : output.IsProduct e.code.size e.syndrome.size reference rest)
    (hone : ∑ i : Fin (2 ^ e.code.size), (reference.amp i).normSq = 1) (hrest : rest.IsNormalised e.syndrome.size) :
    e.logicalFidelity reference output = .ok 1 := by
  have hself : ∑ i : Fin (2 ^ e.code.size), star (reference.amp i).toComplex * (reference.amp i).toComplex = 1 := by
    have hterm (i : Fin (2 ^ e.code.size)) :
        star (reference.amp i).toComplex * (reference.amp i).toComplex = ((reference.amp i).normSq : ℂ) :=
      Cx.toComplex_conj_mul_self _
    simp only [hterm]
    rw [← Complex.ofReal_sum, hone, Complex.ofReal_one]
  have hpart (j : Fin (2 ^ e.syndrome.size)) : ∑ i : Fin (2 ^ e.code.size),
      star (reference.amp i).toComplex * (output.amp (i + 2 ^ e.code.size * j)).toComplex =
        rest.vector e.syndrome.size j := by
    have hterm (i : Fin (2 ^ e.code.size)) :
        star (reference.amp i).toComplex * (output.amp (i + 2 ^ e.code.size * j)).toComplex =
          star (reference.amp i).toComplex * (reference.amp i).toComplex * rest.vector e.syndrome.size j := by
      rw [hproduct i i.isLt j j.isLt, Cx.toComplex_mul, mul_assoc]
      rfl
    simp only [hterm]
    rw [← Finset.sum_mul, hself, one_mul]
  rw [logicalFidelity_eq hcode hreference houtput]
  simp only [hpart]
  exact congrArg Except.ok hrest.mass

end ErrorCorrection
end QuantumCircuits
end
