import Mathlib
import QuantumCircuits.Proofs.Operator.Phases
import QuantumCircuits.Proofs.Operator.Registers
import QuantumCircuits.Proofs.Simulation.Realization

/-! Vectors in which all basis states are equally likely. Phases leave all probabilities alone, and a rotation
about X takes a vector of equal amplitudes to a multiple of itself by a phase. -/

noncomputable section
namespace QuantumCircuits.Operator
open Matrix QuantumCircuits.Basis DenseMatrix

variable {n : ℕ} {p : ℝ} {v : Fin (2 ^ n) → ℂ}

def EquallyLikely (p : ℝ) (v : Fin (2 ^ n) → ℂ) : Prop := ∀ i, Complex.normSq (v i) = p

structure Uniform (p : ℝ) (v : Fin (2 ^ n) → ℂ) : Prop where
  same : ∀ i j, v i = v j
  likely : EquallyLikely p v

theorem normSq_exp_mul_I (θ : ℝ) : Complex.normSq (Complex.exp (θ * Complex.I)) = 1 := by
  rw [Complex.normSq_eq_norm_sq, Complex.norm_exp_ofReal_mul_I, one_pow]

theorem EquallyLikely.phased (h : EquallyLikely p v) (f : ℕ → ℝ) : EquallyLikely p (phased n f *ᵥ v) := by
  intro i
  rw [phased_mulVec, Complex.normSq_mul, normSq_exp_mul_I, one_mul]
  exact h i

theorem Uniform.smul_exp (h : Uniform p v) (θ : ℝ) : Uniform p (Complex.exp (θ * Complex.I) • v) := by
  refine ⟨fun i j => ?_, fun i => ?_⟩
  · rw [Pi.smul_apply, Pi.smul_apply, h.same i j]
  · rw [Pi.smul_apply, smul_eq_mul, Complex.normSq_mul, normSq_exp_mul_I, one_mul]
    exact h.likely i

theorem sum_rotationX (θ : ℝ) (i : Fin 2) :
    ∑ j, (rotationX θ).toMatrix 2 2 i j = Complex.exp ((-(θ / 2) : ℝ) * Complex.I) := by
  have hphase : Complex.exp ((-(θ / 2) : ℝ) * Complex.I) = Real.cos (θ / 2) - Real.sin (θ / 2) * Complex.I := by
    rw [Complex.exp_mul_I, ← Complex.ofReal_cos, ← Complex.ofReal_sin, Real.cos_neg, Real.sin_neg]
    push_cast
    ring
  rw [hphase, toMatrix_rotationX, Fin.sum_univ_two]
  fin_cases i
  · simp
    ring
  · simp
    ring

theorem Uniform.rotationX_mulVec (h : Uniform p v) {w : ℕ} (hw : w < n) (θ : ℝ) :
    (placed (d := 1) [] [w] ((rotationX θ).toMatrix 2 2) : Operator n) *ᵥ v =
      Complex.exp ((-(θ / 2) : ℝ) * Complex.I) • v := by
  funext i
  rw [placed_nil_mulVec (selects_singleton hw), Pi.smul_apply, smul_eq_mul, ← sum_rotationX θ (Basis.read 1 [w] i.val),
    Finset.sum_mul]
  exact Finset.sum_congr rfl fun b _ => by rw [h.same _ i]

theorem uniform_hadamards (n : ℕ) :
    Uniform ((1 / 2) ^ n) (hadamards n (List.range n) *ᵥ (State.zero n : State ℝ).vector n) := by
  have hzero : ∀ k : Fin (2 ^ n), ∀ w ∈ List.range n, k.val.testBit w = true →
      (State.zero n : State ℝ).vector n k = 0 := by
    intro k w _ hbit
    have hne : k.val ≠ 0 := by
      intro hk
      rw [hk, Nat.zero_testBit] at hbit
      exact Bool.false_ne_true hbit
    rw [State.vector, State.zero, State.basis, State.amp_ofFn _ _ k.isLt, if_neg hne, Cx.toComplex_zero]
  have hvalue (i : Fin (2 ^ n)) : (hadamards n (List.range n) *ᵥ (State.zero n : State ℝ).vector n) i = spread ^ n := by
    have hwrite : (write (List.range n) i (state n 0)).val = 0 :=
      (val_write_range le_rfl i.isLt _).trans (Nat.zero_mod _)
    rw [hadamards_mulVec (Selects.range n) hzero, State.vector, hwrite, State.zero, State.basis,
      State.amp_ofFn _ _ (Nat.two_pow_pos n), if_pos rfl, Cx.toComplex_one, mul_one]
  have hspread : Complex.normSq spread = 1 / 2 := by
    rw [spread_eq, Complex.normSq_ofReal, div_mul_div_comm, one_mul, Real.mul_self_sqrt zero_le_two]
  refine ⟨fun i j => by rw [hvalue, hvalue], fun i => ?_⟩
  rw [hvalue, map_pow, hspread]

end QuantumCircuits.Operator
end
