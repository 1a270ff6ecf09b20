import Mathlib
import QuantumCircuits.Proofs.Gate.Matrices
import QuantumCircuits.Proofs.Operator.Diagonal

/-! Diagonal maps that turn every basis state by an angle. The angles of maps one after the other add
up, and a map that is placed turns by the angle that its wires read. -/

noncomputable section
namespace QuantumCircuits
open Matrix QuantumCircuits.Basis
open DenseMatrix (rotationZ toMatrix_rotationZ)

namespace Operator

variable {n d : ℕ} {f g : ℕ → ℝ}

/-- Each basis state takes a phase whose angle depends on its index. -/
def phased (n : ℕ) (f : ℕ → ℝ) : Operator n := diagonal fun i => Complex.exp (f i.val * Complex.I)

theorem phased_mulVec (f : ℕ → ℝ) (v : Fin (2 ^ n) → ℂ) (i : Fin (2 ^ n)) :
    (phased n f *ᵥ v) i = Complex.exp (f i.val * Complex.I) * v i := mulVec_diagonal _ _ _

theorem phased_congr (h : ∀ i < 2 ^ n, f i = g i) : phased n f = phased n g :=
  congrArg diagonal (funext fun i => by rw [h i i.isLt])

theorem phased_zero : phased n (fun _ => 0) = 1 := by
  rw [phased, Complex.ofReal_zero, zero_mul, Complex.exp_zero]
  exact diagonal_one

theorem phased_mul (f g : ℕ → ℝ) : phased n f * phased n g = phased n fun i => f i + g i := by
  rw [phased, phased, diagonal_mul_diagonal]
  refine congrArg diagonal (funext fun i => ?_)
  rw [← Complex.exp_add, ← add_mul, Complex.ofReal_add]

theorem placed_phased {controls : List (ℕ × Bool)} {wires : List ℕ} (h : Selects n d wires) (f : ℕ → ℝ) :
    (placed controls wires (phased d f) : Operator n) =
      phased n fun i => if holds controls i then f (gather i wires) else 0 := by
  have hdiag : (placed controls wires (phased d f) : Operator n).IsDiag := isDiag_placed h (isDiag_diagonal _)
  refine hdiag.diagonal_diag.symm.trans (congrArg diagonal (funext fun i => ?_))
  rw [diag_apply, placed, if_pos rfl, phased, diagonal_apply_eq, h.val_read, Matrix.one_apply_eq]
  dsimp only
  split
  · rfl
  · rw [Complex.ofReal_zero, zero_mul, Complex.exp_zero]

theorem toMatrix_rotationZ_eq_phased (θ : ℝ) :
    (rotationZ θ).toMatrix 2 2 = phased 1 fun b => (2 * (b.testBit 0).toNat - 1) * (θ / 2) := by
  rw [toMatrix_rotationZ, phased]
  ext i j
  fin_cases i <;> fin_cases j
  · simp [neg_div]
  · rfl
  · rfl
  · norm_num

end Operator
end QuantumCircuits
end
