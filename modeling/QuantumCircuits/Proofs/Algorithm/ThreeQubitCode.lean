import Mathlib
import QuantumCircuits.Proofs.Algorithm.ErrorCorrection

/-! The three-qubit code corrects every error on one wire that mixes the state with its flip. Its tables
correct the strings without marks, and the branch with the flip and the one without it come back to the
same state of the code register. -/

noncomputable section
namespace QuantumCircuits
open Matrix QuantumCircuits.Basis Operator PauliString

namespace CodeTables

def threeQubit : CodeTables where
  code := 3
  syndrome := 2
  logicalWire := 0
  encoder := [(.cx, [0, 1]), (.cx, [0, 2])]
  checks := [⟨1, [(.cz, 2), (.cz, 1)]⟩, ⟨0, [(.cz, 1), (.cz, 0)]⟩]
  corrections := [⟨.x, [false, true], 2⟩, ⟨.x, [true, true], 1⟩, ⟨.x, [true, false], 0⟩]

theorem threeQubit_assembled {R : Type} [Scalar R] :
    (ErrorCorrection.threeQubit : Except Fault (ErrorCorrection R)) = .ok (threeQubit.assembled R) := rfl

theorem sound_threeQubit : threeQubit.Sound where
  nonempty := by decide
  logical := by decide
  encoder := by decide
  checks := by decide
  corrections := by decide
  quiet := by decide
  unspread := by decide
  silent := by decide
  stabilised := by decide

theorem corrects_threeQubit : ∀ w < 3, ∀ x, threeQubit.Corrects (onWire w (x, false)) := by decide +kernel

end CodeTables

theorem placed_flips_eq_sum {n w : ℕ} (hw : w < n) (a b : ℂ) :
    (placed (d := 1) [] [w] (a • 1 + b • !![0, 1; 1, 0] : Matrix (Fin 2) (Fin 2) ℂ) : Operator n) =
      ∑ x : Bool, (if x then b else a) • (onWire w (x, false)).operator := by
  apply ext_mulVec
  intro v
  funext i
  rw [placed_wire_mulVec hw, sum_mulVec, Finset.sum_apply, Fintype.sum_bool]
  simp only [smul_mulVec, Pi.smul_apply, smul_eq_mul, operator_onWire_mulVec hw]
  cases i.val.testBit w <;> simp [sign, add_comm]

theorem toMatrix_rotationX_eq_flips (θ : ℝ) : (DenseMatrix.rotationX θ).toMatrix 2 2 =
    (Real.cos (θ / 2) : ℂ) • 1 + (-Real.sin (θ / 2) * Complex.I) • !![0, 1; 1, 0] := by
  rw [DenseMatrix.toMatrix_rotationX, one_fin_two]
  ext i j
  fin_cases i <;> fin_cases j <;> simp

namespace ErrorCorrection

section Corrected

variable [EigenSolver ℝ]

theorem threeQubit_restores {a b : ℂ} (hunitary : a • 1 + b • !![0, 1; 1, 0] ∈ unitaryGroup (Fin 2) ℂ) {w : ℕ} (hw : w < 3)
    {channel : Circuit ℝ} (hsizes : channel.layout.sizes = [3, 2])
    (happlies : channel.Applies (placed (d := 1) [] [w] (a • 1 + b • !![0, 1; 1, 0]) : Operator 5)) {α β : Cx ℝ}
    (hone : α.normSq + β.normSq = 1) : (CodeTables.threeQubit.assembled ℝ).Restores channel α β := by
  have hwire : w < 5 := hw.trans (by decide)
  have hplaced : (placed (d := 1) [] [w] (a • 1 + b • !![0, 1; 1, 0]) : Operator 5) ∈ unitaryGroup _ ℂ :=
    placed_mem_unitary (selects_singleton hwire) (List.forall_mem_nil _) hunitary
  exact CodeTables.sound_threeQubit.corrects_channel hsizes happlies hplaced (placed_flips_eq_sum hwire a b)
    (CodeTables.corrects_threeQubit w hw) hone

theorem applies_rx {w : ℕ} (hw : w < 5) (θ : ℝ) :
    Circuit.Applies ⟨"channel", CodeTables.threeQubit.layout, [.gate (.rx (.value θ)) [w]]⟩
      (placed (d := 1) [] [w] ((Real.cos (θ / 2) : ℂ) • 1 + (-Real.sin (θ / 2) * Complex.I) • !![0, 1; 1, 0]) :
        Operator 5) := by
  rw [← toMatrix_rotationX_eq_flips]
  exact Circuit.applies_gate (g := .rx (.value θ)) (CodeTables.layout_wellFormed CodeTables.sound_threeQubit) trivial
    ⟨rfl, rfl, nofun⟩ id rfl rfl rfl hw

/-- With any unitary mixture of no error and a flip on any one code wire in the channel, the code register
ends in its input state and the syndrome register in some state. Rotations about the x axis are such
mixtures. -/
theorem threeQubit_corrects {α β : Cx ℝ} (hone : α.normSq + β.normSq = 1) {w : ℕ} (hw : w < 3) :
    ∃ e, threeQubit = .ok e ∧
      (∀ (a b : ℂ) (channel : Circuit ℝ), a • 1 + b • !![0, 1; 1, 0] ∈ unitaryGroup (Fin 2) ℂ →
        channel.layout.sizes = [3, 2] →
          channel.Applies (placed (d := 1) [] [w] (a • 1 + b • !![0, 1; 1, 0]) : Operator 5) →
            e.Restores channel α β) ∧
        ∀ θ : ℝ, ∃ channel, (e.blank "channel" >>= fun c => c.gate (.rx (.value θ)) [e.code.wire w]) = .ok channel ∧
          e.Restores channel α β := by
  refine ⟨_, CodeTables.threeQubit_assembled, fun a b channel hunitary hsizes happlies =>
    threeQubit_restores hunitary hw hsizes happlies hone, fun θ => ?_⟩
  have hwire : w < 5 := hw.trans (by decide)
  have hgate : Circuit.gate (⟨"channel", CodeTables.threeQubit.layout, []⟩ : Circuit ℝ) (.rx (.value θ))
      [(⟨"code", 3, 0⟩ : Register).wire w] = .ok ⟨"channel", CodeTables.threeQubit.layout, [.gate (.rx (.value θ)) [w]]⟩ := by
    refine Circuit.append_eq_ok_iff.2 ⟨selects_singleton ?_, ?_⟩
    · rwa [Register.wire, Nat.zero_add]
    · rw [Register.wire, Nat.zero_add]
      rfl
  have hunitary := DenseMatrix.isRotation_rotationX.mem_unitary θ
  rw [toMatrix_rotationX_eq_flips] at hunitary
  exact ⟨_, bind_eq_ok_iff.2 ⟨_, CodeTables.blank_eq CodeTables.sound_threeQubit "channel", hgate⟩,
    threeQubit_restores hunitary hw rfl (applies_rx hwire θ) hone⟩

end Corrected

def mixture : Matrix (Fin 2) (Fin 2) ℂ := (5 / 13 : ℂ) • 1 + (12 / 13 * Complex.I) • !![0, 1; 1, 0]

theorem mixture_mem_unitary : mixture ∈ unitaryGroup (Fin 2) ℂ := by
  have hmatrix : mixture = !![5 / 13, 12 / 13 * Complex.I; 12 / 13 * Complex.I, 5 / 13] := by
    rw [mixture, one_fin_two]
    simp
  rw [hmatrix, mem_unitaryGroup_iff, star_eq_conjTranspose, DenseMatrix.conjTranspose_four, Matrix.mul_fin_two, one_fin_two]
  ext i j
  fin_cases i <;> fin_cases j <;> norm_num [Complex.ext_iff]

def mixtureChannel : Circuit ℝ := ⟨"channel", CodeTables.threeQubit.layout, [.gate (.dense "e" (.ofMatrix mixture)) [2]]⟩

attribute [local instance] EigenSolver.spectral in
theorem threeQubit_corrects_mixture : (⟨3 / 5, 0⟩ : Cx ℝ).normSq + (⟨0, 4 / 5⟩ : Cx ℝ).normSq = 1 ∧
    mixture ∈ unitaryGroup (Fin 2) ℂ ∧ mixtureChannel.Applies (placed (d := 1) [] [2] mixture : Operator 5) ∧
      ∃ e, threeQubit = .ok e ∧ e.Restores mixtureChannel ⟨3 / 5, 0⟩ ⟨0, 4 / 5⟩ := by
  have hone : (⟨3 / 5, 0⟩ : Cx ℝ).normSq + (⟨0, 4 / 5⟩ : Cx ℝ).normSq = 1 := by
    norm_num [Cx.normSq]
  have happlies : mixtureChannel.Applies (placed (d := 1) [] [2] mixture : Operator 5) :=
    Circuit.applies_dense (CodeTables.layout_wellFormed CodeTables.sound_threeQubit) (by decide) mixture
  obtain ⟨e, he, hrestores, _⟩ := threeQubit_corrects hone (w := 2) (by decide)
  exact ⟨hone, mixture_mem_unitary, happlies, e, he, hrestores _ _ _ mixture_mem_unitary rfl happlies⟩

end ErrorCorrection
end QuantumCircuits
end
