import Mathlib
import QuantumCircuits.Proofs.Simulation.LoweredInverses

/-! Evolutions under one matrix are a group in time. In a fixed orthonormal basis an evolution only turns phases, and
phases add up, so a power of an evolution and the inverse of one are evolutions in other times. -/

noncomputable section
namespace QuantumCircuits
open Matrix

namespace DenseMatrix

variable [EigenSolver ℝ] [OrthonormalSpectra] {h : DenseMatrix (Cx ℝ)}

namespace IsHamiltonian

theorem evolution_mul (hh : h.IsHamiltonian) (s t : ℝ) : h.evolution s * h.evolution t = h.evolution (s + t) := by
  refine ext_toMatrix ((shaped_evolution hh s).mul (shaped_evolution hh t)) (shaped_evolution hh (s + t)) ?_
  rw [toMatrix_mul (shaped_evolution hh s) (shaped_evolution hh t), hh.evolution_eq_phases, hh.evolution_eq_phases,
    hh.evolution_eq_phases, ← toMatrix_phases_mul hh.length_phaseRates]
  have hcancel : h.phaseBasisᴴ * h.phaseBasis = 1 := mem_unitaryGroup_iff'.1 hh.phaseBasis_mem_unitary
  generalize h.phaseBasis = u at *
  generalize (phases h.phaseRates s).toMatrix _ _ = x
  generalize (phases h.phaseRates t).toMatrix _ _ = y
  calc u * x * uᴴ * (u * y * uᴴ) = u * x * (uᴴ * u) * y * uᴴ := by simp only [Matrix.mul_assoc]
    _ = u * (x * y) * uᴴ := by rw [hcancel, Matrix.mul_one, Matrix.mul_assoc u]

theorem evolution_zero (hh : h.IsHamiltonian) : h.evolution 0 = identity h.rows := by
  rw [hh.shaped.rows]
  refine ext_toMatrix (shaped_evolution hh 0) (shaped_identity _) ?_
  rw [hh.evolution_eq_phases, toMatrix_phases_zero hh.length_phaseRates, toMatrix_identity, Matrix.mul_one]
  exact mem_unitaryGroup_iff.1 hh.phaseBasis_mem_unitary

theorem evolution_neg (hh : h.IsHamiltonian) (t : ℝ) : h.evolution (-t) = (h.evolution t).adjoint := by
  refine ext_toMatrix (shaped_evolution hh (-t)) (shaped_evolution hh t).adjoint ?_
  rw [toMatrix_evolution_neg hh, toMatrix_adjoint (shaped_evolution hh t)]

theorem evolution_pow (hh : h.IsHamiltonian) (t : ℝ) (e : ℕ) : (h.evolution t).pow e = h.evolution (e * t) := by
  have hshape := shaped_evolution hh t
  induction e with
  | zero => rw [hshape.pow_zero_eq, Nat.cast_zero, zero_mul, hh.evolution_zero, hh.shaped.rows]
  | succ e ih => rw [hshape.pow_succ_eq, ih, hh.evolution_mul, Nat.cast_succ, add_mul, one_mul]

end IsHamiltonian
end DenseMatrix

namespace Operation

section Group

variable [EigenSolver ℝ] {h : DenseMatrix (Cx ℝ)}

theorem lowersAlike_powered_evolution [OrthonormalSpectra] (hh : h.IsHamiltonian) (θ : Param ℝ) (e : ℕ) :
    (powered (primitive (.evolution h θ)) e).LowersAlike (primitive (.evolution h (θ.scale e))) := by
  intro wires controls adjoint
  change (do return Instruction.repeated (← Instruction.ofGate (.evolution h θ) wires controls adjoint) e) =
    Instruction.ofGate (.evolution h (θ.scale e)) wires controls adjoint
  have hpow (t t' : ℝ) (ht : e * t = t') :
      Except.ok [Instruction.gate ⟨controls ++ (wires.take 0).map fun w => (w, true), wires.drop 0, (h.evolution t).pow e⟩] =
        (.ok [.gate ⟨controls ++ (wires.take 0).map fun w => (w, true), wires.drop 0, h.evolution t'⟩] : Except Fault _) := by
    rw [hh.evolution_pow, ht]
  cases θ with
  | token name coefficient => cases adjoint <;> rfl
  | value t =>
    cases adjoint with
    | true => exact hpow (t * -1) (t * e * -1) (by ring)
    | false => exact hpow t (t * e) (by ring)

theorem lowersAlike_inverted_evolution (θ : Param ℝ) :
    (inverted (primitive (.evolution h θ))).LowersAlike (primitive (.evolution h (θ.scale (-1)))) := by
  intro wires controls adjoint
  have hadjoint : (Gate.evolution h θ).adjoint = .ok (.evolution h (θ.scale (-1))) := rfl
  exact (Instruction.ofGate_adjoint hadjoint wires controls adjoint).symm

/-- Evolutions under a matrix that is accepted are a unitary group in time: they multiply by adding their times, the one
in no time is the identity, the one in the opposite direction is the adjoint, and powers are multiples of the time. So the
operations that repeat and that invert an evolution are lowered as evolutions in other times. -/
theorem evolution_group [OrthonormalSpectra] {θ : Param ℝ} {g : Gate ℝ} (hg : Gate.ofHamiltonian h θ = .ok g) :
    (∀ s t, h.evolution s * h.evolution t = h.evolution (s + t)) ∧ h.evolution 0 = .identity h.rows ∧
    (∀ t, h.evolution (-t) = (h.evolution t).adjoint) ∧ (∀ t (e : ℕ), (h.evolution t).pow e = h.evolution (e * t)) ∧
    (∀ t, (h.evolution t).toMatrix h.rows h.rows ∈ unitaryGroup (Fin h.rows) ℂ) ∧
    (∀ e : ℕ, (powered (primitive g) e).LowersAlike (primitive (.evolution h (θ.scale e)))) ∧
    (inverted (primitive g)).LowersAlike (primitive (.evolution h (θ.scale (-1)))) := by
  obtain ⟨hh, rfl⟩ := Gate.ofHamiltonian_eq_ok_iff.1 hg
  refine ⟨hh.evolution_mul, hh.evolution_zero, hh.evolution_neg, hh.evolution_pow, fun t => ?_,
    lowersAlike_powered_evolution hh θ, lowersAlike_inverted_evolution θ⟩
  rw [hh.shaped.rows]
  exact DenseMatrix.evolution_mem_unitary hh t

end Group

def lopsided : DenseMatrix (Cx ℝ) := .ofFour 0 1 (.ofReal (1 + Scalar.half Scalar.tolerance)) 0

theorem toMatrix_lopsided :
    lopsided.toMatrix 2 2 = !![0, 1; ((1 + Scalar.half Scalar.tolerance : ℝ) : ℂ), 0] :=
  DenseMatrix.toMatrix_ofFour _ _ _ _

theorem isHamiltonian_lopsided : lopsided.IsHamiltonian := by
  have hshape : lopsided.Shaped 2 2 := ⟨rfl, rfl⟩
  refine ⟨Gate.checkDimension_of_shaped one_pos hshape, DenseMatrix.isNear_eq_true_iff.2 fun i hi j hj => ?_⟩
  have hentry : (lopsided.get i j - lopsided.adjoint.get i j).toComplex =
      (lopsided.toMatrix 2 2 - (lopsided.toMatrix 2 2)ᴴ) ⟨i, hi⟩ ⟨j, hj⟩ := by
    rw [← DenseMatrix.toMatrix_adjoint hshape]
    rfl
  rw [not_lt, Cx.modulus_eq_norm, hentry, toMatrix_lopsided, Scalar.half_real, Scalar.tolerance_real]
  generalize (⟨i, hi⟩ : Fin 2) = a
  generalize (⟨j, hj⟩ : Fin 2) = b
  fin_cases a <;> fin_cases b <;> simp

attribute [local instance] EigenSolver.spectral in
theorem evolution_group_lopsided :
    OrthonormalSpectra ∧ Gate.ofHamiltonian lopsided (.value 1) = .ok (.evolution lopsided (.value 1)) ∧
    lopsided.evolution 2 * lopsided.evolution 3 = lopsided.evolution 5 ∧ lopsided.evolution 0 = .identity 2 ∧
    lopsided.evolution (-2) = (lopsided.evolution 2).adjoint ∧ (lopsided.evolution 2).pow 3 = lopsided.evolution 6 ∧
    (powered (primitive (.evolution lopsided (.value 1))) 3).LowersAlike
      (primitive (.evolution lopsided (.value (1 * ((3 : ℕ) : ℝ))))) ∧
    (inverted (primitive (.evolution lopsided (.value 1)))).LowersAlike
      (primitive (.evolution lopsided (.value (1 * -1)))) := by
  have := EigenSolver.orthonormalSpectra_spectral
  have haccepted : Gate.ofHamiltonian lopsided (.value 1) = .ok (.evolution lopsided (.value 1)) :=
    Gate.ofHamiltonian_eq_ok_iff.2 ⟨isHamiltonian_lopsided, rfl⟩
  obtain ⟨hmul, hzero, hneg, hpow, _, hpowered, hinverted⟩ := evolution_group haccepted
  have hfive := hmul 2 3
  have hsix := hpow 2 3
  norm_num at hfive hsix
  exact ⟨this, haccepted, hfive, hzero, hneg 2, hsix, hpowered 3, hinverted⟩

end Operation
end QuantumCircuits
end
