import Mathlib
import QuantumCircuits.Proofs.Gate.Matrices
import QuantumCircuits.Proofs.Operator.Placed
import QuantumCircuits.Simulation.Instruction
import QuantumCircuits.Simulation.PauliChannel

/-! Density matrices: projectors onto state vectors, what gates make of them, and how Pauli channels and
resets mix them. -/

noncomputable section
namespace QuantumCircuits
open Matrix QuantumCircuits.Basis

namespace Operator

variable {n : ℕ}

def projector (v : Fin (2 ^ n) → ℂ) : Operator n := vecMulVec v (star v)

theorem projector_apply (v : Fin (2 ^ n) → ℂ) (i j : Fin (2 ^ n)) : projector v i j = v i * star (v j) := rfl

theorem conj_projector (u : Operator n) (v : Fin (2 ^ n) → ℂ) :
    u * projector v * uᴴ = projector (u *ᵥ v) := by
  rw [projector, projector, mul_vecMulVec, vecMulVec_mul, star_mulVec]

def mass (v : Fin (2 ^ n) → ℂ) : ℝ := ∑ i, Complex.normSq (v i)

theorem ofReal_mass (v : Fin (2 ^ n) → ℂ) : (mass v : ℂ) = star v ⬝ᵥ v := by
  rw [mass, Complex.ofReal_sum, dotProduct]
  exact Finset.sum_congr rfl fun i _ => Complex.normSq_eq_conj_mul_self

theorem mass_nonneg (v : Fin (2 ^ n) → ℂ) : 0 ≤ mass v := Finset.sum_nonneg fun i _ => Complex.normSq_nonneg (v i)

theorem eq_zero_of_mass {v : Fin (2 ^ n) → ℂ} (h : mass v = 0) : v = 0 := by
  funext i
  have hterm := (Finset.sum_eq_zero_iff_of_nonneg fun i _ => Complex.normSq_nonneg (v i)).1 h i (Finset.mem_univ i)
  exact Complex.normSq_eq_zero.1 hterm

theorem mass_mulVec {u : Operator n} (hu : u ∈ unitaryGroup (Fin (2 ^ n)) ℂ) (v : Fin (2 ^ n) → ℂ) :
    mass (u *ᵥ v) = mass v := by
  have hone : uᴴ * u = 1 := mem_unitaryGroup_iff'.1 hu
  have hvalue : (mass (u *ᵥ v) : ℂ) = mass v := by
    rw [ofReal_mass, ofReal_mass, star_mulVec, dotProduct_mulVec, vecMul_vecMul, hone, vecMul_one]
  exact Complex.ofReal_injective hvalue

theorem mass_smul (c : ℝ) (v : Fin (2 ^ n) → ℂ) : mass ((c : ℂ) • v) = c ^ 2 * mass v := by
  rw [mass, mass, Finset.mul_sum]
  refine Finset.sum_congr rfl fun i _ => ?_
  rw [Pi.smul_apply, smul_eq_mul, Complex.normSq_mul, Complex.normSq_ofReal, pow_two]

theorem projector_smul (c : ℝ) (v : Fin (2 ^ n) → ℂ) :
    projector ((c : ℂ) • v) = (c ^ 2 : ℂ) • projector v := by
  ext i j
  simp only [projector_apply, Pi.smul_apply, Matrix.smul_apply, smul_eq_mul, star_mul', Complex.star_def,
    Complex.conj_ofReal]
  ring

theorem smul_projector_normalised (v : Fin (2 ^ n) → ℂ) :
    (mass v : ℂ) • projector (((√(mass v))⁻¹ : ℝ) • v) = projector v := by
  have hscaled : projector (((√(mass v))⁻¹ : ℝ) • v) = (((√(mass v))⁻¹ : ℝ) ^ 2 : ℂ) • projector v :=
    projector_smul _ v
  rw [hscaled, smul_smul]
  by_cases hzero : mass v = 0
  · rw [eq_zero_of_mass hzero, projector, zero_vecMulVec, smul_zero]
  · have hone : mass v * (√(mass v))⁻¹ ^ 2 = 1 := by
      rw [inv_pow, Real.sq_sqrt (mass_nonneg v), mul_inv_cancel₀ hzero]
    rw [← Complex.ofReal_pow, ← Complex.ofReal_mul, hone, Complex.ofReal_one, one_smul]

def reads (w : ℕ) (b : Bool) : Operator n := diagonal fun i => if i.val.testBit w = b then 1 else 0

theorem conjTranspose_reads (w : ℕ) (b : Bool) : (reads w b : Operator n)ᴴ = reads w b := by
  rw [reads, diagonal_conjTranspose]
  congr 1
  funext i
  rw [Pi.star_apply, apply_ite star, star_one, star_zero]

theorem reads_mulVec (w : ℕ) (b : Bool) (v : Fin (2 ^ n) → ℂ) (i : Fin (2 ^ n)) :
    (reads w b *ᵥ v) i = if i.val.testBit w = b then v i else 0 := by
  rw [reads, mulVec_diagonal, ite_mul, one_mul, zero_mul]

theorem mass_reads (w : ℕ) (v : Fin (2 ^ n) → ℂ) :
    mass (reads w true *ᵥ v) + mass (reads w false *ᵥ v) = mass v := by
  rw [mass, mass, mass, ← Finset.sum_add_distrib]
  refine Finset.sum_congr rfl fun i _ => ?_
  rw [reads_mulVec, reads_mulVec]
  cases i.val.testBit w <;> simp

def onWire (g : FixedGate) (w : ℕ) : Operator n := placed (d := 1) [] [w] (g.matrix.toMatrix 2 2)

theorem conjTranspose_onWire {g : FixedGate} (hg : DenseMatrix.IsReflection (g.matrix.toMatrix 2 2)) (w : ℕ) :
    (onWire g w : Operator n)ᴴ = onWire g w := by
  rw [onWire, ← placed_conjTranspose (List.forall_mem_nil _)]
  exact congrArg _ hg.hermitian

theorem conj_onWire {g : FixedGate} (hg : DenseMatrix.IsReflection (g.matrix.toMatrix 2 2)) (w : ℕ)
    (v : Fin (2 ^ n) → ℂ) : onWire g w * projector v * onWire g w = projector (onWire g w *ᵥ v) := by
  rw [← conj_projector, conjTranspose_onWire hg]

theorem onWire_mem_unitary {g : FixedGate} (hg : DenseMatrix.IsReflection (g.matrix.toMatrix 2 2)) {w : ℕ}
    (hw : w < n) : onWire g w ∈ unitaryGroup (Fin (2 ^ n)) ℂ :=
  placed_mem_unitary ⟨rfl, List.nodup_singleton w, List.forall_mem_singleton.2 hw⟩ (List.forall_mem_nil _)
    hg.mem_unitary

end Operator

open Operator

def PauliChannel.mix {n : ℕ} (channel : PauliChannel ℝ) (w : ℕ) (ρ : Operator n) : Operator n :=
  let p : ℂ := channel.probability
  match channel.kind with
  | .bitFlip => (1 - p) • ρ + p • (onWire .x w * ρ * onWire .x w)
  | .phaseFlip => (1 - p) • ρ + p • (onWire .z w * ρ * onWire .z w)
  | .depolarizing => (1 - 3 * p / 4) • ρ +
      (p / 4) • (onWire .x w * ρ * onWire .x w + onWire .y w * ρ * onWire .y w + onWire .z w * ρ * onWire .z w)

namespace Instruction

variable {n : ℕ}

/-- What an instruction makes of a density matrix. A reset keeps the states in which the wire reads zero
and flips the others. -/
def mix (channel : Option (PauliChannel ℝ)) (ρ : Operator n) : Instruction ℝ → Operator n
  | .gate p =>
    let u : Operator n :=
      placed p.controls p.targets (p.matrix.toMatrix (2 ^ p.targets.length) (2 ^ p.targets.length))
    u * ρ * uᴴ
  | .noise w =>
    match channel with
    | none => ρ
    | some channel => channel.mix w ρ
  | .reset w => reads w false * ρ * reads w false +
      onWire .x w * (reads w true * ρ * reads w true) * onWire .x w

theorem isLinearMap_conj (a b : Operator n) : IsLinearMap ℂ fun ρ : Operator n => a * ρ * b :=
  ⟨fun ρ σ => by rw [mul_add, add_mul], fun c ρ => by rw [mul_smul_comm, smul_mul_assoc]⟩

theorem isLinearMap_channel (channel : PauliChannel ℝ) (w : ℕ) :
    IsLinearMap ℂ fun ρ : Operator n => channel.mix w ρ := by
  obtain ⟨kind, p⟩ := channel
  constructor
  · intro ρ σ
    cases kind <;> simp only [PauliChannel.mix, (isLinearMap_conj _ _).map_add] <;> module
  · intro c ρ
    cases kind <;> simp only [PauliChannel.mix, (isLinearMap_conj _ _).map_smul] <;> module

theorem isLinearMap_mix (channel : Option (PauliChannel ℝ)) (i : Instruction ℝ) :
    IsLinearMap ℂ fun ρ : Operator n => i.mix channel ρ := by
  cases i with
  | gate p => exact isLinearMap_conj _ _
  | noise w =>
    cases channel with
    | none => exact ⟨fun _ _ => rfl, fun _ _ => rfl⟩
    | some channel => exact isLinearMap_channel channel w
  | reset w =>
    constructor
    · intro ρ σ
      simp only [mix, (isLinearMap_conj _ _).map_add]
      abel
    · intro c ρ
      simp only [mix, (isLinearMap_conj _ _).map_smul, smul_add]

def density (channel : Option (PauliChannel ℝ)) (is : List (Instruction ℝ)) (ρ : Operator n) : Operator n :=
  is.foldl (mix channel) ρ

theorem isLinearMap_density (channel : Option (PauliChannel ℝ)) (is : List (Instruction ℝ)) :
    IsLinearMap ℂ fun ρ : Operator n => density channel is ρ := by
  induction is with
  | nil => exact ⟨fun _ _ => rfl, fun _ _ => rfl⟩
  | cons i is ih =>
    constructor
    · intro ρ σ
      exact (congrArg (density channel is) ((isLinearMap_mix channel i).map_add ρ σ)).trans (ih.map_add _ _)
    · intro c ρ
      exact (congrArg (density channel is) ((isLinearMap_mix channel i).map_smul c ρ)).trans (ih.map_smul c _)

end Instruction
end QuantumCircuits
end
