import Mathlib
import QuantumCircuits.Proofs.Circuit.Preservation
import QuantumCircuits.Proofs.Matrix.Spectral
import QuantumCircuits.Gate.Matrices

/-! The matrices of the gates: the matrix of an adjoint gate is the conjugate transpose, and all
matrices of the vocabulary are unitary. -/

noncomputable section
namespace QuantumCircuits
open Matrix

theorem Scalar.half_real (x : ℝ) : Scalar.half x = x / 2 := by
  change x / ((2 : ℕ) : ℝ) = x / 2
  rw [Nat.cast_ofNat]

namespace DenseMatrix

theorem toMatrix_ofFour (a b c d : Cx ℝ) :
    (ofFour a b c d).toMatrix 2 2 = !![a.toComplex, b.toComplex; c.toComplex, d.toComplex] := by
  have hentries := toMatrix_ofFn (r := 2) (c := 2) fun i j => (([[a, b], [c, d]][i]?.getD [])[j]?).getD 0
  refine hentries.trans ?_
  ext i j
  fin_cases i <;> fin_cases j <;> rfl

theorem toMatrix_exchange :
    (exchange : DenseMatrix (Cx ℝ)).toMatrix 4 4 =
      !![1, 0, 0, 0; 0, 0, 1, 0; 0, 1, 0, 0; 0, 0, 0, 1] := by
  have hentries := toMatrix_ofFn (r := 4) (c := 4) fun i j =>
    (([[1, 0, 0, 0], [0, 0, 1, 0], [0, 1, 0, 0], [0, 0, 0, 1]][i]?.getD [])[j]?).getD 0
  refine hentries.trans ?_
  ext i j
  fin_cases i <;> fin_cases j <;> rfl

theorem toMatrix_hadamard :
    (hadamard : DenseMatrix (Cx ℝ)).toMatrix 2 2 =
      ((1 / √2 : ℝ) : ℂ) • !![1, 1; 1, -1] := by
  have hsqrt : (1 : ℝ) / Scalar.sqrt (Scalar.two : ℝ) = 1 / √2 := by
    change (1 : ℝ) / √((2 : ℕ) : ℝ) = _
    rw [Nat.cast_ofNat]
  have hrows := toMatrix_ofFour (.ofReal (1 / √2)) (.ofReal (1 / √2)) (.ofReal (1 / √2))
    (-.ofReal (1 / √2))
  unfold hadamard
  rw [hsqrt]
  refine hrows.trans ?_
  ext i j
  fin_cases i <;> fin_cases j <;> simp

theorem toMatrix_phase (θ : ℝ) :
    (phase θ).toMatrix 2 2 = !![1, 0; 0, Complex.exp (θ * Complex.I)] := by
  rw [phase, toMatrix_ofFour, Cx.toComplex_cis, Cx.toComplex_one, Cx.toComplex_zero]

theorem toMatrix_rotationX (θ : ℝ) :
    (rotationX θ).toMatrix 2 2 =
      !![(Real.cos (θ / 2) : ℂ), -Real.sin (θ / 2) * Complex.I;
        -Real.sin (θ / 2) * Complex.I, (Real.cos (θ / 2) : ℂ)] := by
  have himaginary (x : ℝ) : (⟨0, -x⟩ : Cx ℝ).toComplex = -x * Complex.I := by
    apply Complex.ext <;> simp
  unfold rotationX
  rw [Scalar.half_real, toMatrix_ofFour, Cx.toComplex_ofReal, himaginary]
  rfl

theorem toMatrix_rotationY (θ : ℝ) :
    (rotationY θ).toMatrix 2 2 =
      !![(Real.cos (θ / 2) : ℂ), (-Real.sin (θ / 2) : ℂ);
        (Real.sin (θ / 2) : ℂ), (Real.cos (θ / 2) : ℂ)] := by
  unfold rotationY
  rw [Scalar.half_real, toMatrix_ofFour, Cx.toComplex_neg, Cx.toComplex_ofReal, Cx.toComplex_ofReal]
  rfl

theorem toMatrix_rotationZ (θ : ℝ) :
    (rotationZ θ).toMatrix 2 2 =
      !![Complex.exp ((-θ / 2 : ℝ) * Complex.I), 0; 0, Complex.exp ((θ / 2 : ℝ) * Complex.I)] := by
  rw [rotationZ, toMatrix_ofFour, Cx.toComplex_cis, Cx.toComplex_cis, Cx.toComplex_zero,
    Scalar.half_real, Scalar.half_real]

theorem toMatrix_pauliX : (pauliX : DenseMatrix (Cx ℝ)).toMatrix 2 2 = !![0, 1; 1, 0] :=
  toMatrix_ofFour 0 1 1 0

theorem toMatrix_pauliY :
    (pauliY : DenseMatrix (Cx ℝ)).toMatrix 2 2 = !![0, -Complex.I; Complex.I, 0] := by
  have hminus : (⟨0, -1⟩ : Cx ℝ).toComplex = -Complex.I := by
    apply Complex.ext <;> simp
  have hplus : (⟨0, 1⟩ : Cx ℝ).toComplex = Complex.I := rfl
  rw [pauliY, toMatrix_ofFour, hminus, hplus, Cx.toComplex_zero]

theorem toMatrix_pauliZ : (pauliZ : DenseMatrix (Cx ℝ)).toMatrix 2 2 = !![1, 0; 0, -1] := by
  rw [pauliZ, toMatrix_phase]
  change !![1, 0; 0, Complex.exp (Real.pi * Complex.I)] = _
  rw [Complex.exp_pi_mul_I]

structure IsReflection {d : ℕ} (m : Matrix (Fin d) (Fin d) ℂ) : Prop where
  hermitian : mᴴ = m
  involutive : m * m = 1

theorem IsReflection.mem_unitary {d : ℕ} {m : Matrix (Fin d) (Fin d) ℂ} (h : IsReflection m) :
    m ∈ unitaryGroup (Fin d) ℂ := by
  rw [mem_unitaryGroup_iff, star_eq_conjTranspose, h.hermitian, h.involutive]

theorem conjTranspose_four (a b c d : ℂ) :
    (!![a, b; c, d] : Matrix (Fin 2) (Fin 2) ℂ)ᴴ = !![star a, star c; star b, star d] := by
  ext i j
  fin_cases i <;> fin_cases j <;> rfl

theorem star_ofReal (x : ℝ) : star (x : ℂ) = x := Complex.conj_ofReal x

theorem star_exp_mul_I (θ : ℝ) :
    star (Complex.exp (θ * Complex.I)) = Complex.exp ((-θ : ℝ) * Complex.I) := by
  rw [Complex.star_def, ← Complex.exp_conj]
  simp

theorem isReflection_hadamard : IsReflection ((hadamard : DenseMatrix (Cx ℝ)).toMatrix 2 2) := by
  have hscale : ((1 / √2 : ℝ) : ℂ) * ((1 / √2 : ℝ) : ℂ) * 2 = 1 := by
    rw [← Complex.ofReal_mul, div_mul_div_comm, one_mul, Real.mul_self_sqrt zero_le_two]
    norm_num
  rw [toMatrix_hadamard]
  constructor
  · rw [conjTranspose_smul, conjTranspose_four]
    simp
  · have hsquare : (!![1, 1; 1, -1] : Matrix (Fin 2) (Fin 2) ℂ) * !![1, 1; 1, -1] = (2 : ℂ) • 1 := by
      rw [Matrix.mul_fin_two, one_fin_two]
      ext i j
      fin_cases i <;> fin_cases j <;> norm_num
    rw [smul_mul_smul_comm, hsquare, smul_smul, hscale, one_smul]

theorem isReflection_pauliX : IsReflection ((pauliX : DenseMatrix (Cx ℝ)).toMatrix 2 2) := by
  rw [toMatrix_pauliX]
  constructor
  · rw [conjTranspose_four, star_zero, star_one]
  · rw [Matrix.mul_fin_two, one_fin_two]
    simp

theorem isReflection_pauliY : IsReflection ((pauliY : DenseMatrix (Cx ℝ)).toMatrix 2 2) := by
  rw [toMatrix_pauliY]
  constructor
  · rw [conjTranspose_four]
    simp
  · rw [Matrix.mul_fin_two, one_fin_two]
    simp

theorem isReflection_pauliZ : IsReflection ((pauliZ : DenseMatrix (Cx ℝ)).toMatrix 2 2) := by
  rw [toMatrix_pauliZ]
  constructor
  · rw [conjTranspose_four]
    simp
  · rw [Matrix.mul_fin_two, one_fin_two]
    simp

theorem isReflection_exchange : IsReflection ((exchange : DenseMatrix (Cx ℝ)).toMatrix 4 4) := by
  rw [toMatrix_exchange]
  constructor
  · ext i j
    rw [conjTranspose_apply]
    fin_cases i <;> fin_cases j <;> simp
  · ext i j
    rw [Matrix.mul_apply, Fin.sum_univ_four]
    fin_cases i <;> fin_cases j <;> simp

/-- A family of matrices over an angle that adds up angles and whose adjoints go backwards. -/
structure IsRotation (m : ℝ → Matrix (Fin 2) (Fin 2) ℂ) : Prop where
  zero : m 0 = 1
  add : ∀ θ η, m θ * m η = m (θ + η)
  neg : ∀ θ, m (-θ) = (m θ)ᴴ

theorem IsRotation.mem_unitary {m : ℝ → Matrix (Fin 2) (Fin 2) ℂ} (h : IsRotation m) (θ : ℝ) :
    m θ ∈ unitaryGroup (Fin 2) ℂ := by
  rw [mem_unitaryGroup_iff, star_eq_conjTranspose, ← h.neg, h.add, add_neg_cancel, h.zero]

theorem IsRotation.pow {m : ℝ → Matrix (Fin 2) (Fin 2) ℂ} (h : IsRotation m) (θ : ℝ) (k : ℕ) :
    m θ ^ k = m (k * θ) := by
  induction k with
  | zero => rw [pow_zero, Nat.cast_zero, zero_mul, h.zero]
  | succ k ih =>
    rw [pow_succ, ih, h.add, Nat.cast_succ, add_one_mul]

theorem isRotation_phase : IsRotation fun θ => (phase θ).toMatrix 2 2 := by
  constructor
  · rw [toMatrix_phase, one_fin_two]
    simp
  · intro θ η
    rw [toMatrix_phase, toMatrix_phase, toMatrix_phase, Matrix.mul_fin_two, Complex.ofReal_add,
      add_mul, Complex.exp_add]
    simp
  · intro θ
    rw [toMatrix_phase, toMatrix_phase, conjTranspose_four, star_exp_mul_I, star_one, star_zero]

theorem isRotation_rotationX : IsRotation fun θ => (rotationX θ).toMatrix 2 2 := by
  constructor
  · rw [toMatrix_rotationX, one_fin_two]
    simp
  · intro θ η
    have hI := Complex.I_mul_I
    rw [toMatrix_rotationX, toMatrix_rotationX, toMatrix_rotationX, Matrix.mul_fin_two, add_div,
      Real.cos_add, Real.sin_add]
    push_cast
    ext i j
    fin_cases i <;> fin_cases j <;> simp
    · linear_combination (Complex.sin (θ / 2) * Complex.sin (η / 2)) * hI
    · ring
    · ring
    · linear_combination (Complex.sin (θ / 2) * Complex.sin (η / 2)) * hI
  · intro θ
    rw [toMatrix_rotationX, toMatrix_rotationX, conjTranspose_four, neg_div, Real.cos_neg,
      Real.sin_neg, star_mul, star_neg, star_ofReal, star_ofReal]
    simp [mul_comm]

theorem isRotation_rotationY : IsRotation fun θ => (rotationY θ).toMatrix 2 2 := by
  constructor
  · rw [toMatrix_rotationY, one_fin_two]
    simp
  · intro θ η
    rw [toMatrix_rotationY, toMatrix_rotationY, toMatrix_rotationY, Matrix.mul_fin_two, add_div,
      Real.cos_add, Real.sin_add]
    push_cast
    ext i j
    fin_cases i <;> fin_cases j <;> simp <;> ring
  · intro θ
    rw [toMatrix_rotationY, toMatrix_rotationY, conjTranspose_four, neg_div, Real.cos_neg,
      Real.sin_neg, star_neg, star_ofReal, star_ofReal]
    simp

theorem isRotation_rotationZ : IsRotation fun θ => (rotationZ θ).toMatrix 2 2 := by
  constructor
  · rw [toMatrix_rotationZ, one_fin_two]
    simp
  · intro θ η
    rw [toMatrix_rotationZ, toMatrix_rotationZ, toMatrix_rotationZ, Matrix.mul_fin_two, add_div,
      neg_add, add_div, Complex.ofReal_add, Complex.ofReal_add, add_mul, add_mul, Complex.exp_add,
      Complex.exp_add]
    simp
  · intro θ
    rw [toMatrix_rotationZ, toMatrix_rotationZ, conjTranspose_four, star_exp_mul_I, star_exp_mul_I,
      star_zero, neg_div, neg_div, neg_neg]

end DenseMatrix

theorem AngleGate.isRotation_matrix (kind : AngleGate) :
    DenseMatrix.IsRotation fun θ => (kind.matrix θ).toMatrix 2 2 := by
  cases kind with
  | rx => exact DenseMatrix.isRotation_rotationX
  | ry => exact DenseMatrix.isRotation_rotationY
  | rz => exact DenseMatrix.isRotation_rotationZ
  | phase => exact DenseMatrix.isRotation_phase
  | cphase => exact DenseMatrix.isRotation_phase
  | cry => exact DenseMatrix.isRotation_rotationY

theorem FixedGate.toMatrix_adjoint (kind : FixedGate) :
    (kind.adjoint.matrix : DenseMatrix (Cx ℝ)).toMatrix (2 ^ kind.targets) (2 ^ kind.targets) =
      ((kind.matrix : DenseMatrix (Cx ℝ)).toMatrix (2 ^ kind.targets) (2 ^ kind.targets))ᴴ := by
  have hback {m : DenseMatrix (Cx ℝ)} (hm : m.Shaped 2 2) :
      m.toMatrix 2 2 = (m.adjoint.toMatrix 2 2)ᴴ := by
    rw [DenseMatrix.toMatrix_adjoint hm, conjTranspose_conjTranspose]
  cases kind with
  | h => exact DenseMatrix.isReflection_hadamard.hermitian.symm
  | x => exact DenseMatrix.isReflection_pauliX.hermitian.symm
  | y => exact DenseMatrix.isReflection_pauliY.hermitian.symm
  | z => exact DenseMatrix.isReflection_pauliZ.hermitian.symm
  | s => exact DenseMatrix.toMatrix_adjoint ⟨rfl, rfl⟩
  | sdg => exact hback ⟨rfl, rfl⟩
  | t => exact DenseMatrix.toMatrix_adjoint ⟨rfl, rfl⟩
  | tdg => exact hback ⟨rfl, rfl⟩
  | cx => exact DenseMatrix.isReflection_pauliX.hermitian.symm
  | cz => exact DenseMatrix.isReflection_pauliZ.hermitian.symm
  | swap => exact DenseMatrix.isReflection_exchange.hermitian.symm

theorem FixedGate.matrix_mem_unitary (kind : FixedGate) :
    (kind.matrix : DenseMatrix (Cx ℝ)).toMatrix (2 ^ kind.targets) (2 ^ kind.targets) ∈
      unitaryGroup (Fin (2 ^ kind.targets)) ℂ := by
  have hphase := DenseMatrix.isRotation_phase.mem_unitary
  have hadjoint {m : DenseMatrix (Cx ℝ)} (hm : m.Shaped 2 2)
      (hunitary : m.toMatrix 2 2 ∈ unitaryGroup (Fin 2) ℂ) :
      m.adjoint.toMatrix 2 2 ∈ unitaryGroup (Fin 2) ℂ := by
    rw [DenseMatrix.toMatrix_adjoint hm]
    exact Unitary.star_mem hunitary
  cases kind with
  | h => exact DenseMatrix.isReflection_hadamard.mem_unitary
  | x => exact DenseMatrix.isReflection_pauliX.mem_unitary
  | y => exact DenseMatrix.isReflection_pauliY.mem_unitary
  | z => exact DenseMatrix.isReflection_pauliZ.mem_unitary
  | s => exact hphase _
  | sdg => exact hadjoint ⟨rfl, rfl⟩ (hphase _)
  | t => exact hphase _
  | tdg => exact hadjoint ⟨rfl, rfl⟩ (hphase _)
  | cx => exact DenseMatrix.isReflection_pauliX.mem_unitary
  | cz => exact DenseMatrix.isReflection_pauliZ.mem_unitary
  | swap => exact DenseMatrix.isReflection_exchange.mem_unitary

theorem Param.resolve_neg {θ : Param ℝ} {x : ℝ} (hx : θ.resolve = .ok x) : θ.neg.resolve = .ok (-x) := by
  cases θ with
  | value y =>
    cases hx
    change Except.ok (x * -1) = _
    rw [mul_neg_one]
  | token name c => cases hx

namespace Gate

theorem exists_targetMatrix {R : Type} [Scalar R] [EigenSolver R] {g : Gate R} (htokens : g.tokenNames = [])
    (hunitary : g.isUnitary = true) : ∃ m, g.targetMatrix = .ok m := by
  have hvalue {θ : Param R} (hθ : θ.tokenNames = []) : ∃ x, θ.resolve = .ok x := by
    cases θ with
    | value x => exact ⟨x, rfl⟩
    | token name c => cases hθ
  cases g with
  | fixed kind => exact ⟨_, rfl⟩
  | angle kind θ =>
    obtain ⟨x, hx⟩ := hvalue htokens
    exact ⟨_, bind_eq_ok_iff.2 ⟨x, hx, rfl⟩⟩
  | dense label m => exact ⟨_, rfl⟩
  | evolution h time =>
    obtain ⟨x, hx⟩ := hvalue htokens
    exact ⟨_, bind_eq_ok_iff.2 ⟨x, hx, rfl⟩⟩
  | noise => exact ⟨_, rfl⟩
  | reset => cases hunitary

variable [EigenSolver ℝ] {g a : Gate ℝ} {m : DenseMatrix (Cx ℝ)}

theorem targetMatrix_adjoint [SquareSpectra ℝ] (h : g.WellFormed) (ha : g.adjoint = .ok a)
    (hm : g.targetMatrix = .ok m) :
    ∃ m', a.targetMatrix = .ok m' ∧
      m'.toMatrix (2 ^ (g.arity - g.controls)) (2 ^ (g.arity - g.controls)) =
        (m.toMatrix (2 ^ (g.arity - g.controls)) (2 ^ (g.arity - g.controls)))ᴴ := by
  have htargets := adjoint_eq_ok_iff.1 ha
  cases g with
  | fixed kind =>
    cases htargets
    cases hm
    refine ⟨_, rfl, ?_⟩
    rw [arity, controls, Nat.add_sub_cancel_left]
    exact kind.toMatrix_adjoint
  | angle kind θ =>
    cases htargets
    obtain ⟨x, hx, same⟩ := bind_eq_ok_iff.1 hm
    obtain rfl := pure_eq_ok_iff.1 same
    refine ⟨_, bind_eq_ok_iff.2 ⟨-x, Param.resolve_neg hx, rfl⟩, ?_⟩
    rw [arity, controls, Nat.add_sub_cancel_left]
    exact kind.isRotation_matrix.neg x
  | dense label matrix =>
    cases htargets
    cases hm
    exact ⟨_, rfl, DenseMatrix.toMatrix_adjoint (shaped_of_checkDimension h)⟩
  | evolution hamiltonian time =>
    cases htargets
    obtain ⟨x, hx, same⟩ := bind_eq_ok_iff.1 hm
    obtain rfl := pure_eq_ok_iff.1 same
    exact ⟨_, bind_eq_ok_iff.2 ⟨-x, Param.resolve_neg hx, rfl⟩, DenseMatrix.toMatrix_evolution_neg h x⟩
  | noise =>
    cases htargets
    cases hm
    refine ⟨_, rfl, ?_⟩
    change (DenseMatrix.identity 2).toMatrix 2 2 = ((DenseMatrix.identity 2).toMatrix 2 2)ᴴ
    rw [DenseMatrix.toMatrix_identity, conjTranspose_one]
  | reset => cases htargets

theorem targetMatrix_mem_unitary [OrthonormalSpectra] (h : g.WellFormed)
    (hdense : ∀ label matrix, g = .dense label matrix →
      matrix.toMatrix (2 ^ matrix.wireCount) (2 ^ matrix.wireCount) ∈ unitaryGroup _ ℂ)
    (hm : g.targetMatrix = .ok m) :
    m.toMatrix (2 ^ (g.arity - g.controls)) (2 ^ (g.arity - g.controls)) ∈ unitaryGroup _ ℂ := by
  cases g with
  | fixed kind =>
    cases hm
    rw [arity, controls, Nat.add_sub_cancel_left]
    exact kind.matrix_mem_unitary
  | angle kind θ =>
    obtain ⟨x, hx, same⟩ := bind_eq_ok_iff.1 hm
    obtain rfl := pure_eq_ok_iff.1 same
    rw [arity, controls, Nat.add_sub_cancel_left]
    exact kind.isRotation_matrix.mem_unitary x
  | dense label matrix =>
    cases hm
    exact hdense label m rfl
  | evolution hamiltonian time =>
    obtain ⟨x, hx, same⟩ := bind_eq_ok_iff.1 hm
    obtain rfl := pure_eq_ok_iff.1 same
    exact DenseMatrix.evolution_mem_unitary h x
  | noise =>
    cases hm
    have hidentity := DenseMatrix.toMatrix_identity 2
    exact hidentity ▸ one_mem (unitaryGroup (Fin 2) ℂ)
  | reset => cases hm

end Gate
end QuantumCircuits
end
