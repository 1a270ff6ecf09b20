import Mathlib
import QuantumCircuits.Proofs.Gate.Matrices
import QuantumCircuits.Proofs.Matrix.Spectral

/-! Evolutions as exponentials. A matrix that passes the test for diagonal ones evolves by its diagonal alone: what
the tolerance lets through off the diagonal is left out, however long the evolution takes. Any other matrix that is
Hermitian exactly evolves by its exponential, if its eigenvectors and eigenvalues are exact. -/

namespace QuantumCircuits

noncomputable section
open Matrix

section Propagator

variable {d : ℕ}

/-- `exp (-i a time)`. -/
def propagator (a : Matrix (Fin d) (Fin d) ℂ) (time : ℝ) : Matrix (Fin d) (Fin d) ℂ :=
  NormedSpace.exp (-(time * Complex.I) • a)

theorem propagator_diagonal (v : Fin d → ℂ) (time : ℝ) :
    propagator (diagonal v) time = diagonal fun i => Complex.exp (-(time * Complex.I) * v i) := by
  rw [propagator, ← diagonal_smul, Matrix.exp_diagonal]
  congr 1
  funext i
  rw [Pi.coe_exp, Complex.exp_eq_exp_ℂ]
  rfl

theorem propagator_mul {a u : Matrix (Fin d) (Fin d) ℂ} {v : Fin d → ℂ} (hu : IsUnit u) (h : a * u = u * diagonal v)
    (time : ℝ) : propagator a time * u = u * propagator (diagonal v) time := by
  have hinverse : u⁻¹ * u = 1 := nonsing_inv_mul u ((isUnit_iff_isUnit_det u).1 hu)
  have hconj : -(time * Complex.I) • a = u * (-(time * Complex.I) • diagonal v) * u⁻¹ := by
    rw [Matrix.mul_smul, ← h, Matrix.smul_mul, Matrix.mul_assoc, mul_nonsing_inv u ((isUnit_iff_isUnit_det u).1 hu),
      Matrix.mul_one]
  rw [propagator, hconj, Matrix.exp_conj _ _ hu, Matrix.mul_assoc, hinverse, Matrix.mul_one]
  rfl

open scoped Matrix.Norms.Operator in
/-- The exponentials at all times determine the matrix, by their derivative at time zero. -/
theorem eq_of_propagator {a b : Matrix (Fin d) (Fin d) ℂ} (h : ∀ time, propagator a time = propagator b time) :
    a = b := by
  have hderivative (m : Matrix (Fin d) (Fin d) ℂ) : HasDerivAt (propagator m) (-Complex.I • m) 0 := by
    have hscaled : propagator m = fun time : ℝ => NormedSpace.exp (time • (-Complex.I • m)) := by
      funext time
      rw [propagator, ← Complex.coe_smul, smul_smul, mul_neg]
    have hexp := hasDerivAt_exp_smul_const (-Complex.I • m) (0 : ℝ)
    rw [zero_smul, NormedSpace.exp_zero, one_mul] at hexp
    rw [hscaled]
    exact hexp
  have hsame := (hderivative a).unique (funext h ▸ hderivative b)
  exact smul_right_injective _ (neg_ne_zero.2 Complex.I_ne_zero) hsame

theorem exp_phase (time x : ℝ) : Complex.exp (-(time * Complex.I) * x) =
    Real.cos (x * time) - Real.sin (x * time) * Complex.I := by
  have hangle : -(time * Complex.I) * x = ((-(x * time) : ℝ) : ℂ) * Complex.I := by
    push_cast
    ring
  rw [hangle, Complex.exp_mul_I, ← Complex.ofReal_cos, ← Complex.ofReal_sin, Real.cos_neg, Real.sin_neg]
  push_cast
  ring

theorem propagator_coupling (c time : ℝ) : propagator !![0, (c : ℂ); (c : ℂ), 0] time =
    !![(Real.cos (c * time) : ℂ), -(Real.sin (c * time) * Complex.I);
      -(Real.sin (c * time) * Complex.I), (Real.cos (c * time) : ℂ)] := by
  let u : Matrix (Fin 2) (Fin 2) ℂ := !![1, 1; 1, -1]
  let v : Fin 2 → ℂ := ![c, (-c : ℝ)]
  have hu : IsUnit u := by
    rw [isUnit_iff_isUnit_det, det_fin_two_of]
    norm_num
  have htwice : u * u = (2 : ℂ) • 1 := by
    ext i j
    fin_cases i <;> fin_cases j <;> norm_num [u, Matrix.mul_apply, Fin.sum_univ_two]
  have heigen : !![0, (c : ℂ); (c : ℂ), 0] * u = u * diagonal v := by
    ext i j
    fin_cases i <;> fin_cases j <;> simp [u, v, Matrix.mul_apply, Fin.sum_univ_two]
  have hphases : propagator (diagonal v) time = !![(Real.cos (c * time) - Real.sin (c * time) * Complex.I : ℂ), 0;
      0, (Real.cos (c * time) + Real.sin (c * time) * Complex.I : ℂ)] := by
    rw [propagator_diagonal, diagonal_fin_two]
    change !![Complex.exp (-(time * Complex.I) * c), 0; 0, Complex.exp (-(time * Complex.I) * (-c : ℝ))] = _
    rw [exp_phase, exp_phase, neg_mul, Real.cos_neg, Real.sin_neg]
    push_cast
    rw [neg_mul, sub_neg_eq_add]
  calc propagator !![0, (c : ℂ); (c : ℂ), 0] time
      = (1 / 2 : ℂ) • (propagator !![0, (c : ℂ); (c : ℂ), 0] time * u * u) := by
        rw [Matrix.mul_assoc, htwice, Matrix.mul_smul, Matrix.mul_one, smul_smul, one_div, inv_mul_cancel₀ two_ne_zero,
          one_smul]
    _ = (1 / 2 : ℂ) • (u * propagator (diagonal v) time * u) := by rw [propagator_mul hu heigen]
    _ = _ := by
        rw [hphases]
        ext i j
        fin_cases i <;> fin_cases j <;> simp [u] <;> ring

end Propagator

/-- The eigenvectors of a matrix that is Hermitian exactly belong to its eigenvalues. -/
class ExactSpectra [EigenSolver ℝ] : Prop extends OrthonormalSpectra where
  exact : ∀ h : DenseMatrix (Cx ℝ), h.IsHamiltonian →
    (h.toMatrix (2 ^ h.wireCount) (2 ^ h.wireCount)).IsHermitian →
      h.toMatrix (2 ^ h.wireCount) (2 ^ h.wireCount) * h.eigenvectors =
        h.eigenvectors * Matrix.diagonal fun i : Fin (2 ^ h.wireCount) => ((EigenSolver.spectrum h).values.getD i 0 : ℂ)

theorem DenseMatrix.get_eq_conj {h : DenseMatrix (Cx ℝ)} {d : ℕ} (hshape : h.Shaped d d)
    (hermitian : (h.toMatrix d d).IsHermitian) : ∀ i < h.rows, ∀ j < h.rows, h.get i j = (h.get j i).conj := by
  intro i hi j hj
  rw [hshape.rows] at hi hj
  have hentry := congrFun (congrFun hermitian ⟨i, hi⟩) ⟨j, hj⟩
  exact Cx.toComplex_injective hentry.symm

theorem EigenSolver.exactSpectra_spectral : @ExactSpectra .spectral := by
  let := EigenSolver.spectral
  have horthonormal := EigenSolver.orthonormalSpectra_spectral
  refine { horthonormal with exact := fun h hh hermitian => ?_ }
  have hmul {d : ℕ} (hd : h.rows = d) (hconj : ∀ i < h.rows, ∀ j < h.rows, h.get i j = (h.get j i).conj) :
      h.toMatrix d d * (EigenSolver.spectrum h).vectors.toMatrix d d = (EigenSolver.spectrum h).vectors.toMatrix d d *
        diagonal fun i : Fin d => ((EigenSolver.spectrum h).values.getD i 0 : ℂ) := by
    subst hd
    ext i j
    rw [mul_diagonal, mul_comm]
    exact congrFun (EigenSolver.mulVec_spectral h hconj j) i
  exact hmul hh.shaped.rows (h.get_eq_conj hh.shaped hermitian)

namespace DenseMatrix

variable {h : DenseMatrix (Cx ℝ)} {n d : ℕ}

theorem isHamiltonian_of_isHermitian (hn : 0 < n) (hshape : h.Shaped (2 ^ n) (2 ^ n))
    (hermitian : (h.toMatrix (2 ^ n) (2 ^ n)).IsHermitian) : h.IsHamiltonian :=
  ⟨Gate.checkDimension_of_shaped hn hshape,
    isNear_adjoint (hshape.rows.trans hshape.columns.symm) (get_eq_conj hshape hermitian)⟩

def NearlyDiagonal (a : Matrix (Fin d) (Fin d) ℂ) : Prop :=
  ∀ i j, i ≠ j → ‖a i j‖ < Scalar.tolerance

theorem isDiagonal_iff (hshape : h.Shaped d d) : h.isDiagonal = true ↔ NearlyDiagonal (h.toMatrix d d) := by
  rw [isDiagonal_eq_true_iff, hshape.rows, hshape.columns]
  simp only [Cx.modulus_eq_norm]
  exact ⟨fun hall i j hij => hall i i.isLt j j.isLt fun heq => hij (Fin.ext heq),
    fun hall i hi j hj hij => hall ⟨i, hi⟩ ⟨j, hj⟩ fun heq => hij (congrArg Fin.val heq)⟩

section Evolution

variable [EigenSolver ℝ]

theorem evolution_of_isDiagonal (hshape : h.Shaped d d) (hermitian : (h.toMatrix d d).IsHermitian)
    (hdiagonal : h.isDiagonal = true) (time : ℝ) :
    (h.evolution time).toMatrix d d = propagator (Matrix.diagonal (h.toMatrix d d).diag) time := by
  have hvalue (i : Fin d) : (((h.diagonalEntries.map Cx.re).getD i 0 : ℝ) : ℂ) = h.toMatrix d d i i := by
    have hlength := length_diagonalEntries hshape
    have hentry : (h.diagonalEntries.map Cx.re).getD i 0 = (h.get i i).re := by
      rw [List.getD_eq_getElem _ _ (hlength.symm ▸ i.isLt), List.getElem_map]
      simp [diagonalEntries]
    rw [hentry]
    exact Complex.conj_eq_iff_re.1 (congrFun (congrFun hermitian i) i)
  rw [evolution_eq, if_pos hdiagonal, toMatrix_phases (length_diagonalEntries hshape), propagator_diagonal]
  congr 1
  funext i
  rw [hvalue, diag_apply, neg_mul, neg_mul, neg_mul, mul_assoc, mul_comm]

theorem evolution_of_exact [ExactSpectra] (hh : h.IsHamiltonian)
    (hermitian : (h.toMatrix (2 ^ h.wireCount) (2 ^ h.wireCount)).IsHermitian) (hdiagonal : h.isDiagonal = false)
    (time : ℝ) : (h.evolution time).toMatrix (2 ^ h.wireCount) (2 ^ h.wireCount) =
      propagator (h.toMatrix (2 ^ h.wireCount) (2 ^ h.wireCount)) time := by
  have hunitary := OrthonormalSpectra.orthonormal h hh
  have hproduct := mem_unitaryGroup_iff.1 hunitary
  have hunit : IsUnit h.eigenvectors := IsUnit.of_mul_eq_one _ hproduct
  have hphases : (phases (EigenSolver.spectrum h).values time).toMatrix _ _ =
      propagator (Matrix.diagonal fun i : Fin (2 ^ h.wireCount) => ((EigenSolver.spectrum h).values.getD i 0 : ℂ))
        time := by
    rw [toMatrix_phases hh.length_values, propagator_diagonal]
    congr 1
    funext i
    ring_nf
  rw [toMatrix_evolution hh hdiagonal, hphases, ← propagator_mul hunit (ExactSpectra.exact h hh hermitian),
    Matrix.mul_assoc]
  exact (congrArg (propagator _ time * ·) hproduct).trans (Matrix.mul_one _)

/-- Evolutions by matrices that are Hermitian exactly. The matrix passes the test for diagonal ones if its entries off
the diagonal are all below the tolerance, and then evolves by its diagonal. Otherwise it evolves by its exponential.
So an evolution is the exponential at all times just where no entries but zeros are taken for rounding errors. -/
theorem evolution_eq_propagator [ExactSpectra] (hn : 0 < n) (hshape : h.Shaped (2 ^ n) (2 ^ n))
    (hermitian : (h.toMatrix (2 ^ n) (2 ^ n)).IsHermitian) :
    (¬ NearlyDiagonal (h.toMatrix (2 ^ n) (2 ^ n)) →
      ∀ time, (h.evolution time).toMatrix (2 ^ n) (2 ^ n) = propagator (h.toMatrix (2 ^ n) (2 ^ n)) time) ∧
    (NearlyDiagonal (h.toMatrix (2 ^ n) (2 ^ n)) → ∀ time, (h.evolution time).toMatrix (2 ^ n) (2 ^ n) =
      propagator (Matrix.diagonal (h.toMatrix (2 ^ n) (2 ^ n)).diag) time) ∧
    ((∀ time, (h.evolution time).toMatrix (2 ^ n) (2 ^ n) = propagator (h.toMatrix (2 ^ n) (2 ^ n)) time) ↔
      (NearlyDiagonal (h.toMatrix (2 ^ n) (2 ^ n)) → (h.toMatrix (2 ^ n) (2 ^ n)).IsDiag)) := by
  have hdiagonal := isDiagonal_iff hshape
  have hh := isHamiltonian_of_isHermitian hn hshape hermitian
  obtain rfl : h.wireCount = n := by rw [wireCount, hshape.rows, Nat.log2_two_pow]
  have hfar : ¬ NearlyDiagonal (h.toMatrix _ _) → ∀ time, (h.evolution time).toMatrix (2 ^ h.wireCount) _ =
      propagator (h.toMatrix _ _) time := fun hfar =>
    evolution_of_exact hh hermitian (Bool.eq_false_iff.2 (hdiagonal.not.2 hfar))
  have hnear : NearlyDiagonal (h.toMatrix _ _) → ∀ time, (h.evolution time).toMatrix (2 ^ h.wireCount) _ =
      propagator (Matrix.diagonal (h.toMatrix _ _).diag) time := fun hnear =>
    evolution_of_isDiagonal hshape hermitian (hdiagonal.2 hnear)
  refine ⟨hfar, hnear, fun hall hnearly => ?_, fun hdiag time => ?_⟩
  · have hsame := eq_of_propagator fun time => (hnear hnearly time).symm.trans (hall time)
    exact hsame ▸ isDiag_diagonal _
  · by_cases hnearly : NearlyDiagonal (h.toMatrix (2 ^ h.wireCount) (2 ^ h.wireCount))
    · rw [hnear hnearly, (hdiag hnearly).diagonal_diag]
    · exact hfar hnearly time

end Evolution

attribute [local instance] EigenSolver.spectral in
theorem evolution_eq_propagator_pauliX :
    ExactSpectra ∧ 0 < 1 ∧ (pauliX : DenseMatrix (Cx ℝ)).Shaped (2 ^ 1) (2 ^ 1) ∧
      ((pauliX : DenseMatrix (Cx ℝ)).toMatrix (2 ^ 1) (2 ^ 1)).IsHermitian ∧
      ∀ time, ((pauliX : DenseMatrix (Cx ℝ)).evolution time).toMatrix (2 ^ 1) (2 ^ 1) =
          propagator (pauliX.toMatrix (2 ^ 1) (2 ^ 1)) time ∧
        propagator (pauliX.toMatrix (2 ^ 1) (2 ^ 1)) time =
          !![(Real.cos time : ℂ), -(Real.sin time * Complex.I); -(Real.sin time * Complex.I), (Real.cos time : ℂ)] := by
  have := EigenSolver.exactSpectra_spectral
  have hshape : (pauliX : DenseMatrix (Cx ℝ)).Shaped (2 ^ 1) (2 ^ 1) := ⟨rfl, rfl⟩
  have hermitian : ((pauliX : DenseMatrix (Cx ℝ)).toMatrix (2 ^ 1) (2 ^ 1)).IsHermitian :=
    isReflection_pauliX.hermitian
  have hfar : ¬ NearlyDiagonal ((pauliX : DenseMatrix (Cx ℝ)).toMatrix (2 ^ 1) (2 ^ 1)) := by
    intro hnearly
    have hentry : ‖(pauliX : DenseMatrix (Cx ℝ)).toMatrix 2 2 0 1‖ < Scalar.tolerance := hnearly 0 1 (by decide)
    rw [toMatrix_pauliX, Scalar.tolerance_real] at hentry
    norm_num at hentry
  obtain ⟨hexp, _⟩ := evolution_eq_propagator one_pos hshape hermitian
  refine ⟨this, one_pos, hshape, hermitian, fun time => ⟨hexp hfar time, ?_⟩⟩
  have hcoupling := propagator_coupling 1 time
  rw [one_mul, Complex.ofReal_one, ← toMatrix_pauliX] at hcoupling
  exact hcoupling

def faint : DenseMatrix (Cx ℝ) :=
  ofFour 0 (.ofReal (Scalar.half Scalar.tolerance)) (.ofReal (Scalar.half Scalar.tolerance)) 0

theorem toMatrix_faint : faint.toMatrix 2 2 =
    !![0, ((Scalar.half Scalar.tolerance : ℝ) : ℂ); ((Scalar.half Scalar.tolerance : ℝ) : ℂ), 0] :=
  toMatrix_ofFour _ _ _ _

theorem propagator_faint : propagator (faint.toMatrix 2 2) (10 ^ 9) =
    !![(Real.cos (1 / 2) : ℂ), -(Real.sin (1 / 2) * Complex.I);
      -(Real.sin (1 / 2) * Complex.I), (Real.cos (1 / 2) : ℂ)] := by
  have hangle : (Scalar.half Scalar.tolerance : ℝ) * 10 ^ 9 = 1 / 2 := by
    rw [Scalar.half_real, Scalar.tolerance_real]
    norm_num
  rw [toMatrix_faint, propagator_coupling, hangle]

attribute [local instance] EigenSolver.spectral in
/-- The evolution does nothing in this time. -/
theorem evolution_faint :
    ExactSpectra ∧ 0 < 1 ∧ faint.Shaped (2 ^ 1) (2 ^ 1) ∧ (faint.toMatrix (2 ^ 1) (2 ^ 1)).IsHermitian ∧
      (faint.evolution (10 ^ 9)).toMatrix (2 ^ 1) (2 ^ 1) = 1 ∧
      (faint.evolution (10 ^ 9)).toMatrix (2 ^ 1) (2 ^ 1) ≠ propagator (faint.toMatrix (2 ^ 1) (2 ^ 1)) (10 ^ 9) := by
  have hshape : faint.Shaped 2 2 := ⟨rfl, rfl⟩
  have hermitian : (faint.toMatrix 2 2).IsHermitian := by
    rw [toMatrix_faint]
    ext i j
    fin_cases i <;> fin_cases j <;> simp
  have hnearly : NearlyDiagonal (faint.toMatrix 2 2) := by
    rw [toMatrix_faint, Scalar.half_real]
    intro i j hij
    rw [Scalar.tolerance_real]
    fin_cases i <;> fin_cases j <;> first | exact absurd rfl hij | norm_num
  have hone : (faint.evolution (10 ^ 9)).toMatrix 2 2 = 1 := by
    rw [evolution_of_isDiagonal hshape hermitian ((isDiagonal_iff hshape).2 hnearly), propagator_diagonal, toMatrix_faint,
      ← diagonal_one]
    congr 1
    funext i
    fin_cases i <;> simp
  refine ⟨EigenSolver.exactSpectra_spectral, one_pos, hshape, hermitian, hone, fun heq => ?_⟩
  have hentry : -(Real.sin (1 / 2) * Complex.I) = 0 :=
    congrFun (congrFun (propagator_faint.symm.trans (heq.symm.trans hone)) 0) 1
  have hzero := (mul_eq_zero.1 (neg_eq_zero.1 hentry)).resolve_right Complex.I_ne_zero
  have hsin : 0 < Real.sin (1 / 2) := Real.sin_pos_of_pos_of_le_one (by norm_num) (by norm_num)
  exact hsin.ne' (Complex.ofReal_eq_zero.1 hzero)

end DenseMatrix
end
end QuantumCircuits
