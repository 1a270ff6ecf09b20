import Mathlib
import QuantumCircuits.Proofs.Algorithm.Compression
import QuantumCircuits.Proofs.Gate.TokenNames
import QuantumCircuits.Proofs.Simulation.Density

/-! The mean state describes the source. The rotations of a wire prepare the state of its member up to a phase, which
the projector does not see, and the mean over all blocks of independent members is a product over the wires. -/

noncomputable section
namespace QuantumCircuits
open Matrix QuantumCircuits.Basis Operator Operation

theorem State.vector_zero (n : ℕ) : (State.zero n : State ℝ).vector n = product n fun _ => Pi.single 0 1 := by
  have hbit (w : ℕ) : bit 0 w = 0 := by
    rw [bit, Nat.zero_testBit]
    rfl
  have hsingle := product_single (n := n) ⟨0, Nat.two_pow_pos n⟩
  simp only [hbit] at hsingle
  rw [hsingle]
  exact State.vector_basis ⟨0, Nat.two_pow_pos n⟩

theorem Operator.projector_product {n : ℕ} (u : ℕ → Fin 2 → ℂ) (i j : Fin (2 ^ n)) : projector (product n u) i j =
    ∏ w ∈ Finset.range n, u w (bit i w) * star (u w (bit j w)) := by
  rw [projector_apply, product, product, star_prod, Finset.prod_mul_distrib]

namespace SourceState

variable (s : SourceState ℝ)

def vector (b : Fin 2) : ℂ := (s.amplitude b).toComplex

def rotation : Matrix (Fin 2) (Fin 2) ℂ :=
  (DenseMatrix.rotationZ s.phi).toMatrix 2 2 * (DenseMatrix.rotationY s.theta).toMatrix 2 2

theorem vector_eq : s.vector =
    ![(Real.cos (s.theta / 2) : ℂ), Real.sin (s.theta / 2) * Complex.exp (s.phi * Complex.I)] := by
  have hpolar : Cx.polar (Real.sin (s.theta / 2)) s.phi = (Cx.cis s.phi).scale (Real.sin (s.theta / 2)) := by
    rw [Cx.cis, Cx.polar, Cx.polar, Cx.scale, one_mul, one_mul, mul_comm _ (Scalar.cos _), mul_comm _ (Scalar.sin _)]
  have hone : s.vector 1 = Real.sin (s.theta / 2) * Complex.exp (s.phi * Complex.I) := by
    rw [← Cx.toComplex_cis, ← Cx.toComplex_scale, ← hpolar, ← Scalar.half_real]
    rfl
  have hzero : s.vector 0 = Real.cos (s.theta / 2) := by
    rw [← Scalar.half_real]
    rfl
  funext b
  fin_cases b
  · exact hzero
  · exact hone

theorem rotation_mem_unitary : s.rotation ∈ unitaryGroup (Fin 2) ℂ :=
  mul_mem (DenseMatrix.isRotation_rotationZ.mem_unitary s.phi) (DenseMatrix.isRotation_rotationY.mem_unitary s.theta)

theorem rotation_mulVec : s.rotation *ᵥ Pi.single 0 1 = Complex.exp ((-s.phi / 2 : ℝ) * Complex.I) • s.vector := by
  have hphase : Complex.exp ((s.phi / 2 : ℝ) * Complex.I) =
      Complex.exp ((-s.phi / 2 : ℝ) * Complex.I) * Complex.exp (s.phi * Complex.I) := by
    rw [← Complex.exp_add, ← add_mul, ← Complex.ofReal_add]
    congr 3
    ring
  rw [mulVec_single_one, rotation, DenseMatrix.toMatrix_rotationZ, DenseMatrix.toMatrix_rotationY, vector_eq, hphase]
  funext b
  rw [col_apply, mul_apply, Fin.sum_univ_two]
  fin_cases b
  · simp
  · simp [mul_comm, mul_left_comm]

theorem rotated_mul_star (a b : Fin 2) : (s.rotation *ᵥ Pi.single 0 1) a * star ((s.rotation *ᵥ Pi.single 0 1) b) =
    s.vector a * star (s.vector b) := by
  -- The projector does not see the phase.
  have hphase : Complex.exp ((-s.phi / 2 : ℝ) * Complex.I) * star (Complex.exp ((-s.phi / 2 : ℝ) * Complex.I)) = 1 := by
    rw [DenseMatrix.star_exp_mul_I, ← Complex.exp_add, ← add_mul, ← Complex.ofReal_add, add_neg_cancel,
      Complex.ofReal_zero, zero_mul, Complex.exp_zero]
  rw [rotation_mulVec, Pi.smul_apply, Pi.smul_apply, smul_eq_mul, smul_eq_mul, star_mul', mul_mul_mul_comm, hphase,
    one_mul]

end SourceState

namespace Compressor

variable {ensemble : List (SourceState ℝ)} {n : ℕ}

theorem toMatrix_meanState (i j : Fin 2) : (meanState ensemble).toMatrix 2 2 i j =
    ∑ k : Fin ensemble.length, (ensemble[k].probability : ℂ) * (ensemble[k].vector i * star (ensemble[k].vector j)) := by
  have hsum (xs : List (SourceState ℝ)) (a : Cx ℝ) :
      (xs.foldl (fun sum s => sum + (s.amplitude i * (s.amplitude j).conj).scale s.probability) a).toComplex =
        a.toComplex + (xs.map fun s => (s.probability : ℂ) * (s.vector i * star (s.vector j))).sum := by
    induction xs generalizing a with
    | nil => exact (add_zero _).symm
    | cons s xs ih =>
      rw [List.foldl_cons, ih, Cx.toComplex_add, Cx.toComplex_scale, Cx.toComplex_mul, Cx.toComplex_conj, List.map_cons,
        List.sum_cons, ← add_assoc]
      rfl
  rw [meanState, DenseMatrix.toMatrix_ofFn]
  refine (hsum ensemble 0).trans ?_
  rw [Cx.toComplex_zero, zero_add]
  exact (Fin.sum_univ_fun_getElem ensemble fun s => (s.probability : ℂ) * (s.vector i * star (s.vector j))).symm

def preparation (n : ℕ) (members : ℕ → SourceState ℝ) : Circuit ℝ :=
  ⟨"source", layout n, (List.range n).flatMap fun w =>
    [.gate (.ry (.value (members w).theta)) [w], .gate (.rz (.value (members w).phi)) [w]]⟩

def memberBindings (n : ℕ) (members : ℕ → SourceState ℝ) : Except Fault (Bindings ℝ) := do
  let b ← Bindings.empty.insertFamily (thetaFamily n) ((List.range n).map fun w => (members w).theta)
  b.insertFamily (phiFamily n) ((List.range n).map fun w => (members w).phi)

structure Describes (b : Bindings ℝ) (n : ℕ) (members : ℕ → SourceState ℝ) : Prop where
  theta : ∀ w < n, b.get? ((thetaFamily n).tokenName w) = some (members w).theta
  phi : ∀ w < n, b.get? ((phiFamily n).tokenName w) = some (members w).phi

variable {members : ℕ → SourceState ℝ} {b : Bindings ℝ}

theorem describes_of_insertFamily {b' b'' : Bindings ℝ} {thetas phis : List ℝ}
    (htheta : b.insertFamily (thetaFamily n) thetas = .ok b') (hphi : b'.insertFamily (phiFamily n) phis = .ok b'')
    (hthetas : ∀ w < n, thetas[w]? = some (members w).theta) (hphis : ∀ w < n, phis[w]? = some (members w).phi) :
    Describes b'' n members := by
  have hnames : (thetaFamily n).name ≠ (phiFamily n).name := (by decide : "theta" ≠ "phi")
  refine ⟨fun w hw => ?_, fun w hw => ?_⟩
  · obtain ⟨hlength, _⟩ := List.getElem?_eq_some_iff.1 (hthetas w hw)
    rw [Bindings.get?_insertFamily_of_ne hphi hnames, Bindings.get?_insertFamily htheta hlength, hthetas w hw]
  · obtain ⟨hlength, _⟩ := List.getElem?_eq_some_iff.1 (hphis w hw)
    rw [Bindings.get?_insertFamily hphi hlength, hphis w hw]

theorem exists_memberBindings (n : ℕ) (members : ℕ → SourceState ℝ) :
    ∃ b, memberBindings n members = .ok b ∧ Describes b n members := by
  have hlength (f : ℕ → ℝ) : ((List.range n).map f).length = n := by rw [List.length_map, List.length_range]
  have hvalue (f : ℕ → ℝ) (w : ℕ) (hw : w < n) : ((List.range n).map f)[w]? = some (f w) := by
    rw [List.getElem?_map, List.getElem?_range hw, Option.map_some]
  obtain ⟨b, htheta⟩ := Bindings.empty.exists_insertFamily (f := thetaFamily n) (hlength fun w => (members w).theta)
  obtain ⟨b', hphi⟩ := b.exists_insertFamily (f := phiFamily n) (hlength fun w => (members w).phi)
  exact ⟨b', bind_eq_ok_iff.2 ⟨_, htheta, hphi⟩, describes_of_insertFamily htheta hphi (hvalue _) (hvalue _)⟩

theorem bind_sourceCircuit (h : Describes b n members) : (sourceCircuit n).bind b = .ok (preparation n members) := by
  have hwires : List.Forall₂ (fun v w => v = w ∧ w < n) (List.range n) (List.range n) :=
    List.forall₂_same.2 fun w hw => ⟨rfl, List.mem_range.1 hw⟩
  refine Circuit.bind_of_images (List.rel_flatMap hwires fun v w ⟨same, hw⟩ => ?_)
  subst same
  exact .cons (image_bind_angle (h.theta v hw) .ry [v]) (.cons (image_bind_angle (h.phi v hw) .rz [v]) .nil)

theorem madeOf_preparation (hn : 0 < n) (members : ℕ → SourceState ℝ) :
    (preparation n members).MadeOf fun g => g.IsPure ∧ ¬ g.ReadsSpectrum := by
  refine Circuit.madeOf_single hn fun s hs => ?_
  obtain ⟨w, hw, hs⟩ := List.mem_flatMap.1 hs
  have hfits : Selects n 1 [w] := selects_singleton (List.mem_range.1 hw)
  rcases List.mem_pair.1 hs with rfl | rfl <;> exact ⟨hfits, .primitive trivial ⟨⟨rfl, rfl, nofun⟩, id⟩⟩

theorem stepsMeaning_preparation [EigenSolver ℝ] : stepsMeaning n (preparation n members).steps =
    ((List.range n).map fun w => (placed (d := 1) [] [w] (members w).rotation : Operator n)).reverse.prod := by
  rw [preparation, stepsMeaning_flatMap]
  congr 2
  refine List.map_congr_left fun w hw => ?_
  have hw : Selects n 1 [w] := selects_singleton (List.mem_range.1 hw)
  have hry : (Operation.primitive (.ry (.value (members w).theta))).Means
      ((DenseMatrix.rotationY (members w).theta).toMatrix (2 ^ 1) (2 ^ 1)) := .uncontrolled rfl rfl rfl
  have hrz : (Operation.primitive (.rz (.value (members w).phi))).Means
      ((DenseMatrix.rotationZ (members w).phi).toMatrix (2 ^ 1) (2 ^ 1)) := .uncontrolled rfl rfl rfl
  rw [stepsMeaning, stepsMeaning_singleton]
  refine (congrArg₂ (· * ·) (hrz.placed_eq [] [w]) (hry.placed_eq [] [w])).trans ?_
  exact (placed_mul hw (List.forall_mem_nil _) _ _).symm

theorem applies_preparation [EigenSolver ℝ] (hn : 0 < n) : (preparation n members).Applies
    (((List.range n).map fun w => (placed (d := 1) [] [w] (members w).rotation : Operator n)).reverse.prod) := by
  have hmade := madeOf_preparation hn members
  exact Circuit.WellFormed.applies_of_spectral hmade.wellFormed (hmade.mono fun _ => And.left).isExact_of_isPure
    (fun g hg => (hmade.gates false g hg).2) (@stepsMeaning_preparation _ _ EigenSolver.spectral)

theorem statevector_preparation [EigenSolver ℝ] (hn : 0 < n) (members : ℕ → SourceState ℝ) :
    (preparation n members).statevector (.zero n) =
      .ok (.ofVector (product n fun w => (members w).rotation *ᵥ Pi.single 0 1)) := by
  rw [applies_preparation hn _ rfl, State.vector_zero,
    placed_wires_mulVec_product List.nodup_range fun w hw => List.mem_range.1 hw]
  congr 2
  exact product_congr fun w hw => if_pos (List.mem_range.2 hw)

theorem of_ofEnsemble [EigenSolver ℝ] [DecimalText ℝ] {c : Compressor ℝ} (h : ofEnsemble ensemble n = .ok c) :
    0 < n ∧ c.source = sourceCircuit n ∧ c.density = meanState ensemble := by
  unfold ofEnsemble at h
  split at h
  · cases h
  · next hnonempty =>
    simp only [Bool.or_eq_true, List.isEmpty_iff, decide_eq_true_iff, not_or] at hnonempty
    have hn := Nat.pos_of_ne_zero hnonempty.2
    obtain ⟨_, _, h⟩ := bind_eq_ok_iff.1 h
    obtain ⟨source, hsource, h⟩ := bind_eq_ok_iff.1 h
    obtain ⟨_, _, h⟩ := bind_eq_ok_iff.1 h
    obtain ⟨_, _, h⟩ := bind_eq_ok_iff.1 h
    obtain ⟨_, _, h⟩ := bind_eq_ok_iff.1 h
    cases h
    exact ⟨hn, Except.ok.inj (hsource.symm.trans (buildSource_eq hn)), rfl⟩

def picked (ensemble : List (SourceState ℝ)) (pick : Fin n → Fin ensemble.length) (w : ℕ) : SourceState ℝ :=
  if h : w < n then ensemble[pick ⟨w, h⟩] else ⟨0, 0, 0⟩

theorem picked_val (pick : Fin n → Fin ensemble.length) (w : Fin n) : picked ensemble pick w = ensemble[pick w] :=
  dif_pos w.isLt

theorem sum_pick_prod (f : SourceState ℝ → Fin 2 → Fin 2 → ℂ) (i j : ℕ) :
    ∑ pick : Fin n → Fin ensemble.length, (∏ w, (ensemble[pick w].probability : ℂ)) *
        ∏ w ∈ Finset.range n, f (picked ensemble pick w) (bit i w) (bit j w) =
      ∏ w ∈ Finset.range n, ∑ k : Fin ensemble.length,
        (ensemble[k].probability : ℂ) * f ensemble[k] (bit i w) (bit j w) := by
  rw [Finset.prod_range, Finset.prod_univ_sum, Fintype.piFinset_univ]
  refine Finset.sum_congr rfl fun pick _ => ?_
  rw [Finset.prod_range, ← Finset.prod_mul_distrib]
  exact Finset.prod_congr rfl fun w _ => by rw [picked_val]

/-- The mean state describes the source: the circuit of the source accepts the angles of any members on its wires, and
the mean of the projectors onto what it prepares from zero, over all blocks of members weighted by their probabilities,
is the Kronecker power of the mean state. -/
theorem mean_projector_source [EigenSolver ℝ] [DecimalText ℝ] {c : Compressor ℝ} (h : ofEnsemble ensemble n = .ok c) :
    ∃ prepared : (Fin n → Fin ensemble.length) → State ℝ,
      (∀ pick, (∃ b, memberBindings n (picked ensemble pick) = .ok b ∧ Describes b n (picked ensemble pick)) ∧
        ∀ b, Describes b n (picked ensemble pick) →
          ∃ bound, c.source.bind b = .ok bound ∧ bound.statevector (.zero n) = .ok (prepared pick) ∧
            (n < UInt32.size → bound.statevector (.zeroOfWidth n) = .ok (prepared pick))) ∧
      c.density.Shaped 2 2 ∧
      ∑ pick, (∏ w, (ensemble[pick w].probability : ℂ)) • projector ((prepared pick).vector n) =
        kroneckerPower (c.density.toMatrix 2 2) n := by
  obtain ⟨hn, hsource, hdensity⟩ := of_ofEnsemble h
  rw [hsource, hdensity]
  refine ⟨fun pick => .ofVector (product n fun w => (picked ensemble pick w).rotation *ᵥ Pi.single 0 1),
    fun pick => ⟨?_, ?_⟩, ⟨rfl, rfl⟩, ?_⟩
  · exact exists_memberBindings n (picked ensemble pick)
  · refine fun b hb => ⟨_, bind_sourceCircuit hb, statevector_preparation hn _, fun hsize => ?_⟩
    rw [State.zeroOfWidth_eq_zero hsize]
    exact statevector_preparation hn _
  · ext i j
    simp only [Matrix.sum_apply, Matrix.smul_apply, smul_eq_mul, State.vector_ofVector, projector_product,
      SourceState.rotated_mul_star, kroneckerPower_apply, toMatrix_meanState]
    exact sum_pick_prod (fun s a b => s.vector a * star (s.vector b)) i j

attribute [local instance] EigenSolver.spectral DecimalText.quarter in
theorem mean_projector_source_biased : ofEnsemble biased 2 = .ok (assembled biased 2) ∧
    ∃ prepared : (Fin 2 → Fin biased.length) → State ℝ,
      (∀ pick b, Describes b 2 (picked biased pick) →
        ∃ bound, (assembled biased 2).source.bind b = .ok bound ∧ bound.statevector (.zero 2) = .ok (prepared pick) ∧
          bound.statevector (.zeroOfWidth 2) = .ok (prepared pick)) ∧
      ∑ pick, (∏ w, (biased[pick w].probability : ℂ)) • projector ((prepared pick).vector 2) =
        kroneckerPower !![9 / 10, 0; 0, 1 / 10] 2 := by
  have := EigenSolver.orthonormalSpectra_spectral
  have haccepted : ofEnsemble biased 2 = .ok (assembled biased 2) :=
    ofEnsemble_of_check (List.cons_ne_nil _ _) Nat.two_pos checkEnsemble_biased
  obtain ⟨prepared, hprepared, _, hmean⟩ := mean_projector_source haccepted
  refine ⟨haccepted, prepared, fun pick b hb => ?_, hmean.trans ?_⟩
  · obtain ⟨bound, hbound, hrun, hwidth⟩ := (hprepared pick).2 b hb
    exact ⟨bound, hbound, hrun, hwidth (by decide)⟩
  exact congrArg (kroneckerPower · 2) toMatrix_meanState_biased

end Compressor
end QuantumCircuits
end
