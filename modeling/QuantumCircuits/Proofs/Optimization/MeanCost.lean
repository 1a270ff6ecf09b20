import Mathlib
import QuantumCircuits.Proofs.Operator.Uniform
import QuantumCircuits.Proofs.Optimization.Expectation
import QuantumCircuits.Proofs.Optimization.MaxCut

/-! Circuits with one kind of angle switched off. Without rotations the evolutions only turn the amplitudes of the
uniform state, and without evolutions the rotations turn all of them alike. Either way all basis states stay equally
likely, so that the expected cost is the mean of all costs. -/

noncomputable section
namespace QuantumCircuits.AlternatingAnsatz
open Matrix QuantumCircuits.Basis Operator Operation DenseMatrix

variable {clauses : List (Clause ℝ)} {n layers shots maxSteps : ℕ} {a : AlternatingAnsatz ℝ} {angles : LayerAngles ℝ}

section Steps

variable [EigenSolver ℝ]

theorem means_evolution (clauses : List (Clause ℝ)) (n : ℕ) (time : ℝ) :
    (Operation.primitive (.evolution (costMatrix clauses n) (.value time))).Means
      (phased n fun z => -(time * costOf clauses n z)) := by
  have hshape := shaped_costMatrix clauses n
  have hermitian : ((costMatrix clauses n).toMatrix (2 ^ n) (2 ^ n)).IsHermitian := by
    rw [toMatrix_costMatrix]
    exact isHermitian_diagonal_of_self_adjoint _ (funext fun z => Complex.conj_ofReal _)
  have hphases : ((costMatrix clauses n).evolution time).toMatrix (2 ^ n) (2 ^ n) =
      phased n fun z => -(time * costOf clauses n z) := by
    rw [evolution_of_isDiagonal hshape hermitian (isDiagonal_diagonal _), toMatrix_costMatrix, diag_diagonal,
      propagator_diagonal, phased]
    refine congrArg Matrix.diagonal (funext fun z => congrArg Complex.exp ?_)
    push_cast
    ring
  rw [← hphases]
  exact .uncontrolled (arity_evolution hshape _) rfl rfl

theorem means_rx (θ : ℝ) : (Operation.primitive (.rx (.value θ))).Means (d := 1) ((rotationX θ).toMatrix 2 2) :=
  .uncontrolled rfl rfl rfl

theorem stepsMeaning_keeps {P : (Fin (2 ^ n) → ℂ) → Prop} {steps : List (Step (Operation ℝ))}
    (h : ∀ s ∈ steps, ∀ v, P v → P ((placed [] s.wires s.operation.meaning : Operator n) *ᵥ v))
    {v : Fin (2 ^ n) → ℂ} (hv : P v) : P (stepsMeaning n steps *ᵥ v) := by
  induction steps generalizing v with
  | nil =>
    rw [stepsMeaning, one_mulVec]
    exact hv
  | cons s rest ih =>
    obtain ⟨hs, hrest⟩ := List.forall_mem_cons.1 h
    obtain ⟨o, w⟩ := s
    rw [stepsMeaning, ← mulVec_mulVec]
    exact ih hrest (hs v hv)

theorem layers_keep {P : (Fin (2 ^ n) → ℂ) → Prop} {params : List (ℝ × ℝ)}
    (hevolution : ∀ p ∈ params, ∀ v, P v → P (phased n (fun z => -(p.1 * costOf clauses n z)) *ᵥ v))
    (hrotation : ∀ p ∈ params, ∀ w < n, ∀ v, P v →
      P ((placed (d := 1) [] [w] ((rotationX (Scalar.two * p.2)).toMatrix 2 2) : Operator n) *ᵥ v))
    {v : Fin (2 ^ n) → ℂ} (hv : P v) :
    P (stepsMeaning n ((params.map fun (γ, β) => (.value γ, .value (Scalar.two * β))).flatMap fun (time, angle) =>
      layerSteps (costMatrix clauses n) n time angle) *ᵥ v) := by
  refine stepsMeaning_keeps (fun s hs u hu => ?_) hv
  rw [List.flatMap_map] at hs
  obtain ⟨p, hp, hs⟩ := List.mem_flatMap.1 hs
  rcases List.mem_cons.1 hs with rfl | hs
  · have hmeaning : (placed [] (List.range n) (Operation.primitive (.evolution (costMatrix clauses n) (.value p.1))).meaning :
        Operator n) = phased n fun z => -(p.1 * costOf clauses n z) := by
      rw [(means_evolution clauses n p.1).placed_eq, placed_range]
    exact hmeaning ▸ hevolution p hp u hu
  · obtain ⟨w, hw, rfl⟩ := List.mem_map.1 hs
    have hmeaning : (placed [] [w] (Operation.primitive (.rx (.value (Scalar.two * p.2)))).meaning : Operator n) = _ :=
      (means_rx _).placed_eq [] [w]
    exact hmeaning ▸ hrotation p hp w (List.mem_range.1 hw) u hu

/-- One kind of angle is zero in all layers. -/
def OneKind (angles : LayerAngles ℝ) : Prop := (∀ β ∈ angles.beta, β = 0) ∨ ∀ γ ∈ angles.gamma, γ = 0

theorem equallyLikely_numbered (h : OneKind angles) : EquallyLikely ((1 / 2) ^ a.variableCount)
    ((a.numbered angles).meaning *ᵥ (State.zero a.variableCount : State ℝ).vector a.variableCount) := by
  have huniform := uniform_hadamards a.variableCount
  rw [← stepsMeaning_hadamards] at huniform
  change EquallyLikely _ (stepsMeaning a.variableCount (_ ++ _) *ᵥ _)
  rw [stepsMeaning_append, ← mulVec_mulVec]
  rcases h with hbeta | hgamma
  · refine layers_keep (fun p _ v hv => hv.phased _) (fun p hp w hw v hv => ?_) huniform.likely
    have hzero : Scalar.two * p.2 = 0 := by rw [hbeta p.2 (List.of_mem_zip hp).2, mul_zero]
    have hone : (rotationX (0 : ℝ)).toMatrix 2 2 = 1 := isRotation_rotationX.zero
    rw [hzero, hone, placed_one (selects_singleton hw), one_mulVec]
    exact hv
  · refine (layers_keep (P := Uniform _) (fun p hp v hv => ?_) (fun p _ w hw v hv => ?_) huniform).likely
    · simp only [hgamma p.1 (List.of_mem_zip hp).1, zero_mul, neg_zero]
      rw [phased_zero, one_mulVec]
      exact hv
    · rw [hv.rotationX_mulVec hw]
      exact hv.smul_exp _

end Steps

theorem sum_of_equallyLikely {n : ℕ} {p : ℝ} {v : Fin (2 ^ n) → ℂ} (h : EquallyLikely p v) (cost : ℕ → ℝ) :
    Scalar.sum ((State.ofVector v).probabilities.zipIdx.map fun (p, z) => p * cost z) =
      p * ∑ z ∈ Finset.range (2 ^ n), cost z := by
  have hprobability (z : ℕ) (hz : z < 2 ^ n) : ((State.ofVector v).amp z).normSq = p := by
    rw [State.amp_ofVector v ⟨z, hz⟩, ← Cx.normSq_toComplex, Cx.toComplex_ofComplex]
    exact h ⟨z, hz⟩
  have hterm : ∀ z ∈ List.range (2 ^ n), ((State.ofVector v).amp z).normSq * cost z = p * cost z := by
    intro z hz
    rw [hprobability z (List.mem_range.1 hz)]
  rw [Scalar.sum_real, State.probabilities, List.zipIdx_map, State.zipIdx_toList, List.map_map, List.map_map,
    Finset.mul_sum]
  exact congrArg List.sum (List.map_congr_left hterm)

/-- With all rotations or all evolutions switched off, the expected cost is the mean of the costs of all basis
states, and for angles that are not one of each kind for each layer there is none. -/
theorem exactExpectation_eq_mean [EigenSolver ℝ] (ha : ofClauses clauses layers shots maxSteps = .ok a)
    (hangles : OneKind angles) :
    (HasLayers layers angles → a.exactExpectation angles =
      .ok ((1 / 2) ^ a.variableCount * ∑ z ∈ Finset.range (2 ^ a.variableCount), a.cost z)) ∧
    (¬ HasLayers layers angles → a.exactExpectation angles = .error (.state (countFault layers angles))) := by
  obtain ⟨n, hn, _, _, rfl⟩ := ofClauses_eq_ok_iff.1 ha
  constructor
  · intro h
    have hbind := bind_of_hasLayers (a := assembled clauses n layers shots maxSteps) h rfl
    have hlikely := @equallyLikely_numbered (assembled clauses n layers shots maxSteps) angles .spectral hangles
    have hfinal := applies_numbered (a := assembled clauses n layers shots maxSteps) hn angles
    rw [exactExpectation_of_final hbind (hfinal _ rfl)]
    exact congrArg Except.ok (sum_of_equallyLikely hlikely _)
  · intro h
    have hbind := bind_of_not_hasLayers (a := assembled clauses n layers shots maxSteps) h
    rw [exactExpectation, hbind]
    rfl

section Triangle

def triangle : List (ℕ × ℕ) := [(0, 1), (1, 2), (0, 2)]

theorem sum_cost_triangle :
    ∑ z ∈ Finset.range (2 ^ 3), costOf (Clause.ofEdges 3 triangle) 3 z = 12 := by
  have hends : ∀ e ∈ triangle, e.1 < 3 ∧ e.2 < 3 := by decide
  have hcost : ∀ z ∈ Finset.range (2 ^ 3), costOf (Clause.ofEdges 3 triangle) 3 z =
      (triangle.countP fun e => z.testBit (2 - e.1) != z.testBit (2 - e.2) : ℕ) := by
    intro z hz
    have hz := Finset.mem_range.1 hz
    have hcuts : triangle.countP (cutBy (Basis.label 3 z)) =
        triangle.countP fun e => z.testBit (2 - e.1) != z.testBit (2 - e.2) :=
      List.countP_congr fun e he => Bool.eq_iff_iff.1 (cutBy_label hz (hends e he).1 (hends e he).2)
    have hloops : triangle.countP isLoop = 0 := by decide
    rw [costOf_ofEdges hz hends, hcuts, hloops, Nat.cast_zero, add_zero]
  have htotal : (∑ z ∈ Finset.range (2 ^ 3), triangle.countP fun e => z.testBit (2 - e.1) != z.testBit (2 - e.2)) = 12 := by
    decide
  rw [Finset.sum_congr rfl hcost, ← Nat.cast_sum, htotal]
  norm_num

attribute [local instance] EigenSolver.spectral in
theorem exactExpectation_triangle : ∃ a, ofClauses (Clause.ofEdges 3 triangle) 1 100 10 = .ok a ∧
    OneKind ⟨[1], [0]⟩ ∧ OneKind ⟨[0], [2]⟩ ∧ a.exactExpectation ⟨[1], [0]⟩ = .ok (3 / 2) ∧
      a.exactExpectation ⟨[0], [2]⟩ = .ok (3 / 2) := by
  have ha : ofClauses (Clause.ofEdges 3 triangle) 1 100 10 = .ok (assembled (Clause.ofEdges 3 triangle) 3 1 100 10) :=
    ofClauses_ofEdges (by decide) (by decide)
  have hbeta : OneKind ⟨[1], [0]⟩ := .inl (List.forall_mem_singleton.2 rfl)
  have hgamma : OneKind ⟨[0], [2]⟩ := .inr (List.forall_mem_singleton.2 rfl)
  have hmean : (1 / 2 : ℝ) ^ 3 * ∑ z ∈ Finset.range (2 ^ 3), costOf (Clause.ofEdges 3 triangle) 3 z = 3 / 2 := by
    rw [sum_cost_triangle]
    norm_num
  exact ⟨_, ha, hbeta, hgamma, ((exactExpectation_eq_mean ha hbeta).1 ⟨rfl, rfl⟩).trans (congrArg Except.ok hmean),
    ((exactExpectation_eq_mean ha hgamma).1 ⟨rfl, rfl⟩).trans (congrArg Except.ok hmean)⟩

end Triangle

end QuantumCircuits.AlternatingAnsatz
end
