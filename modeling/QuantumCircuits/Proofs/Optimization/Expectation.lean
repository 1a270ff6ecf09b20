import Mathlib
import QuantumCircuits.Proofs.Optimization.AlternatingAnsatz
import QuantumCircuits.Proofs.Simulation.Registers
import QuantumCircuits.Proofs.Simulation.Shots

/-! Expected costs. The final state is normalised whatever the angles are, and as many outcomes are counted as
there are shots, so that both expectations are means of costs of basis states. -/

noncomputable section
namespace QuantumCircuits.AlternatingAnsatz
open Matrix QuantumCircuits.Basis Operator

variable {clauses : List (Clause ℝ)} {n layers shots maxSteps : ℕ} {a : AlternatingAnsatz ℝ} {angles : LayerAngles ℝ}

section Means

theorem states_nonempty (n : ℕ) : (Finset.range (2 ^ n)).Nonempty := Finset.nonempty_range_iff.2 (Nat.two_pow_pos n).ne'

def leastCost (a : AlternatingAnsatz ℝ) : ℝ := (Finset.range (2 ^ a.variableCount)).inf' (states_nonempty _) a.cost

def greatestCost (a : AlternatingAnsatz ℝ) : ℝ := (Finset.range (2 ^ a.variableCount)).sup' (states_nonempty _) a.cost

theorem cost_mem {z : ℕ} (hz : z < 2 ^ a.variableCount) : a.cost z ∈ Set.Icc a.leastCost a.greatestCost :=
  ⟨Finset.inf'_le _ (Finset.mem_range.2 hz), Finset.le_sup' _ (Finset.mem_range.2 hz)⟩

theorem leastCost_eq {z : ℕ} (hz : z < 2 ^ a.variableCount) (h : ∀ y < 2 ^ a.variableCount, a.cost z ≤ a.cost y) :
    a.leastCost = a.cost z :=
  le_antisymm (cost_mem hz).1 (Finset.le_inf' _ _ fun y hy => h y (Finset.mem_range.1 hy))

theorem greatestCost_eq {z : ℕ} (hz : z < 2 ^ a.variableCount) (h : ∀ y < 2 ^ a.variableCount, a.cost y ≤ a.cost z) :
    a.greatestCost = a.cost z :=
  le_antisymm (Finset.sup'_le _ _ fun y hy => h y (Finset.mem_range.1 hy)) (cost_mem hz).2

theorem mean_mem {ι : Type} {list : List ι} {weight : ι → ℝ} {state : ι → ℕ} (hweight : ∀ i ∈ list, 0 ≤ weight i)
    (hone : (list.map weight).sum = 1) (hstate : ∀ i ∈ list, state i < 2 ^ a.variableCount) :
    (list.map fun i => weight i * a.cost (state i)).sum ∈ Set.Icc a.leastCost a.greatestCost := by
  have hconst (x : ℝ) : (list.map fun i => weight i * x).sum = x := by rw [List.sum_map_mul_right, hone, one_mul]
  constructor
  · rw [← hconst a.leastCost]
    exact List.sum_le_sum fun i hi => mul_le_mul_of_nonneg_left (cost_mem (hstate i hi)).1 (hweight i hi)
  · rw [← hconst a.greatestCost]
    exact List.sum_le_sum fun i hi => mul_le_mul_of_nonneg_left (cost_mem (hstate i hi)).2 (hweight i hi)

theorem mean_probabilities_mem {t : State ℝ} (ht : t.IsNormalised a.variableCount) :
    Scalar.sum (t.probabilities.zipIdx.map fun (p, z) => p * a.cost z) ∈ Set.Icc a.leastCost a.greatestCost := by
  rw [Scalar.sum_real]
  refine mean_mem (fun e he => ?_) ?_ fun e he => ?_
  · exact t.probabilities_nonneg e.1 (List.fst_mem_of_mem_zipIdx he)
  · exact (congrArg List.sum (List.zipIdx_map_fst 0 _)).trans ht.sum_probabilities
  · have hlt := List.snd_lt_of_mem_zipIdx he
    rwa [Nat.add_zero, State.length_probabilities, ht.qubits] at hlt

theorem mean_counts_mem {counts : Histogram} (hpos : 0 < shots) (htotal : counts.total = shots)
    (hbelow : ∀ e ∈ counts.entries, e.1 < 2 ^ a.variableCount) :
    Scalar.sum (counts.entries.map fun (z, count) => a.cost z * ((count : ℕ) : ℝ) / ((shots : ℕ) : ℝ)) ∈
      Set.Icc a.leastCost a.greatestCost := by
  subst htotal
  have hshare (e : ℕ × ℕ) : a.cost e.1 * (e.2 : ℝ) / (counts.total : ℝ) = (e.2 : ℝ) / (counts.total : ℝ) * a.cost e.1 := by
    rw [mul_comm, mul_div_right_comm]
  rw [Scalar.sum_real, List.map_congr_left fun e _ => hshare e]
  exact mean_mem (fun e _ => by positivity) (counts.sum_shares hpos) hbelow

theorem costs_tension : (assembled tension 2 1 100 10).leastCost = -1 ∧ (assembled tension 2 1 100 10).greatestCost = 1 := by
  have hcost : ∀ z < 2 ^ 2, (assembled tension 2 1 100 10).cost z = if z = 2 then 1 else if z = 3 then -1 else 0 := by
    intro z hz
    have hsum (weights : List ℝ) : Scalar.sum weights = weights.sum := Scalar.sum_real weights
    interval_cases z
    · exact hsum []
    · exact hsum []
    · exact (hsum [1]).trans (by norm_num)
    · exact (hsum [1, -Scalar.two]).trans (by norm_num [Scalar.two_real])
  have hthree : (assembled tension 2 1 100 10).cost 3 = -1 := hcost 3 (by decide)
  have htwo : (assembled tension 2 1 100 10).cost 2 = 1 := hcost 2 (by decide)
  refine ⟨(leastCost_eq (by decide) fun z hz => ?_).trans hthree, (greatestCost_eq (by decide) fun z hz => ?_).trans htwo⟩
  · rw [hthree]
    refine le_of_le_of_eq ?_ (hcost z hz).symm
    split_ifs <;> norm_num
  · rw [htwo]
    refine (hcost z hz).trans_le ?_
    split_ifs <;> norm_num

end Means

section Final

theorem madeOf_numbered (hn : 0 < a.variableCount) (angles : LayerAngles ℝ) :
    (a.numbered angles).MadeOf fun g => g.IsNumeric ∧ ¬ g.ReadsSpectrum := by
  have hshape := shaped_costMatrix a.clauses a.variableCount
  refine Circuit.madeOf_single hn fun s hs => ?_
  rcases List.mem_append.1 hs with hs | hs
  · obtain ⟨w, hw, rfl⟩ := List.mem_map.1 hs
    exact ⟨selects_singleton (List.mem_range.1 hw), .primitive trivial ⟨trivial, id⟩⟩
  · obtain ⟨p, hp, hs⟩ := List.mem_flatMap.1 hs
    refine ⟨fits_layerSteps hshape _ _ s hs, ?_⟩
    obtain ⟨⟨γ, β⟩, _, rfl⟩ := List.mem_map.1 hp
    rcases List.mem_cons.1 hs with rfl | hs
    -- The cost is diagonal, so that no spectrum is asked for.
    · have hdiagonal : (costMatrix a.clauses a.variableCount).isDiagonal = true := DenseMatrix.isDiagonal_diagonal _
      exact .primitive (isHamiltonian_costMatrix a.clauses hn) ⟨rfl, ne_false_of_eq_true hdiagonal⟩
    · obtain ⟨w, _, rfl⟩ := List.mem_map.1 hs
      exact .primitive trivial ⟨rfl, id⟩

variable [EigenSolver ℝ]

def finalMap (a : AlternatingAnsatz ℝ) (angles : LayerAngles ℝ) : Operator a.variableCount :=
  @Circuit.meaning EigenSolver.spectral (a.numbered angles)

theorem applies_numbered (hn : 0 < a.variableCount) (angles : LayerAngles ℝ) :
    (a.numbered angles).Applies (a.finalMap angles) := by
  have hmade := madeOf_numbered hn angles
  have hexact := (hmade.mono fun _ => And.left : (a.numbered angles).MadeOf Gate.IsNumeric).isExact
  exact Circuit.WellFormed.applies_of_spectral hmade.wellFormed hexact (fun g hg => (hmade.gates false g hg).2) rfl

theorem exists_final (hn : 0 < a.variableCount) (angles : LayerAngles ℝ) :
    ∃ t, (a.numbered angles).statevector (.zero a.variableCount) = .ok t ∧ t.IsNormalised a.variableCount := by
  have hnumeric : (a.numbered angles).MadeOf Gate.IsNumeric := (madeOf_numbered hn angles).mono fun _ => And.left
  have hunitary : a.finalMap angles ∈ unitaryGroup (Fin (2 ^ a.variableCount)) ℂ :=
    @Operation.MadeOf.meaning_mem_unitary EigenSolver.spectral EigenSolver.orthonormalSpectra_spectral _ hnumeric
  refine ⟨_, applies_numbered hn angles _ rfl, rfl, ?_⟩
  rw [State.vector_ofVector, mass_mulVec hunitary, (State.isNormalised_zero _).mass]

theorem exactExpectation_of_final {t : State ℝ} (hbind : a.bind angles = .ok (a.numbered angles))
    (hfinal : (a.numbered angles).statevector (.zero a.variableCount) = .ok t) :
    a.exactExpectation angles = .ok (Scalar.sum (t.probabilities.zipIdx.map fun (p, z) => p * a.cost z)) := by
  rw [exactExpectation, hbind]
  exact bind_eq_ok_iff.2 ⟨_, rfl, bind_eq_ok_iff.2 ⟨t, hfinal, rfl⟩⟩

end Final

/-- Whatever the weights and the angles are, the expected cost of the final state lies between the least and the
greatest cost of a basis state, and so does the mean cost over any positive number of measurements. -/
theorem expectations_mem_Icc [EigenSolver ℝ] (ha : ofClauses clauses layers shots maxSteps = .ok a)
    (hangles : HasLayers layers angles) :
    (∃ x, a.exactExpectation angles = .ok x ∧ x ∈ Set.Icc a.leastCost a.greatestCost) ∧
    (1 ≤ shots → ∀ source : DrawSource ℝ, ∃ y rest,
      (a.sampledExpectation angles).run.run source = (.ok y, rest) ∧ y ∈ Set.Icc a.leastCost a.greatestCost) := by
  obtain ⟨n, hn, _, _, rfl⟩ := ofClauses_eq_ok_iff.1 ha
  have hbind := bind_of_hasLayers (a := assembled clauses n layers shots maxSteps) hangles rfl
  obtain ⟨t, hfinal, ht⟩ := exists_final (a := assembled clauses n layers shots maxSteps) hn angles
  refine ⟨⟨_, ?_, mean_probabilities_mem ht⟩, fun hshots source => ?_⟩
  · rw [exactExpectation, hbind]
    exact bind_eq_ok_iff.2 ⟨_, rfl, bind_eq_ok_iff.2 ⟨t, hfinal, rfl⟩⟩
  · have hpure := (madeOf_numbered (a := assembled clauses n layers shots maxSteps) hn angles).mono fun _ h =>
      Gate.IsNumeric.isPure h.1
    obtain ⟨counts, rest, hrun, htotal, hbelow⟩ := Circuit.exists_counts hpure hfinal ht none shots source
    refine ⟨_, rest, ?_, mean_counts_mem hshots htotal hbelow⟩
    have hmeasure : ((assembled clauses n layers shots maxSteps).measure angles shots).run.run source = (.ok counts, rest) :=
      (run_bind (run_liftM hbind)).trans hrun
    exact run_bind hmeasure

attribute [local instance] EigenSolver.spectral in
theorem expectations_mem_Icc_tension : ∃ a, ofClauses tension 1 100 10 = .ok a ∧
    (∃ x, a.exactExpectation ⟨[1], [3]⟩ = .ok x ∧ x ∈ Set.Icc (-1) 1) ∧
    ∀ source : DrawSource ℝ, ∃ y rest,
      (a.sampledExpectation ⟨[1], [3]⟩).run.run source = (.ok y, rest) ∧ y ∈ Set.Icc (-1) 1 := by
  obtain ⟨hexact, hsampled⟩ := expectations_mem_Icc ofClauses_tension (show HasLayers 1 ⟨[1], [3]⟩ from ⟨rfl, rfl⟩)
  rw [costs_tension.1, costs_tension.2] at hexact
  rw [costs_tension.1, costs_tension.2] at hsampled
  exact ⟨_, ofClauses_tension, hexact, hsampled (by decide)⟩

end QuantumCircuits.AlternatingAnsatz
end
