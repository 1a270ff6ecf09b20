import Mathlib
import QuantumCircuits.Proofs.Simulation.Shots

/-! What shots record. Each shot measures the state that its run ends in, with one further draw, and records the
index that the draw selects from the probabilities of this state. -/

namespace QuantumCircuits

noncomputable section

namespace State

variable {s : State ℝ} {choice : WeightedChoice ℝ}

theorem covers_of_index (h : s.measurement = .ok choice) {u : ℝ} {k : ℕ} (hk : k = choice.index u)
    (hu : u ∈ Set.Ico 0 1) : WeightedChoice.Covers s.probabilities (u * s.probabilities.sum) k := by
  obtain ⟨hsums, hpos⟩ := WeightedChoice.sums_ofWeights (measurement_eq_ok_iff.1 h)
  exact hk ▸ hsums.covers_index hpos hu

theorem uniform_index (h : s.measurement = .ok choice) (k : ℕ) :
    Draw.uniform.real {u : Draw | choice.index u = k} = s.probabilities.getD k 0 / s.probabilities.sum := by
  obtain ⟨hsums, hpos⟩ := WeightedChoice.sums_ofWeights (measurement_eq_ok_iff.1 h)
  exact hsums.uniform_index hpos k

end State

namespace Circuit

variable {channel : Option (PauliChannel ℝ)} {s : State ℝ} {source rest : DrawSource ℝ}

theorem run_shot_eq_ok {is : List (Instruction ℝ)} {k : ℕ} (h : (shot channel is s).run.run source = (.ok k, rest)) :
    ∃ final choice, (Instruction.run channel is s).run.run source =
        (.ok final, source.advance (is.countP (Instruction.isRandom channel))) ∧
      final.measurement = .ok choice ∧
      k = choice.index (source.fraction (source.used + is.countP (Instruction.isRandom channel))) := by
  obtain ⟨final, middle, hrun, hmeasured⟩ := run_bind_eq_ok_iff.1 h
  obtain ⟨choice, _, hlift, hdrawn⟩ := run_bind_eq_ok_iff.1 hmeasured
  obtain ⟨hchoice, rfl⟩ := run_liftM_eq_ok_iff.1 hlift
  obtain ⟨rfl, _⟩ := Instruction.takes_run is s _ _ _ hrun
  cases hdrawn
  exact ⟨final, choice, hrun, hchoice, rfl⟩

variable [EigenSolver ℝ] {c : Circuit ℝ} {h : Histogram} {n : ℕ}

/-- Where a number of shots succeeds, the histogram counts an outcome of each shot. The shot runs from where the
one before it stopped, and its outcome is the index that the point of the next draw falls on among the
probabilities of the state in which the run ends. So the outcome has a positive probability, and the draws that
select an index make up the share of its probability. -/
theorem sample_records (hsource : ∀ k, source.fraction k ∈ Set.Ico (0 : ℝ) 1)
    (hrun : (c.sample channel s n).run.run source = (.ok h, rest)) :
    ∃ is, Instruction.ofCircuit c = .ok is ∧ ∃ outcome : ℕ → ℕ,
      (∀ i, h.get i = ((List.range n).map outcome).count i) ∧
      ∀ j < n, ∃ start final choice u,
        start = source.advance (j * (is.countP (Instruction.isRandom channel) + 1)) ∧
        (Instruction.run channel is s).run.run start =
          (.ok final, start.advance (is.countP (Instruction.isRandom channel))) ∧
        final.measurement = .ok choice ∧
        u = start.fraction (start.used + is.countP (Instruction.isRandom channel)) ∧ outcome j = choice.index u ∧
        (final.probabilities.take (outcome j)).sum ≤ u * final.probabilities.sum ∧
        u * final.probabilities.sum < (final.probabilities.take (outcome j + 1)).sum ∧
        0 < final.probabilities.getD (outcome j) 0 ∧
        ∀ k, Draw.uniform.real {v : Draw | choice.index v = k} =
          final.probabilities.getD k 0 / final.probabilities.sum := by
  obtain ⟨is, hlower, _, hsample⟩ := sample_eq_shots hrun
  rw [hsample] at hrun
  obtain ⟨outcomes, _, hall, hpure⟩ := run_bind_eq_ok_iff.1 hrun
  obtain ⟨rfl, rfl⟩ := run_pure_eq_ok_iff.1 hpure
  obtain ⟨outcome, rfl, houtcome⟩ := (takes_shot is s).exists_results hall
  refine ⟨is, hlower, outcome, fun i => ?_, fun j hj => ?_⟩
  · rw [Histogram.get_ofOccurrences, Histogram.occurrencesOf_once, List.count_reverse]
  · obtain ⟨final, choice, hfinal, hchoice, hindex⟩ := run_shot_eq_ok (houtcome j hj)
    have hcovers := State.covers_of_index hchoice hindex (hsource _)
    exact ⟨_, final, choice, _, rfl, hfinal, hchoice, rfl, hindex, hcovers.1, hcovers.2, hcovers.weight_pos,
      State.uniform_index hchoice⟩

end Circuit

attribute [local instance] EigenSolver.spectral in
theorem Circuit.sample_records_noisy :
    (∀ k, (DrawSource.seeded 7 : DrawSource ℝ).fraction k ∈ Set.Ico (0 : ℝ) 1) ∧ ∃ h rest outcome,
      (Circuit.noisy.sample (some .quarter) (.zero 2) 3).run.run (.seeded 7) = (.ok h, rest) ∧
      (∀ i, h.get i = ((List.range 3).map outcome).count i) ∧
      ∀ j < 3, ∃ start final choice u,
        start = (DrawSource.seeded 7).advance (j * 5) ∧
        (Instruction.run (some .quarter) Instruction.noisy (.zero 2)).run.run start = (.ok final, start.advance 4) ∧
        final.measurement = .ok choice ∧ u = start.fraction (start.used + 4) ∧ outcome j = choice.index u ∧
        (final.probabilities.take (outcome j)).sum ≤ u * final.probabilities.sum ∧
        u * final.probabilities.sum < (final.probabilities.take (outcome j + 1)).sum ∧
        0 < final.probabilities.getD (outcome j) 0 ∧
        ∀ k, Draw.uniform.real {v : Draw | choice.index v = k} =
          final.probabilities.getD k 0 / final.probabilities.sum := by
  have := EigenSolver.orthonormalSpectra_spectral
  have hsource : (DrawSource.seeded 7 : DrawSource ℝ).InUnit := DrawSource.inUnit_ofWords _
  have hlower : Instruction.ofCircuit Circuit.noisy = .ok Instruction.noisy := rfl
  have hfits := Instruction.fits_ofCircuit noisy_built.wellFormed hlower
  have hunitary := Instruction.holdsUnitary_ofOperation noisy_built.wellFormed action_noisy hlower
  have hprepare : Circuit.noisy.prepare (.zero 2) = .ok Instruction.noisy := prepare_eq_ok_iff.2 ⟨rfl, hlower⟩
  obtain ⟨results, hresults⟩ := exists_shots (State.isNormalised_zero 2) hfits hunitary (some .quarter) 3 hsource
  have hrun : (Circuit.noisy.sample (some .quarter) (.zero 2) 3).run.run (.seeded 7) =
      (.ok (.ofOccurrences 2 (results.map (·, 1))), DrawSource.advance (.seeded 7) 15) := by
    rw [sample_of_random hprepare rfl, run_bind hresults]
    rfl
  obtain ⟨is, his, outcome, hget, hshots⟩ := sample_records hsource.fraction hrun
  obtain rfl : is = Instruction.noisy := Except.ok.inj (his.symm.trans hlower)
  exact ⟨hsource.fraction, _, _, outcome, hrun, hget, hshots⟩

end
end QuantumCircuits
