import Mathlib
import QuantumCircuits.Proofs.Random.Accounting
import QuantumCircuits.Proofs.Random.WeightedChoice
import QuantumCircuits.Proofs.Simulation.Assembly
import QuantumCircuits.Proofs.Simulation.ExactRuns
import QuantumCircuits.Proofs.Simulation.Histogram
import QuantumCircuits.Proofs.Simulation.Resets

/-! Repeated measurements. Every shot takes a draw for the measurement and one for each instruction that is
random, also where the circuit is evolved only once, so shots that go on from others can be counted with
them. -/

namespace QuantumCircuits

variable {R : Type}

namespace Instruction

def isMarker : Instruction R → Bool
  | .noise _ => true
  | _ => false

def isReset : Instruction R → Bool
  | .reset _ => true
  | _ => false

theorem countP_isRandom (channel : Option (PauliChannel R)) (is : List (Instruction R)) : is.countP (isRandom channel) =
    is.countP isReset + if channel.isSome then is.countP isMarker else 0 := by
  induction is with
  | nil => rw [List.countP_nil, List.countP_nil, List.countP_nil, ite_self]
  | cons i is ih =>
    rw [List.countP_cons, List.countP_cons, List.countP_cons, ih]
    cases i <;> cases channel <;> simp [isRandom, isReset, isMarker, Nat.add_assoc, Nat.add_comm 1]

theorem not_isRandom_of_isGate {channel : Option (PauliChannel R)} {is : List (Instruction R)} (h : ∀ i ∈ is, i.IsGate) :
    ¬ is.any (isRandom channel) = true := by
  rw [List.any_eq_true]
  rintro ⟨i, hi, hrandom⟩
  have hgate := h i hi
  cases i with
  | gate p => cases hrandom
  | noise w => exact hgate
  | reset w => exact hgate

end Instruction

variable [Scalar R]

namespace State

theorem length_probabilities (s : State R) : s.probabilities.length = 2 ^ s.qubits := by
  rw [probabilities, List.length_map]
  exact s.amplitudes.length_toList

theorem qubits_reset {s t : State R} {w : ℕ} {draw : R} (h : s.reset w draw = .ok t) : t.qubits = s.qubits := by
  unfold reset at h
  rcases ite_eq_iff.1 h with ⟨_, h⟩ | ⟨_, h⟩
  · cases h
  · cases h
    split <;> rfl

theorem measurement_eq_ok_iff {s : State R} {choice : WeightedChoice R} :
    s.measurement = .ok choice ↔ WeightedChoice.ofWeights s.probabilities = .ok choice := by
  unfold measurement
  cases WeightedChoice.ofWeights s.probabilities with
  | ok result =>
    constructor
    · rintro ⟨⟩
      rfl
    · rintro ⟨⟩
      rfl
  | error fault => exact ⟨nofun, nofun⟩

theorem takes_sample {s : State R} {choice : WeightedChoice R} (h : s.measurement = .ok choice) :
    choice.sample.Takes 1 (· < 2 ^ s.qubits) := by
  have hsize : choice.bounds.size + 1 = 2 ^ s.qubits := by
    rw [WeightedChoice.size_ofWeights (measurement_eq_ok_iff.1 h), length_probabilities]
  refine Sampler.takes_drawFraction.bind fun u _ => Sampler.takes_pure ?_
  exact hsize ▸ Nat.lt_succ_of_le (choice.index_le u)

end State

namespace Instruction

variable {channel : Option (PauliChannel R)}

theorem takes_randomStep (i : Instruction R) (s : State R) :
    (randomStep channel s i).Takes (if i.isRandom channel then 1 else 0) fun t => t.qubits = s.qubits := by
  cases i with
  | gate p => exact Sampler.takes_pure rfl
  | noise w =>
    cases channel with
    | none => exact Sampler.takes_pure rfl
    | some channel =>
      have herror : channel.sampleError.Takes 1 fun _ => True :=
        Sampler.takes_drawUnit.bind fun _ _ => Sampler.takes_pure trivial
      refine herror.bind (n := 0) fun error _ => ?_
      cases error <;> exact Sampler.takes_pure rfl
  | reset w =>
    exact Sampler.takes_drawUnit.bind fun draw _ => Sampler.takes_liftM fun t ht => State.qubits_reset ht

theorem takes_run (is : List (Instruction R)) (s : State R) :
    (run channel is s).Takes (is.countP (isRandom channel)) fun t => t.qubits = s.qubits := by
  induction is generalizing s with
  | nil => exact Sampler.takes_pure rfl
  | cons i is ih =>
    rw [run, List.foldlM_cons, List.countP_cons, Nat.add_comm]
    exact (takes_randomStep i s).bind fun t ht => ht ▸ ih t

theorem exists_run_eq_pure {is : List (Instruction R)} (h : is.any (isRandom channel) = false) (s : State R) :
    ∃ t, run channel is s = pure t := by
  induction is generalizing s with
  | nil => exact ⟨s, rfl⟩
  | cons i is ih =>
    rw [List.any_cons, Bool.or_eq_false_iff] at h
    obtain ⟨hi, his⟩ := h
    cases i with
    | gate p => exact ih his (p.apply s)
    | noise w =>
      cases channel with
      | none => exact ih his s
      | some channel => cases hi
    | reset w => cases hi

end Instruction

namespace Circuit

variable {channel : Option (PauliChannel R)} {s : State R}

def shot (channel : Option (PauliChannel R)) (is : List (Instruction R)) (s : State R) : Sampler R ℕ := do
  let final ← Instruction.run channel is s
  let choice ← liftM final.measurement
  choice.sample

theorem takes_shot (is : List (Instruction R)) (s : State R) :
    (shot channel is s).Takes (is.countP (Instruction.isRandom channel) + 1) (· < 2 ^ s.qubits) := by
  refine (Instruction.takes_run is s).bind fun final hfinal => ?_
  have hmeasured : (liftM final.measurement : Sampler R (WeightedChoice R)).Takes 0 fun choice =>
      final.measurement = .ok choice := Sampler.takes_liftM fun _ => id
  have hsample := hmeasured.bind fun choice hchoice => State.takes_sample hchoice
  rwa [Nat.zero_add, hfinal] at hsample

variable [EigenSolver R] {c : Circuit R} {source rest : DrawSource R} {h : Histogram} {n : ℕ}

section Shot

variable {is : List (Instruction R)}

theorem sample_of_random (hprepare : c.prepare s = .ok is) (hrandom : is.any (Instruction.isRandom channel) = true) (m : ℕ) :
    c.sample channel s m =
      (shot channel is s).times m [] >>= fun outcomes => pure (.ofOccurrences c.wires (outcomes.map (·, 1))) := by
  unfold sample
  rw [hprepare]
  exact (Sampler.liftM_ok_bind is _).trans (if_pos hrandom)

theorem sample_of_exact (hprepare : c.prepare s = .ok is) (hexact : ¬ is.any (Instruction.isRandom channel) = true) (m : ℕ) :
    c.sample channel s m = Instruction.run channel is s >>= fun final => liftM final.measurement >>= fun choice =>
      choice.sample.times m [] >>= fun outcomes => pure (.ofOccurrences c.wires (outcomes.map (·, 1))) := by
  unfold sample
  rw [hprepare]
  exact (Sampler.liftM_ok_bind is _).trans (if_neg hexact)

end Shot

theorem sample_eq_shots (hrun : (c.sample channel s n).run.run source = (.ok h, rest)) :
    ∃ is, Instruction.ofCircuit c = .ok is ∧ s.qubits = c.wires ∧ ∀ m, c.sample channel s m =
      (shot channel is s).times m [] >>= fun outcomes => pure (.ofOccurrences c.wires (outcomes.map (·, 1))) := by
  have hsample := hrun
  unfold sample at hsample
  obtain ⟨is, _, hlift, _⟩ := run_bind_eq_ok_iff.1 hsample
  obtain ⟨hprepare, _⟩ := run_liftM_eq_ok_iff.1 hlift
  obtain ⟨hqubits, hlower⟩ := prepare_eq_ok_iff.1 hprepare
  refine ⟨is, hlower, hqubits, ?_⟩
  by_cases hrandom : is.any (Instruction.isRandom channel) = true
  · exact sample_of_random hprepare hrandom
  · -- The one final state and its distribution do not depend on the source.
    obtain ⟨final, hfinal⟩ := Instruction.exists_run_eq_pure (Bool.eq_false_iff.2 hrandom) s
    rw [sample_of_exact hprepare hrandom, hfinal, pure_bind] at hrun
    obtain ⟨choice, _, hlift, _⟩ := run_bind_eq_ok_iff.1 hrun
    obtain ⟨hchoice, _⟩ := run_liftM_eq_ok_iff.1 hlift
    have hshot : shot channel is s = choice.sample := by
      rw [shot, hfinal, pure_bind, hchoice]
      exact Sampler.liftM_ok_bind choice _
    intro m
    rw [sample_of_exact hprepare hrandom, hfinal, pure_bind, hchoice, hshot]
    exact Sampler.liftM_ok_bind choice _

theorem exists_shot (hrun : (c.sample channel s n).run.run source = (.ok h, rest)) :
    ∃ is, Instruction.ofCircuit c = .ok is ∧ ∃ draw : Sampler R ℕ,
      draw.Takes (is.countP (Instruction.isRandom channel) + 1) (· < 2 ^ c.wires) ∧
        ∀ m, c.sample channel s m =
          draw.times m [] >>= fun outcomes => pure (.ofOccurrences c.wires (outcomes.map (·, 1))) := by
  obtain ⟨is, hlower, hqubits, hsample⟩ := sample_eq_shots hrun
  exact ⟨is, hlower, shot channel is s, hqubits ▸ takes_shot is s, hsample⟩

/-- Shots that go on from where others stopped count together with them. -/
theorem sample_add {a b : ℕ} (hrun : (c.sample channel s (a + b)).run.run source = (.ok h, rest)) :
    ∃ is, Instruction.ofCircuit c = .ok is ∧
      (∃ first second middle, (c.sample channel s a).run.run source = (.ok first, middle) ∧
        (c.sample channel s b).run.run middle = (.ok second, rest) ∧ ∀ i, h.get i = first.get i + second.get i) ∧
      h.total = a + b ∧ (∀ e ∈ h.entries, e.1 < 2 ^ c.wires) ∧
      rest = source.advance ((a + b) *
        (1 + is.countP Instruction.isReset + if channel.isSome then is.countP Instruction.isMarker else 0)) := by
  obtain ⟨is, hlower, draw, hdraw, hsample⟩ := exists_shot hrun
  have hmany := hdraw.times (a + b) (List.forall_mem_nil _)
  rw [hsample] at hrun
  obtain ⟨outcomes, _, hall, hpure⟩ := run_bind_eq_ok_iff.1 hrun
  obtain ⟨rfl, rfl⟩ := run_pure_eq_ok_iff.1 hpure
  obtain ⟨hrest, hlength, hbelow⟩ := hmany _ _ _ hall
  obtain ⟨earlier, later, middle, hearlier, hlater, rfl⟩ := Sampler.run_times_add_eq_ok_iff.1 hall
  refine ⟨is, hlower, ⟨.ofOccurrences c.wires (earlier.map (·, 1)), .ofOccurrences c.wires (later.map (·, 1)), middle,
    ?_, ?_, fun i => ?_⟩, ?_, fun e he => ?_, ?_⟩
  · rw [hsample]
    exact run_bind_eq_ok_iff.2 ⟨earlier, middle, hearlier, rfl⟩
  · rw [hsample]
    exact run_bind_eq_ok_iff.2 ⟨later, _, hlater, rfl⟩
  · rw [Histogram.get_ofOccurrences, Histogram.get_ofOccurrences, Histogram.get_ofOccurrences, List.map_append,
      Histogram.occurrencesOf_append, Nat.add_comm]
  · rw [Histogram.total_ofOccurrences, Histogram.occurrences_once, hlength, List.length_nil, Nat.add_zero]
  · obtain ⟨o, ho, hsame⟩ := Histogram.mem_ofOccurrences _ _ he
    obtain ⟨x, hx, rfl⟩ := List.mem_map.1 ho
    exact hsame ▸ hbelow x hx
  · rw [hrest, Instruction.countP_isRandom, Nat.add_comm _ 1, Nat.add_assoc]

end Circuit

noncomputable section
open Matrix Operator

theorem State.probabilities_nonneg (s : State ℝ) : ∀ p ∈ s.probabilities, 0 ≤ p := by
  intro p hp
  obtain ⟨a, _, rfl⟩ := List.mem_map.1 hp
  rw [← Cx.normSq_toComplex]
  exact Complex.normSq_nonneg _

theorem State.IsNormalised.sum_probabilities {s : State ℝ} {n : ℕ} (h : s.IsNormalised n) : s.probabilities.sum = 1 := by
  obtain ⟨rfl, hmass⟩ := h
  have hrange := Fin.sum_univ_eq_sum_range (fun i => Complex.normSq (s.amp i).toComplex) (2 ^ s.qubits)
  rw [probabilities, toList_eq, List.map_map]
  refine (congrArg List.sum (List.map_congr_left fun i _ => ?_)).trans (hrange.symm.trans hmass)
  exact (Cx.normSq_toComplex _).symm

theorem State.IsNormalised.exists_measurement {s : State ℝ} {n : ℕ} (h : s.IsNormalised n) :
    ∃ choice, s.measurement = .ok choice := by
  obtain ⟨choice, hchoice⟩ := WeightedChoice.exists_ofWeights s.probabilities_nonneg (h.sum_probabilities ▸ one_pos)
  exact ⟨choice, measurement_eq_ok_iff.2 hchoice⟩

section Draws

variable {source : DrawSource ℝ} {n : ℕ} {is : List (Instruction ℝ)} {s t : State ℝ}

theorem Circuit.exists_shots (hs : s.IsNormalised n) (hfits : ∀ i ∈ is, i.Fits n) (hunitary : ∀ i ∈ is, i.HoldsUnitary)
    (channel : Option (PauliChannel ℝ)) (shots : ℕ) (hsource : source.InUnit) : ∃ results,
      ((shot channel is s).times shots []).run.run source =
        (.ok results, source.advance (shots * (is.countP (Instruction.isRandom channel) + 1))) := by
  refine Sampler.exists_times (fun source hsource => ?_) (fun source hsource => hsource.advance _) hsource shots []
  have hfinal : (Instruction.trajectory channel is s hsource.draws).IsNormalised n :=
    Instruction.isNormalised_trajectory hs hfits hunitary _
  obtain ⟨choice, hchoice⟩ := hfinal.exists_measurement
  refine ⟨choice.index (source.fraction (source.used + is.countP (Instruction.isRandom channel))), ?_⟩
  rw [shot, run_bind (Instruction.run_eq_trajectory is s hsource), run_bind (run_liftM hchoice)]
  rfl

theorem Circuit.exists_counts [EigenSolver ℝ] {c : Circuit ℝ} (h : c.MadeOf Gate.IsPure)
    (hexact : c.statevector s = .ok t) (ht : t.IsNormalised n) (channel : Option (PauliChannel ℝ)) (shots : ℕ)
    (source : DrawSource ℝ) : ∃ counts rest, (c.sample channel s shots).run.run source = (.ok counts, rest) ∧
      counts.total = shots ∧ ∀ e ∈ counts.entries, e.1 < 2 ^ n := by
  obtain ⟨is, hprepare, hsteps⟩ := bind_eq_ok_iff.1 hexact
  obtain ⟨_, hlower⟩ := prepare_eq_ok_iff.1 hprepare
  have hgates := Instruction.isGate_ofOperation (h.gates false) hlower
  obtain ⟨choice, hchoice⟩ := ht.exists_measurement
  obtain ⟨outcomes, houtcomes⟩ : ∃ outcomes, (choice.sample.times shots []).run.run source =
      (.ok outcomes, source.advance (shots * 1)) :=
    Sampler.exists_times (S := fun _ => True) (fun source _ => ⟨choice.index (source.fraction source.used), rfl⟩)
      (fun _ _ => trivial) trivial shots []
  obtain ⟨_, hlength, hbelow⟩ := (State.takes_sample hchoice).times shots (List.forall_mem_nil _) _ _ _ houtcomes
  refine ⟨.ofOccurrences c.wires (outcomes.map (·, 1)), source.advance (shots * 1), ?_, ?_, fun e he => ?_⟩
  · rw [sample_of_exact hprepare (Instruction.not_isRandom_of_isGate hgates), Instruction.run_of_isGate hgates hsteps,
      pure_bind, hchoice, Sampler.liftM_ok_bind, run_bind houtcomes]
    rfl
  · rw [Histogram.total_once, hlength, List.length_nil, Nat.add_zero]
  · exact ht.qubits ▸ hbelow e.1 (Histogram.mem_once _ he)

end Draws

attribute [local instance] EigenSolver.spectral in
theorem Circuit.sample_add_noisy :
    Instruction.ofCircuit Circuit.noisy = .ok Instruction.noisy ∧
    Instruction.noisy.countP (Instruction.isRandom (some .quarter)) = 4 ∧
    ∀ ω : ℕ → Draw, ∃ h first second middle,
      (Circuit.noisy.sample (some .quarter) (.zero 2) (1 + 2)).run.run (.ofDraws ω 0) = (.ok h, .ofDraws ω 15) ∧
      (Circuit.noisy.sample (some .quarter) (.zero 2) 1).run.run (.ofDraws ω 0) = (.ok first, middle) ∧
      (Circuit.noisy.sample (some .quarter) (.zero 2) 2).run.run middle = (.ok second, .ofDraws ω 15) ∧
      (∀ i, h.get i = first.get i + second.get i) ∧ h.total = 3 ∧ ∀ e ∈ h.entries, e.1 < 2 ^ 2 := by
  have := EigenSolver.orthonormalSpectra_spectral
  have hlower : Instruction.ofCircuit Circuit.noisy = .ok Instruction.noisy := rfl
  refine ⟨hlower, rfl, fun ω => ?_⟩
  have hfits := Instruction.fits_ofCircuit noisy_built.wellFormed hlower
  have hunitary := Instruction.holdsUnitary_ofOperation noisy_built.wellFormed action_noisy hlower
  have hprepare : Circuit.noisy.prepare (.zero 2) = .ok Instruction.noisy := prepare_eq_ok_iff.2 ⟨rfl, hlower⟩
  obtain ⟨results, hresults⟩ :=
    exists_shots (State.isNormalised_zero 2) hfits hunitary (some .quarter) (1 + 2) (DrawSource.inUnit_ofDraws ω 0)
  have hrun : (Circuit.noisy.sample (some .quarter) (.zero 2) (1 + 2)).run.run (.ofDraws ω 0) =
      (.ok (.ofOccurrences 2 (results.map (·, 1))), .ofDraws ω 15) := by
    rw [sample_of_random hprepare rfl, run_bind hresults]
    rfl
  obtain ⟨is, his, ⟨first, second, middle, hfirst, hsecond, hget⟩, htotal, hbelow, _⟩ := sample_add hrun
  exact ⟨_, first, second, middle, hrun, hfirst, hsecond, hget, htotal, hbelow⟩

end
end QuantumCircuits
