import Mathlib
import QuantumCircuits.Proofs.Random.Accounting
import QuantumCircuits.Proofs.Simulation.LoweredGates
import QuantumCircuits.Proofs.Simulation.Outcomes
import QuantumCircuits.Proofs.Simulation.Unitarity

/-! Trajectories over independent uniform draws. The projector onto the final state is, on average, what
the instructions make of the projector onto the initial state. -/

namespace QuantumCircuits

noncomputable section
open Matrix QuantumCircuits.Basis Operator

namespace DrawSource

/-- At both precisions every draw lies in the unit interval, and none is one. -/
structure InUnit (source : DrawSource ℝ) : Prop where
  unit : ∀ k, source.unit k ∈ Set.Ico (0 : ℝ) 1
  fraction : ∀ k, source.fraction k ∈ Set.Ico (0 : ℝ) 1

theorem binaryPlaces_mem_unit (w : UInt64) {shift : UInt64} {places : ℕ} (h : places + shift.toNat = 64)
    (hplaces : 0 < places) : (((w >>> shift).toNat : ℕ) : ℝ) / Scalar.twoPow places ∈ Set.Ico (0 : ℝ) 1 := by
  have hbelow : (w >>> shift).toNat < 2 ^ places := by
    rw [UInt64.toNat_shiftRight, Nat.mod_eq_of_lt (by omega), Nat.shiftRight_eq_div_pow,
      Nat.div_lt_iff_lt_mul (by positivity), ← pow_add, h]
    exact w.toNat_lt
  have hpos : (0 : ℝ) < 2 ^ places := by positivity
  rw [Scalar.twoPow_real]
  exact ⟨by positivity, (div_lt_one hpos).2 (by exact_mod_cast hbelow)⟩

theorem inUnit_ofWords (word : ℕ → UInt64) : (ofWords word : DrawSource ℝ).InUnit where
  unit k := binaryPlaces_mem_unit (word k) rfl (by decide)
  fraction k := binaryPlaces_mem_unit (word k) rfl (by decide)

def ofDraws (ω : ℕ → Draw) (used : ℕ) : DrawSource ℝ := ⟨fun k => ω k, fun k => ω k, used⟩

theorem inUnit_ofDraws (ω : ℕ → Draw) (used : ℕ) : (ofDraws ω used).InUnit := ⟨fun k => (ω k).2, fun k => (ω k).2⟩

namespace InUnit

variable {source : DrawSource ℝ}

theorem advance (h : source.InUnit) (n : ℕ) : (source.advance n).InUnit := ⟨h.unit, h.fraction⟩

def draws (h : source.InUnit) (m : ℕ) : Draw := ⟨source.unit (source.used + m), h.unit _⟩

theorem draws_advance (h : source.InUnit) (n m : ℕ) : (h.advance n).draws m = h.draws (n + m) :=
  Subtype.ext (congrArg source.unit (Nat.add_assoc _ n m))

end InUnit
end DrawSource

namespace Instruction

def next (channel : Option (PauliChannel ℝ)) (s : State ℝ) (x : ℝ) : Instruction ℝ → State ℝ
  | .gate p => p.apply s
  | .noise w => s.afterError w (channel.bind fun channel => channel.error? x)
  | .reset w => s.afterReset w (decide (x < s.probabilityOfOne w))

def trajectory (channel : Option (PauliChannel ℝ)) : List (Instruction ℝ) → State ℝ → (ℕ → Draw) → State ℝ
  | [], s, _ => s
  | i :: is, s, ω =>
    trajectory channel is (i.next channel s (ω 0)) (if i.isRandom channel then fun k => ω (k + 1) else ω)

variable {n : ℕ} {channel : Option (PauliChannel ℝ)} {s : State ℝ} {i : Instruction ℝ} {is : List (Instruction ℝ)}

theorem isNormalised_next (h : s.IsNormalised n) (hfits : i.Fits n) (hunitary : i.HoldsUnitary) (x : Draw) :
    (i.next channel s x).IsNormalised n := by
  cases i with
  | gate p =>
    have hplaced := HoldsUnitary.placed_mem hunitary hfits
    refine ⟨h.qubits, ?_⟩
    rw [next, Placement.vector_apply hfits.selects_targets h.qubits, mass_mulVec hplaced, h.mass]
  | noise w =>
    cases channel with
    | none => exact h
    | some channel => exact h.afterError hfits (PauliChannel.error?_mem x)
  | reset w => exact h.afterReset hfits (h.mass_pos w x)

theorem run_randomStep (i : Instruction ℝ) (s : State ℝ) {source : DrawSource ℝ} (h : source.InUnit) :
    (randomStep channel s i).run.run source =
      (.ok (i.next channel s (h.draws 0)), source.advance (if i.isRandom channel then 1 else 0)) := by
  cases i with
  | gate p => rfl
  | noise w =>
    cases channel with
    | none => rfl
    | some channel =>
      have herror : channel.sampleError.run.run source = (.ok (channel.error? (h.draws 0)), source.advance 1) := rfl
      rw [randomStep, run_bind herror, next, Option.bind_some]
      cases channel.error? (h.draws 0) <;> rfl
  | reset w =>
    have hdraw : (Sampler.drawUnit : Sampler ℝ ℝ).run.run source = (.ok (h.draws 0).val, source.advance 1) := rfl
    rw [randomStep, run_bind hdraw]
    exact run_liftM (s.reset_eq w (h.draws 0))

theorem run_eq_trajectory (is : List (Instruction ℝ)) (s : State ℝ) {source : DrawSource ℝ} (h : source.InUnit) :
    (run channel is s).run.run source =
      (.ok (trajectory channel is s h.draws), source.advance (is.countP (isRandom channel))) := by
  induction is generalizing s source with
  | nil => rfl
  | cons i is ih =>
    have hrest := ih (i.next channel s (h.draws 0)) (h.advance (if i.isRandom channel then 1 else 0))
    rw [run, List.foldlM_cons, run_bind (run_randomStep i s h)]
    refine hrest.trans ?_
    rw [trajectory, List.countP_cons, DrawSource.advance_advance, Nat.add_comm (is.countP _), funext (h.draws_advance _)]
    by_cases hrandom : i.isRandom channel
    · simp only [if_pos hrandom, Nat.add_comm 1]
    · simp only [if_neg hrandom, Nat.zero_add]

theorem run_eq (is : List (Instruction ℝ)) (s : State ℝ) (ω : ℕ → Draw) (k : ℕ) :
    (run channel is s).run.run (.ofDraws ω k) =
      (.ok (trajectory channel is s fun m => ω (k + m)), .ofDraws ω (k + is.countP (isRandom channel))) :=
  run_eq_trajectory is s (DrawSource.inUnit_ofDraws ω k)

theorem isNormalised_trajectory (h : s.IsNormalised n) (hfits : ∀ i ∈ is, i.Fits n)
    (hunitary : ∀ i ∈ is, i.HoldsUnitary) (ω : ℕ → Draw) : (trajectory channel is s ω).IsNormalised n := by
  induction is generalizing s ω with
  | nil => exact h
  | cons i is ih =>
    obtain ⟨hfit, hfits⟩ := List.forall_mem_cons.1 hfits
    obtain ⟨hunit, hunitary⟩ := List.forall_mem_cons.1 hunitary
    exact ih (isNormalised_next h hfit hunit (ω 0)) hfits hunitary _

theorem density_sum {α : Type} (outcomes : Finset α) (weight : α → ℝ) (ρ : α → Operator n) (j k : Fin (2 ^ n)) :
    density channel is (∑ a ∈ outcomes, (weight a : ℂ) • ρ a) j k =
      ∑ a ∈ outcomes, weight a * density channel is (ρ a) j k := by
  let f : Operator n →ₗ[ℂ] Operator n := (isLinearMap_density channel is).mk' _
  have hsum : f (∑ a ∈ outcomes, (weight a : ℂ) • ρ a) = ∑ a ∈ outcomes, (weight a : ℂ) • f (ρ a) := by
    rw [map_sum]
    exact Finset.sum_congr rfl fun a _ => f.map_smul _ _
  have hentry := congrFun (congrFun hsum j) k
  rw [Matrix.sum_apply] at hentry
  exact hentry

theorem hasMean_trajectory (h : s.IsNormalised n) (hfits : ∀ i ∈ is, i.Fits n)
    (hunitary : ∀ i ∈ is, i.HoldsUnitary)
    (hchannel : ∀ c ∈ channel, 0 ≤ c.probability ∧ c.probability ≤ 1) (j k : Fin (2 ^ n)) :
    HasMean (fun ω => projector ((trajectory channel is s ω).vector n) j k)
      (density channel is (projector (s.vector n)) j k) := by
  induction is generalizing s with
  | nil => exact .const (projector (s.vector n) j k)
  | cons i is ih =>
    obtain ⟨hfit, hfits⟩ := List.forall_mem_cons.1 hfits
    obtain ⟨hunit, hunitary⟩ := List.forall_mem_cons.1 hunitary
    have hnormalised (x : Draw) : (i.next channel s x).IsNormalised n := isNormalised_next h hfit hunit x
    have hnext (x : Draw) := ih (hnormalised x) hfits hunitary
    cases i with
    | gate p =>
      have hmix : (Instruction.gate p).mix channel (projector (s.vector n)) = projector ((p.apply s).vector n) := by
        rw [Placement.vector_apply hfit.selects_targets h.qubits, ← conj_projector]
        rfl
      have hdensity : density channel (.gate p :: is) (projector (s.vector n)) = _ :=
        congrArg (density channel is) hmix
      rw [hdensity]
      exact hnext ⟨0, le_rfl, one_pos⟩
    | noise w =>
      cases channel with
      | none => exact hnext ⟨0, le_rfl, one_pos⟩
      | some channel =>
        obtain ⟨hnonneg, hone⟩ := hchannel channel rfl
        have hmix : density (some channel) (.noise w :: is) (projector (s.vector n)) j k =
            ∑ e ∈ PauliChannel.errors, ((channel.interval e).2 - (channel.interval e).1 : ℝ) *
              density (some channel) is (projector ((s.afterError w e).vector n)) j k := by
          rw [← density_sum]
          simp only [State.vector_afterError h.qubits hfit]
          exact congrArg (fun ρ => density (some channel) is ρ j k) (channel.mix_projector w (s.vector n))
        rw [hmix]
        exact @HasMean.select_interval _ (fun x => channel.error? x) _ _
          (fun e ω => projector ((trajectory (some channel) is (s.afterError w e) ω).vector n) j k) _
          (fun x => PauliChannel.error?_mem x) (fun e he x => PauliChannel.error?_eq_iff hnonneg x he)
          (fun e _ => PauliChannel.interval_bounds hnonneg hone e) hnext
    | reset w =>
      -- An outcome that no draw selects weighs nothing, so that the state behind it does not matter.
      have hmix : density channel (.reset w :: is) (projector (s.vector n)) j k =
          ∑ b : Bool, ((s.resetInterval w b).2 - (s.resetInterval w b).1 : ℝ) *
            density channel is (projector ((s.afterReset w b).vector n)) j k := by
        rw [← density_sum]
        simp only [State.vector_afterReset h hfit, h.length_resetInterval]
        exact congrArg (fun ρ => density channel is ρ j k) (mix_reset channel w (s.vector n))
      rw [hmix]
      exact @HasMean.select_interval _ (fun x => decide (x.val < s.probabilityOfOne w)) _ _
        (fun b ω => projector ((trajectory channel is (s.afterReset w b) ω).vector n) j k) _
        (fun _ => Finset.mem_univ _) (fun b _ x => s.outcome_eq_iff w x b)
        (fun b _ => h.resetInterval_bounds w b) hnext

end Instruction

theorem PauliChannel.ofProbability_eq_ok_iff [DecimalText ℝ] {kind : Kind} {p : ℝ} {channel : PauliChannel ℝ} :
    ofProbability kind p = .ok channel ↔ (0 ≤ p ∧ p ≤ 1) ∧ channel = ⟨kind, p⟩ := by
  unfold ofProbability
  split
  · next hinside => exact ⟨fun h => ⟨Scalar.inUnit_eq_true_iff.1 hinside, (Except.ok.inj h).symm⟩, fun h => h.2 ▸ rfl⟩
  · next houtside => exact ⟨nofun, fun h => absurd (Scalar.inUnit_eq_true_iff.2 h.1) houtside⟩

/-- Over independent uniform draws, one for each noise marker that has a channel and one for each reset,
a trajectory of a normalised state succeeds, and the projector onto its final state averages to what
the lowered instructions make of the projector onto the initial state. -/
theorem Circuit.average_run [EigenSolver ℝ] [SquareSpectra ℝ] [DecimalText ℝ] {c : Circuit ℝ} (hbuilt : c.Built)
    {is : List (Instruction ℝ)} (hlower : Instruction.ofCircuit c = .ok is)
    (hunitary : ∀ g ∈ (Operation.composite c).gates false, g.1.action ∈ unitaryGroup _ ℂ)
    {channel : Option (PauliChannel ℝ)}
    (hchannel : ∀ m ∈ channel, ∃ kind p, PauliChannel.ofProbability kind p = .ok m)
    {s : State ℝ} (hs : s.IsNormalised c.wires) :
    ∃ final : (ℕ → Draw) → State ℝ,
      (∀ ω, (c.run channel s).run.run (.ofDraws ω 0) =
        (.ok (final ω), .ofDraws ω (is.countP (Instruction.isRandom channel)))) ∧
      (∀ ω, (final ω).IsNormalised c.wires) ∧
      ∀ i j, HasMean (fun ω => projector ((final ω).vector c.wires) i j)
        (Instruction.density channel is (projector (s.vector c.wires)) i j) := by
  have hfits := Instruction.fits_ofCircuit hbuilt.wellFormed hlower
  have hplaced := Instruction.holdsUnitary_ofOperation hbuilt.wellFormed hunitary hlower
  have hprobability : ∀ m ∈ channel, 0 ≤ m.probability ∧ m.probability ≤ 1 := by
    intro m hm
    obtain ⟨kind, p, hp⟩ := hchannel m hm
    obtain ⟨hbounds, rfl⟩ := PauliChannel.ofProbability_eq_ok_iff.1 hp
    exact hbounds
  refine ⟨Instruction.trajectory channel is s, fun ω => ?_, Instruction.isNormalised_trajectory hs hfits hplaced,
    Instruction.hasMean_trajectory hs hfits hplaced hprobability⟩
  rw [run, run_bind (run_liftM (prepare_of_ofCircuit hlower hs.qubits)),
    Instruction.run_eq]
  simp only [Nat.zero_add]

def Session.noisy : List (Call ℝ) :=
  [.newCircuit "body", .addRegister 0 "q" 1, .gate 0 (.fixed .h) [0], .gate 0 .noise [0], .close 0, .power 0 2,
    .newCircuit "noisy", .addRegister 1 "r" 2, .append 1 1 [1], .gate 1 (.fixed .cx) [1, 0], .gate 1 .reset [1],
    .gate 1 .noise [0]]

def Circuit.noisy : Circuit ℝ :=
  ⟨"noisy", ⟨[⟨"r", 2, 0⟩], 2⟩, [⟨.powered (.composite ⟨"body", ⟨[⟨"q", 1, 0⟩], 1⟩,
    [.fixed .h [0], .gate .noise [0]]⟩) 2, [1]⟩, .fixed .cx [1, 0], .gate .reset [1], .gate .noise [0]]⟩

theorem Circuit.noisy_built : Circuit.noisy.Built := by
  have hget : (Session.run Session.noisy : Session ℝ).circuits[1]? = some .noisy := by cbv
  exact ⟨_, List.mem_of_getElem? hget⟩

def Instruction.noisy : List (Instruction ℝ) :=
  [.gate ⟨[], [1], FixedGate.h.matrix⟩, .noise 1, .gate ⟨[], [1], FixedGate.h.matrix⟩, .noise 1,
    .gate ⟨[(1, true)], [0], FixedGate.cx.matrix⟩, .reset 1, .noise 0]

attribute [local instance] EigenSolver.spectral in
theorem Circuit.action_noisy : ∀ g ∈ (Operation.composite Circuit.noisy).gates false, g.1.action ∈ unitaryGroup _ ℂ := by
  have := EigenSolver.orthonormalSpectra_spectral
  intro g hg
  have hcases : g ∈ [(Gate.fixed .h, false), (.noise, false), (.fixed .cx, false), (.reset, false), (.noise, false)] := hg
  refine Gate.action_mem_unitary ?_ ?_
  · fin_cases hcases <;> trivial
  · fin_cases hcases <;> exact nofun

def PauliChannel.quarter : PauliChannel ℝ := ⟨.depolarizing, 1 / ((4 : ℕ) : ℝ)⟩

@[reducible] def DecimalText.quarter : DecimalText ℝ := ⟨fun _ => "0.25", fun _ _ => "0.2500"⟩

attribute [local instance] DecimalText.quarter in
theorem PauliChannel.checked_quarter : ∀ m ∈ some quarter, ∃ kind p, ofProbability kind p = .ok m := by
  rintro m ⟨⟩
  exact ⟨.depolarizing, 1 / ((4 : ℕ) : ℝ), ofProbability_eq_ok_iff.2 ⟨by norm_num, rfl⟩⟩

attribute [local instance] EigenSolver.spectral DecimalText.quarter in
theorem Circuit.average_run_noisy :
    Circuit.noisy.Built ∧ Instruction.ofCircuit Circuit.noisy = .ok Instruction.noisy ∧
      (∀ g ∈ (Operation.composite Circuit.noisy).gates false, g.1.action ∈ unitaryGroup _ ℂ) ∧
      (∀ m ∈ some PauliChannel.quarter, ∃ kind p, PauliChannel.ofProbability kind p = .ok m) ∧
      (State.zero 2 : State ℝ).IsNormalised 2 ∧
      ∃ final : (ℕ → Draw) → State ℝ,
        (∀ ω, (Circuit.noisy.run (some .quarter) (.zero 2)).run.run (.ofDraws ω 0) =
          (.ok (final ω), .ofDraws ω 4)) ∧
        (∀ ω, (final ω).IsNormalised 2) ∧
        ∀ i j, HasMean (fun ω => projector ((final ω).vector 2) i j)
          (Instruction.density (some .quarter) Instruction.noisy (projector ((State.zero 2).vector 2)) i j) :=
  have := EigenSolver.orthonormalSpectra_spectral
  have hlower : Instruction.ofCircuit Circuit.noisy = .ok Instruction.noisy := rfl
  have hzero : (State.zero 2 : State ℝ).IsNormalised 2 := State.isNormalised_zero 2
  ⟨noisy_built, hlower, action_noisy, PauliChannel.checked_quarter, hzero,
    average_run noisy_built hlower action_noisy PauliChannel.checked_quarter hzero⟩

end
end QuantumCircuits
