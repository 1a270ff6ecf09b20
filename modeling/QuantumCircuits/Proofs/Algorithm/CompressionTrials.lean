import Mathlib
import QuantumCircuits.Proofs.Algorithm.SourceDensity
import QuantumCircuits.Proofs.Operator.Overlap
import QuantumCircuits.Proofs.Random.WeightedChoice
import QuantumCircuits.Proofs.Simulation.SteadyRuns

/-! Trials of compression. A trial draws the members of a block, a flip for each wire that is sent and an outcome for
each reset, as many draws in every branch. All tokens are bound, every part of the circuit keeps states normalised, and
so the trial ends in a fidelity between zero and one. -/

namespace QuantumCircuits
open Matrix QuantumCircuits.Basis Operator Operation

namespace State

variable {n : ℕ} {s t : State ℝ}

theorem fidelity_eq (hs : s.qubits = n) (ht : t.qubits = n) :
    s.fidelity t = .ok (Complex.normSq (star (s.vector n) ⬝ᵥ t.vector n)) := by
  subst hs
  refine (if_pos ht.symm).trans (congrArg Except.ok ?_)
  rw [← Cx.normSq_toComplex, toList_eq, toList_eq, ht, Cx.toComplex_laneProduct]
  rfl

theorem IsNormalised.exists_fidelity (hs : s.IsNormalised n) (ht : t.IsNormalised n) :
    ∃ f, s.fidelity t = .ok f ∧ 0 ≤ f ∧ f ≤ 1 :=
  ⟨_, fidelity_eq hs.qubits ht.qubits, Complex.normSq_nonneg _, ht.mass ▸ normSq_overlap_le hs.mass (t.vector n)⟩

end State

namespace Compressor

section Stages

variable {R : Type} [Scalar R]

def drawMembers (c : Compressor R) (choice : WeightedChoice R) : Sampler R (List (Option (SourceState R))) :=
  (List.range c.blockSize).mapM fun _ => do return c.ensemble[← choice.sample]?

def drawFlips (c : Compressor R) (flip : R) : Sampler R (List R) :=
  (List.range c.compressedSize).mapM fun _ => do return if (← Sampler.drawUnit) < flip then Scalar.pi else (0 : R)

def transmission [EigenSolver R] (c : Compressor R) (whole : Circuit R) (members : List (Option (SourceState R)))
    (flips : List R) : Sampler R R := do
  let angles (angle : SourceState R → R) : List R := members.map fun s => (s.map angle).getD 0
  let b ← liftM (Bindings.empty.insertFamily (thetaFamily c.blockSize) (angles SourceState.theta))
  let b ← liftM (b.insertFamily (phiFamily c.blockSize) (angles SourceState.phi))
  let b ← liftM (b.insertFamily (noiseFamily c.compressedSize) flips)
  let blank : State R := .zero c.blockSize
  let sent ← liftM (do (← c.source.bind b).statevector blank)
  let received ← (← liftM (whole.bind b)).run none blank
  liftM (sent.fidelity received)

theorem trial_eq [EigenSolver R] (c : Compressor R) (whole : Circuit R) (choice : WeightedChoice R) (flip : R) :
    c.trial whole choice flip = (do
      let members ← c.drawMembers choice
      let flips ← c.drawFlips flip
      c.transmission whole members flips) := rfl

def setup [DecimalText R] (c : Compressor R) (flip : R) : Except Fault (WeightedChoice R × Circuit R) := do
  if !Scalar.inUnit flip then throw (.state (.flipProbability (DecimalText.shortest flip)))
  let choice ← (WeightedChoice.ofWeights (c.ensemble.map SourceState.probability)).mapError
    fun fault => Fault.state (.weights fault)
  return (choice, ← c.circuit)

theorem simulate_eq [EigenSolver R] [DecimalText R] (c : Compressor R) (trials : ℕ) (flip : R) :
    c.simulate trials flip = liftM (c.setup flip) >>= fun p =>
      (List.range trials).mapM fun _ => c.trial p.2 p.1 flip := by
  unfold simulate setup
  cases Scalar.inUnit flip with
  | false => rfl
  | true =>
    cases (WeightedChoice.ofWeights (c.ensemble.map SourceState.probability)).mapError
      fun fault => Fault.state (.weights fault) with
    | error fault => rfl
    | ok choice => cases c.circuit <;> rfl

theorem simulate_add [EigenSolver R] [DecimalText R] (c : Compressor R) (flip : R) (m n : ℕ) :
    c.simulate (m + n) flip = (do
      let earlier ← c.simulate m flip
      let later ← c.simulate n flip
      return earlier ++ later) := by
  simp only [simulate_eq]
  cases c.setup flip with
  | error fault => rfl
  | ok p =>
    simp only [Sampler.liftM_ok_bind]
    exact Sampler.mapM_range_add _ m n

end Stages

section Parts

variable [EigenSolver ℝ] {ensemble : List (SourceState ℝ)} {n m : ℕ} {b : Bindings ℝ}

theorem bindsSteady_source (hn : 0 < n) {members : ℕ → SourceState ℝ} (h : Describes b n members) :
    (sourceCircuit n).BindsSteady b n 0 := by
  have hunitary := placed_wires_mem_unitary (n := n) (fun w hw => List.mem_range.1 hw)
    fun w => (members w).rotation_mem_unitary
  exact ⟨_, bind_sourceCircuit h,
    (applies_preparation hn).steady hunitary ((madeOf_preparation hn members).mono fun _ => And.left)⟩

variable [SquareSpectra ℝ] {change : DenseMatrix (Cx ℝ)}

theorem bindsSteady_transmitter (hn : 0 < n) (hshape : change.Shaped (2 ^ 1) (2 ^ 1))
    (hunitary : change.toMatrix 2 2 ∈ unitaryGroup (Fin 2) ℂ) (b : Bindings ℝ) :
    (transmitterCircuit n change).BindsSteady b n 0 := by
  have hmade := madeOf_transmitter hn hshape
  exact ((applies_transmitter hn hshape).steady (sortedBasis_mem_unitary hunitary) hmade).bindsSteady
    hmade.isExact_of_isPure.tokens b

theorem bindsSteady_channel (hn : 0 < n) (hm : m ≤ n) {angles : ℕ → ℝ}
    (h : ∀ i < m, b.get? ((noiseFamily m).tokenName i) = some (angles i)) : (channelCircuit n m).BindsSteady b n 0 := by
  have hunitary := placed_wires_mem_unitary (n := n) (fun w hw => (List.mem_range.1 hw).trans_le hm)
    fun w => DenseMatrix.isRotation_rotationX.mem_unitary (angles w)
  exact ⟨_, bind_turnedChannel h,
    (applies_turnedChannel hn hm angles).steady hunitary (madeOf_turnedChannel hn hm angles)⟩

theorem bindsSteady_receiver (hn : 0 < n) (hshape : change.Shaped (2 ^ 1) (2 ^ 1))
    (hunitary : change.toMatrix 2 2 ∈ unitaryGroup (Fin 2) ℂ) (b : Bindings ℝ) :
    (receiverCircuit n m (transmitterCircuit n change)).BindsSteady b n (n - m) := by
  have hmade := madeOf_transmitter hn hshape
  let resets : Circuit ℝ := ⟨"rx", layout n, (List.range' m (n - m)).map fun w => .gate .reset [w]⟩
  have hbelow : ∀ w ∈ List.range' m (n - m), w < (layout n).wires := by
    intro w hw
    have hbounds := List.mem_range'_1.1 hw
    change w < n
    omega
  have hresets : resets.BindsSteady b n (n - m) := by
    have hsteady : resets.Steady n (List.range' m (n - m)).length := Circuit.steady_resets hbelow
    rw [List.length_range'] at hsteady
    refine hsteady.bindsSteady ?_ b
    rw [tokenNames_composite, List.flatMap_eq_nil_iff]
    rintro s hs
    obtain ⟨w, _, rfl⟩ := List.mem_map.1 hs
    rfl
  have hundo : (undoing n (transmitterCircuit n change)).BindsSteady b n 0 := by
    have happlies := applies_undoing hn hmade (means_transmitter hshape)
    have hundone := madeOf_undoing hn rfl hmade
    exact (happlies.steady (Unitary.star_mem (sortedBasis_mem_unitary hunitary)) hundone).bindsSteady
      hundone.isExact_of_isPure.tokens b
  exact hresets.extend hundo (Circuit.extend_of_layout rfl)

end Parts

section Draws

variable {members : List (Option (SourceState ℝ))} {flips : List ℝ} {n m : ℕ}

theorem run_drawMembers (c : Compressor ℝ) (choice : WeightedChoice ℝ) (source : DrawSource ℝ) :
    ∃ members, (c.drawMembers choice).run.run source = (.ok members, source.advance c.blockSize) ∧
      members.length = c.blockSize ∧ ∀ x ∈ members, ∃ u, x = c.ensemble[choice.index u]? := by
  have hrun := Sampler.run_mapM (f := fun _ : ℕ => do return c.ensemble[← choice.sample]?)
    (g := fun _ source => c.ensemble[choice.index (source.fraction source.used)]?) (fun _ _ => rfl)
    (List.range c.blockSize) source
  rw [List.length_range] at hrun
  refine ⟨_, hrun, by rw [List.length_mapIdx, List.length_range], fun x hx => ?_⟩
  obtain ⟨i, _, rfl⟩ := List.mem_mapIdx.1 hx
  exact ⟨_, rfl⟩

theorem run_drawFlips (c : Compressor ℝ) (flip : ℝ) (source : DrawSource ℝ) :
    ∃ flips, (c.drawFlips flip).run.run source = (.ok flips, source.advance c.compressedSize) ∧
      flips.length = c.compressedSize := by
  have hrun := Sampler.run_mapM
    (f := fun _ : ℕ => do return if (← Sampler.drawUnit) < flip then Scalar.pi else (0 : ℝ))
    (g := fun _ source => if source.unit source.used < flip then Scalar.pi else 0) (fun _ _ => rfl)
    (List.range c.compressedSize) source
  rw [List.length_range] at hrun
  exact ⟨_, hrun, by rw [List.length_mapIdx, List.length_range]⟩

theorem exists_trialBindings (hmembers : members.length = n) (hflips : flips.length = m) : ∃ withTheta withPhi b,
    Bindings.empty.insertFamily (thetaFamily n) (members.map fun s => (s.map SourceState.theta).getD 0) = .ok withTheta ∧
    withTheta.insertFamily (phiFamily n) (members.map fun s => (s.map SourceState.phi).getD 0) = .ok withPhi ∧
    withPhi.insertFamily (noiseFamily m) flips = .ok b ∧
    Describes b n (fun w => (members.getD w none).getD ⟨0, 0, 0⟩) ∧
    ∀ i < m, b.get? ((noiseFamily m).tokenName i) = some (flips.getD i 0) := by
  have hlength (angle : SourceState ℝ → ℝ) : (members.map fun s => (s.map angle).getD 0).length = n := by
    rw [List.length_map, hmembers]
  obtain ⟨withTheta, htheta⟩ := Bindings.empty.exists_insertFamily (f := thetaFamily n) (hlength SourceState.theta)
  obtain ⟨withPhi, hphi⟩ := withTheta.exists_insertFamily (f := phiFamily n) (hlength SourceState.phi)
  obtain ⟨b, hnoise⟩ := withPhi.exists_insertFamily (f := noiseFamily m) hflips
  have hvalue (angle : SourceState ℝ → ℝ) (hzero : angle ⟨0, 0, 0⟩ = 0) (w : ℕ) (hw : w < n) :
      (members.map fun s => (s.map angle).getD 0)[w]? = some (angle ((members.getD w none).getD ⟨0, 0, 0⟩)) := by
    rw [← hmembers] at hw
    rw [List.getElem?_map, List.getD_eq_getElem?_getD, List.getElem?_eq_getElem hw, Option.map_some, Option.getD_some]
    cases members[w] with
    | none => exact congrArg some hzero.symm
    | some s => rfl
  have hblock := describes_of_insertFamily htheta hphi (hvalue SourceState.theta rfl) (hvalue SourceState.phi rfl)
  refine ⟨withTheta, withPhi, b, htheta, hphi, hnoise, ⟨fun w hw => ?_, fun w hw => ?_⟩, fun i hi => ?_⟩
  · rw [Bindings.get?_insertFamily_of_ne hnoise (by decide : "theta" ≠ "noise")]
    exact hblock.theta w hw
  · rw [Bindings.get?_insertFamily_of_ne hnoise (by decide : "phi" ≠ "noise")]
    exact hblock.phi w hw
  · rw [← hflips] at hi
    rw [Bindings.get?_insertFamily hnoise hi, List.getD_eq_getElem?_getD, List.getElem?_eq_getElem hi, Option.getD_some]

end Draws

section Trials

variable [EigenSolver ℝ] {ensemble : List (SourceState ℝ)} {n : ℕ} {b : Bindings ℝ} {choice : WeightedChoice ℝ}
  {whole : Circuit ℝ} {members : List (Option (SourceState ℝ))} {flips : List ℝ} {flip : ℝ} {source : DrawSource ℝ}

theorem exists_circuit (ensemble : List (SourceState ℝ)) (hn : 0 < n) :
    ∃ whole, (assembled ensemble n).circuit = .ok whole := by
  have hlayouts : ∀ part ∈ [(assembled ensemble n).source, (assembled ensemble n).transmitter,
      (assembled ensemble n).channel, (assembled ensemble n).receiver], part.layout = layout n := by
    intro part hpart
    fin_cases hpart <;> rfl
  obtain ⟨whole, hwhole⟩ := Circuit.exists_foldlM_extend (c := ⟨"compression", layout n, []⟩) hlayouts
  exact ⟨whole, bind_eq_ok_iff.2 ⟨_, Circuit.addRegister_empty hn "compression" "q", hwhole⟩⟩

theorem exists_setup [DecimalText ℝ] (hn : 0 < n) (hcheck : checkEnsemble ensemble = .ok ())
    (hflip : 0 ≤ flip ∧ flip ≤ 1) : ∃ choice whole,
      WeightedChoice.ofWeights (ensemble.map SourceState.probability) = .ok choice ∧
      (assembled ensemble n).circuit = .ok whole ∧ (assembled ensemble n).setup flip = .ok (choice, whole) := by
  obtain ⟨hnonneg, htotal⟩ := checkEnsemble_eq_ok_iff.1 hcheck
  have hpos : 0 < (ensemble.map SourceState.probability).sum := by
    rw [Scalar.tolerance_real] at htotal
    have hlow := (abs_le.1 htotal).1
    norm_num at hlow
    linarith
  obtain ⟨choice, hchoice⟩ := WeightedChoice.exists_ofWeights (List.forall_mem_map.2 hnonneg) hpos
  obtain ⟨whole, hwhole⟩ := exists_circuit ensemble hn
  refine ⟨choice, whole, hchoice, hwhole, ?_⟩
  have hmapped : (WeightedChoice.ofWeights (ensemble.map SourceState.probability)).mapError
      (fun fault => Fault.state (.weights fault)) = .ok choice := by rw [hchoice, Except.mapError]
  unfold setup
  rw [Scalar.inUnit_eq_true_iff.2 hflip]
  exact bind_eq_ok_iff.2 ⟨choice, hmapped, bind_eq_ok_iff.2 ⟨whole, hwhole, rfl⟩⟩

theorem run_simulate [DecimalText ℝ] {c : Compressor ℝ} (hsetup : c.setup flip = .ok (choice, whole))
    {value : DrawSource ℝ → ℝ} {k : ℕ} (htrial : ∀ source : DrawSource ℝ, source.InUnit →
      (c.trial whole choice flip).run.run source = (.ok (value source), source.advance k))
    (trials : ℕ) (hsource : source.InUnit) : (c.simulate trials flip).run.run source =
      (.ok ((List.range trials).mapIdx fun j _ => value (source.advance (j * k))), source.advance (trials * k)) := by
  have hrun := Sampler.run_mapM_of_kind (S := DrawSource.InUnit) (g := fun (_ : ℕ) source => value source)
    (fun _ => htrial) (fun _ hsource => hsource.advance _) (List.range trials) hsource
  rw [List.length_range] at hrun
  rw [simulate_eq, hsetup]
  exact hrun

variable [OrthonormalSpectra]

theorem bindsSteady_whole (hn : 0 < n) {states : ℕ → SourceState ℝ} (hstates : Describes b n states) {angles : ℕ → ℝ}
    (hangles : ∀ i < (assembled ensemble n).compressedSize,
      b.get? ((noiseFamily (assembled ensemble n).compressedSize).tokenName i) = some (angles i))
    (hwhole : (assembled ensemble n).circuit = .ok whole) :
    whole.BindsSteady b n (n - (assembled ensemble n).compressedSize) := by
  have hshape : (basisChange (EigenSolver.spectrum (meanState ensemble))).Shaped (2 ^ 1) (2 ^ 1) := ⟨rfl, rfl⟩
  have hvectors : (EigenSolver.spectrum (meanState ensemble)).vectors.toMatrix 2 2 ∈ unitaryGroup (Fin 2) ℂ :=
    eigenvectors_mem_unitary
  have hunitary := Spectrum.basisChange_mem_unitary hvectors
  have hempty : Circuit.Steady ⟨"compression", layout n, []⟩ n 0 :=
    @Circuit.steady_resets _ "compression" (layout n) [] (List.forall_mem_nil _)
  have hblank := hempty.bindsSteady rfl b
  have hparts : List.Forall₂ (fun (part : Circuit ℝ) l => part.BindsSteady b n l) [(assembled ensemble n).source,
      (assembled ensemble n).transmitter, (assembled ensemble n).channel, (assembled ensemble n).receiver]
      [0, 0, 0, n - (assembled ensemble n).compressedSize] :=
    .cons (bindsSteady_source hn hstates) <| .cons (bindsSteady_transmitter hn hshape hunitary b) <|
      .cons (bindsSteady_channel hn (Nat.min_le_right _ _) hangles) <|
      .cons (bindsSteady_receiver hn hshape hunitary b) .nil
  obtain ⟨_, hregister, hwhole⟩ := bind_eq_ok_iff.1 hwhole
  cases (Circuit.addRegister_empty hn "compression" "q").symm.trans hregister
  have hsteady := hblank.foldlM_extend hparts hwhole
  simpa using hsteady

theorem run_transmission (hn : 0 < n) (hwhole : (assembled ensemble n).circuit = .ok whole)
    (hmembers : members.length = n) (hflips : flips.length = (assembled ensemble n).compressedSize)
    (hsource : source.InUnit) : ∃ value,
      ((assembled ensemble n).transmission whole members flips).run.run source =
        (.ok value, source.advance (n - (assembled ensemble n).compressedSize)) ∧ 0 ≤ value ∧ value ≤ 1 := by
  let states (w : ℕ) : SourceState ℝ := (members.getD w none).getD ⟨0, 0, 0⟩
  obtain ⟨withTheta, withPhi, b, htheta, hphi, hnoise, hstates, hangles⟩ := exists_trialBindings hmembers hflips
  have hblank := State.isNormalised_zero n
  have hrotations := placed_wires_mem_unitary (n := n) (fun w hw => List.mem_range.1 hw)
    fun w => (states w).rotation_mem_unitary
  obtain ⟨sent, hsent, hsentNormal⟩ := (applies_preparation hn).exists_isNormalised hrotations hblank
  obtain ⟨bound, hbound, hsteady⟩ := bindsSteady_whole hn hstates hangles hwhole
  obtain ⟨received, hreceived, hreceivedNormal⟩ := hsteady _ source hblank hsource
  obtain ⟨value, hvalue, hbounds⟩ := hsentNormal.exists_fidelity hreceivedNormal
  refine ⟨value, ?_, hbounds⟩
  have hprepared : (do (← (assembled ensemble n).source.bind b).statevector (.zero n)) = .ok sent :=
    bind_eq_ok_iff.2 ⟨_, bind_sourceCircuit hstates, hsent⟩
  refine (run_bind (run_liftM htheta)).trans ?_
  refine (run_bind (run_liftM hphi)).trans ?_
  refine (run_bind (run_liftM hnoise)).trans ?_
  refine (run_bind (run_liftM hprepared)).trans ?_
  refine (run_bind (run_liftM hbound)).trans ?_
  exact (run_bind hreceived).trans (run_liftM hvalue)

/-- A trial draws for each wire which member it holds, for each wire that is sent whether it is flipped, and an outcome
for each wire that is reset. -/
theorem run_trial (hn : 0 < n) (hwhole : (assembled ensemble n).circuit = .ok whole)
    (hchoice : WeightedChoice.ofWeights (ensemble.map SourceState.probability) = .ok choice) (flip : ℝ)
    (hsource : source.InUnit) : ∃ members flips value,
      ((assembled ensemble n).drawMembers choice).run.run source = (.ok members, source.advance n) ∧
      (∀ x ∈ members, ∃ s ∈ ensemble, x = some s) ∧
      ((assembled ensemble n).drawFlips flip).run.run (source.advance n) =
        (.ok flips, source.advance (n + (assembled ensemble n).compressedSize)) ∧
      ((assembled ensemble n).transmission whole members flips).run.run
          (source.advance (n + (assembled ensemble n).compressedSize)) =
        (.ok value, source.advance
          (n + (assembled ensemble n).compressedSize + (n - (assembled ensemble n).compressedSize))) ∧
      ((assembled ensemble n).trial whole choice flip).run.run source = (.ok value, source.advance (2 * n)) ∧
      0 ≤ value ∧ value ≤ 1 := by
  obtain ⟨members, hdrawn, hmembers, hmember⟩ := run_drawMembers (assembled ensemble n) choice source
  obtain ⟨flips, hflipped, hflips⟩ := run_drawFlips (assembled ensemble n) flip (source.advance n)
  rw [source.advance_advance] at hflipped
  obtain ⟨value, hsent, hbounds⟩ := run_transmission hn hwhole hmembers hflips (hsource.advance _)
  rw [source.advance_advance] at hsent
  refine ⟨members, flips, value, hdrawn, fun x hx => ?_, hflipped, hsent, ?_, hbounds⟩
  · -- The choice has a bound for each weight but the last one.
    obtain ⟨u, rfl⟩ := hmember x hx
    have hsize := WeightedChoice.size_ofWeights hchoice
    rw [List.length_map] at hsize
    have hlt : choice.index u < ensemble.length := hsize ▸ Nat.lt_succ_of_le (choice.index_le u)
    exact ⟨_, List.getElem_mem hlt, List.getElem?_eq_getElem hlt⟩
  · have hle : (assembled ensemble n).compressedSize ≤ n := Nat.min_le_right _ _
    have hcount : n + (assembled ensemble n).compressedSize + (n - (assembled ensemble n).compressedSize) = 2 * n := by
      omega
    rw [trial_eq, run_bind hdrawn, ← hcount]
    exact (run_bind hflipped).trans hsent

/-- Every number of trials succeeds from every source, with a fidelity between zero and one for each trial. A trial
takes `2 * n` draws: one for the member on each wire, one for the flip of each wire that is sent, and one for the reset
of each other wire. Trials and then further trials, from the source that the first ones leave, are as many trials as
both. -/
theorem simulate_trials [DecimalText ℝ] {c : Compressor ℝ} (h : ofEnsemble ensemble n = .ok c)
    (hflip : 0 ≤ flip ∧ flip ≤ 1) :
    ∃ choice whole, WeightedChoice.ofWeights (ensemble.map SourceState.probability) = .ok choice ∧
      c.circuit = .ok whole ∧ ∀ source : DrawSource ℝ, source.InUnit →
        (∃ members flips value,
          (c.drawMembers choice).run.run source = (.ok members, source.advance n) ∧
          (∀ x ∈ members, ∃ s ∈ ensemble, x = some s) ∧
          (c.drawFlips flip).run.run (source.advance n) = (.ok flips, source.advance (n + c.compressedSize)) ∧
          (c.transmission whole members flips).run.run (source.advance (n + c.compressedSize)) =
            (.ok value, source.advance (n + c.compressedSize + (n - c.compressedSize))) ∧
          (c.trial whole choice flip).run.run source = (.ok value, source.advance (2 * n)) ∧ 0 ≤ value ∧ value ≤ 1) ∧
        (∀ trials, ∃ values, (c.simulate trials flip).run.run source = (.ok values, source.advance (trials * (2 * n))) ∧
          values.length = trials ∧ (∀ x ∈ values, 0 ≤ x ∧ x ≤ 1) ∧
          ∀ j x, values[j]? = some x → (c.trial whole choice flip).run.run (source.advance (j * (2 * n))) =
            (.ok x, source.advance ((j + 1) * (2 * n)))) ∧
        ∀ first second, ∃ earlier later,
          (c.simulate first flip).run.run source = (.ok earlier, source.advance (first * (2 * n))) ∧
          (c.simulate second flip).run.run (source.advance (first * (2 * n))) =
            (.ok later, source.advance ((first + second) * (2 * n))) ∧
          (c.simulate (first + second) flip).run.run source =
            (.ok (earlier ++ later), source.advance ((first + second) * (2 * n))) := by
  obtain ⟨_, hn, hcheck, rfl⟩ := ofEnsemble_eq_ok_iff.1 h
  obtain ⟨choice, whole, hchoice, hwhole, hsetup⟩ := exists_setup hn hcheck hflip
  have htrial (source : DrawSource ℝ) (hsource : source.InUnit) := run_trial hn hwhole hchoice flip hsource
  have hvalue : ∀ source : DrawSource ℝ, source.InUnit → ∃ value,
      ((assembled ensemble n).trial whole choice flip).run.run source = (.ok value, source.advance (2 * n)) ∧
        0 ≤ value ∧ value ≤ 1 := by
    intro source hsource
    obtain ⟨_, _, value, _, _, _, _, hvalue⟩ := htrial source hsource
    exact ⟨value, hvalue⟩
  choose! value hvalue using hvalue
  have hsimulate (trials : ℕ) {source : DrawSource ℝ} (hsource : source.InUnit) :=
    run_simulate hsetup (fun _ hsource => (hvalue _ hsource).1) trials hsource
  refine ⟨choice, whole, hchoice, hwhole, fun source hsource =>
    ⟨htrial source hsource, fun trials => ?_, fun first second => ?_⟩⟩
  · refine ⟨_, hsimulate trials hsource, by rw [List.length_mapIdx, List.length_range], fun x hx => ?_,
      fun j x hx => ?_⟩
    · obtain ⟨j, _, rfl⟩ := List.mem_mapIdx.1 hx
      exact (hvalue _ (hsource.advance _)).2
    · rw [List.getElem?_mapIdx, Option.map_eq_some_iff] at hx
      obtain ⟨_, _, rfl⟩ := hx
      have hrun := (hvalue _ (hsource.advance (j * (2 * n)))).1
      rwa [source.advance_advance, ← Nat.add_one_mul] at hrun
  · have hlater := hsimulate second (hsource.advance (first * (2 * n)))
    rw [source.advance_advance, ← Nat.add_mul] at hlater
    refine ⟨_, _, hsimulate first hsource, hlater, ?_⟩
    rw [simulate_add, run_bind (hsimulate first hsource), run_bind hlater]
    rfl

end Trials

attribute [local instance] EigenSolver.spectral DecimalText.quarter in
theorem simulate_trials_biased : ofEnsemble biased 2 = .ok (assembled biased 2) ∧ (0 : ℝ) ≤ 1 / 4 ∧ (1 / 4 : ℝ) ≤ 1 ∧
    ∀ word : ℕ → UInt64, ∃ values,
      ((assembled biased 2).simulate 3 (1 / 4)).run.run (.ofWords word) =
        (.ok values, (DrawSource.ofWords word).advance 12) ∧ values.length = 3 ∧ ∀ x ∈ values, 0 ≤ x ∧ x ≤ 1 := by
  have := EigenSolver.orthonormalSpectra_spectral
  have haccepted : ofEnsemble biased 2 = .ok (assembled biased 2) :=
    ofEnsemble_of_check (List.cons_ne_nil _ _) Nat.two_pos checkEnsemble_biased
  have hflip : (0 : ℝ) ≤ 1 / 4 ∧ (1 / 4 : ℝ) ≤ 1 := by norm_num
  obtain ⟨_, _, _, _, htrials⟩ := simulate_trials haccepted hflip
  refine ⟨haccepted, hflip.1, hflip.2, fun word => ?_⟩
  obtain ⟨values, hrun, hlength, hbounds, _⟩ := (htrials _ (DrawSource.inUnit_ofWords word)).2.1 3
  exact ⟨values, hrun, hlength, hbounds⟩

end Compressor
end QuantumCircuits
