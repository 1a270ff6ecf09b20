import Mathlib
import QuantumCircuits.Proofs.Random.Accounting
import QuantumCircuits.Proofs.Simulation.Assembly
import QuantumCircuits.Proofs.Simulation.Resets

/-! Runs that do not depend on what is drawn. Without markers and resets a run is the exact evolution, and a
reset changes nothing where its wire reads zero in all that is left. -/

namespace QuantumCircuits

section Gates

variable {R : Type}

def Instruction.IsGate : Instruction R → Prop
  | .gate _ => True
  | _ => False

variable [Scalar R]

theorem Instruction.run_of_isGate {is : List (Instruction R)} (h : ∀ i ∈ is, i.IsGate) {s t : State R}
    (hexact : is.foldlM exactStep s = .ok t) (channel : Option (PauliChannel R)) : run channel is s = pure t := by
  induction is generalizing s with
  | nil =>
    cases hexact
    rfl
  | cons i is ih =>
    obtain ⟨hi, his⟩ := List.forall_mem_cons.1 h
    cases i with
    | gate p => exact ih his hexact
    | noise w => exact hi.elim
    | reset w => exact hi.elim

variable [EigenSolver R]

theorem Instruction.isGate_ofOperation {o : Operation R} {b : Bool} (hpure : ∀ g ∈ o.gates b, g.1.IsPure)
    {wires : List ℕ} {controls : List (ℕ × Bool)} {adjoint : Bool} {is : List (Instruction R)}
    (his : ofOperation wires controls adjoint o = .ok is) : ∀ i ∈ is, i.IsGate := by
  refine forall_ofOperation (b := b) (fun _ _ => id) (fun g hg wires controls adjoint is his => ?_) his
  have hpure := hpure g hg
  rcases ofGate_eq_ok his with ⟨hnoise, _⟩ | ⟨hreset, _⟩ | ⟨_, _, _, _, rfl⟩
  · exact absurd hnoise hpure.noise
  · rw [hreset] at hpure
    exact absurd hpure.resets Bool.false_ne_true
  · exact List.forall_mem_singleton.2 trivial

namespace Circuit

variable {c d e : Circuit R} {s t u : State R} {channel : Option (PauliChannel R)} {source middle rest : DrawSource R}

theorem run_eq_ok_iff : (c.run channel s).run.run source = (.ok t, rest) ↔ ∃ is, s.qubits = c.wires ∧
    Instruction.ofCircuit c = .ok is ∧ (Instruction.run channel is s).run.run source = (.ok t, rest) := by
  rw [run, run_bind_eq_ok_iff]
  constructor
  · rintro ⟨is, _, hprepare, hrun⟩
    obtain ⟨hprepared, rfl⟩ := run_liftM_eq_ok_iff.1 hprepare
    obtain ⟨hs, hlower⟩ := prepare_eq_ok_iff.1 hprepared
    exact ⟨is, hs, hlower, hrun⟩
  · rintro ⟨is, hs, hlower, hrun⟩
    exact ⟨is, source, run_liftM_eq_ok_iff.2 ⟨prepare_eq_ok_iff.2 ⟨hs, hlower⟩, rfl⟩, hrun⟩

theorem run_of_statevector (h : c.MadeOf Gate.IsPure) (hexact : c.statevector s = .ok t)
    (channel : Option (PauliChannel R)) (source : DrawSource R) : (c.run channel s).run.run source = (.ok t, source) := by
  obtain ⟨is, hprepare, hsteps⟩ := bind_eq_ok_iff.1 hexact
  obtain ⟨hs, hlower⟩ := prepare_eq_ok_iff.1 hprepare
  refine run_eq_ok_iff.2 ⟨is, hs, hlower, ?_⟩
  rw [Instruction.run_of_isGate (Instruction.isGate_ofOperation (h.gates false) hlower) hsteps]
  rfl

theorem run_extend (hextend : c.extend d = .ok e) (hc : (c.run channel s).run.run source = (.ok t, middle))
    (hd : (d.run channel t).run.run middle = (.ok u, rest)) : (e.run channel s).run.run source = (.ok u, rest) := by
  obtain ⟨hagrees, rfl⟩ := extend_eq_ok_iff.1 hextend
  obtain ⟨is, hs, his, ht⟩ := run_eq_ok_iff.1 hc
  obtain ⟨js, _, hjs, hu⟩ := run_eq_ok_iff.1 hd
  refine run_eq_ok_iff.2 ⟨_, hs, Instruction.ofCircuit_append (Layout.wires_of_agrees hagrees) his hjs, ?_⟩
  rw [Instruction.run, List.foldlM_append]
  exact run_bind_eq_ok_iff.2 ⟨t, middle, ht, hu⟩

end Circuit
end Gates

noncomputable section
open Matrix QuantumCircuits.Basis Operator

theorem Circuit.Applies.run [EigenSolver ℝ] {c : Circuit ℝ} {n : ℕ} {m : Operator n} (h : c.Applies m)
    (hpure : c.MadeOf Gate.IsPure) (v : Fin (2 ^ n) → ℂ) (channel : Option (PauliChannel ℝ)) (source : DrawSource ℝ) :
    (c.run channel (.ofVector v)).run.run source = (.ok (.ofVector (m *ᵥ v)), source) := by
  have hvalue := h (.ofVector v) rfl
  rw [State.vector_ofVector] at hvalue
  exact run_of_statevector hpure hvalue channel source

variable {channel : Option (PauliChannel ℝ)} {s : State ℝ}

/-- The wire reads zero in every amplitude that is left. -/
def State.Blank (s : State ℝ) (w : ℕ) : Prop := ∀ i : ℕ, i.testBit w = true → s.amp i = 0

theorem State.Blank.afterReset {w : ℕ} (h : s.Blank w) (x : Draw) :
    s.afterReset w (decide (x < s.probabilityOfOne w)) = s := by
  have hnothing : reads w true *ᵥ s.vector s.qubits = 0 := by
    funext i
    rw [reads_mulVec]
    split
    · next hbit => rw [vector, h i hbit, Cx.toComplex_zero, Pi.zero_apply]
    · rfl
  have hzero : s.probabilityOfOne w = 0 := by
    rw [probabilityOfOne_eq rfl, hnothing]
    simp [Operator.mass]
  have houtcome : decide (x < s.probabilityOfOne w) = false := decide_eq_false (not_lt.2 (hzero.trans_le x.2.1))
  rw [houtcome]
  refine ext_amp rfl fun i (hi : i < 2 ^ s.qubits) => ?_
  change (s.project w false √(1 - s.probabilityOfOne w)).amp i = s.amp i
  rw [hzero, sub_zero, Real.sqrt_one, project, amp_ofFn _ _ hi]
  cases hbit : i.testBit w with
  | false => exact Cx.toComplex_injective (by simp [Cx.toComplex_divReal])
  | true => exact (h i hbit).symm

theorem Instruction.trajectory_resets {ws : List ℕ} (h : ∀ w ∈ ws, s.Blank w) (ω : ℕ → Draw) :
    trajectory channel (ws.map .reset) s ω = s := by
  induction ws generalizing ω with
  | nil => rfl
  | cons w ws ih =>
    obtain ⟨hw, hws⟩ := List.forall_mem_cons.1 h
    rw [List.map_cons, trajectory, next, hw.afterReset]
    exact ih hws _

theorem Instruction.ofCircuit_resets [EigenSolver ℝ] {name : String} {layout : Layout} {ws : List ℕ}
    (h : ∀ w ∈ ws, w < layout.wires) :
    ofCircuit (⟨name, layout, ws.map fun w => .gate .reset [w]⟩ : Circuit ℝ) = .ok (ws.map .reset) := by
  refine ofOperation_composite_eq_ok_iff.2 ⟨ws.map fun w => [.reset w], ?_, ?_⟩
  · rw [if_neg Bool.false_ne_true, List.forall₂_map_left_iff, List.forall₂_map_right_iff, List.forall₂_same]
    intro w hw
    have houter : outer (List.range layout.wires) [w] = [w] := congrArg (fun w => [w]) (getD_range (h w hw))
    change ofOperation (outer (List.range layout.wires) [w]) [] false _ = _
    rw [houter]
    rfl
  · rw [← List.flatMap_def, List.map_eq_flatMap]

theorem Circuit.run_blank [EigenSolver ℝ] {name : String} {layout : Layout} {ws : List ℕ}
    (h : ∀ w ∈ ws, w < layout.wires ∧ s.Blank w) (hs : s.qubits = layout.wires) (ω : ℕ → Draw) (k : ℕ) :
    (Circuit.run (⟨name, layout, ws.map fun w => .gate .reset [w]⟩ : Circuit ℝ) channel s).run.run (.ofDraws ω k) =
      (.ok s, .ofDraws ω (k + ws.length)) := by
  refine run_eq_ok_iff.2 ⟨_, hs, Instruction.ofCircuit_resets fun w hw => (h w hw).1, ?_⟩
  have hcount : (ws.map Instruction.reset).countP (Instruction.isRandom channel) = ws.length := by
    rw [List.countP_map]
    exact List.countP_eq_length.2 fun w hw => rfl
  rw [Instruction.run_eq, Instruction.trajectory_resets fun w hw => (h w hw).2, hcount]

end
end QuantumCircuits
