import Mathlib
import QuantumCircuits.Proofs.Simulation.Statevector
import QuantumCircuits.Simulation.Exact

/-! What a lowering that succeeds tells about the gates of the circuit: no token is left in them, and if
their matrices are unitary, so are the matrices that the instructions place. -/

namespace QuantumCircuits

section Tokens

variable {R : Type}

theorem Param.tokenNames_of_resolve {θ : Param R} {x : R} (h : θ.resolve = .ok x) : θ.tokenNames = [] := by
  cases θ with
  | value v => rfl
  | token name coefficient => cases h

variable [Scalar R]

theorem Param.tokenNames_neg (θ : Param R) : θ.neg.tokenNames = θ.tokenNames := by
  cases θ <;> rfl

theorem Gate.isUnitary_of_adjoint {g a : Gate R} (h : g.adjoint = .ok a) : g.isUnitary = true := by
  cases g with
  | reset => cases adjoint_eq_ok_iff.1 h
  | _ => rfl

theorem Gate.tokenNames_adjoint {g a : Gate R} (h : g.adjoint = .ok a) : a.tokenNames = g.tokenNames := by
  have hadjoint := adjoint_eq_ok_iff.1 h
  cases g with
  | angle kind θ =>
    cases hadjoint
    exact θ.tokenNames_neg
  | evolution m time =>
    cases hadjoint
    exact time.tokenNames_neg
  | reset => cases hadjoint
  | _ =>
    cases hadjoint
    rfl

variable [EigenSolver R]

theorem Gate.tokenNames_of_targetMatrix {g : Gate R} {m : DenseMatrix (Cx R)} (h : g.targetMatrix = .ok m) :
    g.tokenNames = [] := by
  cases g with
  | angle kind θ =>
    obtain ⟨x, hx, _⟩ := bind_eq_ok_iff.1 h
    exact Param.tokenNames_of_resolve hx
  | evolution hamiltonian time =>
    obtain ⟨x, hx, _⟩ := bind_eq_ok_iff.1 h
    exact Param.tokenNames_of_resolve hx
  | _ => rfl

theorem Instruction.tokenNames_of_ofOperation {o : Operation R} {wires : List ℕ} {controls : List (ℕ × Bool)}
    {adjoint : Bool} {is : List (Instruction R)} (h : ofOperation wires controls adjoint o = .ok is) :
    o.tokenNames = [] := by
  induction o using Operation.induct generalizing wires controls adjoint is with
  | primitive g =>
    rw [Operation.tokenNames]
    rcases ofGate_eq_ok h with ⟨rfl, _⟩ | ⟨rfl, _⟩ | ⟨a, m, ha, hm, _⟩
    · rfl
    · rfl
    · have htokens := Gate.tokenNames_of_targetMatrix hm
      cases adjoint with
      | true => rwa [Gate.tokenNames_adjoint ha] at htokens
      | false => exact (show a = g from ha) ▸ htokens
  | composite c ih =>
    obtain ⟨lists, hlists, _⟩ := ofOperation_composite_eq_ok_iff.1 h
    rw [Operation.tokenNames_composite, List.flatMap_eq_nil_iff]
    intro s hs
    obtain ⟨list, _, hlist⟩ := exists_of_forall₂_right hlists.flip s (mem_ordered_iff.2 hs)
    exact ih s hs hlist
  | controlled o s ih => exact ih h
  | powered o e ih =>
    obtain ⟨body, hbody, _⟩ := bind_eq_ok_iff.1 h
    exact ih hbody
  | inverted o ih => exact ih h

theorem Instruction.forall_ofOperation {P : Instruction R → Prop}
    (hpow : ∀ p e, P (.gate p) → P (.gate { p with matrix := p.matrix.pow e })) {o : Operation R} {b : Bool}
    (hgates : ∀ g ∈ o.gates b, ∀ wires controls adjoint is, ofGate g.1 wires controls adjoint = .ok is → ∀ i ∈ is, P i)
    {wires : List ℕ} {controls : List (ℕ × Bool)} {adjoint : Bool} {is : List (Instruction R)}
    (his : ofOperation wires controls adjoint o = .ok is) : ∀ i ∈ is, P i := by
  induction o using Operation.induct generalizing wires controls adjoint b is with
  | primitive g => exact hgates _ List.mem_cons_self _ _ _ _ his
  | composite c ih =>
    intro i hi
    obtain ⟨s, hs, list, hlower, hi⟩ := exists_step_of_mem his hi
    exact ih s hs (fun g hg => hgates g (Operation.mem_gates_composite hs hg)) hlower i hi
  | controlled o s ih => exact ih hgates his
  | powered o e ih =>
    obtain ⟨body, hbody, same⟩ := bind_eq_ok_iff.1 his
    obtain rfl := pure_eq_ok_iff.1 same
    have hall := ih hgates hbody
    intro i hi
    rcases mem_repeated hi with hi | ⟨p, rfl, rfl⟩
    · exact hall i hi
    · exact hpow p e (hall _ List.mem_cons_self)
  | inverted o ih => exact ih hgates his

theorem Circuit.prepare_of_bound {c : Circuit R} {s : State R} (fits : s.qubits = c.wires) (bound : c.tokens = []) :
    c.prepare s = Instruction.ofCircuit c := by
  rw [prepare, if_neg (not_not.2 fits), bound]

theorem Circuit.prepare_of_ofCircuit {c : Circuit R} {is : List (Instruction R)} {s : State R}
    (h : Instruction.ofCircuit c = .ok is) (hs : s.qubits = c.wires) : c.prepare s = .ok is := by
  have hnames : Operation.stepTokenNames c.steps = [] := Instruction.tokenNames_of_ofOperation h
  rw [prepare_of_bound hs (sortedNames_eq_nil_iff.2 hnames), h]

end Tokens

noncomputable section
open Matrix QuantumCircuits.Basis Operator

namespace Instruction

def HoldsUnitary : Instruction ℝ → Prop
  | .gate p => ∃ d, p.matrix.Shaped d d ∧ p.matrix.toMatrix d d ∈ unitaryGroup (Fin d) ℂ
  | _ => True

theorem HoldsUnitary.placed_mem {n : ℕ} {p : Placement ℝ} (h : (Instruction.gate p).HoldsUnitary)
    (hfits : p.Fits n) : (placed p.controls p.targets
      (p.matrix.toMatrix (2 ^ p.targets.length) (2 ^ p.targets.length)) : Operator n) ∈ unitaryGroup _ ℂ := by
  obtain ⟨d, hshape, hunitary⟩ := h
  obtain rfl : d = 2 ^ p.targets.length := hshape.rows.symm.trans hfits.matrix.rows
  obtain ⟨_, htargets, hfresh⟩ := Selects.controls_iff.1 hfits.wires
  exact placed_mem_unitary htargets hfresh hunitary

variable [EigenSolver ℝ] [SquareSpectra ℝ]

theorem holdsUnitary_ofGate {g : Gate ℝ} {wires : List ℕ} {controls : List (ℕ × Bool)} {adjoint : Bool}
    {is : List (Instruction ℝ)} (hwell : g.WellFormed) (hunitary : g.action ∈ unitaryGroup _ ℂ)
    (his : ofGate g wires controls adjoint = .ok is) : ∀ i ∈ is, i.HoldsUnitary := by
  rcases ofGate_eq_ok his with ⟨rfl, _, rfl⟩ | ⟨rfl, rfl⟩ | ⟨a, m, ha, hm, rfl⟩
  · exact List.forall_mem_singleton.2 trivial
  · exact List.forall_mem_singleton.2 trivial
  · obtain ⟨hadjusted, harity, hcontrols⟩ := hwell.adjusted ha
    have hshape := Gate.shaped_targetMatrix hadjusted hm
    rw [harity, hcontrols] at hshape
    refine List.forall_mem_singleton.2 ⟨_, hshape, ?_⟩
    have htokens := Gate.tokenNames_of_targetMatrix hm
    cases adjoint with
    | true =>
      -- The gate has a matrix since its adjoint has one, and the one is the adjoint of the other.
      rw [Gate.tokenNames_adjoint ha] at htokens
      obtain ⟨k, hk⟩ := Gate.exists_targetMatrix htokens (Gate.isUnitary_of_adjoint ha)
      obtain ⟨m', hm', hadjoint⟩ := Gate.targetMatrix_adjoint hwell ha hk
      obtain rfl : m' = m := Except.ok.inj (hm'.symm.trans hm)
      rw [Gate.action, hk] at hunitary
      rw [hadjoint]
      exact Unitary.star_mem hunitary
    | false =>
      obtain rfl : a = g := ha
      rwa [Gate.action, hm] at hunitary

theorem holdsUnitary_ofOperation {o : Operation ℝ} {wires : List ℕ} {controls : List (ℕ × Bool)}
    {adjoint b : Bool} {is : List (Instruction ℝ)} (hwell : o.WellFormed)
    (hunitary : ∀ g ∈ o.gates b, g.1.action ∈ unitaryGroup _ ℂ)
    (his : ofOperation wires controls adjoint o = .ok is) : ∀ i ∈ is, i.HoldsUnitary := by
  refine forall_ofOperation (b := b) ?_ (fun g hg wires controls adjoint is his => ?_) his
  · rintro p e ⟨d, hshape, hunitary⟩
    refine ⟨d, hshape.pow e, ?_⟩
    rw [DenseMatrix.toMatrix_pow hshape]
    exact pow_mem hunitary e
  · exact holdsUnitary_ofGate (hwell.of_mem_gates b g hg) (hunitary g hg) his

end Instruction
end
end QuantumCircuits
