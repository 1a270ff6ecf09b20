import Mathlib
import QuantumCircuits.Proofs.Gate.Matrices
import QuantumCircuits.Proofs.Simulation.Lowering
import QuantumCircuits.Proofs.Simulation.Meaning
import QuantumCircuits.Proofs.Simulation.Realization

/-! The evolution of a state vector by a circuit is the linear map that the circuit stands for. The
lowering of an operation multiplies up to the meaning of the operation, placed on the wires and under
the controls that it is lowered to. -/

noncomputable section
namespace QuantumCircuits
open Matrix QuantumCircuits.Basis Operator

theorem Instruction.realizes_inSequence {n : ℕ} {parts : List (Except Fault (List (Instruction ℝ)))}
    {ms : List (Operator n)}
    (h : List.Forall₂ (fun part m => ∃ is, part = .ok is ∧ Realizes n is m) parts ms) :
    ∃ is, inSequence parts = .ok is ∧ Realizes n is ms.reverse.prod := by
  have hlists : ∃ lists, List.Forall₂ (fun part list => part = .ok list) parts lists ∧
      Realizes n lists.flatten ms.reverse.prod := by
    induction h with
    | nil => exact ⟨[], .nil, .nil⟩
    | cons hpart _ ih =>
      obtain ⟨is, his, hm⟩ := hpart
      obtain ⟨lists, hlists, hms⟩ := ih
      refine ⟨is :: lists, .cons his hlists, ?_⟩
      rw [List.flatten_cons, List.reverse_cons, List.prod_append, List.prod_singleton]
      exact hm.append hms
  obtain ⟨lists, hlists, hms⟩ := hlists
  exact ⟨_, inSequence_eq_ok_iff.2 ⟨lists, hlists, rfl⟩, hms⟩

namespace Instruction

variable [EigenSolver ℝ] {n : ℕ} {wires : List ℕ} {controls : List (ℕ × Bool)} {adjoint : Bool}

theorem ofGate_eq {g a : Gate ℝ} {m : DenseMatrix (Cx ℝ)} (hnoise : g ≠ .noise) (hreset : g ≠ .reset)
    (ha : if adjoint then g.adjoint = .ok a else a = g) (hm : a.targetMatrix = .ok m) :
    ofGate g wires controls adjoint =
      .ok [.gate ⟨controls ++ (wires.take a.controls).map fun w => (w, true),
        wires.drop a.controls, m⟩] := by
  rw [ofGate_eq_bind hnoise hreset adjoint ha, hm]
  rfl

theorem exists_adjusted [SquareSpectra ℝ] {g : Gate ℝ} (h : g.WellFormed)
    (htokens : g.tokenNames = []) (hunitary : g.isUnitary = true) (adjoint : Bool) :
    ∃ a m, (if adjoint then g.adjoint = .ok a else a = g) ∧ a.targetMatrix = .ok m ∧
      m.toMatrix _ _ = adjointIf adjoint g.action := by
  obtain ⟨m, hm⟩ := Gate.exists_targetMatrix htokens hunitary
  have haction : g.action = m.toMatrix _ _ := by
    rw [Gate.action, hm]
  cases adjoint with
  | true =>
    obtain ⟨a, ha⟩ := Gate.adjoint_of_isUnitary hunitary
    obtain ⟨m', hm', hadjoint⟩ := Gate.targetMatrix_adjoint h ha hm
    exact ⟨a, m', ha, hm', hadjoint.trans (congrArg _ haction.symm)⟩
  | false => exact ⟨g, m, rfl, hm, haction.symm⟩

theorem realizes_composite {c : Circuit ℝ} (hlist : Selects n c.wires wires)
    (hfree : ∀ c ∈ controls, c.1 ∉ wires)
    (hstep : ∀ s ∈ c.steps, ∃ is,
      ofOperation (outer wires s.wires) controls adjoint s.operation = .ok is ∧
        Realizes n is (placed controls wires
          (adjointIf adjoint (placed [] s.wires s.operation.meaning) : Operator c.wires))) :
    ∃ is, ofOperation wires controls adjoint (.composite c) = .ok is ∧
      Realizes n is (placed controls wires (adjointIf adjoint c.meaning)) := by
  have hparts : List.Forall₂ (fun part m => ∃ is, part = .ok is ∧ Realizes n is m)
      ((if adjoint then c.steps.reverse else c.steps).map fun s =>
        ofOperation (outer wires s.wires) controls adjoint s.operation)
      ((if adjoint then c.steps.reverse else c.steps).map fun s => placed controls wires
        (adjointIf adjoint (placed [] s.wires s.operation.meaning) : Operator c.wires)) := by
    rw [List.forall₂_map_left_iff, List.forall₂_map_right_iff, List.forall₂_same]
    exact fun s hs => hstep s (mem_ordered_iff.1 hs)
  obtain ⟨is, his, hmeaning⟩ := realizes_inSequence hparts
  refine ⟨is, (ofOperation_composite c wires controls adjoint).trans his, ?_⟩
  have hmap := placed_prod hlist hfree ((if adjoint then c.steps.reverse else c.steps).map fun s =>
    adjointIf adjoint (placed [] s.wires s.operation.meaning)).reverse
  rw [← Operation.adjointIf_stepsMeaning, List.map_reverse, List.map_map] at hmap
  exact hmap ▸ hmeaning

variable [SquareSpectra ℝ]

theorem realizes_ofGate {g : Gate ℝ} (h : g.WellFormed)
    (hwires : Selects n (controls.length + g.arity) (controls.map Prod.fst ++ wires))
    (hexact : Gate.IsExact (g, !controls.isEmpty)) :
    ∃ is, ofGate g wires controls adjoint = .ok is ∧
      Realizes n is (placed controls wires (adjointIf adjoint g.meaning)) := by
  obtain ⟨hcontrols, hlist, hfree⟩ := Selects.controls_iff.1 hwires
  by_cases hnoise : g = .noise
  · subst hnoise
    have hempty : controls = [] := by
      cases controls with
      | nil => rfl
      | cons c cs => exact absurd rfl hexact.noise
    subst hempty
    refine ⟨[.noise (wires.headD 0)], rfl, .noise ?_⟩
    have haction : (Gate.noise : Gate ℝ).action = 1 := DenseMatrix.toMatrix_identity 2
    have hmeaning : (Gate.noise : Gate ℝ).meaning = 1 := by
      rw [Gate.meaning, haction]
      exact placed_one (Selects.range' (k := 0) rfl)
    rw [hmeaning, adjointIf_one, placed_one hlist]
    exact .nil
  · have hreset : g ≠ .reset := by
      rintro rfl
      exact Bool.false_ne_true hexact.resets
    obtain ⟨a, m, ha, hm, haction⟩ := exists_adjusted h hexact.tokens hexact.resets adjoint
    obtain ⟨hwell, harity, hleading⟩ := h.adjusted ha
    have hle := g.controls_le_arity
    have hsum : g.controls + (g.arity - g.controls) = g.arity := Nat.add_sub_of_le hle
    have hown : ((wires.take g.controls).map fun w => (w, true)).map Prod.fst = wires.take g.controls := by
      simp [Function.comp_def]
    rw [← hsum] at hwires
    obtain ⟨_, htargets, hfresh⟩ := Selects.controls_iff.1 (hwires.leading hown)
    have hshape := Gate.shaped_targetMatrix hwell hm
    rw [harity, hleading] at hshape
    refine ⟨_, ofGate_eq hnoise hreset ha hm, ?_⟩
    rw [Gate.meaning, placed_leading hlist hsum fst_lt_of_mem_map, outerControls_set (hlist.length ▸ hle), hleading,
      ← haction, ← one_mul (placed _ _ _)]
    exact .gate htargets hfresh hshape .nil

/-- The lowering of a well-formed operation succeeds and acts as the operation means, on the wires
and under the controls that it is lowered to. -/
theorem realizes_ofOperation {o : Operation ℝ} (h : o.WellFormed) (wires : List ℕ)
    (controls : List (ℕ × Bool)) (adjoint : Bool)
    (hwires : Selects n (controls.length + o.arity) (controls.map Prod.fst ++ wires))
    (hexact : ∀ g ∈ o.gates (!controls.isEmpty), Gate.IsExact g) :
    ∃ is, ofOperation wires controls adjoint o = .ok is ∧
      Realizes n is (placed controls wires (adjointIf adjoint o.meaning)) := by
  -- The lowering hands wires, controls and direction down the tree, so all three vary.
  induction h generalizing wires controls adjoint with
  | primitive gate => exact realizes_ofGate gate hwires (hexact _ List.mem_cons_self)
  | @composite c _ fits _ ih =>
    rw [Operation.arity] at hwires
    obtain ⟨hcontrols, hlist, hfree⟩ := Selects.controls_iff.1 hwires
    refine realizes_composite hlist hfree fun s hs => ?_
    have hinside := fits s hs
    have houter : Selects n (controls.length + s.operation.arity)
        (controls.map Prod.fst ++ outer wires s.wires) :=
      Selects.controls_iff.2 ⟨hcontrols, hlist.outer hinside,
        fun c hc hout => hfree c hc (hlist.mem_of_mem_outer hinside.below hout)⟩
    have hgates : ∀ g ∈ s.operation.gates (!controls.isEmpty), Gate.IsExact g := fun g hg =>
      hexact g (Operation.mem_gates_composite hs hg)
    rw [adjointIf_placed (List.forall_mem_nil _),
      placed_placed hlist hinside (List.forall_mem_nil _), outerControls, List.map_nil,
      List.append_nil]
    exact ih s hs _ controls adjoint houter hgates
  | @controlled o s _ _ positive ih =>
    rw [Operation.arity, Nat.add_comm o.arity] at hwires
    obtain ⟨_, hlist, _⟩ := Selects.controls_iff.1 hwires
    have hle : s.length ≤ wires.length := hlist.length ▸ Nat.le_add_right _ _
    have hown : ((wires.take s.length).zip s.flags).map Prod.fst = wires.take s.length :=
      List.map_fst_zip (by rw [List.length_take]; exact Nat.min_le_left _ _)
    have hnonempty : (controls ++ (wires.take s.length).zip s.flags).isEmpty = false := by
      refine List.isEmpty_eq_false_iff.2 (List.append_ne_nil_of_right_ne_nil _ ?_)
      rw [← List.length_pos_iff, ← List.length_map Prod.fst, hown, List.length_take, Nat.min_eq_left hle]
      exact positive
    have hgates : ∀ g ∈ o.gates !(controls ++ (wires.take s.length).zip s.flags).isEmpty,
        Gate.IsExact g := by
      rw [hnonempty]
      exact hexact
    obtain ⟨is, his, hmeaning⟩ := ih _ _ adjoint (hwires.leading hown) hgates
    rw [← outerControls_zip hle, ← placed_leading (Nat.add_comm s.length o.arity ▸ hlist)
      (Nat.add_comm s.length o.arity) fst_lt_of_mem_zip] at hmeaning
    exact ⟨is, his, hmeaning⟩
  | @powered o e _ _ ih =>
    rw [Operation.arity] at hwires
    obtain ⟨_, hlist, hfree⟩ := Selects.controls_iff.1 hwires
    obtain ⟨is, his, hmeaning⟩ := ih wires controls adjoint hwires hexact
    refine ⟨_, bind_eq_ok_iff.2 ⟨is, his, rfl⟩, ?_⟩
    have hrepeated := hmeaning.repeated e
    rw [← placed_pow hlist hfree, ← adjointIf_pow] at hrepeated
    exact hrepeated
  | inverted _ _ ih =>
    obtain ⟨is, his, hmeaning⟩ := ih wires controls (!adjoint) hwires hexact
    rw [adjointIf_not] at hmeaning
    exact ⟨is, his, hmeaning⟩

end Instruction

namespace Circuit

variable [EigenSolver ℝ] [SquareSpectra ℝ] {c : Circuit ℝ}

theorem realizes_ofCircuit (h : c.WellFormed) (hexact : (Operation.composite c).IsExact) :
    ∃ is, Instruction.ofCircuit c = .ok is ∧ Realizes c.wires is c.meaning := by
  have hwires : Selects c.wires (0 + c.wires) ([] ++ List.range c.wires) := by
    rw [Nat.zero_add]
    exact Selects.range c.wires
  obtain ⟨is, his, hmeaning⟩ := Instruction.realizes_ofOperation h _ [] false hwires
    (Operation.isExact_iff.1 hexact)
  exact ⟨is, his, placed_range c.meaning ▸ hmeaning⟩

theorem statevector_of_wellFormed (h : c.WellFormed) (hexact : (Operation.composite c).IsExact)
    {s : State ℝ} (hs : s.qubits = c.wires) :
    c.statevector s = .ok (.ofVector (c.meaning *ᵥ s.vector c.wires)) := by
  obtain ⟨is, his, hmeaning⟩ := realizes_ofCircuit h hexact
  have hprepare : c.prepare s = .ok is := by
    rw [prepare, if_neg (not_not.2 hs), tokens_of_isExact hexact]
    exact his
  exact bind_eq_ok_iff.2 ⟨is, hprepare, hmeaning.run hs⟩

/-- A circuit that checked calls build, without tokens, resets and controlled noise, takes a state
vector of its size to the image under the linear map that the circuit means. -/
theorem statevector_eq_meaning (h : c.Built) (hexact : (Operation.composite c).IsExact)
    (s : State ℝ) (hs : s.qubits = c.wires) :
    c.statevector s = .ok (.ofVector (c.meaning *ᵥ s.vector c.wires)) :=
  statevector_of_wellFormed h.wellFormed hexact hs

end Circuit

attribute [local instance] EigenSolver.spectral in
theorem Circuit.statevector_nested :
    (Circuit.nested : Circuit ℝ).Built ∧ (Operation.composite (.nested : Circuit ℝ)).IsExact ∧
      (State.zero 2 : State ℝ).qubits = (Circuit.nested : Circuit ℝ).wires ∧
      (Circuit.nested : Circuit ℝ).statevector (.zero 2) =
        .ok (.ofVector ((Circuit.nested : Circuit ℝ).meaning *ᵥ (State.zero 2).vector 2)) :=
  have := EigenSolver.orthonormalSpectra_spectral
  ⟨nested_built, isExact_nested, rfl,
    statevector_eq_meaning nested_built isExact_nested (.zero 2) rfl⟩

end QuantumCircuits
end
