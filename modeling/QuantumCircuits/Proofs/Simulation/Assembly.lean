import Mathlib
import QuantumCircuits.Proofs.Operator.Clifford
import QuantumCircuits.Proofs.Simulation.LoweredGates
import QuantumCircuits.Proofs.Simulation.Registers
import QuantumCircuits.Proofs.Simulation.Solvers

/-! Circuits that are put together from parts. The evolution by a circuit that extends another one is the
one evolution after the other, whatever the parts are made of. -/

namespace QuantumCircuits

section Parts

variable {R : Type}

theorem Circuit.extend_eq_ok_iff {c d e : Circuit R} :
    c.extend d = .ok e ↔ c.layout.agrees d.layout = true ∧ e = { c with steps := c.steps ++ d.steps } := by
  unfold extend
  split
  · next hagrees => exact ⟨fun h => ⟨hagrees, (Except.ok.inj h).symm⟩, fun ⟨_, h⟩ => h ▸ rfl⟩
  · next hdiffers => exact ⟨nofun, fun ⟨hagrees, _⟩ => absurd hagrees hdiffers⟩

theorem Circuit.extend_of_layout {c d : Circuit R} (h : c.layout = d.layout) :
    c.extend d = .ok { c with steps := c.steps ++ d.steps } := extend_eq_ok_iff.2 ⟨by simp [h, Layout.agrees], rfl⟩

theorem Circuit.exists_foldlM_extend {c : Circuit R} {parts : List (Circuit R)}
    (h : ∀ part ∈ parts, part.layout = c.layout) : ∃ e, parts.foldlM extend c = .ok e := by
  induction parts generalizing c with
  | nil => exact ⟨c, rfl⟩
  | cons part parts ih =>
    obtain ⟨hpart, hparts⟩ := List.forall_mem_cons.1 h
    obtain ⟨e, he⟩ := ih (c := { c with steps := c.steps ++ part.steps }) hparts
    exact ⟨e, List.foldlM_cons.trans (bind_eq_ok_iff.2 ⟨_, extend_of_layout hpart.symm, he⟩)⟩

theorem Layout.wires_of_agrees {l m : Layout} (h : l.agrees m = true) : l.wires = m.wires := by
  rw [agrees, Bool.and_eq_true, beq_iff_eq, beq_iff_eq] at h
  exact h.2

variable [Scalar R] [EigenSolver R]

theorem Instruction.ofCircuit_append {c d : Circuit R} {is js : List (Instruction R)} (hwires : c.wires = d.wires)
    (hc : ofCircuit c = .ok is) (hd : ofCircuit d = .ok js) :
    ofCircuit { c with steps := c.steps ++ d.steps } = .ok (is ++ js) := by
  obtain ⟨front, hfront, rfl⟩ := ofOperation_composite_eq_ok_iff.1 hc
  obtain ⟨back, hback, rfl⟩ := ofOperation_composite_eq_ok_iff.1 hd
  rw [← hwires] at hback
  refine ofOperation_composite_eq_ok_iff.2 ⟨front ++ back, ?_, List.flatten_append.symm⟩
  exact List.rel_append hfront hback

theorem Circuit.prepare_eq_ok_iff {c : Circuit R} {s : State R} {is : List (Instruction R)} :
    c.prepare s = .ok is ↔ s.qubits = c.wires ∧ Instruction.ofCircuit c = .ok is := by
  constructor
  · intro h
    unfold prepare at h
    split at h
    · cases h
    · next hqubits =>
      split at h
      · cases h
      · exact ⟨not_not.1 hqubits, h⟩
  · rintro ⟨hqubits, h⟩
    exact prepare_of_ofCircuit h hqubits

theorem Circuit.statevector_extend {c d e : Circuit R} {s t u : State R} (hextend : c.extend d = .ok e)
    (hc : c.statevector s = .ok t) (hd : d.statevector t = .ok u) : e.statevector s = .ok u := by
  obtain ⟨hagrees, rfl⟩ := extend_eq_ok_iff.1 hextend
  obtain ⟨is, his, ht⟩ := bind_eq_ok_iff.1 hc
  obtain ⟨js, hjs, hu⟩ := bind_eq_ok_iff.1 hd
  obtain ⟨hqubits, his⟩ := prepare_eq_ok_iff.1 his
  obtain ⟨_, hjs⟩ := prepare_eq_ok_iff.1 hjs
  have hlowered := Instruction.ofCircuit_append (Layout.wires_of_agrees hagrees) his hjs
  refine bind_eq_ok_iff.2 ⟨_, prepare_eq_ok_iff.2 ⟨hqubits, hlowered⟩, ?_⟩
  rw [List.foldlM_append, ht]
  exact hu

end Parts

noncomputable section
open Matrix QuantumCircuits.Basis Operator Operation PauliString

variable [EigenSolver ℝ] {n : ℕ}

/-- The circuit takes every state vector of `n` wires to its image under the map. -/
def Circuit.Applies (c : Circuit ℝ) (m : Operator n) : Prop :=
  ∀ s : State ℝ, s.qubits = n → c.statevector s = .ok (.ofVector (m *ᵥ s.vector n))

namespace Circuit

variable {c d e : Circuit ℝ} {a b : Operator n}

theorem Applies.wires (h : c.Applies a) : c.wires = n := by
  obtain ⟨_, his, _⟩ := bind_eq_ok_iff.1 (h (.zero n) rfl)
  exact (prepare_eq_ok_iff.1 his).1.symm

theorem Applies.extend (hc : c.Applies a) (hd : d.Applies b) (he : c.extend d = .ok e) : e.Applies (b * a) := by
  intro s hs
  have hafter := hd (.ofVector (a *ᵥ s.vector n)) rfl
  rw [State.vector_ofVector, mulVec_mulVec] at hafter
  exact statevector_extend he (hc s hs) hafter

theorem Applies.foldlM_extend {l : Layout} {parts : List (Circuit ℝ)} {maps : List (Operator n)} (hc : c.Applies a)
    (hlayout : c.layout = l) (h : List.Forall₂ (fun part m => l.agrees part.layout = true ∧ part.Applies m) parts maps) :
    ∃ e, parts.foldlM Circuit.extend c = .ok e ∧ e.Applies (maps.reverse.prod * a) := by
  induction h generalizing c a with
  | nil => exact ⟨c, rfl, by rwa [List.reverse_nil, List.prod_nil, one_mul]⟩
  | @cons part m parts maps hpart _ ih =>
    obtain ⟨hagrees, hpart⟩ := hpart
    have hextend : c.extend part = .ok { c with steps := c.steps ++ part.steps } :=
      extend_eq_ok_iff.2 ⟨hlayout ▸ hagrees, rfl⟩
    have hlonger : Circuit.Applies { c with steps := c.steps ++ part.steps } (m * a) := hc.extend hpart hextend
    obtain ⟨e, he, happlies⟩ := ih hlonger hlayout
    refine ⟨e, ?_, ?_⟩
    · rw [List.foldlM_cons, hextend]
      exact he
    · rwa [List.reverse_cons, List.prod_append, List.prod_singleton, mul_assoc]

theorem WellFormed.applies [SquareSpectra ℝ] (h : c.WellFormed) (hexact : (Operation.composite c).IsExact) :
    c.Applies c.meaning := fun _ hs => statevector_of_wellFormed h hexact hs

theorem WellFormed.applies_of_spectral (h : c.WellFormed) (hexact : (Operation.composite c).IsExact)
    (hplain : ∀ g ∈ (Operation.composite c).gates false, ¬ g.1.ReadsSpectrum) {m : Operator c.wires}
    (hm : @Circuit.meaning EigenSolver.spectral c = m) : c.Applies m := by
  intro s hs
  rw [statevector_solver _ EigenSolver.spectral hplain, ← hm]
  let _ := EigenSolver.spectral
  have := EigenSolver.orthonormalSpectra_spectral
  exact h.applies hexact s hs

end Circuit

theorem placed_fixed {g : FixedGate} {wires : List ℕ} (h : GateFits n (g, wires)) :
    (placed [] wires (Operation.primitive (.fixed g)).meaning : Operator n) = gateOn (g, wires) := by
  have hle : g.controls ≤ wires.length := h.length ▸ Nat.le_add_right _ _
  have hmeans : (Operation.primitive (.fixed g) : Operation ℝ).Means
      (placed ((List.range g.controls).map fun w => (w, true))
        (List.range' g.controls g.targets) (g.matrix.toMatrix (2 ^ g.targets) (2 ^ g.targets)) :
          Operator (g.controls + g.targets)) := by
    have hprimitive := Means.primitive (g := .fixed g) (d := g.controls + g.targets) (k := g.controls) rfl rfl rfl
    rwa [Nat.add_sub_cancel_left] at hprimitive
  have hplaced := @placed_leading n g.targets g.controls [] _ _ _ h rfl fst_lt_of_mem_map false
    (g.matrix.toMatrix (2 ^ g.targets) (2 ^ g.targets))
  rw [outerControls_set hle] at hplaced
  rw [hmeans.placed_eq]
  exact hplaced

theorem stepsMeaning_fixed {gates : List (FixedGate × List ℕ)} (h : ∀ g ∈ gates, GateFits n g) :
    stepsMeaning n (gates.map fun g => .fixed g.1 g.2) = gatesOn gates := by
  rw [stepsMeaning_eq_prod, List.map_map, gatesOn]
  congr 2
  exact List.map_congr_left fun g hg => placed_fixed (h g hg)

theorem Circuit.applies_fixed {name : String} {layout : Layout} {gates : List (FixedGate × List ℕ)}
    (hlayout : layout.WellFormed) (h : ∀ g ∈ gates, GateFits layout.wires g) :
    Circuit.Applies ⟨name, layout, gates.map fun g => .fixed g.1 g.2⟩ (gatesOn gates : Operator layout.wires) := by
  have hmade : Circuit.MadeOf (fun g => g.IsNumeric ∧ ¬ g.ReadsSpectrum)
      (⟨name, layout, gates.map fun g => .fixed g.1 g.2⟩ : Circuit ℝ) := by
    refine madeOf_iff.2 ⟨wellFormed_iff.2 ⟨hlayout, fun s hs => ?_⟩, fun s hs => ?_⟩
    · obtain ⟨g, hg, rfl⟩ := List.mem_map.1 hs
      exact ⟨h g hg, .primitive trivial⟩
    · obtain ⟨g, hg, rfl⟩ := List.mem_map.1 hs
      exact .primitive trivial ⟨trivial, id⟩
  exact WellFormed.applies_of_spectral hmade.wellFormed (hmade.mono fun _ => And.left).isExact
    (fun g hg => (hmade.gates false g hg).2) (@stepsMeaning_fixed EigenSolver.spectral _ _ h)

theorem Circuit.applies_gate {name : String} {layout : Layout} (hlayout : layout.WellFormed) {g : Gate ℝ} (hg : g.WellFormed)
    (hpure : g.IsPure) (hplain : ¬ g.ReadsSpectrum) (harity : g.arity = 1) (hcontrols : g.controls = 0) {m : DenseMatrix (Cx ℝ)}
    (hm : g.targetMatrix = .ok m) {w : ℕ} (hw : w < layout.wires) :
    Circuit.Applies ⟨name, layout, [.gate g [w]]⟩ (placed (d := 1) [] [w] (m.toMatrix 2 2) : Operator layout.wires) := by
  have hfits : (Step.gate g [w] : Step (Operation ℝ)).Fits layout.wires :=
    ⟨harity.symm, List.nodup_singleton w, List.forall_mem_singleton.2 hw⟩
  have hmade : Circuit.MadeOf (fun g => g.IsPure ∧ ¬ g.ReadsSpectrum) (⟨name, layout, [.gate g [w]]⟩ : Circuit ℝ) :=
    madeOf_iff.2 ⟨wellFormed_iff.2 ⟨hlayout, List.forall_mem_singleton.2 ⟨hfits, .primitive hg⟩⟩,
      List.forall_mem_singleton.2 (.primitive hg ⟨hpure, hplain⟩)⟩
  have hspectral : @Gate.targetMatrix ℝ _ EigenSolver.spectral g = .ok m :=
    (Gate.targetMatrix_solver EigenSolver.spectral _ hplain).trans hm
  have hmeans := @Means.uncontrolled EigenSolver.spectral 1 g m harity hcontrols hspectral
  refine WellFormed.applies_of_spectral hmade.wellFormed (hmade.mono fun _ => And.left).isExact_of_isPure
    (fun d hd => (hmade.gates false d hd).2) ?_
  exact (@stepsMeaning_singleton EigenSolver.spectral _ _).trans (@Means.placed_eq EigenSolver.spectral _ _ _ _ hmeans [] [w])

theorem Circuit.applies_dense {name label : String} {layout : Layout} (hlayout : layout.WellFormed) {w : ℕ}
    (hw : w < layout.wires) (m : Matrix (Fin 2) (Fin 2) ℂ) :
    Circuit.Applies ⟨name, layout, [.gate (.dense label (.ofMatrix m)) [w]]⟩ (placed (d := 1) [] [w] m : Operator layout.wires) := by
  have hgate : (Gate.dense label (.ofMatrix m)).WellFormed := Gate.checkDimension_eq_ok_iff.2 ⟨rfl, le_rfl, 1, rfl⟩
  have harity : (Gate.dense label (.ofMatrix m)).arity = 1 := Nat.log2_two_pow (n := 1)
  rw [← DenseMatrix.toMatrix_ofMatrix m]
  exact applies_gate hlayout hgate ⟨rfl, rfl, nofun⟩ id harity rfl rfl hw

end
end QuantumCircuits
