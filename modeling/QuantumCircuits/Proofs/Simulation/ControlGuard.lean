import Mathlib
import QuantumCircuits.Proofs.Simulation.Acceptance
import QuantumCircuits.Proofs.Simulation.Wrappers

/-! The check before an operation is put under controls, and the refusals of the lowering under controls.
The check refuses resets, the lowering refuses resets and noise markers. So an operation with a noise
marker inside is put under controls without a fault, and the circuits that it is placed in are refused
when they are evolved. -/

namespace QuantumCircuits

namespace Operation

section Contents

variable {R : Type} {o : Operation R} {g : Gate R}

def Contains (o : Operation R) (g : Gate R) : Prop := ∃ b, (g, b) ∈ o.gates false

theorem snd_of_mem_gates {a : Gate R × Bool} (h : a ∈ o.gates true) : a.2 = true := by
  induction o using Operation.induct with
  | primitive g => rw [List.mem_singleton.1 h]
  | composite c ih =>
    rw [gates_composite, List.mem_flatMap] at h
    obtain ⟨s, hs, ha⟩ := h
    exact ih s hs ha
  | controlled o s ih => exact ih h
  | powered o e ih => exact ih h
  | inverted o ih => exact ih h

theorem mem_gates_true_iff {b : Bool} : (g, b) ∈ o.gates true ↔ o.Contains g ∧ b = true := by
  have hgates : o.Contains g ↔ ∃ b, (g, b) ∈ o.gates true := by
    have hmap := map_gates false true o
    have hmem (c : Bool) : (∃ b, (g, b) ∈ o.gates c) ↔ g ∈ (o.gates c).map Prod.fst := by
      simp
    rw [Contains, hmem, hmem, hmap]
  constructor
  · intro hb
    exact ⟨hgates.2 ⟨b, hb⟩, snd_of_mem_gates hb⟩
  · rintro ⟨hg, rfl⟩
    obtain ⟨b, hb⟩ := hgates.1 hg
    obtain rfl : b = true := snd_of_mem_gates hb
    exact hb

theorem isUnitary_iff_not_contains : o.isUnitary = true ↔ ¬ o.Contains .reset := by
  rw [isUnitary_iff false, Contains]
  simp only [Gate.isUnitary_iff]
  exact ⟨fun h ⟨b, hb⟩ => h _ hb rfl, fun h g hg same => h ⟨g.2, same ▸ hg⟩⟩

theorem control_isOk_iff {s : ControlState} (hs : 0 < s.length) :
    (o.control s.length s).isOk = true ↔ ¬ o.Contains .reset := by
  rw [← isUnitary_iff_not_contains]
  cases hunitary : o.isUnitary with
  | true =>
    rw [control_eq_ok hs hunitary]
    exact ⟨fun _ => rfl, fun _ => rfl⟩
  | false =>
    rw [control_eq_error hs hunitary]
    exact ⟨nofun, nofun⟩

end Contents

section Guard

variable {R : Type} [Scalar R] [EigenSolver R] {o : Operation R}

theorem WellFormed.isOk_ofOperation_iff (h : o.WellFormed) {wires : List ℕ} {controls : List (ℕ × Bool)}
    (adjoint : Bool) (hlength : wires.length = o.arity) (hcontrols : controls ≠ []) :
    (Instruction.ofOperation wires controls adjoint o).isOk = true ↔
      o.tokenNames = [] ∧ ¬ o.Contains .reset ∧ ¬ o.Contains .noise := by
  have houtcome : Instruction.Outcome (o.gates !controls.isEmpty)
      (Instruction.ofOperation wires controls adjoint o) :=
    Instruction.outcome_ofOperation h hlength fun hempty => absurd hempty hcontrols
  rw [List.isEmpty_eq_false_iff.2 hcontrols] at houtcome
  have hmem (g : Gate R) : (g, true) ∈ o.gates true ↔ o.Contains g := by
    rw [mem_gates_true_iff, and_iff_left rfl]
  rw [houtcome.isOk_iff, tokenNames_eq_flatMap true, List.flatMap_eq_nil_iff, ← hmem, ← hmem]
  simp only [Gate.fault?_eq_none_iff]
  constructor
  · intro hall
    exact ⟨fun g hg => (hall g hg).1, fun hg => (hall _ hg).2.2 rfl, fun hg => (hall _ hg).2.1 rfl⟩
  · rintro ⟨htokens, hreset, hnoise⟩ g hg
    exact ⟨htokens g hg, fun same => hnoise (same ▸ hg), fun same => hreset (same ▸ hg)⟩

end Guard

end Operation

namespace Circuit

variable {R : Type} {c d : Circuit R} {o : Operation R} {s : ControlState} {wires : List ℕ} {t : State R}

theorem gates_of_append (h : c.append o wires = .ok d) :
    (Operation.composite d).gates false = (Operation.composite c).gates false ++ o.gates false := by
  obtain ⟨_, rfl⟩ := append_eq_ok_iff.1 h
  rw [Operation.gates_composite, Operation.gates_composite, List.flatMap_append, List.flatMap_singleton]

theorem tokens_of_append (h : c.append o wires = .ok d) (hc : c.tokens = []) (ho : o.tokenNames = []) :
    d.tokens = [] := by
  rw [Operation.tokenNames_eq_flatMap false, List.flatMap_eq_nil_iff] at ho
  rw [tokens_eq_nil_iff, gates_of_append h, List.forall_mem_append]
  exact ⟨tokens_eq_nil_iff.1 hc, ho⟩

theorem Evolves.append (hc : c.Evolves t) (hd : c.append (.controlled o s) wires = .ok d)
    (htokens : o.tokenNames = []) (hreset : ¬ o.Contains .reset) (hnoise : ¬ o.Contains .noise) : d.Evolves t := by
  have hgates := gates_of_append hd
  have hbound := tokens_of_append hd hc.bound htokens
  obtain ⟨_, rfl⟩ := append_eq_ok_iff.1 hd
  refine ⟨hc.fits, hbound, ?_, ?_⟩
  · rw [hgates, List.forall_mem_append]
    refine ⟨hc.resets, fun g hg hsame => hreset ?_⟩
    obtain ⟨g, b⟩ := g
    obtain rfl : g = .reset := hsame
    exact (Operation.mem_gates_true_iff.1 hg).1
  · rw [hgates, List.mem_append, not_or]
    exact ⟨hc.noise, fun hg => hnoise (Operation.mem_gates_true_iff.1 hg).1⟩

theorem Evolves.refuses_append (hc : c.Evolves t) (hd : c.append (.controlled o s) wires = .ok d)
    (htokens : o.tokenNames = []) (hnoise : o.Contains .noise) : d.Refuses t (.notUnitary "noise") := by
  have hgates := gates_of_append hd
  have hbound := tokens_of_append hd hc.bound htokens
  obtain ⟨_, rfl⟩ := append_eq_ok_iff.1 hd
  refine .noise hc.fits hbound ?_
  rw [hgates]
  exact List.mem_append_right _ (Operation.mem_gates_true_iff.2 ⟨hnoise, rfl⟩)

end Circuit

namespace Operation

variable {R : Type} [Scalar R] [EigenSolver R] {o : Operation R} {s : ControlState}

/-- The check before controls accepts the operations without a reset, the lowering under controls those
without a reset and without noise. Where an accepted operation is placed behind a circuit that evolves
a state, the whole is refused if the operation contains noise, and evolves the state if it does not. -/
theorem control_then_statevector (h : o.Built) (htokens : o.tokens = []) (hs : 0 < s.length) :
    ((o.control s.length s).isOk = true ↔ ¬ o.Contains .reset) ∧
    (∀ wires controls adjoint, wires.length = o.arity → controls ≠ [] →
      ((Instruction.ofOperation wires controls adjoint o).isOk = true ↔
        ¬ o.Contains .reset ∧ ¬ o.Contains .noise)) ∧
    ∀ p, o.control s.length s = .ok p → ∀ (c d : Circuit R) wires t, c.Built → c.Evolves t →
      c.append p wires = .ok d →
        (o.Contains .noise → d.statevector t = .error (.notUnitary "noise")) ∧
        (¬ o.Contains .noise → (d.statevector t).isOk = true) := by
  have hwell := h.wellFormed
  have hnames : o.tokenNames = [] := sortedNames_eq_nil_iff.1 htokens
  refine ⟨control_isOk_iff hs, fun wires controls adjoint hlength hcontrols => ?_, ?_⟩
  · rw [hwell.isOk_ofOperation_iff adjoint hlength hcontrols, and_iff_right hnames]
  · intro p hp c d wires t hc hct hd
    have hreset : ¬ o.Contains .reset := (control_isOk_iff hs).1 (isOk_eq_true_iff.2 ⟨p, hp⟩)
    have hdwell : d.WellFormed := hc.wellFormed.append (hwell.control hp) hd
    rw [control_eq_ok hs (isUnitary_iff_not_contains.2 hreset)] at hp
    obtain rfl := Except.ok.inj hp
    refine ⟨fun hnoise => ?_, fun hnoise => ?_⟩
    · exact hdwell.statevector_of_refuses (hct.refuses_append hd hnames hnoise)
    · exact isOk_eq_true_iff.2 (hdwell.exists_statevector (hct.append hd hnames hreset hnoise))

attribute [local instance] EigenSolver.spectral in
theorem control_then_statevector_nested :
    (nested : Operation ℝ).Built ∧ (nested : Operation ℝ).tokens = [] ∧ 0 < (⟨[true]⟩ : ControlState).length ∧
    (((nested : Operation ℝ).control 1 ⟨[true]⟩).isOk = true ↔ ¬ (nested : Operation ℝ).Contains .reset) ∧
    (∀ wires controls adjoint, wires.length = (nested : Operation ℝ).arity → controls ≠ [] →
      ((Instruction.ofOperation wires controls adjoint (nested : Operation ℝ)).isOk = true ↔
        ¬ (nested : Operation ℝ).Contains .reset ∧ ¬ (nested : Operation ℝ).Contains .noise)) ∧
    ∃ c d : Circuit ℝ, c.Built ∧ c.Evolves (.zero 3) ∧ c.append (.controlled nested ⟨[true]⟩) [2, 0, 1] = .ok d ∧
      ¬ (nested : Operation ℝ).Contains .noise ∧ (d.statevector (.zero 3)).isOk = true := by
  have htokens : (nested : Operation ℝ).tokens = [] := sortedNames_eq_nil_iff.2 rfl
  have hgates : (nested : Operation ℝ).gates false = [(.fixed .h, true), (.fixed .t, true)] := rfl
  have hreset : ¬ (nested : Operation ℝ).Contains .reset := by simp [Contains, hgates]
  have hnoise : ¬ (nested : Operation ℝ).Contains .noise := by simp [Contains, hgates]
  obtain ⟨hguard, hlower, hplaced⟩ :=
    control_then_statevector (s := ⟨[true]⟩) nested_built htokens (by decide : 0 < 1)
  let c : Circuit ℝ := ⟨"c", ⟨[⟨"q", 3, 0⟩], 3⟩, []⟩
  have hget : (Session.run [.newCircuit "c", .addRegister 0 "q" 3] : Session ℝ).circuits[0]? = some c := by cbv
  have hbuilt : c.Built := ⟨_, List.mem_of_getElem? hget⟩
  have hevolves : c.Evolves (.zero 3) := ⟨rfl, sortedNames_eq_nil_iff.2 rfl, List.forall_mem_nil _, List.not_mem_nil⟩
  have happend : c.append (.controlled nested ⟨[true]⟩) [2, 0, 1] = .ok _ :=
    Circuit.append_eq_ok_iff.2 ⟨by decide, rfl⟩
  have hcontrol : (nested : Operation ℝ).control 1 ⟨[true]⟩ = .ok (.controlled nested ⟨[true]⟩) :=
    control_eq_ok (s := ⟨[true]⟩) (by decide) (isUnitary_iff_not_contains.2 hreset)
  exact ⟨nested_built, htokens, by decide, hguard, hlower, c, _, hbuilt, hevolves, happend, hnoise,
    (hplaced _ hcontrol _ _ _ _ hbuilt hevolves happend).2 hnoise⟩

end Operation

def Session.controlledNoise {R : Type} : List (Call R) :=
  [.newCircuit "c", .addRegister 0 "q" 2, .primitive .noise, .control 0 1 ⟨[true]⟩, .append 0 1 [0, 1]]

def Circuit.controlledNoise {R : Type} : Circuit R :=
  ⟨"c", ⟨[⟨"q", 2, 0⟩], 2⟩, [⟨.controlled (.primitive .noise) ⟨[true]⟩, [0, 1]⟩]⟩

attribute [local instance] EigenSolver.spectral in
/-- A noise marker is put under a control without a fault, and the circuit is refused when it is run. -/
theorem Circuit.statevector_controlledNoise :
    (Operation.primitive .noise : Operation ℝ).control 1 ⟨[true]⟩ =
        .ok (.controlled (.primitive .noise) ⟨[true]⟩) ∧
      (Circuit.controlledNoise : Circuit ℝ) ∈ (Session.run Session.controlledNoise).circuits ∧
      (Circuit.controlledNoise : Circuit ℝ).statevector (.zero 2) = .error (.notUnitary "noise") := by
  have hget : (Session.run Session.controlledNoise : Session ℝ).circuits[0]? = some .controlledNoise := by cbv
  have hbuilt : (Circuit.controlledNoise : Circuit ℝ).Built := ⟨_, List.mem_of_getElem? hget⟩
  have hrefuses : (Circuit.controlledNoise : Circuit ℝ).Refuses (.zero 2) (.notUnitary "noise") :=
    .noise rfl (sortedNames_eq_nil_iff.2 rfl) List.mem_cons_self
  exact ⟨rfl, List.mem_of_getElem? hget, hbuilt.wellFormed.statevector_of_refuses hrefuses⟩

end QuantumCircuits
