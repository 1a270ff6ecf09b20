import Mathlib
import QuantumCircuits.Proofs.Simulation.Statevector
import QuantumCircuits.Proofs.Simulation.Unitarity

/-! Inversion undoes. A circuit and its inverse, in either order, return every state vector, and so do
an operation and what inverts it on the same wires. -/

noncomputable section
namespace QuantumCircuits
open Matrix QuantumCircuits.Basis Operator Operation

/-- Appended to any circuit after the second operation, on the same wires, the first one succeeds and
brings back every state that the circuit ends in. -/
def Operation.Undoes [EigenSolver ℝ] (x o : Operation ℝ) : Prop :=
  ∀ (c : Circuit ℝ) (wires : List ℕ), c.Built → (Operation.composite c).IsExact →
    Selects c.wires o.arity wires →
      ∃ d e, c.append o wires = .ok d ∧ d.append x wires = .ok e ∧
        ∀ s : State ℝ, s.qubits = c.wires →
          ∃ t, c.statevector s = .ok t ∧ e.statevector s = .ok t ∧ (c.steps = [] → t = s)

section Cancellation

variable [EigenSolver ℝ] [SquareSpectra ℝ]

theorem Circuit.statevector_of_meaning_one {c : Circuit ℝ} (h : c.WellFormed)
    (hexact : (Operation.composite c).IsExact) (hone : c.meaning = 1) {s : State ℝ}
    (hs : s.qubits = c.wires) : c.statevector s = .ok s := by
  rw [statevector_of_wellFormed h hexact hs, hone, one_mulVec, ← State.eq_ofVector hs rfl]

theorem Operation.undoes_of_mul_eq_one {o x : Operation ℝ} {d : ℕ} {a b : Operator d}
    (ho : o.WellFormed) (hx : x.WellFormed) (hexact : o.IsExact) (hexact' : x.IsExact)
    (hmeans : o.Means a) (hmeans' : x.Means b) (hone : b * a = 1) : x.Undoes o := by
  intro c wires hc hcexact hwires
  have hwell := hc.wellFormed
  have harity : o.arity = x.arity := hmeans.arity.trans hmeans'.arity.symm
  have happend : c.append o wires = .ok { c with steps := c.steps ++ [⟨o, wires⟩] } :=
    Circuit.append_eq_ok_iff.2 ⟨hwires, rfl⟩
  have happend' : Circuit.append { c with steps := c.steps ++ [⟨o, wires⟩] } x wires =
      .ok { c with steps := c.steps ++ [⟨o, wires⟩] ++ [⟨x, wires⟩] } :=
    Circuit.append_eq_ok_iff.2 ⟨harity ▸ hwires, rfl⟩
  have hsteps := Operation.isExact_composite.1 hcexact
  have hall : (Operation.composite
      { c with steps := c.steps ++ [⟨o, wires⟩] ++ [⟨x, wires⟩] }).IsExact := by
    refine Operation.isExact_composite.2 fun s hs => ?_
    rcases List.mem_append.1 hs with hs | hs
    · rcases List.mem_append.1 hs with hs | hs
      · exact hsteps s hs
      · exact List.mem_singleton.1 hs ▸ hexact
    · exact List.mem_singleton.1 hs ▸ hexact'
  refine ⟨_, _, happend, happend', fun s hs => ?_⟩
  have hvalue := Circuit.statevector_of_wellFormed hwell hcexact hs
  have hvalue' := Circuit.statevector_of_wellFormed
    ((hwell.append ho happend).append hx happend') hall hs
  have hlist : Selects c.wires d wires := hmeans.arity ▸ hwires
  have hpair : stepsMeaning c.wires [⟨x, wires⟩] * stepsMeaning c.wires [⟨o, wires⟩] = 1 := by
    rw [stepsMeaning_singleton, stepsMeaning_singleton, hmeans.placed_eq, hmeans'.placed_eq,
      ← placed_mul hlist (List.forall_mem_nil _), hone, placed_one hlist]
  have hmeaning : stepsMeaning c.wires (c.steps ++ [⟨o, wires⟩] ++ [⟨x, wires⟩]) = c.meaning := by
    rw [stepsMeaning_append, stepsMeaning_append, ← mul_assoc, hpair, one_mul]
    rfl
  change _ = Except.ok (State.ofVector (stepsMeaning c.wires _ *ᵥ s.vector c.wires)) at hvalue'
  rw [hmeaning] at hvalue'
  refine ⟨_, hvalue, hvalue', fun hempty => ?_⟩
  have hidentity : c.meaning = 1 := by
    rw [Circuit.meaning, hempty, stepsMeaning]
  rw [hidentity, one_mulVec, ← State.eq_ofVector hs rfl]

theorem Circuit.extend_undoes {c d : Circuit ℝ} (hc : c.WellFormed) (hd : d.WellFormed)
    (hcexact : (Operation.composite c).IsExact) (hdexact : (Operation.composite d).IsExact)
    (hlayout : d.layout = c.layout)
    (hone : stepsMeaning c.wires d.steps * stepsMeaning c.wires c.steps = 1) :
    ∃ e, c.extend d = .ok e ∧ ∀ s : State ℝ, s.qubits = c.wires → e.statevector s = .ok s := by
  have hagrees : c.layout.agrees d.layout = true := by
    rw [hlayout, Layout.agrees, beq_self_eq_true, beq_self_eq_true, Bool.and_self]
  have hextend : c.extend d = .ok { c with steps := c.steps ++ d.steps } := by
    rw [Circuit.extend, if_pos hagrees]
  have hexact : (Operation.composite { c with steps := c.steps ++ d.steps }).IsExact := by
    refine Operation.isExact_composite.2 fun s hs => ?_
    rcases List.mem_append.1 hs with hs | hs
    · exact Operation.isExact_composite.1 hcexact s hs
    · exact Operation.isExact_composite.1 hdexact s hs
  refine ⟨_, hextend, fun s hs => ?_⟩
  refine Circuit.statevector_of_meaning_one (hc.extend hd hextend) hexact ?_ hs
  exact (stepsMeaning_append c.wires c.steps d.steps).trans hone

theorem Circuit.meaning_inverse {c d : Circuit ℝ} (h : c.WellFormed)
    (hexact : (Operation.composite c).IsExact) (hd : c.inverse = .ok d) :
    stepsMeaning c.wires d.steps = c.meaningᴴ := by
  obtain ⟨hlayout, hadjoint⟩ := adjoint_of_inverse hd
  have hmeans := Operation.WellFormed.means_adjoint h hadjoint (isExact_iff.1 hexact)
  obtain ⟨name, layout, steps⟩ := d
  obtain rfl : layout = c.layout := hlayout
  exact eq_of_heq hmeans.meaning

end Cancellation

/-- Every circuit has an inverse that undoes it and that it undoes, and so has every operation in
both ways to invert it. -/
theorem inversion_undoes [EigenSolver ℝ] [OrthonormalSpectra] :
    (∀ c : Circuit ℝ, c.Built → (Operation.composite c).IsExact →
      (Operation.composite c).HoldsUnitary →
        ∃ d, c.inverse = .ok d ∧
          (∃ e, c.extend d = .ok e ∧ ∀ s : State ℝ, s.qubits = c.wires → e.statevector s = .ok s) ∧
          ∃ e, d.extend c = .ok e ∧ ∀ s : State ℝ, s.qubits = c.wires → e.statevector s = .ok s) ∧
    ∀ o : Operation ℝ, o.Built → o.IsExact → o.HoldsUnitary →
      ∃ i a, o.inverse = .ok i ∧ o.adjoint = .ok a ∧
        i.Undoes o ∧ o.Undoes i ∧ a.Undoes o ∧ o.Undoes a := by
  constructor
  · intro c hbuilt hexact hdense
    have hwell := hbuilt.wellFormed
    obtain ⟨d, hd⟩ := Circuit.exists_inverse hexact.resets
    obtain ⟨hlayout, hadjoint⟩ := Circuit.adjoint_of_inverse hd
    have hexact' := hexact.adjoint hadjoint
    have hwell' := hwell.inverse hd
    have hmeaning := Circuit.meaning_inverse hwell hexact hd
    have hunitary : c.meaning ∈ unitaryGroup _ ℂ := Operation.meaning_mem_unitary hwell hdense
    have hwires : d.wires = c.wires := congrArg Layout.wires hlayout
    refine ⟨d, hd, ?_, ?_⟩
    · refine Circuit.extend_undoes hwell hwell' hexact hexact' hlayout ?_
      rw [hmeaning]
      exact mem_unitaryGroup_iff'.1 hunitary
    · rw [← hwires]
      refine Circuit.extend_undoes hwell' hwell hexact' hexact hlayout.symm ?_
      rw [hwires, hmeaning]
      exact mem_unitaryGroup_iff.1 hunitary
  · intro o hbuilt hexact hdense
    have hwell := hbuilt.wellFormed
    have hunitary := Operation.meaning_mem_unitary hwell hdense
    have hcancel : o.meaningᴴ * o.meaning = 1 := mem_unitaryGroup_iff'.1 hunitary
    have hcancel' : o.meaning * o.meaningᴴ = 1 := mem_unitaryGroup_iff.1 hunitary
    obtain ⟨i, hi⟩ := Operation.exists_inverse hexact.resets
    obtain ⟨a, ha⟩ := Operation.exists_adjoint hexact.resets
    have himeans := hwell.means_inverse hi hexact
    have hameans := hwell.means_adjoint ha (isExact_iff.1 hexact)
    have hiwell := (hwell.inverse hi).1
    have hawell := (hwell.adjoint ha).1
    refine ⟨i, a, hi, ha, ?_, ?_, ?_, ?_⟩
    · exact undoes_of_mul_eq_one hwell hiwell hexact (hexact.inverse hi) (.refl o) himeans hcancel
    · exact undoes_of_mul_eq_one hiwell hwell (hexact.inverse hi) hexact himeans (.refl o) hcancel'
    · exact undoes_of_mul_eq_one hwell hawell hexact (hexact.adjoint ha) (.refl o) hameans hcancel
    · exact undoes_of_mul_eq_one hawell hwell (hexact.adjoint ha) hexact hameans (.refl o) hcancel'

attribute [local instance] EigenSolver.spectral in
theorem inversion_undoes_nested :
    ((Circuit.nested : Circuit ℝ).Built ∧ (Operation.composite (.nested : Circuit ℝ)).IsExact ∧
      (Operation.composite (.nested : Circuit ℝ)).HoldsUnitary ∧
      ∃ d : Circuit ℝ, Circuit.nested.inverse = .ok d ∧
        (∃ e, Circuit.nested.extend d = .ok e ∧
          ∀ s : State ℝ, s.qubits = 2 → e.statevector s = .ok s) ∧
        ∃ e, d.extend .nested = .ok e ∧ ∀ s : State ℝ, s.qubits = 2 → e.statevector s = .ok s) ∧
    (Operation.nested : Operation ℝ).Built ∧ (Operation.nested : Operation ℝ).IsExact ∧
      (Operation.nested : Operation ℝ).HoldsUnitary ∧
      ∃ i a : Operation ℝ, Operation.nested.inverse = .ok i ∧ Operation.nested.adjoint = .ok a ∧
        i.Undoes .nested ∧ Operation.Undoes .nested i ∧ a.Undoes .nested ∧ Operation.Undoes .nested a :=
  have := EigenSolver.orthonormalSpectra_spectral
  ⟨⟨Circuit.nested_built, Circuit.isExact_nested, Circuit.holdsUnitary_nested,
    inversion_undoes.1 .nested Circuit.nested_built Circuit.isExact_nested
      Circuit.holdsUnitary_nested⟩,
    Operation.nested_built, Operation.isExact_nested, Operation.holdsUnitary_nested,
    inversion_undoes.2 .nested Operation.nested_built Operation.isExact_nested
      Operation.holdsUnitary_nested⟩

end QuantumCircuits
end
