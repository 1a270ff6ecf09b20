import Mathlib
import QuantumCircuits.Proofs.Gate.Matrices
import QuantumCircuits.Proofs.Simulation.Meaning

/-! Meanings under inversion: every operation means a unitary map, as long as its dense gates hold
unitary matrices, and both ways to invert an operation give the adjoint map. -/

noncomputable section
namespace QuantumCircuits
open Matrix QuantumCircuits.Basis Operator

def Gate.HoldsUnitary (g : Gate ℝ) : Prop :=
  ∀ label matrix, g = .dense label matrix →
    matrix.toMatrix (2 ^ matrix.wireCount) (2 ^ matrix.wireCount) ∈ unitaryGroup _ ℂ

def Operation.HoldsUnitary (o : Operation ℝ) : Prop := ∀ g ∈ o.gates false, g.1.HoldsUnitary

theorem Operation.holdsUnitary_nested : (Operation.nested : Operation ℝ).HoldsUnitary := by
  simp [Operation.HoldsUnitary, Operation.nested, Operation.gates, Operation.stepGates,
    Step.fixed, Step.gate, Gate.HoldsUnitary]

theorem Circuit.holdsUnitary_nested : (Operation.composite (.nested : Circuit ℝ)).HoldsUnitary := by
  simp [Operation.HoldsUnitary, Circuit.nested, Operation.nested,
    Operation.gates, Operation.stepGates, Step.fixed, Step.gate, Gate.HoldsUnitary]

variable [EigenSolver ℝ]

theorem Operation.stepsMeaning_mem_unitary {n : ℕ} {steps : List (Step (Operation ℝ))}
    (fits : ∀ s ∈ steps, s.Fits n) (h : ∀ s ∈ steps, s.operation.meaning ∈ unitaryGroup _ ℂ) :
    stepsMeaning n steps ∈ unitaryGroup _ ℂ := by
  rw [stepsMeaning_eq_prod]
  refine list_prod_mem fun m hm => ?_
  obtain ⟨s, hs, rfl⟩ := List.mem_map.1 (List.mem_reverse.1 hm)
  exact placed_mem_unitary (fits s hs) (List.forall_mem_nil _) (h s hs)

section Unitary

variable [OrthonormalSpectra]

theorem Gate.action_mem_unitary {g : Gate ℝ} (h : g.WellFormed) (hdense : g.HoldsUnitary) :
    g.action ∈ unitaryGroup _ ℂ := by
  unfold Gate.action
  split
  · next m hm => exact Gate.targetMatrix_mem_unitary h hdense hm
  · exact one_mem _

theorem Gate.meaning_mem_unitary {g : Gate ℝ} (h : g.WellFormed) (hdense : g.HoldsUnitary) :
    g.meaning ∈ unitaryGroup _ ℂ := by
  have hwires := Selects.range' (Nat.add_sub_of_le g.controls_le_arity)
  exact placed_mem_unitary hwires (not_mem_range' fst_lt_of_mem_map) (action_mem_unitary h hdense)

theorem Operation.meaning_mem_unitary {o : Operation ℝ} (h : o.WellFormed) {b : Bool}
    (hdense : ∀ g ∈ o.gates b, g.1.HoldsUnitary) : o.meaning ∈ unitaryGroup _ ℂ := by
  induction h generalizing b with
  | primitive gate => exact Gate.meaning_mem_unitary gate (hdense _ List.mem_cons_self)
  | @composite c _ fits _ ih =>
    refine stepsMeaning_mem_unitary fits fun s hs => ?_
    have hinner : ∀ g ∈ s.operation.gates b, g.1.HoldsUnitary := fun g hg =>
      hdense g (mem_gates_composite hs hg)
    exact ih s hs hinner
  | @controlled o s _ _ _ ih =>
    have hwires := Selects.range' (Nat.add_comm s.length o.arity)
    exact placed_mem_unitary hwires (not_mem_range' fst_lt_of_mem_zip) (ih hdense)
  | powered _ _ ih => exact pow_mem (ih hdense) _
  | inverted _ _ ih => exact Unitary.star_mem (ih hdense)

end Unitary

/-- The operation means the map, on as many wires as the map acts on. -/
structure Operation.Means (o : Operation ℝ) {d : ℕ} (m : Operator d) : Prop where
  arity : o.arity = d
  meaning : HEq o.meaning m

namespace Operation.Means

variable {o : Operation ℝ} {d n : ℕ} {m : Operator d}

theorem refl (o : Operation ℝ) : o.Means o.meaning := ⟨rfl, .rfl⟩

theorem placed_eq (h : o.Means m) (controls : List (ℕ × Bool)) (wires : List ℕ) :
    (placed controls wires o.meaning : Operator n) = placed controls wires m := by
  obtain ⟨rfl, hmeaning⟩ := h
  rw [eq_of_heq hmeaning]

theorem primitive {g : Gate ℝ} {k : ℕ} {a : DenseMatrix (Cx ℝ)} (harity : g.arity = d)
    (hcontrols : g.controls = k) (ha : g.targetMatrix = .ok a) :
    (Operation.primitive g).Means (placed ((List.range k).map fun w => (w, true))
      (List.range' k (d - k)) (a.toMatrix (2 ^ (d - k)) (2 ^ (d - k))) : Operator d) := by
  subst harity hcontrols
  refine ⟨rfl, heq_of_eq ?_⟩
  change g.meaning = _
  rw [Gate.meaning, Gate.action, ha]

theorem uncontrolled {g : Gate ℝ} {a : DenseMatrix (Cx ℝ)} (harity : g.arity = d) (hcontrols : g.controls = 0)
    (ha : g.targetMatrix = .ok a) : (Operation.primitive g).Means (a.toMatrix (2 ^ d) (2 ^ d)) := by
  have hmeans : (Operation.primitive g).Means (placed [] (List.range' 0 d) (a.toMatrix (2 ^ d) (2 ^ d)) : Operator d) :=
    primitive harity hcontrols ha
  rwa [← List.range_eq_range', placed_range] at hmeans

theorem controlled (h : o.Means m) (s : ControlState) :
    (Operation.controlled o s).Means (placed ((List.range s.length).zip s.flags)
      (List.range' s.length d) m : Operator (d + s.length)) := by
  obtain ⟨rfl, hmeaning⟩ := h
  rw [← eq_of_heq hmeaning]
  exact refl _

theorem powered (h : o.Means m) (e : ℕ) : (Operation.powered o e).Means (m ^ e) := by
  obtain ⟨rfl, hmeaning⟩ := h
  rw [← eq_of_heq hmeaning]
  exact refl _

end Operation.Means

namespace Operation

variable [SquareSpectra ℝ]

theorem means_adjoint_primitive {g a : Gate ℝ} (h : g.WellFormed) (ha : g.adjoint = .ok a)
    (htokens : g.tokenNames = []) (hunitary : g.isUnitary = true) :
    (Operation.primitive a).Means (Operation.primitive g).meaningᴴ := by
  obtain ⟨m, hm⟩ := Gate.exists_targetMatrix htokens hunitary
  obtain ⟨m', hm', hadjoint⟩ := Gate.targetMatrix_adjoint h ha hm
  obtain ⟨_, harity, hcontrols, _⟩ := h.adjoint ha
  have hmeans := Means.primitive harity hcontrols hm'
  rw [hadjoint, placed_conjTranspose (not_mem_range' fst_lt_of_mem_map)] at hmeans
  have hmeaning := eq_of_heq (Means.primitive rfl rfl hm).meaning
  rwa [← hmeaning] at hmeans

theorem WellFormed.means_adjoint {o a : Operation ℝ} (h : o.WellFormed) (ha : o.adjoint = .ok a) {b : Bool}
    (hexact : ∀ g ∈ o.gates b, Gate.IsExact g) : a.Means o.meaningᴴ := by
  induction h generalizing a b with
  | primitive gate =>
    obtain ⟨g', hg, same⟩ := bind_eq_ok_iff.1 ha
    obtain rfl := pure_eq_ok_iff.1 same
    have hgate := hexact _ List.mem_cons_self
    exact means_adjoint_primitive gate hg hgate.tokens hgate.resets
  | @composite c _ _ _ ih =>
    obtain ⟨name, l, steps⟩ := c
    obtain ⟨_, hsteps, same⟩ := bind_eq_ok_iff.1 ha
    obtain rfl := pure_eq_ok_iff.1 same
    obtain ⟨images, himages, rfl⟩ := adjointSteps_eq_ok_iff.1 hsteps
    refine ⟨rfl, heq_of_eq ?_⟩
    change stepsMeaning l.wires (images.reverse ++ []) = (stepsMeaning l.wires steps)ᴴ
    have hmap : (images.map fun t => (placed [] t.wires t.operation.meaning : Operator l.wires)) =
        steps.map fun s => (placed [] s.wires s.operation.meaning : Operator l.wires)ᴴ := by
      refine map_eq_map_of_forall₂ himages fun s hs t himage => ?_
      have hinner : ∀ g ∈ s.operation.gates b, Gate.IsExact g := fun g hg =>
        hexact g (mem_gates_composite hs hg)
      rw [himage.2, (ih s hs himage.1 hinner).placed_eq,
        placed_conjTranspose (List.forall_mem_nil _)]
    rw [List.append_nil, stepsMeaning_eq_prod, stepsMeaning_eq_prod, conjTranspose_list_prod,
      List.map_reverse, List.reverse_reverse, List.map_reverse, List.reverse_reverse, List.map_map, hmap]
    rfl
  | @controlled o s _ _ _ ih =>
    obtain ⟨inner, hinner, same⟩ := bind_eq_ok_iff.1 ha
    obtain rfl := pure_eq_ok_iff.1 same
    have hmeans := (ih hinner hexact).controlled s
    rwa [placed_conjTranspose (not_mem_range' fst_lt_of_mem_zip)] at hmeans
  | @powered o e _ _ ih =>
    obtain ⟨inner, hinner, same⟩ := bind_eq_ok_iff.1 ha
    obtain rfl := pure_eq_ok_iff.1 same
    have hmeans := (ih hinner hexact).powered e
    rwa [← conjTranspose_pow] at hmeans
  | @inverted o _ _ _ =>
    cases ha
    refine ⟨rfl, heq_of_eq ?_⟩
    exact (conjTranspose_conjTranspose o.meaning).symm

theorem WellFormed.means_inverse {o a : Operation ℝ} (h : o.WellFormed) (ha : o.inverse = .ok a)
    (hexact : o.IsExact) : a.Means o.meaningᴴ := by
  have hgates := isExact_iff.1 hexact
  have wrapped (hwrap : (do o.checkInvertible; return .inverted o) = Except.ok a) :
      a.Means o.meaningᴴ := by
    obtain ⟨_, _, same⟩ := bind_eq_ok_iff.1 hwrap
    obtain rfl := pure_eq_ok_iff.1 same
    exact .refl _
  cases h with
  | primitive gate => exact (WellFormed.primitive gate).means_adjoint ha hgates
  | inverted inner unitary => exact (WellFormed.inverted inner unitary).means_adjoint ha hgates
  | composite => exact wrapped ha
  | controlled => exact wrapped ha
  | powered => exact wrapped ha

end Operation
end QuantumCircuits
end
