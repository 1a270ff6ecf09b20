import Mathlib
import QuantumCircuits.Proofs.Algorithm.Gates
import QuantumCircuits.Proofs.Operator.Phases
import QuantumCircuits.Proofs.Operator.Registers
import QuantumCircuits.Proofs.Simulation.Unitarity

/-! The meaning of steps that go together: rotations about Z, Hadamard gates on the wires of a
register, and rotations of one wire under the wires of a register. -/

noncomputable section
namespace QuantumCircuits
open Matrix QuantumCircuits.Basis Operator DenseMatrix

variable [EigenSolver ℝ] {n d : ℕ}

theorem Gate.IsZRotation.isDiag_meaning {g : Gate ℝ} (h : g.IsZRotation) : g.meaning.IsDiag := by
  obtain ⟨x, rfl⟩ := h
  have hmatrix : ((rotationZ x).toMatrix 2 2).IsDiag := by
    rw [toMatrix_rotationZ]
    intro i j hne
    fin_cases i <;> fin_cases j
    · exact absurd rfl hne
    · rfl
    · rfl
    · exact absurd rfl hne
  exact isDiag_placed (Selects.range' rfl) hmatrix

theorem Operation.isDiag_meaning {o : Operation ℝ} (h : o.WellFormed) {b : Bool}
    (hgates : ∀ g ∈ o.gates b, g.1.IsZRotation) : o.meaning.IsDiag := by
  induction h generalizing b with
  | primitive gate => exact (hgates _ List.mem_cons_self).isDiag_meaning
  | @composite c _ fits _ ih =>
    change (stepsMeaning c.wires c.steps).IsDiag
    rw [stepsMeaning_eq_prod]
    refine isDiag_list_prod fun m hm => ?_
    obtain ⟨s, hs, rfl⟩ := List.mem_map.1 (List.mem_reverse.1 hm)
    have hinner : ∀ g ∈ s.operation.gates b, g.1.IsZRotation := fun g hg =>
      hgates g (mem_gates_composite hs hg)
    exact isDiag_placed (fits s hs) (ih s hs hinner)
  | @controlled o s _ _ _ ih =>
    exact isDiag_placed (Selects.range' (Nat.add_comm s.length o.arity)) (ih hgates)
  | powered _ _ ih => exact isDiag_pow (ih hgates) _
  | inverted _ _ ih => exact (ih hgates).conjTranspose

namespace Operation

theorem MadeOf.meaning_mem_unitary [OrthonormalSpectra] {o : Operation ℝ}
    (h : o.MadeOf Gate.IsNumeric) : o.meaning ∈ unitaryGroup _ ℂ := by
  refine Operation.meaning_mem_unitary h.wellFormed (b := false) fun g hg label m same => ?_
  have hnumeric := h.gates false g hg
  rw [same] at hnumeric
  exact hnumeric.elim

theorem placed_stepsMeaning {m : ℕ} (h : m ≤ n) {steps : List (Step (Operation ℝ))}
    (fits : ∀ s ∈ steps, s.Fits m) :
    placed [] (List.range m) (stepsMeaning m steps) = stepsMeaning n steps := by
  have hrange : Selects n m (List.range m) := (Selects.range m).mono h
  rw [stepsMeaning_eq_prod, stepsMeaning_eq_prod, placed_prod hrange (List.forall_mem_nil _),
    List.map_reverse, List.map_map]
  congr 2
  refine List.map_congr_left fun s hs => ?_
  have houter : Instruction.outer (List.range m) s.wires = s.wires := by
    refine (List.map_congr_left fun w hw => ?_).trans (List.map_id _)
    have hw' := (fits s hs).below w hw
    simp [hw']
  change placed [] (List.range m) (placed [] s.wires s.operation.meaning : Operator m) = _
  rw [placed_placed hrange (fits s hs) (List.forall_mem_nil _), houter]
  rfl

theorem commute_stepsMeaning {steps : List (Step (Operation ℝ))} {r : Operator n}
    (h : ∀ s ∈ steps, Commute (placed [] s.wires s.operation.meaning : Operator n) r) :
    Commute (stepsMeaning n steps) r := by
  rw [stepsMeaning_eq_prod]
  refine Commute.list_prod_left _ _ fun m hm => ?_
  obtain ⟨s, hs, rfl⟩ := List.mem_map.1 (List.mem_reverse.1 hm)
  exact h s hs

theorem means_hadamard :
    (Operation.primitive (.fixed .h)).Means (d := 1) (hadamard.toMatrix 2 2) := .uncontrolled rfl rfl rfl

theorem stepsMeaning_hadamards (wires : List ℕ) :
    stepsMeaning n (wires.map fun w => .fixed .h [w]) = hadamards n wires := by
  induction wires with
  | nil => rfl
  | cons w ws ih =>
    rw [List.map_cons, hadamards, ← ih]
    change stepsMeaning n _ * placed [] [w] (Operation.primitive (.fixed .h)).meaning = _
    rw [means_hadamard.placed_eq]

theorem means_cry (θ : ℝ) : (Operation.primitive (.cry (.value θ))).Means
    (placed [(0, true)] [1] (yRotation θ) : Operator 2) := .primitive rfl rfl rfl

theorem Means.placed_pair {o : Operation ℝ} {m : Operator 1} {c target : ℕ}
    (h : o.Means (placed [(0, true)] [1] m : Operator 2)) (hsel : Selects n 2 [c, target]) :
    (placed [] [c, target] o.meaning : Operator n) = placed [(c, true)] [target] m := by
  rw [h.placed_eq, placed_placed hsel (selects_singleton Nat.one_lt_two) (by decide)]
  rfl

theorem means_powerOfTwo_cry {θ : ℝ} {k : ℕ} {o : Operation ℝ}
    (h : (Operation.primitive (.cry (.value θ))).powerOfTwo k = .ok o) :
    o.Means (placed [(0, true)] [1] (yRotation (2 ^ k * θ)) : Operator 2) := by
  have hpow : yRotation θ ^ (1 <<< k) = yRotation (2 ^ k * θ) := by
    have hcount : ((1 <<< k : ℕ) : ℝ) = 2 ^ k := by
      rw [Nat.one_shiftLeft]
      push_cast
      rfl
    exact hcount ▸ isRotation_yRotation.pow θ (1 <<< k)
  unfold powerOfTwo power at h
  split at h
  · split at h
    · cases h
    · cases h
      have hpowered := (means_cry θ).powered (1 <<< k)
      rwa [← placed_pow (selects_singleton Nat.one_lt_two) (by decide), hpow] at hpowered
  · cases h

section Sums

variable {k : ℕ} {steps : ℕ → Step (Operation ℝ)} {f : ℕ → ℕ → ℝ}

theorem stepsMeaning_phased
    (h : ∀ j < k, (placed [] (steps j).wires (steps j).operation.meaning : Operator n) = phased n (f j)) :
    stepsMeaning n ((List.range k).map steps) = phased n fun i => ∑ j ∈ Finset.range k, f j i := by
  induction k with
  | zero => exact phased_zero.symm
  | succ k ih =>
    rw [List.range_succ, List.map_append, stepsMeaning_append, List.map_singleton, stepsMeaning_singleton,
      h k (Nat.lt_succ_self k), ih fun j hj => h j (Nat.lt_succ_of_lt hj), phased_mul]
    exact phased_congr fun i _ => by rw [Finset.sum_range_succ, add_comm]

theorem stepsMeaning_rotates {m : ℝ → Operator 1} {target : ℕ} (hm : IsRotation m) (htarget : target < n)
    (h : ∀ j < k, Rotates m target (f j)
      (placed [] (steps j).wires (steps j).operation.meaning : Operator n)) :
    Rotates m target (fun i => ∑ j ∈ Finset.range k, f j i) (stepsMeaning n ((List.range k).map steps)) := by
  induction k with
  | zero => exact rotates_one hm htarget
  | succ k ih =>
    have hstep := (h k (Nat.lt_succ_self k)).mul hm htarget (ih fun j hj => h j (Nat.lt_succ_of_lt hj))
    rw [List.range_succ, List.map_append, stepsMeaning_append, List.map_singleton, stepsMeaning_singleton]
    simpa only [Finset.sum_range_succ, add_comm] using hstep

end Sums

theorem stepsMeaning_ladder {m : ℝ → Operator 1} {target first count k : ℕ} {θ : ℝ}
    {steps : List (Step (Operation ℝ))} (fits : ∀ s ∈ steps, s.Fits n)
    (h : List.Forall₂ (fun (i : ℕ) (s : Step (Operation ℝ)) => s.wires = [first + i, target] ∧
      s.operation.Means (placed [(0, true)] [1] (m (2 ^ i * θ)) : Operator 2))
      (List.range' k count) steps) :
    stepsMeaning n steps = ladder m target (2 ^ k * θ) (List.range' (first + k) count) := by
  induction count generalizing k steps with
  | zero =>
    cases h
    rfl
  | succ count ih =>
    obtain ⟨⟨o, _⟩, rest, ⟨hwires, hmeans⟩, hrest, rfl⟩ := List.forall₂_cons_left_iff.1 h
    obtain rfl : _ = _ := hwires
    obtain ⟨hfit, hfits⟩ := List.forall_mem_cons.1 fits
    have hsel : Selects n 2 [first + k, target] := hmeans.arity ▸ hfit
    have hangle : 2 ^ (k + 1) * θ = 2 ^ k * θ + 2 ^ k * θ := by ring
    rw [stepsMeaning, ih hfits hrest, hangle, hmeans.placed_pair hsel]
    rfl

end Operation

end QuantumCircuits
end
