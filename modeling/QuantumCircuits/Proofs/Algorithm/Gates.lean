import Mathlib
import QuantumCircuits.Algorithm.LinearSystem
import QuantumCircuits.Proofs.Circuit.MadeOf

/-! The gates that the builders place: numbers for all parameters, and in the rotation ladders
rotations about Z only. -/

namespace QuantumCircuits

variable {R : Type}

def Gate.IsZRotation (g : Gate R) : Prop := ∃ x, g = .angle .rz (.value x)

theorem Gate.IsZRotation.isNumeric {g : Gate R} (h : g.IsZRotation) : g.IsNumeric := by
  obtain ⟨x, rfl⟩ := h
  rfl

variable [Scalar R]

theorem Operation.MadeOf.fixed (kind : FixedGate) (wires : List ℕ) :
    (Step.fixed kind wires : Step (Operation R)).operation.MadeOf Gate.IsNumeric :=
  .primitive trivial trivial

theorem Operation.MadeOf.angle (kind : AngleGate) (x : R) (wires : List ℕ) :
    (Step.gate (.angle kind (.value x)) wires).operation.MadeOf Gate.IsNumeric :=
  .primitive trivial rfl

theorem Operation.MadeOf.zRotation (x : R) (wires : List ℕ) :
    (Step.gate (.rz (.value x)) wires).operation.MadeOf Gate.IsZRotation :=
  .primitive trivial ⟨x, rfl⟩

section PhaseEstimation

variable {P : Gate R → Prop} (hfixed : ∀ kind, P (.fixed kind)) (hangle : ∀ kind x, P (.angle kind (.value x)))

include hfixed hangle

namespace Fourier

theorem madeOf_steps (n : ℕ) :
    ∀ s ∈ reversal n ++ (List.range n).flatMap (stage n), s.operation.MadeOf P := by
  intro s hs
  rcases List.mem_append.1 hs with hs | hs
  · obtain ⟨i, _, rfl⟩ := List.mem_map.1 hs
    exact .primitive trivial (hfixed .swap)
  · obtain ⟨i, _, hs⟩ := List.mem_flatMap.1 hs
    rcases List.mem_cons.1 hs with rfl | hs
    · exact .primitive trivial (hfixed .h)
    · obtain ⟨j, _, rfl⟩ := List.mem_map.1 hs
      exact .primitive trivial (hangle .cphase _)

theorem madeOf_transform {n : ℕ} {o : Operation R} (h : transform n = .ok o) : o.MadeOf P := by
  obtain ⟨⟨_, empty⟩, hempty, h⟩ := bind_eq_ok_iff.1 h
  obtain ⟨circuit, hcircuit, same⟩ := bind_eq_ok_iff.1 h
  obtain rfl := pure_eq_ok_iff.1 same
  have hregister : empty.MadeOf P := (Circuit.MadeOf.empty "qft").addRegister hempty
  exact hregister.appendAll (madeOf_steps hfixed hangle n) hcircuit

theorem madeOf_inverseTransform {n : ℕ} {o : Operation R} (h : inverseTransform n = .ok o) :
    o.MadeOf P := by
  obtain ⟨t, ht, hinverse⟩ := bind_eq_ok_iff.1 h
  have htransform : t.MadeOf P := madeOf_transform hfixed hangle ht
  obtain ⟨_, _, ht⟩ := bind_eq_ok_iff.1 ht
  obtain ⟨_, _, same⟩ := bind_eq_ok_iff.1 ht
  obtain rfl := pure_eq_ok_iff.1 same
  exact htransform.inverse hinverse

end Fourier

theorem madeOf_phaseEstimation {n t : ℕ} {u o : Operation R} (hu : u.MadeOf P)
    (h : phaseEstimation n t u = .ok o) : o.MadeOf P := by
  unfold phaseEstimation at h
  split at h
  · cases h
  · obtain ⟨⟨b, c₁⟩, hb, h⟩ := bind_eq_ok_iff.1 h
    obtain ⟨⟨c, c₂⟩, hc, h⟩ := bind_eq_ok_iff.1 h
    obtain ⟨c₃, hc₃, h⟩ := bind_eq_ok_iff.1 h
    obtain ⟨steps, hsteps, h⟩ := bind_eq_ok_iff.1 h
    obtain ⟨c₄, hc₄, h⟩ := bind_eq_ok_iff.1 h
    obtain ⟨f, hf, h⟩ := bind_eq_ok_iff.1 h
    obtain ⟨c₅, hc₅, same⟩ := bind_eq_ok_iff.1 h
    obtain rfl := pure_eq_ok_iff.1 same
    have h₂ : c₂.MadeOf P := ((Circuit.MadeOf.empty "qpe").addRegister hb).addRegister hc
    have h₃ : c₃.MadeOf P := by
      refine h₂.appendAll (fun s hs => ?_) hc₃
      obtain ⟨w, _, rfl⟩ := List.mem_map.1 hs
      exact .primitive trivial (hfixed .h)
    have h₄ : c₄.MadeOf P := by
      refine h₃.appendAll (fun s hs => ?_) hc₄
      obtain ⟨i, _, hi⟩ := exists_of_forall₂_right (mapM_eq_ok_iff.1 hsteps) s hs
      obtain ⟨powered, hpowered, hi⟩ := bind_eq_ok_iff.1 hi
      obtain ⟨controlled, hcontrolled, same⟩ := bind_eq_ok_iff.1 hi
      obtain rfl := pure_eq_ok_iff.1 same
      exact (hu.powerOfTwo hpowered).control hcontrolled
    exact h₄.append (Fourier.madeOf_inverseTransform hfixed hangle hf) hc₅

end PhaseEstimation

namespace RotationLadder

theorem madeOf_kicks {m : ℕ} {c : R} {o : Operation R} (h : kicks m c = .ok o) :
    o.MadeOf Gate.IsZRotation := by
  obtain ⟨⟨w, c₁⟩, hw, h⟩ := bind_eq_ok_iff.1 h
  obtain ⟨c₂, hc₂, same⟩ := bind_eq_ok_iff.1 h
  obtain rfl := pure_eq_ok_iff.1 same
  refine Circuit.MadeOf.appendAll ((Circuit.MadeOf.empty "ladder").addRegister hw) (fun s hs => ?_) hc₂
  obtain ⟨i, _, rfl⟩ := List.mem_map.1 hs
  exact .zRotation _ _

theorem madeOf_bank {t m l k : ℕ} {c : ℕ → R} {o : Operation R} (h : bank t m l k c = .ok o) :
    o.MadeOf Gate.IsZRotation := by
  obtain ⟨⟨counting, c₁⟩, h₁, h⟩ := bind_eq_ok_iff.1 h
  obtain ⟨⟨workspace, c₂⟩, h₂, h⟩ := bind_eq_ok_iff.1 h
  obtain ⟨⟨out, c₃⟩, h₃, h⟩ := bind_eq_ok_iff.1 h
  obtain ⟨steps, hsteps, h⟩ := bind_eq_ok_iff.1 h
  obtain ⟨c₄, h₄, same⟩ := bind_eq_ok_iff.1 h
  obtain rfl := pure_eq_ok_iff.1 same
  have hempty : c₃.MadeOf Gate.IsZRotation :=
    (((Circuit.MadeOf.empty "controlled_ladders").addRegister h₁).addRegister h₂).addRegister h₃
  refine hempty.appendAll (fun s hs => ?_) h₄
  obtain ⟨i, _, hi⟩ := exists_of_forall₂_right (mapM_eq_ok_iff.1 hsteps) s hs
  obtain ⟨ladder, hladder, hi⟩ := bind_eq_ok_iff.1 hi
  obtain ⟨controlled, hcontrolled, same⟩ := bind_eq_ok_iff.1 hi
  obtain rfl := pure_eq_ok_iff.1 same
  exact (madeOf_kicks hladder).control hcontrolled

theorem madeOf_reciprocal {t m l : ℕ} {t0 : R} {o : Operation R} (h : reciprocal t m l t0 = .ok o) :
    o.MadeOf Gate.IsZRotation := by
  obtain ⟨⟨counting, c₁⟩, h₁, h⟩ := bind_eq_ok_iff.1 h
  obtain ⟨⟨workspace, c₂⟩, h₂, h⟩ := bind_eq_ok_iff.1 h
  obtain ⟨⟨out, c₃⟩, h₃, h⟩ := bind_eq_ok_iff.1 h
  obtain ⟨steps, hsteps, h⟩ := bind_eq_ok_iff.1 h
  obtain ⟨c₄, h₄, same⟩ := bind_eq_ok_iff.1 h
  obtain rfl := pure_eq_ok_iff.1 same
  have hempty : c₃.MadeOf Gate.IsZRotation :=
    (((Circuit.MadeOf.empty "reciprocal_rotation").addRegister h₁).addRegister h₂).addRegister h₃
  refine hempty.appendAll (fun s hs => ?_) h₄
  obtain ⟨k, _, hk⟩ := exists_of_forall₂_right (mapM_eq_ok_iff.1 hsteps) s hs
  obtain ⟨bank, hbank, same⟩ := bind_eq_ok_iff.1 hk
  obtain rfl := pure_eq_ok_iff.1 same
  exact madeOf_bank hbank

end RotationLadder

namespace LinearSystem

theorem madeOf_eigenvalueEstimation {a : DenseMatrix R} {t0 : R} {n t : ℕ} {o : Operation R}
    (h : eigenvalueEstimation a t0 n t = .ok o) : o.MadeOf Gate.IsNumeric := by
  obtain ⟨u, hu, h⟩ := bind_eq_ok_iff.1 h
  refine madeOf_phaseEstimation (fun _ => trivial) (fun _ _ => rfl) ?_ h
  unfold timeEvolution at hu
  split at hu
  · cases hu
  · obtain ⟨g, hg, same⟩ := bind_eq_ok_iff.1 hu
    obtain rfl := pure_eq_ok_iff.1 same
    obtain ⟨hwell, rfl⟩ := Gate.ofHamiltonian_eq_ok_iff.1 hg
    exact .primitive hwell rfl

end LinearSystem
end QuantumCircuits
