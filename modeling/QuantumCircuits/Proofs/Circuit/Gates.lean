import Mathlib
import QuantumCircuits.Proofs.Circuit.Session
import QuantumCircuits.Proofs.Circuit.Tokens

/-! The gates inside an operation, each with whether it stands under a control, and the circuits
whose evolution is exact: nothing is left open, nothing is random, and no noise is controlled. -/

namespace QuantumCircuits

variable {R : Type}

namespace Operation

mutual

/-- The gates inside, in the order of the steps, each with whether some control stands above it. -/
def gates (controlled : Bool) : Operation R → List (Gate R × Bool)
  | .primitive g => [(g, controlled)]
  | .composite ⟨_, _, steps⟩ => stepGates controlled steps
  | .controlled o _ => o.gates true
  | .powered o _ => o.gates controlled
  | .inverted o => o.gates controlled
termination_by structural o => o

def stepGates (controlled : Bool) : List (Step (Operation R)) → List (Gate R × Bool)
  | [] => []
  | ⟨o, _⟩ :: rest => o.gates controlled ++ stepGates controlled rest
termination_by structural steps => steps

end

theorem gates_composite (controlled : Bool) (c : Circuit R) :
    (Operation.composite c).gates controlled = c.steps.flatMap fun s => s.operation.gates controlled := by
  obtain ⟨name, layout, steps⟩ := c
  change stepGates controlled steps = _
  induction steps with
  | nil => rfl
  | cons s rest ih =>
    obtain ⟨o, w⟩ := s
    rw [stepGates, ih, List.flatMap_cons]

theorem mem_gates_composite {controlled : Bool} {c : Circuit R} {s : Step (Operation R)}
    (hs : s ∈ c.steps) {g : Gate R × Bool} (hg : g ∈ s.operation.gates controlled) :
    g ∈ (Operation.composite c).gates controlled := by
  rw [gates_composite]
  exact List.mem_flatMap.2 ⟨s, hs, hg⟩

theorem tokenNames_eq_flatMap (controlled : Bool) (o : Operation R) :
    o.tokenNames = (o.gates controlled).flatMap fun g => g.1.tokenNames := by
  induction o using Operation.induct generalizing controlled with
  | primitive g => rw [gates, List.flatMap_singleton, tokenNames]
  | composite c ih =>
    rw [tokenNames_composite, gates_composite, List.flatMap_assoc]
    exact List.flatMap_congr fun s hs => ih s hs controlled
  | controlled o s ih => exact ih true
  | powered o e ih => exact ih controlled
  | inverted o ih => exact ih controlled

theorem isUnitary_iff (controlled : Bool) (o : Operation R) :
    o.isUnitary = true ↔ ∀ g ∈ o.gates controlled, g.1.isUnitary = true := by
  induction o using Operation.induct generalizing controlled with
  | primitive g => simp [gates, isUnitary]
  | composite c ih =>
    rw [isUnitary_composite, gates_composite, List.all_eq_true, List.forall_mem_flatMap]
    exact forall₂_congr fun s hs => ih s hs controlled
  | controlled o s ih => exact ih true
  | powered o e ih => exact ih controlled
  | inverted o ih => exact ih controlled

theorem WellFormed.of_mem_gates [Scalar R] {o : Operation R} (h : o.WellFormed) (controlled : Bool) :
    ∀ g ∈ o.gates controlled, g.1.WellFormed := by
  induction h generalizing controlled with
  | primitive gate => exact List.forall_mem_singleton.2 gate
  | composite _ _ _ ih =>
    rw [gates_composite, List.forall_mem_flatMap]
    exact fun s hs => ih s hs controlled
  | controlled _ _ _ ih => exact ih true
  | powered _ _ ih => exact ih controlled
  | inverted _ _ ih => exact ih controlled

theorem map_gates (b c : Bool) (o : Operation R) :
    (o.gates b).map Prod.fst = (o.gates c).map Prod.fst := by
  induction o using Operation.induct generalizing b c with
  | primitive g => rfl
  | composite d ih =>
    rw [gates_composite, gates_composite, List.map_flatMap, List.map_flatMap]
    exact List.flatMap_congr fun s hs => ih s hs b c
  | controlled o s _ => rfl
  | powered o e ih => exact ih b c
  | inverted o ih => exact ih b c

/-- No token and no reset occurs inside, and no noise marker under a control. -/
structure IsExact (o : Operation R) : Prop where
  tokens : o.tokenNames = []
  resets : o.isUnitary = true
  noise : (.noise, true) ∉ o.gates false

end Operation

structure Gate.IsExact (g : Gate R × Bool) : Prop where
  tokens : g.1.tokenNames = []
  resets : g.1.isUnitary = true
  noise : g ≠ (.noise, true)

theorem Operation.isExact_iff {o : Operation R} :
    o.IsExact ↔ ∀ g ∈ o.gates false, Gate.IsExact g := by
  constructor
  · intro h g hg
    have htokens := h.tokens
    rw [tokenNames_eq_flatMap false, List.flatMap_eq_nil_iff] at htokens
    exact ⟨htokens g hg, (isUnitary_iff false o).1 h.resets g hg, fun same => h.noise (same ▸ hg)⟩
  · intro h
    refine ⟨?_, (isUnitary_iff false o).2 fun g hg => (h g hg).resets, fun hmem => (h _ hmem).noise rfl⟩
    rw [tokenNames_eq_flatMap false, List.flatMap_eq_nil_iff]
    exact fun g hg => (h g hg).tokens

theorem Operation.isExact_composite {c : Circuit R} :
    (Operation.composite c).IsExact ↔ ∀ s ∈ c.steps, s.operation.IsExact := by
  rw [isExact_iff, gates_composite, List.forall_mem_flatMap]
  exact forall₂_congr fun _ _ => isExact_iff.symm

theorem Gate.IsExact.adjoint [Scalar R] {g a : Gate R} {b : Bool} (h : Gate.IsExact (g, b))
    (ha : g.adjoint = .ok a) : Gate.IsExact (a, b) := by
  have hadjoint := Gate.adjoint_eq_ok_iff.1 ha
  have hneg {θ : Param R} (hθ : θ.tokenNames = []) : θ.neg.tokenNames = [] := by
    cases θ with
    | value v => rfl
    | token name c => cases hθ
  cases g with
  | fixed kind =>
    cases hadjoint
    exact ⟨rfl, rfl, nofun⟩
  | angle kind θ =>
    cases hadjoint
    exact ⟨hneg h.tokens, rfl, nofun⟩
  | dense label m =>
    cases hadjoint
    exact ⟨rfl, rfl, nofun⟩
  | evolution m time =>
    cases hadjoint
    exact ⟨hneg h.tokens, rfl, nofun⟩
  | noise =>
    cases hadjoint
    exact h
  | reset => cases hadjoint

namespace Operation

theorem exact_adjoint [Scalar R] {o a : Operation R} (ha : o.adjoint = .ok a) {b : Bool}
    (h : ∀ g ∈ o.gates b, Gate.IsExact g) : ∀ g ∈ a.gates b, Gate.IsExact g := by
  induction o using Operation.induct generalizing a b with
  | primitive g =>
    obtain ⟨g', hg, same⟩ := bind_eq_ok_iff.1 ha
    obtain rfl := pure_eq_ok_iff.1 same
    exact List.forall_mem_singleton.2 ((h _ List.mem_cons_self).adjoint hg)
  | composite c ih =>
    obtain ⟨name, l, steps⟩ := c
    obtain ⟨_, hsteps, same⟩ := bind_eq_ok_iff.1 ha
    obtain rfl := pure_eq_ok_iff.1 same
    obtain ⟨images, himages, rfl⟩ := adjointSteps_eq_ok_iff.1 hsteps
    rw [gates_composite, List.forall_mem_flatMap] at h ⊢
    intro t ht
    obtain ⟨s, hs, himage, _⟩ :=
      exists_of_forall₂_right himages t (List.mem_reverse.1 (by simpa using ht))
    exact ih s hs himage (h s hs)
  | controlled o s ih =>
    obtain ⟨inner, hinner, same⟩ := bind_eq_ok_iff.1 ha
    obtain rfl := pure_eq_ok_iff.1 same
    exact ih hinner (b := true) h
  | powered o e ih =>
    obtain ⟨inner, hinner, same⟩ := bind_eq_ok_iff.1 ha
    obtain rfl := pure_eq_ok_iff.1 same
    exact ih hinner (b := b) h
  | inverted o _ =>
    cases ha
    exact h

theorem IsExact.adjoint [Scalar R] {o a : Operation R} (h : o.IsExact) (ha : o.adjoint = .ok a) :
    a.IsExact := isExact_iff.2 (exact_adjoint ha (isExact_iff.1 h))

theorem IsExact.inverse [Scalar R] {o a : Operation R} (h : o.IsExact) (ha : o.inverse = .ok a) :
    a.IsExact := by
  have wrapped (hwrap : (do o.checkInvertible; return .inverted o) = Except.ok a) : a.IsExact := by
    obtain ⟨_, _, same⟩ := bind_eq_ok_iff.1 hwrap
    obtain rfl := pure_eq_ok_iff.1 same
    exact ⟨h.tokens, h.resets, h.noise⟩
  cases o with
  | primitive => exact h.adjoint ha
  | inverted => exact h.adjoint ha
  | composite => exact wrapped ha
  | controlled => exact wrapped ha
  | powered => exact wrapped ha

theorem exists_adjoint [Scalar R] {o : Operation R} (h : o.isUnitary = true) :
    ∃ a, o.adjoint = .ok a := by
  induction o using Operation.induct with
  | primitive g =>
    obtain ⟨a, ha⟩ := Gate.adjoint_of_isUnitary h
    exact ⟨.primitive a, bind_eq_ok_iff.2 ⟨a, ha, rfl⟩⟩
  | composite c ih =>
    obtain ⟨name, l, steps⟩ := c
    rw [isUnitary_composite, List.all_eq_true] at h
    have himages : ∃ images, List.Forall₂ (Step.Image Operation.adjoint) steps images := by
      refine exists_forall₂ fun s hs => ?_
      obtain ⟨a, ha⟩ := ih s hs (h s hs)
      exact ⟨⟨a, s.wires⟩, ha, rfl⟩
    obtain ⟨images, himages⟩ := himages
    exact ⟨_, bind_eq_ok_iff.2 ⟨_, adjointSteps_eq_ok_iff.2 ⟨images, himages, rfl⟩, rfl⟩⟩
  | controlled o s ih =>
    obtain ⟨a, ha⟩ := ih h
    exact ⟨.controlled a s, bind_eq_ok_iff.2 ⟨a, ha, rfl⟩⟩
  | powered o e ih =>
    obtain ⟨a, ha⟩ := ih h
    exact ⟨.powered a e, bind_eq_ok_iff.2 ⟨a, ha, rfl⟩⟩
  | inverted o _ => exact ⟨o, rfl⟩

theorem exists_inverse [Scalar R] {o : Operation R} (h : o.isUnitary = true) :
    ∃ a, o.inverse = .ok a := by
  have wrapped : (do o.checkInvertible; return .inverted o) = Except.ok (Operation.inverted o) :=
    bind_eq_ok_iff.2 ⟨(), checkInvertible_eq_ok_iff.2 h, rfl⟩
  cases o with
  | primitive g =>
    obtain ⟨a, ha⟩ := Gate.adjoint_of_isUnitary h
    exact ⟨.primitive a, bind_eq_ok_iff.2 ⟨a, ha, rfl⟩⟩
  | inverted o => exact ⟨o, rfl⟩
  | composite => exact ⟨_, wrapped⟩
  | controlled => exact ⟨_, wrapped⟩
  | powered => exact ⟨_, wrapped⟩

end Operation

theorem Circuit.exists_inverse [Scalar R] {c : Circuit R} (h : (Operation.composite c).isUnitary = true) :
    ∃ d, c.inverse = .ok d := by
  obtain ⟨name, layout, steps⟩ := c
  obtain ⟨a, ha⟩ := Operation.exists_adjoint h
  obtain ⟨images, himages, _⟩ := bind_eq_ok_iff.1 ha
  exact ⟨_, bind_eq_ok_iff.2 ⟨images, himages, rfl⟩⟩

theorem Circuit.tokens_of_isExact {c : Circuit R} (h : (Operation.composite c).IsExact) :
    c.tokens = [] := sortedNames_eq_nil_iff.2 h.tokens

theorem Operation.isExact_nested : (Operation.nested : Operation R).IsExact :=
  ⟨rfl, rfl, by simp [Operation.nested, Operation.gates, Operation.stepGates, Step.fixed, Step.gate]⟩

theorem Circuit.isExact_nested : (Operation.composite (.nested : Circuit R)).IsExact :=
  ⟨rfl, rfl, by simp [Circuit.nested, Operation.nested, Operation.gates, Operation.stepGates,
    Step.fixed, Step.gate]⟩

end QuantumCircuits
