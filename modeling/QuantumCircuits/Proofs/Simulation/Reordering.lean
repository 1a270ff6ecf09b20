import Mathlib
import QuantumCircuits.Proofs.Simulation.Acceptance

/-! Steps on disjoint wires commute, whatever operations they apply. An order of the steps in which those that
share a wire keep theirs leads to the same final state. -/

namespace QuantumCircuits

/-- Two products of the same factors are equal if any two factors commute that stand in another order. -/
theorem prod_map_eq_of_perm {ι M : Type*} [Monoid M] {f : ι → M} {P Q : ι → ι → Prop} {xs ys : List ι}
    (hperm : xs.Perm ys) (hxs : xs.Pairwise P) (hys : ys.Pairwise Q)
    (hcommute : ∀ i j, P i j → Q j i → Commute (f i) (f j)) : (xs.map f).prod = (ys.map f).prod := by
  induction ys generalizing xs with
  | nil => rw [hperm.eq_nil]
  | cons a ys ih =>
    obtain ⟨front, back, rfl⟩ := List.append_of_mem (hperm.mem_iff.2 List.mem_cons_self)
    have hrest : (front ++ back).Perm ys := (List.perm_middle.symm.trans hperm).cons_inv
    obtain ⟨hfront, hback, hacross⟩ := List.pairwise_append.1 hxs
    obtain ⟨hfirst, hys⟩ := List.pairwise_cons.1 hys
    -- The first factor of the new order moves to the left, past all that stand in front of it.
    have hpast : Commute (front.map f).prod (f a) := by
      refine Commute.list_prod_left _ _ fun m hm => ?_
      obtain ⟨b, hb, rfl⟩ := List.mem_map.1 hm
      exact hcommute b a (hacross b hb a List.mem_cons_self)
        (hfirst b (hrest.mem_iff.1 (List.mem_append_left _ hb)))
    have hremaining : (front ++ back).Pairwise P :=
      hxs.sublist ((List.sublist_cons_self a back).append_left front)
    calc ((front ++ a :: back).map f).prod
        = (front.map f).prod * f a * (back.map f).prod := by
          rw [List.map_append, List.map_cons, List.prod_append, List.prod_cons, mul_assoc]
      _ = f a * ((front ++ back).map f).prod := by
          rw [hpast.eq, mul_assoc, List.map_append, List.prod_append]
      _ = ((a :: ys).map f).prod := by rw [ih hrest hremaining hys, List.map_cons, List.prod_cons]

def Step.Shares {R : Type} (x y : Step (Operation R)) : Prop := ∃ w ∈ x.wires, w ∈ y.wires

instance {R : Type} (x y : Step (Operation R)) : Decidable (x.Shares y) :=
  inferInstanceAs (Decidable (∃ w ∈ x.wires, w ∈ y.wires))

/-- The steps in another order, in which those that share a wire keep theirs. The step at place `i` of the new
order is the one at place `origin i` of the old one. -/
structure Step.Reorders {R : Type} (steps others : List (Step (Operation R)))
    (origin : Equiv.Perm (Fin steps.length)) : Prop where
  others_eq : others = List.ofFn fun i => steps[origin i]
  kept : ∀ i j, steps[origin i].Shares steps[origin j] → origin i < origin j → i < j

theorem Step.Reorders.perm {R : Type} {steps others : List (Step (Operation R))}
    {origin : Equiv.Perm (Fin steps.length)} (h : Reorders steps others origin) : others.Perm steps := by
  have hall : (List.ofFn fun i : Fin steps.length => steps[i]) = steps := List.ofFn_get steps
  have hperm := origin.ofFn_comp_perm fun i => steps[i]
  rw [hall] at hperm
  exact h.others_eq ▸ hperm

namespace Circuit

variable {R : Type}

def withSteps (c : Circuit R) (steps : List (Step (Operation R))) : Circuit R := { c with steps }

theorem Evolves.isExact {c : Circuit R} {s : State R} (h : c.Evolves s) : (Operation.composite c).IsExact :=
  Operation.isExact_iff.2 fun g hg =>
    ⟨tokens_eq_nil_iff.1 h.bound g hg, Gate.isUnitary_iff.2 (h.resets g hg), fun same => h.noise (same ▸ hg)⟩

end Circuit

noncomputable section
open Matrix QuantumCircuits.Basis Operator

section Meaning

variable [EigenSolver ℝ] {n : ℕ} {x y : Step (Operation ℝ)} {steps others : List (Step (Operation ℝ))}

theorem Step.commute_of_not_shares (hx : x.Fits n) (hy : y.Fits n) (h : ¬ x.Shares y) :
    Commute (placed [] x.wires x.operation.meaning : Operator n) (placed [] y.wires y.operation.meaning) :=
  placed_commute hx hy (fun w hw hw' => h ⟨w, hw, hw'⟩) (List.forall_mem_nil _) (List.forall_mem_nil _) _ _

namespace Operation

theorem stepsMeaning_swap (hx : x.Fits n) (hy : y.Fits n) (h : ¬ x.Shares y)
    (front back : List (Step (Operation ℝ))) :
    stepsMeaning n (front ++ y :: x :: back) = stepsMeaning n (front ++ x :: y :: back) := by
  have hpair : stepsMeaning n [y, x] = stepsMeaning n [x, y] := by
    simp only [stepsMeaning_eq_prod, List.map_cons, List.map_nil, List.reverse_cons, List.reverse_nil, List.nil_append,
      List.singleton_append, List.prod_cons, List.prod_nil, mul_one]
    exact (Step.commute_of_not_shares hx hy h).eq
  change stepsMeaning n (front ++ ([y, x] ++ back)) = stepsMeaning n (front ++ ([x, y] ++ back))
  simp only [stepsMeaning_append, hpair]

theorem stepsMeaning_reorders {origin : Equiv.Perm (Fin steps.length)} (hfits : ∀ s ∈ steps, s.Fits n)
    (h : Step.Reorders steps others origin) : stepsMeaning n others = stepsMeaning n steps := by
  let meaningAt (i : Fin steps.length) : Operator n := placed [] steps[i].wires steps[i].operation.meaning
  have hordered (place : Fin steps.length → Fin steps.length) :
      stepsMeaning n (List.ofFn fun i => steps[place i]) = ((List.ofFn place).reverse.map meaningAt).prod := by
    rw [stepsMeaning_eq_prod, List.map_ofFn, List.map_reverse, List.map_ofFn]
    rfl
  have hall : (List.ofFn fun i : Fin steps.length => steps[id i]) = steps := List.ofFn_get steps
  have hperm : (List.ofFn origin).reverse.Perm (List.ofFn id).reverse :=
    ((List.ofFn origin).reverse_perm.trans (origin.ofFn_comp_perm id)).trans (List.ofFn id).reverse_perm.symm
  rw [h.others_eq, ← congrArg (stepsMeaning n) hall, hordered origin, hordered id]
  -- Of two steps in another order than before, the places differ in both directions.
  refine prod_map_eq_of_perm hperm (P := fun i j => origin.symm j < origin.symm i) (Q := fun i j => j < i) ?_ ?_ ?_
  · rw [List.pairwise_reverse, List.pairwise_ofFn]
    intro i j hij
    rwa [origin.symm_apply_apply, origin.symm_apply_apply]
  · rw [List.pairwise_reverse, List.pairwise_ofFn]
    exact fun i j hij => hij
  · intro i j hafter hbefore
    refine Step.commute_of_not_shares (hfits _ (List.getElem_mem _)) (hfits _ (List.getElem_mem _)) ?_
    by_contra hshared
    have hkept := h.kept (origin.symm i) (origin.symm j)
    simp only [origin.apply_symm_apply] at hkept
    exact absurd (hkept hshared hbefore) hafter.not_gt

end Operation
end Meaning

namespace Circuit

variable [EigenSolver ℝ] [SquareSpectra ℝ] {c : Circuit ℝ} {s : State ℝ} {steps : List (Step (Operation ℝ))}

/-- A circuit of the same steps in another order acts in the same way if it means the same. -/
theorem WellFormed.statevector_of_perm (h : c.WellFormed) (hexact : (Operation.composite c).IsExact)
    (hperm : steps.Perm c.steps) (hmeaning : Operation.stepsMeaning c.wires steps = c.meaning) (u : State ℝ) :
    (c.withSteps steps).statevector u = c.statevector u := by
  obtain ⟨hlayout, hsteps⟩ := wellFormed_iff.1 h
  have hwell : (c.withSteps steps).WellFormed :=
    wellFormed_iff.2 ⟨hlayout, fun x hx => hsteps x (hperm.mem_iff.1 hx)⟩
  have hexact' : (Operation.composite (c.withSteps steps)).IsExact :=
    Operation.isExact_composite.2 fun x hx => Operation.isExact_composite.1 hexact x (hperm.mem_iff.1 hx)
  by_cases hu : u.qubits = c.wires
  · have hother := statevector_of_wellFormed hwell hexact' (s := u) hu
    rw [statevector_of_wellFormed h hexact hu, ← hmeaning]
    exact hother
  · have hother := hwell.statevector_of_refuses (s := u) (.size hu)
    rw [h.statevector_of_refuses (.size hu)]
    exact hother

/-- Where the exact evolution succeeds, two adjacent steps on disjoint wires may be swapped, and the steps may be
put in any order in which those that share a wire keep theirs: every state evolves as before. -/
theorem statevector_reorder (h : c.Built) (hs : (c.statevector s).isOk = true) :
    (∀ front x y back, c.steps = front ++ x :: y :: back → ¬ x.Shares y →
      ∀ u, (c.withSteps (front ++ y :: x :: back)).statevector u = c.statevector u) ∧
    ∀ others origin, Step.Reorders c.steps others origin →
      ∀ u, (c.withSteps others).statevector u = c.statevector u := by
  have hwell := h.wellFormed
  obtain ⟨_, hsteps⟩ := wellFormed_iff.1 hwell
  have hfits : ∀ x ∈ c.steps, x.Fits c.wires := fun x hx => (hsteps x hx).1
  obtain ⟨hevolves, _⟩ := statevector_accepts h s
  have hexact := (hevolves.1 hs).isExact
  refine ⟨fun front x y back hsplit hapart => ?_, fun others origin hreorders => ?_⟩
  · have hx := hfits x (by simp [hsplit])
    have hy := hfits y (by simp [hsplit])
    refine hwell.statevector_of_perm hexact ?_ ?_
    · rw [hsplit]
      exact (List.Perm.swap x y back).append_left front
    · rw [Operation.stepsMeaning_swap hx hy hapart, ← hsplit]
      rfl
  · exact hwell.statevector_of_perm hexact hreorders.perm (Operation.stepsMeaning_reorders hfits hreorders)

end Circuit

def Session.apart : List (Call ℝ) :=
  Session.nested ++ [.newCircuit "apart", .addRegister 2 "q" 4, .append 2 3 [2, 0], .gate 2 (.fixed .cx) [3, 1],
    .gate 2 (.fixed .h) [0], .append 2 3 [1, 3]]

def Circuit.apart : Circuit ℝ :=
  ⟨"apart", ⟨[⟨"q", 4, 0⟩], 4⟩, [⟨.nested, [2, 0]⟩, .fixed .cx [3, 1], .fixed .h [0], ⟨.nested, [1, 3]⟩]⟩

theorem Circuit.apart_built : Circuit.apart.Built := by
  have hget : (Session.run Session.apart : Session ℝ).circuits[2]? = some .apart := by cbv
  exact ⟨_, List.mem_of_getElem? hget⟩

theorem Step.reorders_apart : ∃ origin, Step.Reorders Circuit.apart.steps
    [.fixed .cx [3, 1], ⟨.nested, [1, 3]⟩, ⟨.nested, [2, 0]⟩, .fixed .h [0]] origin := by
  let origin : Equiv.Perm (Fin 4) := ⟨![1, 3, 0, 2], ![2, 0, 3, 1], by decide, by decide⟩
  have hkept : ∀ i j : Fin 4, Circuit.apart.steps[origin i].Shares Circuit.apart.steps[origin j] →
      origin i < origin j → i < j := by decide
  exact ⟨origin, rfl, hkept⟩

attribute [local instance] EigenSolver.spectral in
theorem Circuit.statevector_reorder_apart :
    Circuit.apart.Built ∧ (Circuit.apart.statevector (.zero 4)).isOk = true ∧
      Circuit.apart.steps = [⟨.nested, [2, 0]⟩] ++ .fixed .cx [3, 1] :: .fixed .h [0] :: [⟨.nested, [1, 3]⟩] ∧
      ¬ (.fixed .cx [3, 1] : Step (Operation ℝ)).Shares (.fixed .h [0]) ∧
      (∃ origin, Step.Reorders Circuit.apart.steps
        [.fixed .cx [3, 1], ⟨.nested, [1, 3]⟩, ⟨.nested, [2, 0]⟩, .fixed .h [0]] origin) ∧
      ∀ u, (Circuit.apart.withSteps
            ([⟨.nested, [2, 0]⟩] ++ .fixed .h [0] :: .fixed .cx [3, 1] :: [⟨.nested, [1, 3]⟩])).statevector u =
          Circuit.apart.statevector u ∧
        (Circuit.apart.withSteps
            [.fixed .cx [3, 1], ⟨.nested, [1, 3]⟩, ⟨.nested, [2, 0]⟩, .fixed .h [0]]).statevector u =
          Circuit.apart.statevector u := by
  have := EigenSolver.orthonormalSpectra_spectral
  have hapart : ¬ (.fixed .cx [3, 1] : Step (Operation ℝ)).Shares (.fixed .h [0]) := by decide
  have hexact : (Operation.composite Circuit.apart).IsExact :=
    ⟨rfl, rfl, by simp [apart, Operation.nested, Operation.gates, Operation.stepGates, Step.fixed, Step.gate]⟩
  have hok : (Circuit.apart.statevector (.zero 4)).isOk = true := by
    rw [statevector_of_wellFormed apart_built.wellFormed hexact rfl]
    rfl
  obtain ⟨hswap, hreorder⟩ := statevector_reorder apart_built hok
  obtain ⟨origin, hreorders⟩ := Step.reorders_apart
  exact ⟨apart_built, hok, rfl, hapart, ⟨origin, hreorders⟩, fun u =>
    ⟨hswap _ _ _ _ rfl hapart u, hreorder _ _ hreorders u⟩⟩

end
end QuantumCircuits
