import Mathlib
import QuantumCircuits.Proofs.Algorithm.FiveQubitCode
import QuantumCircuits.Proofs.Algorithm.ThreeQubitCode
import QuantumCircuits.Proofs.Operator.Overlap

/-! The fidelity of the code register is a fidelity. It is the length of the part of the output along the code
state of the reference, so that it lies between zero and one, is one for the products with the code state
alone, and depends on nothing that is done to the syndrome register alone. -/

noncomputable section
namespace QuantumCircuits
open Matrix QuantumCircuits.Basis Operator

namespace State

variable {n k : ℕ} {s low high : State ℝ}

theorem isProduct_iff_part : s.IsProduct n k low high ↔
    ∀ y, part (s.vector (n + k)) y = high.vector k y • low.vector n := by
  refine isProduct_iff.trans ⟨fun h y => funext fun x => ?_, fun h x y => ?_⟩
  · exact (h x y).trans (mul_comm _ _)
  · exact (congrFun (h y) x).trans (mul_comm _ _)

theorem IsProduct.mass_low (h : s.IsProduct n k low high) (hs : s.IsNormalised (n + k)) (hhigh : high.IsNormalised k) :
    mass (low.vector n) = 1 := by
  have hmass := h.mass_vector
  rw [hs.mass, hhigh.mass, mul_one] at hmass
  exact (Finset.sum_congr rfl fun i _ => Cx.normSq_toComplex _).trans hmass.symm

theorem IsProduct.amp_low (h : s.IsProduct n k low (.zero k)) {i : ℕ} (hi : i < 2 ^ n) :
    (s.amp i).toComplex = (low.amp i).toComplex := by
  have hamp := h i hi 0 (Nat.two_pow_pos k)
  have hone : ((State.zero k : State ℝ).amp 0).toComplex = 1 := by
    rw [zero, basis, amp_ofFn _ _ (Nat.two_pow_pos k), if_pos rfl, Cx.toComplex_one]
  rw [Nat.mul_zero, Nat.add_zero] at hamp
  rw [hamp, Cx.toComplex_mul, hone, mul_one]

end State

namespace ErrorCorrection

variable {e : ErrorCorrection ℝ} {reference φ output : State ℝ}

theorem logicalFidelity_eq_mass (hcode : e.code.offset = 0) (hreference : reference.qubits = e.wires)
    (houtput : output.qubits = e.wires)
    (hproduct : reference.IsProduct e.code.size e.syndrome.size φ (.zero e.syndrome.size)) :
    e.logicalFidelity reference output =
      .ok (mass (along (φ.vector e.code.size) (output.vector (e.code.size + e.syndrome.size)))) := by
  rw [logicalFidelity_eq hcode hreference houtput]
  simp only [hproduct.amp_low (Fin.isLt _)]
  rfl

theorem mass_along_eq_one_iff (hφ : mass (φ.vector e.code.size) = 1) (houtput : output.IsNormalised e.wires) :
    mass (along (φ.vector e.code.size) (output.vector (e.code.size + e.syndrome.size))) = 1 ↔
      ∃ σ : State ℝ, σ.IsNormalised e.syndrome.size ∧ output.IsProduct e.code.size e.syndrome.size φ σ := by
  have hone : mass (output.vector (e.code.size + e.syndrome.size)) = 1 := houtput.mass
  constructor
  · intro hmass
    refine ⟨.ofVector (along (φ.vector e.code.size) (output.vector (e.code.size + e.syndrome.size))), ⟨rfl, ?_⟩, ?_⟩
    · rw [State.vector_ofVector, hmass]
    · rw [State.isProduct_iff_part, State.vector_ofVector]
      exact (mass_along_eq_iff hφ _).1 (hmass.trans hone.symm)
  · rintro ⟨σ, hσ, hproduct⟩
    rw [along_of_product hφ (State.isProduct_iff_part.1 hproduct), hσ.mass]

end ErrorCorrection

namespace CodeTables

variable {T : CodeTables} [EigenSolver ℝ] [SquareSpectra ℝ]

theorem Sound.exists_append (h : T.Sound) (name : String) {o : Operation ℝ} (ho : o.Built) (hexact : o.IsExact)
    {ws : List ℕ} (hws : Selects T.wires o.arity ws) :
    ∃ c, ((T.assembled ℝ).blank name >>= fun c => c.append o ws) = .ok c ∧
      c.Applies (placed [] ws o.meaning : Operator T.wires) := by
  have hlayout := layout_wellFormed h
  have happend : Circuit.append (⟨name, T.layout, []⟩ : Circuit ℝ) o ws = .ok ⟨name, T.layout, [⟨o, ws⟩]⟩ :=
    Circuit.append_eq_ok_iff.2 ⟨hws, rfl⟩
  have hwell : Circuit.WellFormed (⟨name, T.layout, [⟨o, ws⟩]⟩ : Circuit ℝ) :=
    Circuit.wellFormed_iff.2 ⟨hlayout, List.forall_mem_singleton.2 ⟨hws, ho.wellFormed⟩⟩
  have hall : (Operation.composite (⟨name, T.layout, [⟨o, ws⟩]⟩ : Circuit ℝ)).IsExact := by
    refine Operation.isExact_iff.2 fun g hg => Operation.isExact_iff.1 hexact g ?_
    rw [Operation.gates_composite] at hg
    simpa using hg
  have happlies := hwell.applies hall
  rw [Circuit.meaning, Operation.stepsMeaning_singleton] at happlies
  exact ⟨_, bind_eq_ok_iff.2 ⟨_, blank_eq h name, happend⟩, happlies⟩

theorem Sound.exists_logicalFidelity (h : T.Sound) {reference φ output : State ℝ}
    (hreference : reference.IsNormalised T.wires)
    (hproduct : reference.IsProduct T.code T.syndrome φ (.zero T.syndrome)) (houtput : output.IsNormalised T.wires) :
    ∃ f, (T.assembled ℝ).logicalFidelity reference output = .ok f ∧ 0 ≤ f ∧ f ≤ 1 ∧
      (f = 1 ↔ ∃ σ : State ℝ, σ.IsNormalised T.syndrome ∧ output.IsProduct T.code T.syndrome φ σ) ∧
      ∀ (o : Operation ℝ) (ws : List ℕ), o.Built → o.IsExact → o.meaning ∈ unitaryGroup _ ℂ →
        Selects T.wires o.arity ws → (∀ w ∈ ws, w ∈ (T.assembled ℝ).syndrome.wires) → ∀ name,
          ∃ c turned, ((T.assembled ℝ).blank name >>= fun c => c.append o ws) = .ok c ∧
            c.statevector output = .ok turned ∧ (T.assembled ℝ).logicalFidelity reference turned = .ok f := by
  have hφ : mass (φ.vector T.code) = 1 := hproduct.mass_low hreference (State.isNormalised_zero _)
  have hvalue {s : State ℝ} (hs : s.qubits = T.wires) : (T.assembled ℝ).logicalFidelity reference s =
      .ok (mass (along (φ.vector T.code) (s.vector (T.code + T.syndrome)))) :=
    ErrorCorrection.logicalFidelity_eq_mass rfl hreference.qubits hs hproduct
  have hone := ErrorCorrection.mass_along_eq_one_iff (e := T.assembled ℝ) hφ houtput
  refine ⟨_, hvalue houtput.qubits, mass_nonneg _, ?_, hone, ?_⟩
  · exact (mass_along_le hφ _).trans_eq houtput.mass
  · intro o ws ho hexact hunitary hws hsyndrome name
    obtain ⟨c, hc, happlies⟩ := h.exists_append name ho hexact hws
    have hlast : ∀ w ∈ ws, T.code ≤ w := fun w hw => (Register.mem_wires.1 (hsyndrome w hw)).1
    refine ⟨c, _, hc, happlies output houtput.qubits, ?_⟩
    rw [hvalue rfl, State.vector_ofVector]
    exact congrArg Except.ok (mass_along_placed hws hlast hunitary _)

end CodeTables

namespace ErrorCorrection

/-- For both codes the fidelity of an output with a reference, a code state next to a syndrome register at zero,
lies between zero and one, is one for the products of the code state and a state of the syndrome register alone,
and stays the same under every unitary operation on wires of the syndrome register. -/
theorem logicalFidelity_isFidelity [EigenSolver ℝ] [SquareSpectra ℝ] :
    ∀ code ∈ [(threeQubit : Except Fault (ErrorCorrection ℝ)), fiveQubit], ∃ e, code = .ok e ∧
      ∀ reference φ output : State ℝ, reference.IsNormalised e.wires →
        reference.IsProduct e.code.size e.syndrome.size φ (.zero e.syndrome.size) → output.IsNormalised e.wires →
          ∃ f, e.logicalFidelity reference output = .ok f ∧ 0 ≤ f ∧ f ≤ 1 ∧
            (f = 1 ↔ ∃ σ : State ℝ, σ.IsNormalised e.syndrome.size ∧
              output.IsProduct e.code.size e.syndrome.size φ σ) ∧
            ∀ (o : Operation ℝ) (ws : List ℕ), o.Built → o.IsExact → o.meaning ∈ unitaryGroup _ ℂ →
              Selects e.wires o.arity ws → (∀ w ∈ ws, w ∈ e.syndrome.wires) → ∀ name,
                ∃ c turned, (e.blank name >>= fun c => c.append o ws) = .ok c ∧ c.statevector output = .ok turned ∧
                  e.logicalFidelity reference turned = .ok f := by
  refine List.forall_mem_cons.2 ⟨?_, List.forall_mem_singleton.2 ?_⟩
  · refine ⟨_, CodeTables.threeQubit_assembled, fun _ _ _ hreference hproduct houtput => ?_⟩
    exact CodeTables.sound_threeQubit.exists_logicalFidelity hreference hproduct houtput
  · refine ⟨_, CodeTables.fiveQubit_assembled, fun _ _ _ hreference hproduct houtput => ?_⟩
    exact CodeTables.sound_fiveQubit.exists_logicalFidelity hreference hproduct houtput

attribute [local instance] EigenSolver.spectral in
theorem logicalFidelity_isFidelity_nested : ∃ e : ErrorCorrection ℝ, threeQubit = .ok e ∧
    (e.logical ⟨3 / 5, 0⟩ ⟨0, 4 / 5⟩).IsNormalised e.wires ∧
      (e.logical ⟨3 / 5, 0⟩ ⟨0, 4 / 5⟩).IsProduct e.code.size e.syndrome.size (e.logical ⟨3 / 5, 0⟩ ⟨0, 4 / 5⟩)
        (.zero e.syndrome.size) ∧
      (State.zero 5 : State ℝ).IsNormalised e.wires ∧ (Operation.nested : Operation ℝ).Built ∧
      (Operation.nested : Operation ℝ).IsExact ∧ (Operation.nested : Operation ℝ).meaning ∈ unitaryGroup _ ℂ ∧
      (∀ w ∈ [4, 3], w ∈ e.syndrome.wires) ∧
      ∃ f c turned, e.logicalFidelity (e.logical ⟨3 / 5, 0⟩ ⟨0, 4 / 5⟩) (.zero 5) = .ok f ∧ 0 ≤ f ∧ f ≤ 1 ∧
        (e.blank "syndrome" >>= fun c => c.append .nested [4, 3]) = .ok c ∧ c.statevector (.zero 5) = .ok turned ∧
        e.logicalFidelity (e.logical ⟨3 / 5, 0⟩ ⟨0, 4 / 5⟩) turned = .ok f := by
  have := EigenSolver.orthonormalSpectra_spectral
  have hone : (⟨3 / 5, 0⟩ : Cx ℝ).normSq + (⟨0, 4 / 5⟩ : Cx ℝ).normSq = 1 := by
    norm_num [Cx.normSq]
  have hreference := CodeTables.sound_threeQubit.isNormalised_logical _ _ hone
  have hproduct := CodeTables.sound_threeQubit.isProduct_logical ⟨3 / 5, 0⟩ ⟨0, 4 / 5⟩
  have houtput : (State.zero 5 : State ℝ).IsNormalised CodeTables.threeQubit.wires := State.isNormalised_zero 5
  have hunitary : (Operation.nested : Operation ℝ).meaning ∈ unitaryGroup _ ℂ :=
    Operation.meaning_mem_unitary Operation.nested_built.wellFormed Operation.holdsUnitary_nested
  have hsyndrome : ∀ w ∈ [4, 3], w ∈ (CodeTables.threeQubit.assembled ℝ).syndrome.wires := by decide
  obtain ⟨e, he, hfidelity⟩ := logicalFidelity_isFidelity threeQubit List.mem_cons_self
  obtain rfl : CodeTables.threeQubit.assembled ℝ = e := Except.ok.inj he
  obtain ⟨f, hf, hnonneg, hle, _, hturned⟩ := hfidelity _ _ _ hreference hproduct houtput
  obtain ⟨c, turned, hc, hrun, hsame⟩ := hturned .nested [4, 3] Operation.nested_built Operation.isExact_nested hunitary
    (show Selects 5 2 [4, 3] by decide) hsyndrome "syndrome"
  exact ⟨_, he, hreference, hproduct, houtput, Operation.nested_built, Operation.isExact_nested, hunitary, hsyndrome,
    f, c, turned, hf, hnonneg, hle, hc, hrun, hsame⟩

end ErrorCorrection
end QuantumCircuits
end
