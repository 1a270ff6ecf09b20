import Mathlib
import QuantumCircuits.Proofs.Algorithm.LogicalFidelity
import QuantumCircuits.Proofs.Simulation.Assembly
import QuantumCircuits.Proofs.Simulation.Relabelling

/-! Two circuits side by side. Instructions on some of the wires of a state act on what these wires read, and
leave alone what the other wires read, so the composition of two circuits takes a product of states to the
product of their images. -/

namespace QuantumCircuits
open QuantumCircuits.Basis

section Wires

variable {R : Type} {n : ℕ} {f g : ℕ → ℕ}

theorem Instruction.Within.relabel_congr {i : Instruction R} (h : i.Within n) (hfg : ∀ w < n, f w = g w) :
    i.relabel f = i.relabel g := by
  cases i with
  | gate p =>
    obtain ⟨_, _, hbelow⟩ := h
    have hcontrols : (p.controls.map fun c => (f c.1, c.2)) = p.controls.map fun c => (g c.1, c.2) :=
      List.map_congr_left fun c hc => by rw [hfg _ (hbelow _ (List.mem_append_left _ (List.mem_map_of_mem hc)))]
    have htargets : p.targets.map f = p.targets.map g :=
      List.map_congr_left fun w hw => hfg w (hbelow w (List.mem_append_right _ hw))
    rw [relabel, relabel, Placement.relabel, Placement.relabel, hcontrols, htargets]
  | noise w => exact congrArg noise (hfg w h)
  | reset w => exact congrArg reset (hfg w h)

theorem Instruction.relabel_id (i : Instruction R) : i.relabel id = i := by
  cases i with
  | gate p =>
    rw [relabel, Placement.relabel, List.map_id]
    exact congrArg (fun controls => gate ⟨controls, p.targets, p.matrix⟩) (List.map_id p.controls)
  | noise w => rfl
  | reset w => rfl

end Wires

noncomputable section
open Matrix Operator

section Split

variable {n k i j : ℕ} (hi : i < 2 ^ n) (hj : j < 2 ^ k)
include hi hj

theorem Basis.write_range_split (x : Fin (2 ^ n)) :
    (write (List.range n) ⟨i + 2 ^ n * j, split_lt hi hj⟩ x : Fin (2 ^ (n + k))) =
      ⟨x + 2 ^ n * j, split_lt x.isLt hj⟩ := by
  have hsel : Selects (n + k) n (List.range n) := (Selects.range n).mono (Nat.le_add_right n k)
  apply hsel.ext
  · intro w hw
    rw [hsel.testBit_write_getD _ _ hw, getD_range hw, testBit_split x.isLt, if_pos hw]
  · intro w hw
    have hlarge : ¬ w < n := fun h => hw (List.mem_range.2 h)
    rw [hsel.testBit_write_of_not_mem _ _ hw, testBit_split x.isLt, testBit_split hi, if_neg hlarge, if_neg hlarge]

theorem Basis.write_range'_split (y : Fin (2 ^ k)) :
    (write (List.range' n k) ⟨i + 2 ^ n * j, split_lt hi hj⟩ y : Fin (2 ^ (n + k))) =
      ⟨i + 2 ^ n * y, split_lt hi y.isLt⟩ := by
  have hsel : Selects (n + k) k (List.range' n k) := Selects.range' rfl
  apply hsel.ext
  · intro w hw
    have hget : (List.range' n k).getD w 0 = n + w := by simp [hw]
    rw [hsel.testBit_write_getD _ _ hw, hget, testBit_split hi, if_neg (Nat.not_lt.2 (Nat.le_add_right n w)),
      Nat.add_sub_cancel_left]
  · intro w hw
    rw [hsel.testBit_write_of_not_mem _ _ hw, testBit_split hi, testBit_split hi]
    split
    · rfl
    · next hlarge =>
      have habove : k ≤ w - n := by
        rw [List.mem_range'_1] at hw
        omega
      have hpow : 2 ^ k ≤ 2 ^ (w - n) := Nat.pow_le_pow_right Nat.two_pos habove
      rw [Nat.testBit_lt_two_pow (hj.trans_le hpow), Nat.testBit_lt_two_pow (y.isLt.trans_le hpow)]

end Split

variable {N n : ℕ} {wires : List ℕ}

theorem Placement.vector_relabel (hwires : Selects N n wires) {p : Placement ℝ} (hp : (Instruction.gate p).Within n)
    {s t : State ℝ} (hs : s.qubits = N) (ht : t.qubits = n) {i : Fin (2 ^ N)} {c : ℂ}
    (h : ∀ x, s.vector N (write wires i x) = c * t.vector n x) (x : Fin (2 ^ n)) :
    ((p.relabel (wires.getD · 0)).apply s).vector N (write wires i x) = c * (p.apply t).vector n x := by
  obtain ⟨hcontrols, htargets, _⟩ := Selects.controls_iff.1 hp
  have hbelow : ∀ d ∈ p.controls, d.1 < n := fun d hd => hcontrols.below d.1 (List.mem_map_of_mem hd)
  have hplaced : placed [] wires (placed p.controls p.targets (p.matrix.toMatrix _ _) : Operator n) =
      (placed ([] ++ outerControls wires p.controls) (Instruction.outer wires p.targets) (p.matrix.toMatrix _ _) :
        Operator N) :=
    placed_placed hwires htargets hbelow _
  have hvector : ((p.relabel (wires.getD · 0)).apply s).vector N =
      placed (outerControls wires p.controls) (Instruction.outer wires p.targets) (p.matrix.toMatrix _ _) *ᵥ s.vector N :=
    vector_apply (p := p.relabel (wires.getD · 0)) (hwires.outer htargets) hs
  rw [List.nil_append] at hplaced
  rw [hvector, ← hplaced, placed_nil_mulVec hwires, hwires.read_write, vector_apply htargets ht, mulVec, dotProduct,
    Finset.mul_sum]
  refine Finset.sum_congr rfl fun b _ => ?_
  rw [hwires.write_write, h, mul_left_comm]

theorem Instruction.foldlM_relabel (hwires : Selects N n wires) {is : List (Instruction ℝ)} (hwithin : ∀ i ∈ is, i.Within n)
    {t t' : State ℝ} (ht : t.qubits = n) (hrun : is.foldlM exactStep t = .ok t') {s : State ℝ} (hs : s.qubits = N) :
    ∃ s', (is.map (relabel (wires.getD · 0))).foldlM exactStep s = .ok s' ∧ s'.qubits = N ∧
      ∀ i c, (∀ x, s.vector N (write wires i x) = c * t.vector n x) →
        ∀ x, s'.vector N (write wires i x) = c * t'.vector n x := by
  -- The larger state is general, since each instruction changes it.
  induction is generalizing t s with
  | nil =>
    obtain rfl : t = t' := pure_eq_ok_iff.1 hrun
    exact ⟨s, rfl, hs, fun _ _ h => h⟩
  | cons i is ih =>
    obtain ⟨hi, his⟩ := List.forall_mem_cons.1 hwithin
    cases i with
    | gate p =>
      obtain ⟨s', hs', hqubits, hreads⟩ := ih his (t := p.apply t) ht hrun
        (s := (p.relabel (wires.getD · 0)).apply s) hs
      exact ⟨s', hs', hqubits, fun i c h => hreads i c (Placement.vector_relabel hwires hi hs ht h)⟩
    | noise w => exact ih his ht hrun hs
    | reset w => cases hrun

namespace State

variable {k : ℕ} {s low high : State ℝ}

theorem isProduct_iff : s.IsProduct n k low high ↔ ∀ (x : Fin (2 ^ n)) (y : Fin (2 ^ k)),
    s.vector (n + k) ⟨x + 2 ^ n * y, split_lt x.isLt y.isLt⟩ = low.vector n x * high.vector k y := by
  constructor
  · intro h x y
    rw [vector, h x x.isLt y y.isLt, Cx.toComplex_mul]
    rfl
  · intro h i hi j hj
    apply Cx.toComplex_injective
    rw [Cx.toComplex_mul]
    exact h ⟨i, hi⟩ ⟨j, hj⟩

theorem isProduct_zero (n k : ℕ) : (State.zero (n + k) : State ℝ).IsProduct n k (.zero n) (.zero k) := by
  intro i hi j hj
  apply Cx.toComplex_injective
  rw [Cx.toComplex_mul, zero, zero, zero, basis, basis, basis, amp_ofFn _ _ (split_lt hi hj), amp_ofFn _ _ hi,
    amp_ofFn _ _ hj]
  by_cases h : i = 0 <;> by_cases h' : j = 0 <;> simp [h, h']

end State

section Product

variable {k : ℕ} {is : List (Instruction ℝ)} {φ φ' ψ ψ' s : State ℝ}

theorem Instruction.foldlM_low (hwithin : ∀ i ∈ is, i.Within n) (hφ : φ.qubits = n) (hrun : is.foldlM exactStep φ = .ok φ')
    (hs : s.qubits = n + k) (hproduct : s.IsProduct n k φ ψ) :
    ∃ s', is.foldlM exactStep s = .ok s' ∧ s'.qubits = n + k ∧ s'.IsProduct n k φ' ψ := by
  have hsel : Selects (n + k) n (List.range n) := (Selects.range n).mono (Nat.le_add_right n k)
  obtain ⟨s', hs', hqubits, hreads⟩ := foldlM_relabel hsel hwithin hφ hrun hs
  have hlist : is.map (relabel ((List.range n).getD · 0)) = is :=
    (List.map_congr_left fun i hi => ((hwithin i hi).relabel_congr fun w hw => getD_range hw).trans i.relabel_id).trans
      (List.map_id is)
  rw [hlist] at hs'
  refine ⟨s', hs', hqubits, State.isProduct_iff.2 fun x y => ?_⟩
  have hbefore := State.isProduct_iff.1 hproduct
  have hafter := hreads ⟨x + 2 ^ n * y, split_lt x.isLt y.isLt⟩ (ψ.vector k y) (fun z => by
    rw [write_range_split x.isLt y.isLt, hbefore z y, mul_comm]) x
  rwa [write_range_split x.isLt y.isLt, mul_comm (ψ.vector k y)] at hafter

theorem Instruction.foldlM_high (hwithin : ∀ i ∈ is, i.Within k) (hψ : ψ.qubits = k) (hrun : is.foldlM exactStep ψ = .ok ψ')
    (hs : s.qubits = n + k) (hproduct : s.IsProduct n k φ ψ) :
    ∃ s', (is.map (relabel (· + n))).foldlM exactStep s = .ok s' ∧ s'.qubits = n + k ∧ s'.IsProduct n k φ ψ' := by
  have hsel : Selects (n + k) k (List.range' n k) := Selects.range' rfl
  obtain ⟨s', hs', hqubits, hreads⟩ := foldlM_relabel hsel hwithin hψ hrun hs
  have hget : ∀ w < k, (List.range' n k).getD w 0 = w + n := by
    intro w hw
    rw [List.getD_eq_getElem _ _ (List.length_range'.symm ▸ hw), List.getElem_range'_1, Nat.add_comm]
  have hlist : is.map (relabel ((List.range' n k).getD · 0)) = is.map (relabel (· + n)) :=
    List.map_congr_left fun i hi => (hwithin i hi).relabel_congr hget
  rw [hlist] at hs'
  refine ⟨s', hs', hqubits, State.isProduct_iff.2 fun x y => ?_⟩
  have hbefore := State.isProduct_iff.1 hproduct
  have hafter := hreads ⟨x + 2 ^ n * y, split_lt x.isLt y.isLt⟩ (φ.vector n x) (fun z => by
    rw [write_range'_split x.isLt y.isLt, hbefore x z]) y
  rwa [write_range'_split x.isLt y.isLt] at hafter

end Product

namespace Circuit

section Composed

variable [EigenSolver ℝ] {a b : Circuit ℝ}

theorem statevector_compose (ha : a.WellFormed) (hb : b.WellFormed) {φ φ' ψ ψ' s : State ℝ} (hφ : a.statevector φ = .ok φ')
    (hψ : b.statevector ψ = .ok ψ') (hs : s.qubits = a.wires + b.wires) (hproduct : s.IsProduct a.wires b.wires φ ψ) :
    ∃ out, (a.compose b).statevector s = .ok out ∧ out.qubits = a.wires + b.wires ∧
      out.IsProduct a.wires b.wires φ' ψ' := by
  obtain ⟨is, his, hφ⟩ := bind_eq_ok_iff.1 hφ
  obtain ⟨js, hjs, hψ⟩ := bind_eq_ok_iff.1 hψ
  obtain ⟨hleft, his⟩ := prepare_eq_ok_iff.1 his
  obtain ⟨hright, hjs⟩ := prepare_eq_ok_iff.1 hjs
  have hlower : Instruction.ofCircuit (a.compose b) = .ok (is ++ js.map (Instruction.relabel (· + a.wires))) := by
    rw [ofCircuit_compose ha hb, his, hjs]
    rfl
  obtain ⟨middle, hmiddle, hqubits, hproduct⟩ :=
    Instruction.foldlM_low (Instruction.within_ofCircuit ha his) hleft hφ hs hproduct
  obtain ⟨out, hout, hqubits, hproduct⟩ :=
    Instruction.foldlM_high (Instruction.within_ofCircuit hb hjs) hright hψ hqubits hproduct
  refine ⟨out, bind_eq_ok_iff.2 ⟨_, prepare_eq_ok_iff.2 ⟨hs, hlower⟩, ?_⟩, hqubits, hproduct⟩
  rw [List.foldlM_append, hmiddle]
  exact hout

/-- The composition of two circuits is their tensor product: it takes a product of states to the product of the
images, it is lowered to the instructions of both, and it is associative. -/
theorem compose_tensor (ha : a.Built) (hb : b.Built) :
    (∀ φ φ' ψ ψ' s : State ℝ, a.statevector φ = .ok φ' → b.statevector ψ = .ok ψ' → s.qubits = a.wires + b.wires →
      (∀ i < 2 ^ a.wires, ∀ j < 2 ^ b.wires, s.amp (i + 2 ^ a.wires * j) = φ.amp i * ψ.amp j) →
        ∃ out, (a.compose b).statevector s = .ok out ∧ out.qubits = a.wires + b.wires ∧
          ∀ i < 2 ^ a.wires, ∀ j < 2 ^ b.wires, out.amp (i + 2 ^ a.wires * j) = φ'.amp i * ψ'.amp j) ∧
    (Instruction.ofCircuit (a.compose b) = do
      let is ← Instruction.ofCircuit a
      let js ← Instruction.ofCircuit b
      return is ++ js.map (Instruction.relabel (· + a.wires))) ∧
    ∀ c : Circuit ℝ, (a.compose b).compose c = a.compose (b.compose c) :=
  ⟨fun _ _ _ _ _ hφ hψ hs hproduct => statevector_compose ha.wellFormed hb.wellFormed hφ hψ hs hproduct,
    ofCircuit_compose ha.wellFormed hb.wellFormed, compose_assoc a b⟩

end Composed

attribute [local instance] EigenSolver.spectral in
theorem compose_tensor_nested : (nested : Circuit ℝ).Built ∧ ∃ t out : State ℝ, nested.statevector (.zero 2) = .ok t ∧
    (nested.compose nested).statevector (.zero 4) = .ok out ∧
      ∀ i < 2 ^ 2, ∀ j < 2 ^ 2, out.amp (i + 2 ^ 2 * j) = t.amp i * t.amp j := by
  have := EigenSolver.orthonormalSpectra_spectral
  have hrun := statevector_of_wellFormed (nested_built (R := ℝ)).wellFormed isExact_nested (s := .zero 2) rfl
  obtain ⟨htensor, _⟩ := compose_tensor (nested_built (R := ℝ)) nested_built
  obtain ⟨out, hout, _, hproduct⟩ := htensor _ _ _ _ (.zero 4) hrun hrun rfl (State.isProduct_zero 2 2)
  exact ⟨nested_built, _, out, hrun, hout, hproduct⟩

end Circuit

end
end QuantumCircuits
