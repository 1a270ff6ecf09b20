import Mathlib
import QuantumCircuits.Proofs.Algorithm.LinearSystem
import QuantumCircuits.Proofs.Simulation.Registers
import QuantumCircuits.Proofs.Simulation.Statevector

/-! What the full solver reads out. The rotation of the ancilla commutes with everything that the forward
block does except the Hadamard gates on the output register, so that the block and its inverse cancel and
the state that is read out is the one that was put in, times the mean of a sine. -/

namespace QuantumCircuits.LinearSystem
open QuantumCircuits.Basis

noncomputable section
open Matrix Operator Operation DenseMatrix

variable [EigenSolver ℝ] {a : DenseMatrix ℝ} {t0 theta : ℝ} {size : Size}

namespace IsForward

variable {body : Circuit ℝ} {front back : List (Step (Operation ℝ))} {n : ℕ}

theorem commute_ladder (h : IsForward size body front back) {target : ℕ} (hwires : size.wires ≤ target)
    (htarget : target < n) (m : ℝ → Operator 1) (θ : ℝ) :
    Commute (stepsMeaning n (front ++ back)) (ladder m target θ size.outputs) := by
  have hsel := selects_singleton htarget
  refine commute_stepsMeaning fun s hs => Operator.commute_ladder fun w hw r => ?_
  have hfits := h.fits (h.mem_steps hs)
  have hfit := hfits.mono (hwires.trans htarget.le)
  have hbelow (v : ℕ) (hv : v ∈ s.wires) : v ∉ [target] := by
    intro hmem
    obtain rfl := List.mem_singleton.1 hmem
    exact absurd (hfits.below v hv) (not_lt.2 hwires)
  -- Steps in front share no wire with the rotations; those at the back do, but are diagonal.
  rcases List.mem_append.1 hs with hs | hs
  · exact placed_commute hfit hsel hbelow (List.forall_mem_nil _)
      (List.forall_mem_singleton.2 (h.not_mem_outputs hs hw)) _ _
  · have hrotations := h.rotations s hs
    exact commute_of_isDiag hfit hsel hbelow
      (isDiag_meaning hrotations.wellFormed (hrotations.gates false)) r

theorem stepsMeaning_eq (h : IsForward size body front back) (hle : size.wires ≤ n) :
    stepsMeaning n body.steps = stepsMeaning n (front ++ back) * hadamards n size.outputs := by
  have hcommute : Commute (stepsMeaning n front) (hadamards n size.outputs) := by
    refine commute_stepsMeaning fun s hs => commute_hadamards fun w hw m => ?_
    have hfit := (h.fits (h.mem_steps (List.mem_append_left _ hs))).mono hle
    have hw' := (Size.mem_outputs.1 hw).2.trans_le hle
    refine placed_commute hfit (selects_singleton hw') (fun v hv hmem => ?_) (List.forall_mem_nil _)
      (List.forall_mem_nil _) _ _
    exact h.not_mem_outputs hs hw (List.mem_singleton.1 hmem ▸ hv)
  rw [h.steps, stepsMeaning_append, stepsMeaning_append, stepsMeaning_append, stepsMeaning_hadamards,
    mul_assoc, hcommute.eq]

theorem placed_meaning (h : IsForward size body front back) (hle : size.wires ≤ n) :
    (placed [] (List.range size.wires) (Operation.composite body).meaning : Operator n) =
      stepsMeaning n (front ++ back) * hadamards n size.outputs := by
  have hplaced : placed [] (List.range body.wires) (Circuit.meaning body) = stepsMeaning n body.steps :=
    placed_stepsMeaning (h.wires ▸ hle) fun s hs => h.wires ▸ h.fits hs
  rw [← h.stepsMeaning_eq hle, ← hplaced, ← h.wires]
  rfl

theorem mem_unitary [OrthonormalSpectra] (h : IsForward size body front back) (hle : size.wires ≤ n) :
    stepsMeaning n (front ++ back) ∈ unitaryGroup (Fin (2 ^ n)) ℂ := by
  refine stepsMeaning_mem_unitary (fun s hs => (h.fits (h.mem_steps hs)).mono hle) fun s hs => ?_
  exact ((Circuit.madeOf_iff.1 h.madeOf).2 s (h.mem_steps hs)).meaning_mem_unitary

end IsForward

variable [OrthonormalSpectra]

theorem meaning_solver {c : Circuit ℝ} (h : solver a t0 theta size = .ok c) :
    c.meaning = (hadamards c.wires size.outputs)ᴴ *
      ladder yRotation size.wires theta size.outputs * hadamards c.wires size.outputs := by
  obtain ⟨block, inverse, rotations, hblock, hinverse, hsolver⟩ := exists_of_solver h
  obtain ⟨body, front, back, rfl, hforward⟩ := exists_of_forward hblock
  have htarget : size.wires < c.wires := hsolver.wires ▸ Nat.lt_succ_self size.wires
  -- The part of the block that cancels against its inverse.
  let x : Operator c.wires := stepsMeaning c.wires (front ++ back)
  have hx : x ∈ unitaryGroup (Fin (2 ^ c.wires)) ℂ := hforward.mem_unitary htarget.le
  have hdone : placed [] (List.range size.wires) (Operation.composite body).meaning =
      x * hadamards c.wires size.outputs := hforward.placed_meaning htarget.le
  have hundone : placed [] (List.range size.wires) inverse.meaning =
      (x * hadamards c.wires size.outputs)ᴴ := by
    have hmeans := hforward.madeOf.wellFormed.means_inverse hinverse hforward.madeOf.isExact
    rw [hmeans.placed_eq, placed_conjTranspose (List.forall_mem_nil _), hdone]
  have hladder : stepsMeaning c.wires rotations = ladder yRotation size.wires theta size.outputs := by
    have hfits (s : Step (Operation ℝ)) (hs : s ∈ rotations) : s.Fits c.wires := by
      refine ((Circuit.wellFormed_iff.1 hsolver.madeOf.wellFormed).2 s ?_).1
      rw [hsolver.steps]
      exact List.mem_append_left _ (List.mem_append_right _ hs)
    have hrotations := hsolver.rotations.imp fun k s hs => And.imp_right means_powerOfTwo_cry hs
    rw [List.range_eq_range'] at hrotations
    have hsum := stepsMeaning_ladder hfits hrotations
    rwa [pow_zero, one_mul] at hsum
  calc c.meaning
      = (x * hadamards c.wires size.outputs)ᴴ * (ladder yRotation size.wires theta size.outputs *
          (x * hadamards c.wires size.outputs)) := by
        rw [Circuit.meaning, hsolver.steps, stepsMeaning_append, stepsMeaning_append,
          stepsMeaning_singleton, stepsMeaning_singleton, hundone, hladder, hdone]
    _ = (hadamards c.wires size.outputs)ᴴ * (xᴴ * ladder yRotation size.wires theta size.outputs * x) *
          hadamards c.wires size.outputs := by
        rw [conjTranspose_mul]
        simp only [mul_assoc]
    _ = _ := by rw [conj_of_commute hx (hforward.commute_ladder le_rfl htarget yRotation theta)]

theorem meaning_solver_mulVec {c : Circuit ℝ} (h : solver a t0 theta size = .ok c) {b : State ℝ}
    (hb : b.qubits = size.n) {j : ℕ} (hj : j < 2 ^ size.n) {i : Fin (2 ^ c.wires)}
    (hi : i.val = j ||| 2 ^ size.wires) :
    (c.meaning *ᵥ (b.extend c.wires).vector c.wires) i =
      ((2 ^ size.l)⁻¹ * ∑ L ∈ Finset.range (2 ^ size.l), Real.sin (L * theta / 2) : ℝ) *
        (b.amp j).toComplex := by
  obtain ⟨_, _, _, _, _, hsolver⟩ := exists_of_solver h
  have htarget : size.wires < c.wires := hsolver.wires ▸ Nat.lt_succ_self size.wires
  have hle : b.qubits ≤ size.output := by
    rw [hb, Size.output]
    omega
  have habove : size.output ≤ size.wires := Nat.le_add_right _ _
  have hlow (w : ℕ) (hw : size.output ≤ w) : j.testBit w = false := by
    have hpow : 2 ^ size.n ≤ 2 ^ w := Nat.pow_le_pow_right Nat.two_pos (hb ▸ hle.trans hw)
    exact Nat.testBit_lt_two_pow (hj.trans_le hpow)
  have houtputs (w : ℕ) (hw : w ∈ size.outputs) : i.val.testBit w = false := by
    obtain ⟨hlower, hupper⟩ := Size.mem_outputs.1 hw
    rw [hi, Nat.testBit_or, hlow w hlower, Nat.testBit_two_pow_of_ne hupper.ne', Bool.false_or]
  have hancilla : i.val.testBit size.wires = true := by
    rw [hi, Nat.testBit_or, Nat.testBit_two_pow_self, Bool.or_true]
  have hterm (L : Fin (2 ^ size.l)) :
      (placed [] [size.wires] (yRotation (L.val * theta)) *ᵥ (b.extend c.wires).vector c.wires) i =
        Real.sin (L.val * theta / 2) * (b.amp j).toComplex := by
    rw [placed_yRotation_mulVec htarget
      (fun k hk => State.vector_extend_of_testBit (hle.trans habove) hk), if_pos hancilla, State.vector_extend,
      val_write_zero htarget (hlow _ habove) hi]
  have hselect : Selects c.wires size.l size.outputs :=
    ⟨List.length_range', List.nodup_range', fun w hw => (Size.mem_outputs.1 hw).2.trans htarget⟩
  have hfree : size.wires ∉ size.outputs := fun hmem => absurd (Size.mem_outputs.1 hmem).2 (lt_irrefl _)
  have hsum : ∑ L : Fin (2 ^ size.l), ((Real.sin (L.val * theta / 2) : ℝ) : ℂ) =
      ∑ L ∈ Finset.range (2 ^ size.l), ((Real.sin (L * theta / 2) : ℝ) : ℂ) :=
    Fin.sum_univ_eq_sum_range (fun L => ((Real.sin (L * theta / 2) : ℝ) : ℂ)) (2 ^ size.l)
  rw [meaning_solver h, hadamards_ladder_mulVec isRotation_yRotation htarget hselect hfree
    (fun k w hw => State.vector_extend_of_testBit (hle.trans (Size.mem_outputs.1 hw).1)) houtputs]
  simp only [hterm]
  rw [← Finset.sum_mul, hsum, ← mul_assoc]
  push_cast
  rw [one_div, inv_pow]

/-- What the solver reads out is the state that was put in, times the mean of `sin (L * theta / 2)` over
all readings `L` of the output register, whatever the matrix is. -/
theorem solution_solver {c : Circuit ℝ} (h : solver a t0 theta size = .ok c) (b : State ℝ)
    (hb : b.qubits = size.n) :
    ∃ s t, b.embed c.wires = .ok s ∧ (c.wires < UInt32.size → b.embedInWidth c.wires = .ok s) ∧
      c.statevector s = .ok t ∧
      solution c t = .ok ((indices size.n).map fun j => (b.amp j).scale
        ((2 ^ size.l)⁻¹ * ∑ L ∈ Finset.range (2 ^ size.l), Real.sin (L * theta / 2))) := by
  obtain ⟨_, _, _, _, _, hsolver⟩ := exists_of_solver h
  have hwires : c.wires = size.n + (size.t + size.m + size.l + 1) := by
    rw [hsolver.wires, Size.wires]
    omega
  have htarget : size.n + (size.t + size.m + size.l) = size.wires := by
    unfold Size.wires
    omega
  have hembed : b.embed c.wires = .ok (b.extend c.wires) := if_neg (by omega)
  have hrun := Circuit.statevector_of_wellFormed hsolver.madeOf.wellFormed hsolver.madeOf.isExact
    (s := b.extend c.wires) rfl
  refine ⟨_, _, hembed, fun hsize => (b.embedInWidth_eq_embed hsize).trans hembed, hrun, ?_⟩
  have hfind (name : String) : c.layout.find? name = List.find? (fun r => r.name == name) _ :=
    congrArg (List.find? _) hsolver.registers
  rw [solution_eq (n := size.n) (k := size.t + size.m + size.l + 1) (i := size.t + size.m + size.l)
    (hfind "b") ((hfind "anc").trans (by rw [htarget]; rfl)) hwires (Nat.lt_succ_self _) hwires, htarget]
  refine congrArg Except.ok (List.map_congr_left fun j hj => ?_)
  have hj' : j < 2 ^ size.n := mem_indices.1 hj
  have hindex : j ||| 2 ^ size.wires < 2 ^ c.wires := by
    refine Nat.or_lt_two_pow (hj'.trans_le (Nat.pow_le_pow_right Nat.two_pos (by omega))) ?_
    exact Nat.pow_lt_pow_right Nat.one_lt_two (by omega)
  rw [State.amp_ofVector _ ⟨_, hindex⟩, meaning_solver_mulVec h hb hj' rfl, ← Cx.toComplex_scale,
    Cx.ofComplex_toComplex]

end

noncomputable section
open DenseMatrix

def coupled : DenseMatrix ℝ := .ofFn 2 2 fun i j => if i = j then 0 else 1

theorem timeEvolution_symmetric {f : ℕ → ℕ → ℝ} (hf : ∀ i j, f i j = f j i) (time : ℝ) :
    timeEvolution (.ofFn 2 2 f) time =
      .ok (.primitive (.evolution ((ofFn 2 2 f).map Cx.ofReal) (.value time))) := by
  have hnear : ((ofFn 2 2 f).map Cx.ofReal).isNear ((ofFn 2 2 f).map Cx.ofReal).adjoint = true := by
    refine isNear_adjoint rfl fun i (hi : i < 2) j (hj : j < 2) => ?_
    rw [get_map rfl, get_map rfl, Cx.conj_ofReal, get_ofFn _ hi hj, get_ofFn _ hj hi, hf]
  have hdimension : Gate.checkDimension ((ofFn 2 2 f).map Cx.ofReal) = .ok () := by
    have hshape : ((ofFn 2 2 f).map Cx.ofReal).Shaped 2 2 := ⟨rfl, rfl⟩
    rw [Gate.checkDimension, hshape.rows, hshape.columns]
    rfl
  exact bind_eq_ok_iff.2 ⟨_, Gate.ofHamiltonian_eq_ok_iff.2 ⟨⟨hdimension, hnear⟩, rfl⟩, rfl⟩

theorem timeEvolution_coupled (time : ℝ) :
    timeEvolution coupled time = .ok (.primitive (.evolution (coupled.map Cx.ofReal) (.value time))) :=
  timeEvolution_symmetric (fun i j => by simp only [eq_comm]) time

theorem exists_solver_coupled (t0 theta : ℝ) : ∃ c, solver coupled t0 theta ⟨1, 1, 1, 1⟩ = .ok c := by
  rw [← isOk_eq_true_iff]
  unfold solver forward eigenvalueEstimation
  rw [timeEvolution_coupled]
  rfl

attribute [local instance] EigenSolver.spectral in
theorem solution_solver_coupled :
    ∃ c : Circuit ℝ, solver coupled 1 1 ⟨1, 1, 1, 1⟩ = .ok c ∧ (State.basis 1 1 : State ℝ).qubits = 1 ∧
      ∃ s t, (State.basis 1 1).embed c.wires = .ok s ∧
        (c.wires < UInt32.size → (State.basis 1 1).embedInWidth c.wires = .ok s) ∧ c.statevector s = .ok t ∧
        solution c t = .ok ((indices 1).map fun j => ((State.basis 1 1).amp j).scale
          ((2 ^ 1)⁻¹ * ∑ L ∈ Finset.range (2 ^ 1), Real.sin (L * 1 / 2))) :=
  have := EigenSolver.orthonormalSpectra_spectral
  let ⟨c, hc⟩ := exists_solver_coupled 1 1
  ⟨c, hc, rfl, solution_solver hc (.basis 1 1) rfl⟩

end

end QuantumCircuits.LinearSystem
