import Mathlib
import QuantumCircuits.Proofs.Algorithm.PhaseEstimation
import QuantumCircuits.Proofs.Algorithm.Readout

/-! The compact solver on eigenvalues that the counting register can hold. Estimation writes the
eigenvalue of each component, the ladder rotates the ancilla by an angle read from there, and the inverse
of the estimation clears the counting register, since it acts on other wires than the rotation. -/

namespace QuantumCircuits.LinearSystem
open QuantumCircuits.Basis Operation

section Build

variable {R : Type} [Scalar R] {a : DenseMatrix R} {t0 : R} {r : ℤ} {n t : ℕ}

theorem timeEvolution_eq_ok {time : R} {u : Operation R} (h : timeEvolution a time = .ok u) :
    (a.map Cx.ofReal).IsHamiltonian ∧ u = .primitive (.evolution (a.map Cx.ofReal) (.value time)) := by
  unfold timeEvolution at h
  split at h
  · cases h
  · obtain ⟨g, hg, same⟩ := bind_eq_ok_iff.1 h
    obtain rfl := pure_eq_ok_iff.1 same
    obtain ⟨hwell, rfl⟩ := Gate.ofHamiltonian_eq_ok_iff.1 hg
    exact ⟨hwell, rfl⟩

theorem range_estimation (n t : ℕ) : Register.wires ⟨"b", n, 0⟩ ++ Register.wires ⟨"c", t, n⟩ = List.range (n + t) := by
  have hsplit := List.range'_append_1 (s := 0) (m := n) (n := t)
  rw [List.range_eq_range', ← hsplit, Nat.zero_add]
  rfl

def angleStep (n t : ℕ) (r : ℤ) (i : ℕ) : Step (Operation R) :=
  .gate (.cry (.value (Scalar.pi * Scalar.twoPower ((t : ℤ) - i - r)))) [n + i, n + t]

structure IsCompactSolver (n t : ℕ) (r : ℤ) (c : Circuit R) (u inverse : Operation R) : Prop where
  wires : c.wires = n + t + 1
  registers : c.layout.registers = [⟨"b", n, 0⟩, ⟨"c", t, n⟩, ⟨"anc", 1, n + t⟩]
  counting : 0 < t
  arity : u.arity = n
  undone : (Operation.composite (PhaseEstimation.body n t u)).inverse = .ok inverse
  steps : c.steps = [⟨.composite (PhaseEstimation.body n t u), List.range (n + t)⟩] ++
    (List.range t).map (angleStep n t r) ++ [⟨inverse, List.range (n + t)⟩]
  madeOf : c.MadeOf Gate.IsNumeric

theorem exists_of_eigenvalueEstimation {o : Operation R} (hn : 0 < n) (ht : 0 < t) (hlimit : t ≤ 32)
    (h : eigenvalueEstimation a t0 n t = .ok o) :
    ∃ u, timeEvolution a (-(t0 / Scalar.twoPower (t : ℤ))) = .ok u ∧ u.arity = n ∧
      o = .composite (PhaseEstimation.body n t u) := by
  obtain ⟨u, hu, h⟩ := bind_eq_ok_iff.1 h
  have harity : u.arity = n := by
    unfold phaseEstimation at h
    split at h
    · cases h
    · next harity => exact not_not.1 harity
  have hunitary : u.isUnitary = true := by
    obtain ⟨_, rfl⟩ := timeEvolution_eq_ok hu
    rfl
  rw [PhaseEstimation.phaseEstimation_eq hn ht hlimit harity hunitary] at h
  exact ⟨u, hu, harity, (Except.ok.inj h).symm⟩

theorem exists_of_compactSolver {c : Circuit R} (hlimit : t ≤ 32) (h : compactSolver a t0 r n t = .ok c) :
    ∃ u inverse, timeEvolution a (-(t0 / Scalar.twoPower (t : ℤ))) = .ok u ∧ IsCompactSolver n t r c u inverse := by
  obtain ⟨estimation, hestimation, h⟩ := bind_eq_ok_iff.1 h
  obtain ⟨⟨b, c₁⟩, h₁, h⟩ := bind_eq_ok_iff.1 h
  obtain ⟨⟨counting, c₂⟩, h₂, h⟩ := bind_eq_ok_iff.1 h
  obtain ⟨⟨ancilla, c₃⟩, h₃, h⟩ := bind_eq_ok_iff.1 h
  obtain ⟨c₄, h₄, h⟩ := bind_eq_ok_iff.1 h
  obtain ⟨c₅, h₅, h⟩ := bind_eq_ok_iff.1 h
  obtain ⟨inverse, hinverse, h₆⟩ := bind_eq_ok_iff.1 h
  have hn : 0 < n := (Circuit.addRegister_eq_ok_iff.1 h₁).1
  have ht : 0 < t := (Circuit.addRegister_eq_ok_iff.1 h₂).1
  obtain ⟨u, hu, harity, rfl⟩ := exists_of_eigenvalueEstimation hn ht hlimit hestimation
  have hmade := madeOf_eigenvalueEstimation hestimation
  have hempty : c₃.MadeOf Gate.IsNumeric :=
    (((Circuit.MadeOf.empty "compact_hhl").addRegister h₁).addRegister h₂).addRegister h₃
  obtain ⟨rfl, hwires₁, hregisters₁, hsteps₁⟩ := Circuit.of_addRegister h₁
  obtain ⟨rfl, hwires₂, hregisters₂, hsteps₂⟩ := Circuit.of_addRegister h₂
  obtain ⟨rfl, hwires₃, hregisters₃, hsteps₃⟩ := Circuit.of_addRegister h₃
  replace hwires₁ : c₁.wires = n := hwires₁.trans (Nat.zero_add n)
  rw [hwires₁] at hwires₂
  rw [hwires₂] at hwires₃
  obtain ⟨hlayout₄, hsteps₄⟩ := Circuit.of_appendAll h₄
  obtain ⟨hlayout₅, hsteps₅⟩ := Circuit.of_appendAll h₅
  obtain ⟨hlayout₆, hsteps₆⟩ := Circuit.of_appendAll h₆
  have hlayout : c.layout = c₃.layout := by rw [hlayout₆, hlayout₅, hlayout₄]
  have hall := range_estimation n t
  refine ⟨u, inverse, hu, ?_⟩
  constructor
  · exact (congrArg Layout.wires hlayout).trans hwires₃
  · rw [hlayout, hregisters₃, hregisters₂, hregisters₁, hwires₂, hwires₁]
    rfl
  · exact ht
  · exact harity
  · exact hinverse
  · rw [hsteps₆, hsteps₅, hsteps₄, hsteps₃, hsteps₂, hsteps₁, hwires₁, hwires₂, ← hall]
    rfl
  · have hblock := hempty.append hmade h₄
    refine Circuit.MadeOf.append (hblock.appendAll (fun s hs => ?_) h₅) (hmade.inverse hinverse) h₆
    obtain ⟨i, _, rfl⟩ := List.mem_map.1 hs
    exact .angle .cry _ _

theorem IsCompactSolver.solution_eq_ofFn {c : Circuit R} {u inverse : Operation R}
    (h : IsCompactSolver n t r c u inverse) {s : State R} (hs : s.qubits = c.wires) :
    solution c s = .ok (List.ofFn fun x : Fin (2 ^ n) => s.amp (x + 2 ^ n * 0 + 2 ^ (n + t) * 1)) := by
  have hfind (name : String) : c.layout.find? name = List.find? (fun r => r.name == name) _ :=
    congrArg (List.find? _) h.registers
  rw [solution_eq (n := n) (k := t + 1) (i := t) (hfind "b") (hfind "anc") h.wires (Nat.lt_succ_self t)
    (hs.trans h.wires), indices, ← List.map_coe_finRange_eq_range, List.map_map, List.ofFn_eq_map]
  refine congrArg Except.ok (List.map_congr_left fun x _ => congrArg s.amp ?_)
  have hlow : x.val < 2 ^ (n + t) := x.isLt.trans_le (Nat.pow_le_pow_right Nat.two_pos (Nat.le_add_right n t))
  rw [mul_zero, add_zero, Nat.add_comm x.val, Nat.two_pow_add_eq_or_of_lt hlow, mul_one, Nat.lor_comm]

end Build

noncomputable section
open Matrix Operator Operation DenseMatrix

variable {r : ℤ} {n t k : ℕ}

def rotationAngle (t : ℕ) (r : ℤ) (k : ℕ) : ℝ :=
  Real.pi * ((2 : ℕ) : ℝ) ^ ((t : ℤ) - r) * ∑ i ∈ Finset.range t, ((k.testBit i).toNat : ℝ) / (2 ^ i : ℕ)

theorem rotationAngle_eq (t : ℕ) (r : ℤ) (k : ℕ) : rotationAngle t r k =
    Real.pi * 2 ^ ((t : ℤ) - r) * ∑ i ∈ Finset.range t, ((k.testBit i).toNat : ℝ) / 2 ^ i := by
  rw [rotationAngle]
  push_cast
  rfl

theorem rotationAngle_two_pow {p : ℕ} (hp : 2 ^ p < 2 ^ t) :
    rotationAngle t r (2 ^ p) = Real.pi * 2 ^ ((t : ℤ) - r) / (2 ^ p : ℕ) := by
  have hmem : p ∈ Finset.range t := Finset.mem_range.2 ((Nat.pow_lt_pow_iff_right Nat.one_lt_two).1 hp)
  rw [rotationAngle_eq, Finset.sum_eq_single_of_mem p hmem, Nat.testBit_two_pow_self, Bool.toNat_true, Nat.cast_one,
    mul_one_div, Nat.cast_pow, Nat.cast_ofNat]
  intro i _ hne
  rw [Nat.testBit_two_pow_of_ne hne.symm, Bool.toNat_false, Nat.cast_zero, zero_div]

section Meaning

variable [EigenSolver ℝ]

theorem rotates_angleSteps {w : ℕ} (hw : n + t < w) :
    Rotates yRotation (n + t) (fun i => rotationAngle t r (i / 2 ^ n))
      (stepsMeaning w ((List.range t).map (angleStep n t r))) := by
  have hsum (i : ℕ) : rotationAngle t r (i / 2 ^ n) = ∑ j ∈ Finset.range t,
      ((i.testBit (n + j)).toNat : ℝ) * (Scalar.pi * Scalar.twoPower ((t : ℤ) - j - r)) := by
    have hpi : (Scalar.pi : ℝ) = Real.pi := rfl
    rw [rotationAngle_eq, Finset.mul_sum]
    refine Finset.sum_congr rfl fun j _ => ?_
    have hpower : (2 : ℝ) ^ ((t : ℤ) - j - r) = 2 ^ ((t : ℤ) - r) / 2 ^ j := by
      rw [sub_right_comm, zpow_sub₀ two_ne_zero, zpow_natCast]
    rw [hpi, Scalar.twoPower_real, hpower, Nat.testBit_div_two_pow, Nat.add_comm j n]
    ring
  simp only [hsum]
  refine stepsMeaning_rotates isRotation_yRotation hw fun j hj => ?_
  have hne : n + j ≠ n + t := by omega
  have hpair := (means_cry (Scalar.pi * Scalar.twoPower ((t : ℤ) - j - r))).placed_pair
    (selects_pair (by omega) hw hne)
  exact hpair ▸ rotates_controlled isRotation_yRotation hw hne _

variable {u inverse : Operation ℝ} {c : Circuit ℝ} {m : Operator n} {v : State ℝ}

theorem placed_estimation_mulVec {w : ℕ} (ht : 0 < t) (hw : n + t ≤ w) (hm : u.Means m) (hv : v.qubits = n)
    (hk : k < 2 ^ t)
    (heigen : m *ᵥ v.vector n = Complex.exp (2 * Real.pi * Complex.I * ((k / 2 ^ t : ℝ) : ℂ)) • v.vector n)
    {i : Fin (2 ^ w)} (hi : i.val / 2 ^ n ≠ k) :
    (placed [] (List.range (n + t)) (Operation.composite (PhaseEstimation.body n t u)).meaning *ᵥ
      (v.extend w).vector w) i = 0 := by
  refine (State.placed_range_mulVec_extend (hv.trans_le (Nat.le_add_right n t)) hw _ i).trans ?_
  split
  · next hlow =>
    have hy : i.val / 2 ^ n < 2 ^ t := by
      rw [Nat.div_lt_iff_lt_mul (Nat.two_pow_pos n), ← pow_add, Nat.add_comm t n]
      exact hlow
    have hsplit : (state (n + t) i.val).val =
        (⟨i.val % 2 ^ n, Nat.mod_lt _ (Nat.two_pow_pos n)⟩ : Fin (2 ^ n)) +
          2 ^ n * (⟨i.val / 2 ^ n, hy⟩ : Fin (2 ^ t)) := by
      rw [val_state_of_lt hlow]
      exact (Nat.mod_add_div _ _).symm
    have hreading : (⟨i.val / 2 ^ n, hy⟩ : Fin (2 ^ t)) ≠ ⟨k, hk⟩ := fun same => hi (Fin.mk.inj same)
    refine (PhaseEstimation.stepsMeaning_body_mulVec hm hv heigen hsplit).trans ?_
    rw [PhaseEstimation.amplitude_exact ht ⟨k, hk⟩, if_neg hreading, zero_mul]
  · rfl

/-- On an eigenvector the circuit does nothing but to rotate the ancilla, by the angle of the reading of the
eigenvalue. -/
theorem IsCompactSolver.meaning_mulVec [OrthonormalSpectra] (h : IsCompactSolver n t r c u inverse)
    (hm : u.Means m) (hv : v.qubits = n) (hk : k < 2 ^ t)
    (heigen : m *ᵥ v.vector n = Complex.exp (2 * Real.pi * Complex.I * ((k / 2 ^ t : ℝ) : ℂ)) • v.vector n) :
    c.meaning *ᵥ (v.extend c.wires).vector c.wires =
      placed [] [n + t] (yRotation (rotationAngle t r k)) *ᵥ (v.extend c.wires).vector c.wires := by
  have htarget : n + t < c.wires := h.wires ▸ Nat.lt_succ_self _
  have hwires : Selects c.wires (n + t) (List.range (n + t)) := (Selects.range (n + t)).mono htarget.le
  have hmade : (Operation.composite (PhaseEstimation.body n t u)).MadeOf Gate.IsNumeric := by
    refine (Circuit.madeOf_iff.1 h.madeOf).2 ⟨.composite (PhaseEstimation.body n t u), List.range (n + t)⟩ ?_
    rw [h.steps]
    exact List.mem_append_left _ (List.mem_append_left _ (List.mem_singleton.2 rfl))
  -- The estimation on its wires, and what it makes of the vector.
  let x : Operator c.wires :=
    placed [] (List.range (n + t)) (Operation.composite (PhaseEstimation.body n t u)).meaning
  let φ := (v.extend c.wires).vector c.wires
  have hx : x ∈ unitaryGroup (Fin (2 ^ c.wires)) ℂ :=
    placed_mem_unitary hwires (List.forall_mem_nil _) hmade.meaning_mem_unitary
  have hundone : placed [] (List.range (n + t)) inverse.meaning = xᴴ := by
    rw [(hmade.wellFormed.means_inverse h.undone hmade.isExact).placed_eq,
      placed_conjTranspose (List.forall_mem_nil _)]
  have hrotated : stepsMeaning c.wires ((List.range t).map (angleStep n t r)) *ᵥ (x *ᵥ φ) =
      placed [] [n + t] (yRotation (rotationAngle t r k)) *ᵥ (x *ᵥ φ) := by
    refine (rotates_angleSteps htarget).mulVec_of_angle htarget fun i hi => ?_
    exact placed_estimation_mulVec h.counting htarget.le hm hv hk heigen fun same => hi (by rw [same])
  have hcommute : Commute x (placed [] [n + t] (yRotation (rotationAngle t r k))) := by
    refine placed_commute hwires (selects_singleton htarget) (fun w hw hmem => ?_) (List.forall_mem_nil _)
      (List.forall_mem_nil _) _ _
    obtain rfl := List.mem_singleton.1 hmem
    exact lt_irrefl _ (List.mem_range.1 hw)
  calc c.meaning *ᵥ φ
      = xᴴ *ᵥ (stepsMeaning c.wires ((List.range t).map (angleStep n t r)) *ᵥ (x *ᵥ φ)) := by
        rw [Circuit.meaning, h.steps, stepsMeaning_append, stepsMeaning_append, stepsMeaning_singleton,
          stepsMeaning_singleton, hundone, ← mulVec_mulVec, ← mulVec_mulVec]
    _ = (xᴴ * placed [] [n + t] (yRotation (rotationAngle t r k)) * x) *ᵥ φ := by
        rw [hrotated, mulVec_mulVec, mulVec_mulVec]
    _ = placed [] [n + t] (yRotation (rotationAngle t r k)) *ᵥ φ := by rw [conj_of_commute hx hcommute]

end Meaning

/-- The amplitudes of an eigenvector after the rotation of the ancilla, by the readings `x` of the input, `y` of
the counting register and `z` of the ancilla. -/
theorem rotated_extend {w : ℕ} (hw : w = n + t + 1) (v : Fin (2 ^ n) → ℂ) (θ : ℝ) (x : Fin (2 ^ n)) {y z : ℕ}
    (hy : y < 2 ^ t) (hz : z < 2) {i : Fin (2 ^ w)} (hi : i.val = x + 2 ^ n * y + 2 ^ (n + t) * z) :
    (placed [] [n + t] (yRotation θ) *ᵥ ((State.ofVector v).extend w).vector w) i =
      if y = 0 then ((if z = 0 then Real.cos (θ / 2) else Real.sin (θ / 2) : ℝ) : ℂ) * v x else 0 := by
  have hlow : x + 2 ^ n * y < 2 ^ (n + t) := split_lt x.isLt hy
  have hbit : i.val.testBit (n + t) = z.testBit 0 := by
    rw [hi, testBit_split hlow, if_neg (lt_irrefl _), Nat.sub_self]
  have htrig : (if i.val.testBit (n + t) then Real.sin (θ / 2) else Real.cos (θ / 2)) =
      if z = 0 then Real.cos (θ / 2) else Real.sin (θ / 2) := by
    rw [hbit]
    obtain rfl | rfl : z = 0 ∨ z = 1 := by omega
    · rfl
    · rfl
  have hinput : i.val % 2 ^ (n + t) = x + 2 ^ n * y := by
    rw [hi, Nat.add_mul_mod_self_left, Nat.mod_eq_of_lt hlow]
  rw [placed_yRotation_mulVec (by omega)
    (fun j hj => State.vector_extend_of_testBit (s := .ofVector v) (Nat.le_add_right n t) hj), htrig,
    State.vector_extend, val_write_last hw.symm, hinput]
  by_cases hcleared : y = 0
  · rw [if_pos hcleared, hcleared, mul_zero, add_zero, State.amp_ofVector, Cx.toComplex_ofComplex]
  · have hlarge : 2 ^ n ≤ x + 2 ^ n * y :=
      (Nat.le_mul_of_pos_right _ (Nat.pos_of_ne_zero hcleared)).trans (Nat.le_add_left _ _)
    rw [if_neg hcleared, State.amp_of_le (s := .ofVector v) hlarge, Cx.toComplex_zero, mul_zero]

section Run

variable [EigenSolver ℝ] [OrthonormalSpectra] {a : DenseMatrix ℝ} {t0 : ℝ} {c : Circuit ℝ} {J : Type} [Fintype J]
  {v : J → Fin (2 ^ n) → ℂ} {k : J → ℕ} {b : State ℝ}

theorem IsCompactSolver.toComplex_amp {u inverse : Operation ℝ} {m : Operator n}
    (h : IsCompactSolver n t r c u inverse) (hm : u.Means m) (hk : ∀ j, k j < 2 ^ t)
    (heigen : ∀ j, m *ᵥ v j = Complex.exp (2 * Real.pi * Complex.I * ((k j / 2 ^ t : ℝ) : ℂ)) • v j)
    {β : J → ℂ} (hb : b.qubits = n) (hsum : b.vector n = ∑ j, β j • v j) (x : Fin (2 ^ n)) {y z : ℕ}
    (hy : y < 2 ^ t) (hz : z < 2) :
    ((State.ofVector (c.meaning *ᵥ (b.extend c.wires).vector c.wires)).amp
      (x + 2 ^ n * y + 2 ^ (n + t) * z)).toComplex =
      if y = 0 then ∑ j, β j * (if z = 0 then Real.cos (rotationAngle t r (k j) / 2)
        else Real.sin (rotationAngle t r (k j) / 2) : ℝ) * v j x else 0 := by
  have hsolved (j : J) : c.meaning *ᵥ ((State.ofVector (v j)).extend c.wires).vector c.wires =
      placed [] [n + t] (yRotation (rotationAngle t r (k j))) *ᵥ
        ((State.ofVector (v j)).extend c.wires).vector c.wires := by
    refine h.meaning_mulVec hm rfl (hk j) ?_
    rw [State.vector_ofVector, heigen j]
  have hindex : x + 2 ^ n * y + 2 ^ (n + t) * z < 2 ^ c.wires := h.wires ▸ split_lt (split_lt x.isLt hy) hz
  rw [State.amp_ofVector _ ⟨_, hindex⟩, Cx.toComplex_ofComplex, State.vector_extend_of_sum hb hsum, mulVec_sum,
    Finset.sum_apply]
  simp only [mulVec_smul, hsolved, Pi.smul_apply, smul_eq_mul,
    rotated_extend h.wires _ _ x hy hz (i := ⟨_, hindex⟩) rfl]
  split
  · simp only [mul_assoc]
  · simp only [mul_zero, Finset.sum_const_zero]

/-- On a sum of eigenvectors whose eigenvalues the counting register can hold, the compact solver rotates the
ancilla under each of them by the angle of its reading and clears the counting register. What is read out is
the sum with each part weighed by a sine. -/
theorem run_compactSolver (hlimit : t ≤ 32) (h : compactSolver a t0 r n t = .ok c) (hk : ∀ j, k j < 2 ^ t)
    (heigen : ∀ j, ((a.map Cx.ofReal).evolution (-(t0 / 2 ^ t))).toMatrix (2 ^ n) (2 ^ n) *ᵥ v j =
      Complex.exp (2 * Real.pi * Complex.I * (k j / 2 ^ t)) • v j)
    (β : J → ℂ) (hb : b.qubits = n) (hsum : b.vector n = ∑ j, β j • v j) :
    ∃ s out, b.embed (n + t + 1) = .ok s ∧ (n + t + 1 < UInt32.size → b.embedInWidth (n + t + 1) = .ok s) ∧
      c.statevector s = .ok out ∧ out.qubits = n + t + 1 ∧
      (∀ x : Fin (2 ^ n), ∀ y < 2 ^ t, ∀ z < 2, (out.amp (x + 2 ^ n * y + 2 ^ (n + t) * z)).toComplex =
        if y = 0 then ∑ j, β j * (if z = 0 then Real.cos (rotationAngle t r (k j) / 2)
          else Real.sin (rotationAngle t r (k j) / 2) : ℝ) * v j x else 0) ∧
      solution c out = .ok (List.ofFn fun x : Fin (2 ^ n) => .ofComplex
        (∑ j, β j * (Real.sin (rotationAngle t r (k j) / 2) : ℝ) * v j x)) ∧
      ∀ j p, k j = 2 ^ p → rotationAngle t r (k j) = Real.pi * 2 ^ ((t : ℤ) - r) / k j := by
  obtain ⟨u, inverse, hu, hc⟩ := exists_of_compactSolver hlimit h
  obtain ⟨_, rfl⟩ := timeEvolution_eq_ok hu
  have hm : (Operation.primitive (.evolution (a.map Cx.ofReal) (.value (-(t0 / Scalar.twoPower (t : ℤ)))))).Means
      (((a.map Cx.ofReal).evolution (-(t0 / 2 ^ t))).toMatrix (2 ^ n) (2 ^ n)) := by
    have htime : Scalar.twoPower (t : ℤ) = (2 : ℝ) ^ t := by rw [Scalar.twoPower_real, zpow_natCast]
    rw [← htime]
    exact .uncontrolled hc.arity rfl rfl
  have hturns (j : J) : ((a.map Cx.ofReal).evolution (-(t0 / 2 ^ t))).toMatrix (2 ^ n) (2 ^ n) *ᵥ v j =
      Complex.exp (2 * Real.pi * Complex.I * ((k j / 2 ^ t : ℝ) : ℂ)) • v j := by
    rw [heigen j]
    push_cast
    rfl
  have hembed : b.embed (n + t + 1) = .ok (b.extend c.wires) := by
    rw [hc.wires]
    exact if_neg (by omega)
  have hrun := Circuit.statevector_of_wellFormed hc.madeOf.wellFormed hc.madeOf.isExact (s := b.extend c.wires) rfl
  refine ⟨_, _, hembed, fun hsize => (b.embedInWidth_eq_embed hsize).trans hembed, hrun, hc.wires,
    fun x y hy z hz => hc.toComplex_amp hm hk hturns hb hsum x hy hz, ?_, fun j p hj => ?_⟩
  · rw [hc.solution_eq_ofFn rfl]
    refine congrArg (fun f => Except.ok (List.ofFn f)) (funext fun x => ?_)
    have hentry := hc.toComplex_amp hm hk hturns hb hsum x (Nat.two_pow_pos t) Nat.one_lt_two
    rw [if_pos rfl] at hentry
    exact (Cx.ofComplex_toComplex _).symm.trans (congrArg _ hentry)
  · rw [hj]
    exact rotationAngle_two_pow (hj ▸ hk j)

end Run

def graded : DenseMatrix ℝ := .ofFn 2 2 fun i j => if i = j then i + 1 else 0

theorem exists_compactSolver_graded (t0 : ℝ) (r : ℤ) : ∃ c, compactSolver graded t0 r 1 2 = .ok c := by
  have htime (time : ℝ) :
      timeEvolution graded time = .ok (.primitive (.evolution (graded.map Cx.ofReal) (.value time))) := by
    refine timeEvolution_symmetric (fun i j => ?_) time
    by_cases hij : i = j
    · rw [hij]
    · rw [if_neg hij, if_neg (Ne.symm hij)]
  rw [← isOk_eq_true_iff]
  unfold compactSolver eigenvalueEstimation
  rw [htime]
  rfl

theorem evolution_graded [EigenSolver ℝ] (j : Fin 2) :
    ((graded.map Cx.ofReal).evolution (-(2 * Real.pi / 2 ^ 2))).toMatrix (2 ^ 1) (2 ^ 1) *ᵥ
        (Pi.single j 1 : Fin (2 ^ 1) → ℂ) =
      Complex.exp (2 * Real.pi * Complex.I * ((j.val + 1 : ℕ) / 2 ^ 2)) • (Pi.single j 1 : Fin (2 ^ 1) → ℂ) := by
  have hget {x y : ℕ} (hx : x < 2) (hy : y < 2) :
      (graded.map Cx.ofReal).get x y = Cx.ofReal (if x = y then (x : ℝ) + 1 else 0) := by
    rw [get_map rfl, graded, get_ofFn _ hx hy]
  have hdiagonal : (graded.map Cx.ofReal).isDiagonal = true := by
    refine isDiagonal_of_get fun x (hx : x < 2) y (hy : y < 2) hne => ?_
    rw [hget hx hy, if_neg hne]
    rfl
  have hvalues : (graded.map Cx.ofReal).diagonalEntries.map Cx.re = [1, 2] := by
    change [((graded.map Cx.ofReal).get 0 0).re, ((graded.map Cx.ofReal).get 1 1).re] = [1, 2]
    rw [hget Nat.two_pos Nat.two_pos, hget Nat.one_lt_two Nat.one_lt_two]
    norm_num [Cx.ofReal]
  have hmatrix (time : ℝ) : ((graded.map Cx.ofReal).evolution time).toMatrix (2 ^ 1) (2 ^ 1) =
      (phases ((graded.map Cx.ofReal).diagonalEntries.map Cx.re) time).toMatrix (2 ^ 1) (2 ^ 1) :=
    toMatrix_evolution_diagonal hdiagonal time
  have hlength : ([1, 2] : List ℝ).length = 2 ^ 1 := rfl
  have hvalue : ([1, 2] : List ℝ).getD j 0 = ((j.val + 1 : ℕ) : ℝ) := by
    fin_cases j
    · exact Nat.cast_one.symm
    · exact (Nat.cast_ofNat (R := ℝ) (n := 2)).symm
  rw [hmatrix, hvalues, toMatrix_phases hlength, diagonal_mulVec_single, mul_one, hvalue, ← Pi.single_smul',
    smul_eq_mul, mul_one]
  congr 2
  push_cast
  ring

attribute [local instance] EigenSolver.spectral in
theorem run_compactSolver_graded :
    ∃ (c : Circuit ℝ) (b : State ℝ), 2 ≤ 32 ∧ compactSolver graded (2 * Real.pi) 2 1 2 = .ok c ∧
      (∀ j : Fin 2, j.val + 1 < 2 ^ 2) ∧
      (∀ j : Fin 2, ((graded.map Cx.ofReal).evolution (-(2 * Real.pi / 2 ^ 2))).toMatrix (2 ^ 1) (2 ^ 1) *ᵥ
          (Pi.single j 1 : Fin (2 ^ 1) → ℂ) =
        Complex.exp (2 * Real.pi * Complex.I * ((j.val + 1 : ℕ) / 2 ^ 2)) • (Pi.single j 1 : Fin (2 ^ 1) → ℂ)) ∧
      b.qubits = 1 ∧ b.vector 1 = ∑ j : Fin 2, (![3 / 5, 4 / 5] : Fin 2 → ℂ) j • Pi.single j 1 ∧
      ∃ s out, b.embed (1 + 2 + 1) = .ok s ∧ (1 + 2 + 1 < UInt32.size → b.embedInWidth (1 + 2 + 1) = .ok s) ∧
        c.statevector s = .ok out ∧ out.qubits = 1 + 2 + 1 ∧
        (∀ x : Fin (2 ^ 1), ∀ y < 2 ^ 2, ∀ z < 2, (out.amp (x + 2 ^ 1 * y + 2 ^ (1 + 2) * z)).toComplex =
          if y = 0 then ∑ j : Fin 2, (![3 / 5, 4 / 5] : Fin 2 → ℂ) j *
            (if z = 0 then Real.cos (rotationAngle 2 2 (j.val + 1) / 2)
              else Real.sin (rotationAngle 2 2 (j.val + 1) / 2) : ℝ) * (Pi.single j 1 : Fin (2 ^ 1) → ℂ) x else 0) ∧
        solution c out = .ok (List.ofFn fun x : Fin (2 ^ 1) => .ofComplex
          (∑ j : Fin 2, (![3 / 5, 4 / 5] : Fin 2 → ℂ) j *
            (Real.sin (rotationAngle 2 2 (j.val + 1) / 2) : ℝ) * (Pi.single j 1 : Fin (2 ^ 1) → ℂ) x)) ∧
        ∀ (j : Fin 2) (p : ℕ), j.val + 1 = 2 ^ p →
          rotationAngle 2 2 (j.val + 1) = Real.pi * 2 ^ (((2 : ℕ) : ℤ) - 2) / (j.val + 1 : ℕ) :=
  have := EigenSolver.orthonormalSpectra_spectral
  let ⟨c, hc⟩ := exists_compactSolver_graded (2 * Real.pi) 2
  have hreadings (j : Fin 2) : j.val + 1 < 2 ^ 2 := by omega
  have hvector := State.vector_ofVector (n := 1) (∑ j : Fin 2, (![3 / 5, 4 / 5] : Fin 2 → ℂ) j • Pi.single j 1)
  ⟨c, _, by decide, hc, hreadings, evolution_graded, rfl, hvector,
    run_compactSolver (by decide) hc hreadings evolution_graded ![3 / 5, 4 / 5] rfl hvector⟩

end

end QuantumCircuits.LinearSystem
