import Mathlib
import QuantumCircuits.Proofs.Algorithm.CompactSolver
import QuantumCircuits.Proofs.Algorithm.RotationLadder

/-! Which inputs the builders of linear-system circuits accept. Each builder succeeds exactly on sizes and
operations for which all builders inside do, so that nothing is left in the end but the shape and the symmetry of
the matrix, nonempty registers and exponents of 32 bits. -/

namespace QuantumCircuits
open QuantumCircuits.Basis

section Build

variable {R : Type}

theorem counting_of_countingSteps {u : Operation R} {b c : Register} {steps : List (Step (Operation R))}
    (h : countingSteps u b c = .ok steps) (hc : 0 < c.size) : u.isUnitary = true ∧ c.size ≤ 32 := by
  have hstep (i : ℕ) (hi : i < c.size) : u.isUnitary = true ∧ i < 32 := by
    obtain ⟨_, _, hs⟩ := exists_of_mapM h i (List.mem_range.2 hi)
    obtain ⟨powered, hpowered, hs⟩ := bind_eq_ok_iff.1 hs
    obtain ⟨controlled, hcontrolled, _⟩ := bind_eq_ok_iff.1 hs
    obtain ⟨hlimit, rfl⟩ := Operation.powerOfTwo_eq_ok_iff.1 hpowered
    have hunitary : (Operation.powered u (1 <<< i)).isUnitary = true := Operation.isUnitary_of_control hcontrolled
    exact ⟨hunitary, hlimit⟩
  refine ⟨(hstep 0 hc).1, ?_⟩
  have hlast := (hstep (c.size - 1) (Nat.sub_lt hc Nat.one_pos)).2
  omega

variable [Scalar R]

namespace Fourier

theorem transform_isOk_iff {n : ℕ} : (transform n : Except Fault (Operation R)).isOk = true ↔ 1 ≤ n := by
  rw [isOk_eq_true_iff]
  constructor
  · rintro ⟨o, h⟩
    obtain ⟨_, hregister, _⟩ := bind_eq_ok_iff.1 h
    exact Circuit.pos_of_addRegister hregister
  · exact fun hn => ⟨_, transform_eq hn⟩

theorem inverseTransform_isOk_iff {n : ℕ} : (inverseTransform n : Except Fault (Operation R)).isOk = true ↔ 1 ≤ n := by
  rw [isOk_eq_true_iff]
  constructor
  · rintro ⟨o, h⟩
    obtain ⟨t, ht, _⟩ := bind_eq_ok_iff.1 h
    exact transform_isOk_iff.1 (isOk_eq_true_iff.2 ⟨t, ht⟩)
  · exact fun hn => ⟨_, inverseTransform_eq hn⟩

end Fourier

theorem phaseEstimation_isOk_iff {n t : ℕ} {u : Operation R} : (phaseEstimation n t u).isOk = true ↔
    u.arity = n ∧ u.isUnitary = true ∧ 1 ≤ n ∧ 1 ≤ t ∧ t ≤ 32 := by
  rw [isOk_eq_true_iff]
  constructor
  · rintro ⟨o, h⟩
    unfold phaseEstimation at h
    split at h
    · cases h
    · next harity =>
      obtain ⟨⟨b, c₁⟩, hb, h⟩ := bind_eq_ok_iff.1 h
      obtain ⟨⟨c, c₂⟩, hc, h⟩ := bind_eq_ok_iff.1 h
      obtain ⟨_, _, h⟩ := bind_eq_ok_iff.1 h
      obtain ⟨_, hsteps, _⟩ := bind_eq_ok_iff.1 h
      have ht := Circuit.pos_of_addRegister hc
      obtain ⟨rfl, _⟩ := Circuit.of_addRegister hc
      obtain ⟨hunitary, hlimit⟩ := counting_of_countingSteps hsteps ht
      exact ⟨not_not.1 harity, hunitary, Circuit.pos_of_addRegister hb, ht, hlimit⟩
  · rintro ⟨harity, hunitary, hn, ht, hlimit⟩
    exact ⟨_, PhaseEstimation.phaseEstimation_eq hn ht hlimit harity hunitary⟩

namespace RotationLadder

variable {t m l k : ℕ}

theorem bank_isOk_iff {c : ℕ → R} : (bank t m l k c).isOk = true ↔ 1 ≤ t ∧ 1 ≤ m ∧ k < l := by
  rw [isOk_eq_true_iff]
  constructor
  · rintro ⟨o, h⟩
    obtain ⟨⟨counting, c₁⟩, h₁, h⟩ := bind_eq_ok_iff.1 h
    obtain ⟨⟨workspace, c₂⟩, h₂, h⟩ := bind_eq_ok_iff.1 h
    obtain ⟨⟨out, c₃⟩, h₃, h⟩ := bind_eq_ok_iff.1 h
    obtain ⟨steps, hsteps, h⟩ := bind_eq_ok_iff.1 h
    obtain ⟨c₄, h₄, _⟩ := bind_eq_ok_iff.1 h
    have ht := Circuit.pos_of_addRegister h₁
    obtain ⟨rfl, hwires, _⟩ := Circuit.of_addRegister h₃
    -- The step of the first counting bit fits, and the output bit is one of its wires.
    obtain ⟨s, hs, hstep⟩ := exists_of_mapM hsteps 0 (List.mem_range.2 ht)
    obtain ⟨_, _, hstep⟩ := bind_eq_ok_iff.1 hstep
    obtain ⟨_, _, same⟩ := bind_eq_ok_iff.1 hstep
    obtain rfl := pure_eq_ok_iff.1 same
    have hbelow : c₂.wires + k < c₃.wires := ((Circuit.appendAll_eq_ok_iff.1 h₄).1 _ hs).below _ List.mem_cons_self
    exact ⟨ht, Circuit.pos_of_addRegister h₂, by omega⟩
  · rintro ⟨ht, hm, hk⟩
    exact ⟨_, bank_eq ht hm (Nat.zero_lt_of_lt hk) hk c⟩

theorem controlledLadders_isOk_iff {t0 : R} : (controlledLadders t m l k t0).isOk = true ↔ 1 ≤ t ∧ 1 ≤ m ∧ k < l :=
  bank_isOk_iff

theorem reciprocal_isOk_iff {t0 : R} : (reciprocal t m l t0).isOk = true ↔ 1 ≤ t ∧ 1 ≤ m ∧ 1 ≤ l := by
  rw [isOk_eq_true_iff]
  constructor
  · rintro ⟨o, h⟩
    obtain ⟨⟨counting, c₁⟩, h₁, h⟩ := bind_eq_ok_iff.1 h
    obtain ⟨⟨workspace, c₂⟩, h₂, h⟩ := bind_eq_ok_iff.1 h
    obtain ⟨⟨out, c₃⟩, h₃, _⟩ := bind_eq_ok_iff.1 h
    exact ⟨Circuit.pos_of_addRegister h₁, Circuit.pos_of_addRegister h₂, Circuit.pos_of_addRegister h₃⟩
  · rintro ⟨ht, hm, hl⟩
    exact ⟨_, reciprocal_eq ht hm hl t0⟩

end RotationLadder
end Build

namespace LinearSystem

section Sizes

variable {R : Type} [Scalar R] {size : Size}

theorem exists_allocated (hn : 1 ≤ size.n) (ht : 1 ≤ size.t) (hm : 1 ≤ size.m) (hl : 1 ≤ size.l) (name : String) :
    ∃ b c m l : Register, ∃ c₁ c₂ c₃ d : Circuit R, (Circuit.empty name).addRegister "b" size.n = .ok (b, c₁) ∧
      c₁.addRegister "c" size.t = .ok (c, c₂) ∧ c₂.addRegister "m" size.m = .ok (m, c₃) ∧
      c₃.addRegister "l" size.l = .ok (l, d) ∧ IsAllocated size b c m l d := by
  obtain ⟨b, c₁, h₁⟩ := (Circuit.empty name : Circuit R).exists_addRegister "b" hn
  obtain ⟨c, c₂, h₂⟩ := c₁.exists_addRegister "c" ht
  obtain ⟨m, c₃, h₃⟩ := c₂.exists_addRegister "m" hm
  obtain ⟨l, d, h₄⟩ := c₃.exists_addRegister "l" hl
  exact ⟨b, c, m, l, c₁, c₂, c₃, d, h₁, h₂, h₃, h₄, isAllocated h₁ h₂ h₃ h₄⟩

theorem IsAllocated.all {b c m l : Register} {d : Circuit R} (h : IsAllocated size b c m l d) :
    b.wires ++ c.wires ++ m.wires ++ l.wires = List.range size.wires := by
  rw [h.input, h.counting, h.workspace, h.output, ← range_wires]
  rfl

theorem IsAllocated.selects {b c m l : Register} {d : Circuit R} (h : IsAllocated size b c m l d) {k : ℕ}
    {wires : List ℕ} (hlength : wires.length = k) (hwires : wires.Sublist (b.wires ++ c.wires ++ m.wires ++ l.wires)) :
    Selects d.wires k wires := by
  have hall : Selects d.wires size.wires (b.wires ++ c.wires ++ m.wires ++ l.wires) := by
    rw [h.all, h.wires]
    exact Selects.range size.wires
  exact ⟨hlength, hall.nodup.sublist hwires, fun w hw => hall.below w (hwires.subset hw)⟩

end Sizes

noncomputable section

variable {a : DenseMatrix ℝ} {t0 theta : ℝ} {size : Size} {n t : ℕ}

/-- What the solvers ask of a matrix: a row and a column for each basis state of some wires, and entries that are
mirrored at the diagonal up to the tolerance. -/
structure IsSystem (a : DenseMatrix ℝ) (n : ℕ) : Prop where
  nonempty : 1 ≤ n
  rows : a.rows = 2 ^ n
  columns : a.columns = 2 ^ n
  symmetric : ∀ i < 2 ^ n, ∀ j < 2 ^ n, |a.get i j - a.get j i| ≤ 1 / 10 ^ 9

theorem modulus_ofReal_sub_conj (x y : ℝ) : (Cx.ofReal x - (Cx.ofReal y).conj).modulus = |x - y| := by
  change √((x - y) ^ 2 + (0 - -0) ^ 2) = |x - y|
  rw [sub_neg_eq_add, add_zero, zero_pow two_ne_zero, add_zero, Real.sqrt_sq_eq_abs]

theorem isNear_adjoint_map_iff (hsquare : a.rows = a.columns) :
    (a.map Cx.ofReal).isNear (a.map Cx.ofReal).adjoint = true ↔
      ∀ i < a.rows, ∀ j < a.rows, |a.get i j - a.get j i| ≤ 1 / 10 ^ 9 := by
  have hentry (i j : ℕ) : (a.map Cx.ofReal).get i j = Cx.ofReal (a.get i j) := DenseMatrix.get_map rfl a i j
  have hrows : (a.map Cx.ofReal).rows = a.rows := rfl
  have hcolumns : (a.map Cx.ofReal).columns = a.rows := hsquare.symm
  rw [DenseMatrix.isNear_eq_true_iff, hrows, hcolumns]
  refine forall₂_congr fun i hi => forall₂_congr fun j hj => ?_
  have hmirrored : (a.map Cx.ofReal).adjoint.get i j = (Cx.ofReal (a.get j i)).conj := by
    rw [DenseMatrix.adjoint, DenseMatrix.get_ofFn _ (hcolumns.symm ▸ hi) (hrows.symm ▸ hj), hentry]
  rw [hentry, hmirrored, modulus_ofReal_sub_conj, Scalar.tolerance_real, not_lt]

theorem isHamiltonian_map_iff : (a.map Cx.ofReal).IsHamiltonian ↔ ∃ n, IsSystem a n := by
  have hcheck : Gate.checkDimension (a.map Cx.ofReal) = .ok () ↔
      a.rows = a.columns ∧ 2 ≤ a.rows ∧ ∃ n, a.rows = 2 ^ n :=
    Gate.checkDimension_eq_ok_iff
  rw [DenseMatrix.IsHamiltonian, hcheck]
  constructor
  · rintro ⟨⟨hsquare, hle, n, hn⟩, hnear⟩
    have hsymmetric := (isNear_adjoint_map_iff hsquare).1 hnear
    rw [hn] at hle hsymmetric
    refine ⟨n, Nat.pos_of_ne_zero ?_, hn, hsquare ▸ hn, hsymmetric⟩
    rintro rfl
    exact absurd hle (by decide)
  · rintro ⟨n, h⟩
    have hsquare := h.rows.trans h.columns.symm
    refine ⟨⟨hsquare, ?_, n, h.rows⟩, (isNear_adjoint_map_iff hsquare).2 ?_⟩
    · rw [h.rows]
      exact Nat.le_self_pow (Nat.one_le_iff_ne_zero.1 h.nonempty) 2
    · rw [h.rows]
      exact h.symmetric

theorem timeEvolution_isOk_iff (time : ℝ) : (timeEvolution a time).isOk = true ↔ ∃ n, IsSystem a n := by
  rw [isOk_eq_true_iff, ← isHamiltonian_map_iff]
  constructor
  · rintro ⟨u, hu⟩
    exact (timeEvolution_eq_ok hu).1
  · intro h
    obtain ⟨n, hn⟩ := isHamiltonian_map_iff.1 h
    have hgate : Gate.ofHamiltonian (a.map Cx.ofReal) (.value time) =
        .ok (.evolution (a.map Cx.ofReal) (.value time)) :=
      Gate.ofHamiltonian_eq_ok_iff.2 ⟨h, rfl⟩
    unfold timeEvolution
    rw [if_neg (not_not.2 (hn.rows.trans hn.columns.symm))]
    exact ⟨_, bind_eq_ok_iff.2 ⟨_, hgate, rfl⟩⟩

theorem IsSystem.arity (h : IsSystem a n) (time : Param ℝ) :
    (Operation.primitive (.evolution (a.map Cx.ofReal) time)).arity = n := by
  have hrows : (a.map Cx.ofReal).rows = 2 ^ n := h.rows
  change Nat.log2 (a.map Cx.ofReal).rows = n
  rw [hrows, Nat.log2_two_pow]

theorem eigenvalueEstimation_isOk_iff (t0 : ℝ) : (eigenvalueEstimation a t0 n t).isOk = true ↔
    IsSystem a n ∧ 1 ≤ t ∧ t ≤ 32 := by
  rw [isOk_eq_true_iff]
  constructor
  · rintro ⟨o, h⟩
    obtain ⟨u, hu, hestimation⟩ := bind_eq_ok_iff.1 h
    obtain ⟨harity, _, _, ht, hlimit⟩ := phaseEstimation_isOk_iff.1 (isOk_eq_true_iff.2 ⟨o, hestimation⟩)
    obtain ⟨d, hd⟩ := (timeEvolution_isOk_iff _).1 (isOk_eq_true_iff.2 ⟨u, hu⟩)
    obtain ⟨_, rfl⟩ := timeEvolution_eq_ok hu
    obtain rfl : d = n := (hd.arity _).symm.trans harity
    exact ⟨hd, ht, hlimit⟩
  · rintro ⟨hsystem, ht, hlimit⟩
    obtain ⟨u, hu⟩ := isOk_eq_true_iff.1 ((timeEvolution_isOk_iff (-(t0 / Scalar.twoPower (t : ℤ)))).2 ⟨n, hsystem⟩)
    obtain ⟨_, hevolution⟩ := timeEvolution_eq_ok hu
    have harity : u.arity = n := hevolution ▸ hsystem.arity _
    have hunitary : u.isUnitary = true := hevolution ▸ rfl
    exact ⟨_, bind_eq_ok_iff.2 ⟨u, hu, PhaseEstimation.phaseEstimation_eq hsystem.nonempty ht hlimit harity hunitary⟩⟩

theorem forward_isOk_iff (t0 : ℝ) : (forward size a t0).isOk = true ↔
    IsSystem a size.n ∧ 1 ≤ size.t ∧ size.t ≤ 32 ∧ 1 ≤ size.m ∧ 1 ≤ size.l := by
  rw [isOk_eq_true_iff]
  constructor
  · rintro ⟨o, h⟩
    obtain ⟨⟨b, c₁⟩, hb, h⟩ := bind_eq_ok_iff.1 h
    obtain ⟨⟨c, c₂⟩, hc, h⟩ := bind_eq_ok_iff.1 h
    obtain ⟨⟨workspace, c₃⟩, hm, h⟩ := bind_eq_ok_iff.1 h
    obtain ⟨⟨out, c₄⟩, hl, h⟩ := bind_eq_ok_iff.1 h
    obtain ⟨estimation, hestimation, _⟩ := bind_eq_ok_iff.1 h
    obtain ⟨hsystem, ht, hlimit⟩ := (eigenvalueEstimation_isOk_iff t0).1 (isOk_eq_true_iff.2 ⟨_, hestimation⟩)
    exact ⟨hsystem, ht, hlimit, Circuit.pos_of_addRegister hm, Circuit.pos_of_addRegister hl⟩
  · rintro ⟨hsystem, ht, hlimit, hm, hl⟩
    obtain ⟨b, c, m, l, c₁, c₂, c₃, d, h₁, h₂, h₃, h₄, hd⟩ :=
      exists_allocated (R := ℝ) hsystem.nonempty ht hm hl "forward"
    obtain ⟨estimation, hestimation⟩ :=
      isOk_eq_true_iff.1 ((eigenvalueEstimation_isOk_iff t0).2 ⟨hsystem, ht, hlimit⟩)
    obtain ⟨u, hu, harity, rfl⟩ := exists_of_eigenvalueEstimation hsystem.nonempty ht hlimit hestimation
    have hrotation := RotationLadder.reciprocal_eq ht hm hl t0
    have hinput : Selects d.wires (size.n + size.t) (b.wires ++ c.wires) := by
      refine hd.selects ?_ (by simp [List.append_assoc])
      simp [hd.input, hd.counting, Register.wires]
    have hthree : Selects d.wires (size.t + size.m + size.l) (c.wires ++ m.wires ++ l.wires) := by
      refine hd.selects ?_ (by simp [List.append_assoc])
      simp [hd.counting, hd.workspace, hd.output, Register.wires]
    have hone {w : ℕ} (hw : w ∈ m.wires ++ l.wires) : Selects d.wires 1 [w] := by
      refine hd.selects rfl ?_
      rw [List.singleton_sublist, List.append_assoc]
      exact List.mem_append_right _ hw
    refine exists_bind_eq_ok h₁ (exists_bind_eq_ok h₂ (exists_bind_eq_ok h₃ (exists_bind_eq_ok h₄ ?_)))
    refine exists_bind_eq_ok hestimation (exists_bind_eq_ok (Circuit.append_eq_ok_iff.2 ⟨hinput, rfl⟩) ?_)
    refine exists_bind_eq_ok (Circuit.appendAll_eq_ok_iff.2 ⟨fun s hs => ?_, rfl⟩) ?_
    · obtain ⟨w, hw, rfl⟩ := List.mem_map.1 hs
      exact hone hw
    refine exists_bind_eq_ok (Circuit.appendAll_eq_ok_iff.2 ⟨fun s hs => ?_, rfl⟩) ?_
    · obtain ⟨i, hi, rfl⟩ := List.mem_map.1 hs
      have hi : i < m.size := by
        rw [hd.workspace]
        exact List.mem_range.1 hi
      exact hone (List.mem_append_left _ (Register.mem_wires.2 ⟨Nat.le_add_right _ _, Nat.add_lt_add_left hi _⟩))
    exact exists_bind_eq_ok hrotation (exists_bind_eq_ok (Circuit.append_eq_ok_iff.2 ⟨hthree, rfl⟩) ⟨_, rfl⟩)

theorem exists_inverse {o : Operation ℝ} (h : o.MadeOf Gate.IsNumeric) :
    ∃ i, o.inverse = .ok i ∧ i.arity = o.arity := by
  have hunitary : o.isUnitary = true :=
    (Operation.isUnitary_iff false o).2 fun g hg => (h.gates false g hg).isPure.resets
  obtain ⟨i, hi⟩ := Operation.exists_inverse hunitary
  exact ⟨i, hi, (h.wellFormed.inverse hi).2.1⟩

def ancillaRotations (size : Size) (theta : ℝ) : List (Step (Operation ℝ)) := (List.range size.l).map fun k =>
  ⟨.powered (.primitive (.cry (.value theta))) (1 <<< k), [size.output + k, size.wires]⟩

theorem mapM_ancillaRotations (hl : size.l ≤ 32) : (List.range size.l).mapM (fun k => do
    let rotation ← (Operation.primitive (Gate.cry (.value theta))).powerOfTwo k
    return (⟨rotation, [size.output + k, size.wires]⟩ : Step (Operation ℝ))) = .ok (ancillaRotations size theta) := by
  rw [mapM_eq_ok_iff, ancillaRotations, List.forall₂_map_right_iff, List.forall₂_same]
  intro k hk
  have hlow : k < 32 := (List.mem_range.1 hk).trans_le hl
  exact bind_eq_ok_iff.2 ⟨_, Operation.powerOfTwo_eq_ok_iff.2 ⟨hlow, rfl⟩, rfl⟩

theorem ancillaRotations_fits {s : Step (Operation ℝ)} (hs : s ∈ ancillaRotations size theta) :
    s.Fits (size.wires + 1) := by
  obtain ⟨k, hk, rfl⟩ := List.mem_map.1 hs
  have hbelow : size.output + k < size.wires := Nat.add_lt_add_left (List.mem_range.1 hk) _
  exact Operator.selects_pair (hbelow.trans (Nat.lt_succ_self _)) (Nat.lt_succ_self _) hbelow.ne

theorem solver_isOk_iff : (solver a t0 theta size).isOk = true ↔
    IsSystem a size.n ∧ 1 ≤ size.t ∧ size.t ≤ 32 ∧ 1 ≤ size.m ∧ 1 ≤ size.l ∧ size.l ≤ 32 := by
  rw [isOk_eq_true_iff]
  constructor
  · rintro ⟨c, h⟩
    obtain ⟨block, inverse, rotations, hblock, _, hsolver⟩ := exists_of_solver h
    obtain ⟨hsystem, ht, hlimit, hm, hl⟩ := (forward_isOk_iff t0).1 (isOk_eq_true_iff.2 ⟨block, hblock⟩)
    refine ⟨hsystem, ht, hlimit, hm, hl, ?_⟩
    obtain ⟨s, _, _, hs⟩ := exists_of_forall₂_right hsolver.rotations.flip (size.l - 1) (List.mem_range.2 (by omega))
    have hlast := (Operation.powerOfTwo_eq_ok_iff.1 hs).1
    omega
  · rintro ⟨hsystem, ht, hlimit, hm, hl, hcount⟩
    obtain ⟨block, hblock⟩ := isOk_eq_true_iff.1 ((forward_isOk_iff t0).2 ⟨hsystem, ht, hlimit, hm, hl⟩)
    obtain ⟨body, _, _, rfl, hforward⟩ := exists_of_forward hblock
    obtain ⟨inverse, hinverse, harity⟩ := exists_inverse hforward.madeOf
    obtain ⟨b, c, m, l, c₁, c₂, c₃, c₄, h₁, h₂, h₃, h₄, hd⟩ :=
      exists_allocated (R := ℝ) hsystem.nonempty ht hm hl "hhl"
    obtain ⟨ancilla, d, h₅⟩ := c₄.exists_addRegister "anc" Nat.one_pos
    obtain ⟨hancilla, hwires, _⟩ := Circuit.of_addRegister h₅
    rw [hd.wires] at hancilla hwires
    have hall : Selects d.wires body.wires (b.wires ++ c.wires ++ m.wires ++ l.wires) := by
      rw [hd.all, hwires, hforward.wires]
      exact (Selects.range size.wires).mono (Nat.le_succ _)
    have hrotations : (List.range size.l).mapM (fun k => do
        let rotation ← (Operation.primitive (Gate.cry (.value theta))).powerOfTwo k
        return (⟨rotation, [l.wire k, ancilla.wire 0]⟩ : Step (Operation ℝ))) = .ok (ancillaRotations size theta) := by
      rw [hd.output, hancilla]
      exact mapM_ancillaRotations hcount
    have hfits : ∀ s ∈ ancillaRotations size theta, s.Fits d.wires := fun s hs => hwires ▸ ancillaRotations_fits hs
    refine exists_bind_eq_ok hblock (exists_bind_eq_ok h₁ (exists_bind_eq_ok h₂ (exists_bind_eq_ok h₃ ?_)))
    refine exists_bind_eq_ok h₄ (exists_bind_eq_ok h₅ ?_)
    refine exists_bind_eq_ok (Circuit.append_eq_ok_iff.2 ⟨hall, rfl⟩) ?_
    refine exists_bind_eq_ok hrotations (exists_bind_eq_ok (Circuit.appendAll_eq_ok_iff.2 ⟨hfits, rfl⟩) ?_)
    exact exists_bind_eq_ok hinverse ⟨_, Circuit.append_eq_ok_iff.2 ⟨harity ▸ hall, rfl⟩⟩

theorem compactSolver_isOk_iff {r : ℤ} : (compactSolver a t0 r n t).isOk = true ↔ IsSystem a n ∧ 1 ≤ t ∧ t ≤ 32 := by
  rw [← eigenvalueEstimation_isOk_iff t0, isOk_eq_true_iff, isOk_eq_true_iff]
  constructor
  · rintro ⟨c, h⟩
    obtain ⟨estimation, hestimation, _⟩ := bind_eq_ok_iff.1 h
    exact ⟨estimation, hestimation⟩
  · rintro ⟨estimation, hestimation⟩
    obtain ⟨hsystem, ht, hlimit⟩ := (eigenvalueEstimation_isOk_iff t0).1 (isOk_eq_true_iff.2 ⟨_, hestimation⟩)
    obtain ⟨u, _, harity, rfl⟩ := exists_of_eigenvalueEstimation hsystem.nonempty ht hlimit hestimation
    obtain ⟨inverse, hinverse, hsame⟩ := exists_inverse (madeOf_eigenvalueEstimation hestimation)
    obtain ⟨b, c₁, h₁⟩ := (Circuit.empty "compact_hhl" : Circuit ℝ).exists_addRegister "b" hsystem.nonempty
    obtain ⟨counting, c₂, h₂⟩ := c₁.exists_addRegister "c" ht
    obtain ⟨ancilla, d, h₃⟩ := c₂.exists_addRegister "anc" Nat.one_pos
    obtain ⟨rfl, hwires₁, _⟩ := Circuit.of_addRegister h₁
    obtain ⟨rfl, hwires₂, _⟩ := Circuit.of_addRegister h₂
    obtain ⟨rfl, hwires₃, _⟩ := Circuit.of_addRegister h₃
    replace hwires₁ : c₁.wires = n := hwires₁.trans (Nat.zero_add n)
    rw [hwires₁] at hwires₂
    rw [hwires₂] at hwires₃
    have hall : Selects d.wires (n + t) (Register.wires ⟨"b", n, 0⟩ ++ Register.wires ⟨"c", t, c₁.wires⟩) := by
      rw [hwires₁, hwires₃, range_estimation]
      exact (Selects.range (n + t)).mono (Nat.le_succ _)
    refine exists_bind_eq_ok hestimation (exists_bind_eq_ok h₁ (exists_bind_eq_ok h₂ (exists_bind_eq_ok h₃ ?_)))
    refine exists_bind_eq_ok (Circuit.append_eq_ok_iff.2 ⟨hall, rfl⟩) ?_
    refine exists_bind_eq_ok (Circuit.appendAll_eq_ok_iff.2 ⟨fun s hs => ?_, rfl⟩) ?_
    · obtain ⟨i, hi, rfl⟩ := List.mem_map.1 hs
      have hbelow : c₁.wires + i < c₂.wires := by
        rw [hwires₁, hwires₂]
        exact Nat.add_lt_add_left (List.mem_range.1 hi) _
      have hlast : c₂.wires < d.wires := by
        rw [hwires₂, hwires₃]
        exact Nat.lt_succ_self _
      exact Operator.selects_pair (hbelow.trans hlast) hlast hbelow.ne
    exact exists_bind_eq_ok hinverse ⟨_, Circuit.append_eq_ok_iff.2 ⟨hsame ▸ hall, rfl⟩⟩

theorem shape_of_solver {c : Circuit ℝ} (h : solver a t0 theta size = .ok c) :
    c.wires = size.n + size.t + size.m + size.l + 1 ∧ c.steps.length = size.l + 2 := by
  obtain ⟨_, _, rotations, _, _, hsolver⟩ := exists_of_solver h
  have hcount : rotations.length = size.l := hsolver.rotations.length_eq.symm.trans List.length_range
  refine ⟨hsolver.wires, ?_⟩
  rw [hsolver.steps, List.length_append, List.length_append, hcount, List.length_singleton, List.length_singleton]
  omega

/-- Both solvers take exactly the systems of their size, with at most 32 wires in the registers whose bits stand for
powers of two and at least one in each register. On sizes in range nothing inside them fails: the transforms, phase
estimation, the ladders, the reciprocal rotation and the forward block are built as well. -/
theorem solvers_accept (a : DenseMatrix ℝ) (t0 theta : ℝ) (size : Size) (r : ℤ) :
    ((solver a t0 theta size).isOk = true ↔
      IsSystem a size.n ∧ 1 ≤ size.t ∧ size.t ≤ 32 ∧ 1 ≤ size.m ∧ 1 ≤ size.l ∧ size.l ≤ 32) ∧
    (∀ c, solver a t0 theta size = .ok c →
      c.wires = size.n + size.t + size.m + size.l + 1 ∧ c.steps.length = size.l + 2) ∧
    ((compactSolver a t0 r size.n size.t).isOk = true ↔ IsSystem a size.n ∧ 1 ≤ size.t ∧ size.t ≤ 32) ∧
    ((forward size a t0).isOk = true ↔
      IsSystem a size.n ∧ 1 ≤ size.t ∧ size.t ≤ 32 ∧ 1 ≤ size.m ∧ 1 ≤ size.l) ∧
    (∀ u : Operation ℝ, (phaseEstimation size.n size.t u).isOk = true ↔
      u.arity = size.n ∧ u.isUnitary = true ∧ 1 ≤ size.n ∧ 1 ≤ size.t ∧ size.t ≤ 32) ∧
    ((Fourier.transform size.t : Except Fault (Operation ℝ)).isOk = true ↔ 1 ≤ size.t) ∧
    ((Fourier.inverseTransform size.t : Except Fault (Operation ℝ)).isOk = true ↔ 1 ≤ size.t) ∧
    (∀ k, (RotationLadder.controlledLadders size.t size.m size.l k t0).isOk = true ↔
      1 ≤ size.t ∧ 1 ≤ size.m ∧ k < size.l) ∧
    ((RotationLadder.reciprocal size.t size.m size.l t0).isOk = true ↔ 1 ≤ size.t ∧ 1 ≤ size.m ∧ 1 ≤ size.l) :=
  ⟨solver_isOk_iff, fun _ => shape_of_solver, compactSolver_isOk_iff, forward_isOk_iff t0,
    fun _ => phaseEstimation_isOk_iff, Fourier.transform_isOk_iff, Fourier.inverseTransform_isOk_iff,
    fun _ => RotationLadder.controlledLadders_isOk_iff, RotationLadder.reciprocal_isOk_iff⟩

end

end LinearSystem
end QuantumCircuits
