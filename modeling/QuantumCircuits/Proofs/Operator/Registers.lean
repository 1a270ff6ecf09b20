import Mathlib
import QuantumCircuits.Proofs.Gate.Matrices
import QuantumCircuits.Proofs.Operator.Placed

/-! Maps on whole registers. A Hadamard gate on each wire spreads a zero over all readings of the wires,
and rotations under the bits of a register add up to one rotation by what the register reads. -/

noncomputable section
namespace QuantumCircuits.Operator
open Matrix QuantumCircuits.Basis DenseMatrix

variable {n d : ℕ} {wires : List ℕ}

def hadamards (n : ℕ) : List ℕ → Operator n
  | [] => 1
  | w :: ws => hadamards n ws * placed (d := 1) [] [w] (hadamard.toMatrix 2 2)

def spread : ℂ := (hadamard : DenseMatrix (Cx ℝ)).toMatrix 2 2 0 0

theorem spread_eq : spread = ((1 / √2 : ℝ) : ℂ) := by
  rw [spread, toMatrix_hadamard]
  exact mul_one _

theorem star_spread : star spread = spread := by
  rw [spread_eq, star_ofReal]

theorem spread_mul_spread : spread * spread = 1 / 2 := by
  rw [spread_eq, ← Complex.ofReal_mul, div_mul_div_comm, one_mul, Real.mul_self_sqrt zero_le_two]
  norm_num

theorem selects_singleton {w : ℕ} (h : w < n) : Selects n 1 [w] :=
  ⟨rfl, List.nodup_singleton w, List.forall_mem_singleton.2 h⟩

theorem selects_pair {c t : ℕ} (hc : c < n) (ht : t < n) (hne : c ≠ t) : Selects n 2 [c, t] :=
  ⟨rfl, List.nodup_cons.2 ⟨fun hmem => hne (List.mem_singleton.1 hmem), List.nodup_singleton t⟩,
    List.forall_mem_cons.2 ⟨hc, List.forall_mem_singleton.2 ht⟩⟩

theorem val_write_zero {w j : ℕ} (h : w < n) (hj : j.testBit w = false) {i : Fin (2 ^ n)}
    (hi : i.val = j ||| 2 ^ w) : (write [w] i (state 1 0)).val = j := by
  have hsel := selects_singleton h
  apply Nat.eq_of_testBit_eq
  intro v
  by_cases hv : v ∈ [w]
  · obtain rfl := List.mem_singleton.1 hv
    exact (hsel.testBit_write_getD i (state 1 0) Nat.one_pos).trans hj.symm
  · have hne : w ≠ v := fun same => hv (List.mem_singleton.2 same.symm)
    rw [hsel.testBit_write_of_not_mem _ _ hv, hi, Nat.testBit_or, Nat.testBit_two_pow_of_ne hne,
      Bool.or_false]

theorem val_write_last {w : ℕ} (h : w + 1 = n) (i : Fin (2 ^ n)) : (write [w] i (state 1 0)).val = i.val % 2 ^ w := by
  have hw : w < n := h ▸ Nat.lt_succ_self w
  have hsel := selects_singleton hw
  apply Nat.eq_of_testBit_eq
  intro v
  rw [Nat.testBit_mod_two_pow]
  by_cases hv : v ∈ [w]
  · obtain rfl := List.mem_singleton.1 hv
    rw [decide_eq_false (lt_irrefl v), Bool.false_and]
    exact hsel.testBit_write_getD i (state 1 0) Nat.one_pos
  · rw [hsel.testBit_write_of_not_mem _ _ hv]
    rcases lt_or_gt_of_ne fun same => hv (List.mem_singleton.2 same) with hlow | hhigh
    · rw [decide_eq_true hlow, Bool.true_and]
    · have hlarge : 2 ^ n ≤ 2 ^ v := Nat.pow_le_pow_right Nat.two_pos (h ▸ hhigh)
      rw [decide_eq_false hhigh.not_gt, Bool.false_and, Nat.testBit_lt_two_pow (i.isLt.trans_le hlarge)]

theorem read_singleton (w i : ℕ) : Basis.read 1 [w] i = if i.testBit w then (1 : Fin 2) else (0 : Fin 2) := by
  unfold Basis.read
  rw [gather, gather_nil]
  cases i.testBit w <;> rfl

theorem placed_hadamard_apply {w : ℕ} {i j : Fin (2 ^ n)} (hj : j.val.testBit w = false) :
    (placed (d := 1) [] [w] (hadamard.toMatrix 2 2) : Operator n) i j =
      if clear i.val [w] = clear j.val [w] then spread else 0 := by
  have hzero (k : Fin 2) : (hadamard : DenseMatrix (Cx ℝ)).toMatrix 2 2 k 0 = spread := by
    rw [spread_eq, toMatrix_hadamard]
    fin_cases k <;> simp
  have hread : Basis.read 1 [w] j.val = (0 : Fin 2) := by
    rw [read_singleton, hj, if_neg Bool.false_ne_true]
  change (if clear i.val [w] = clear j.val [w] then
    (hadamard : DenseMatrix (Cx ℝ)).toMatrix 2 2 _ (Basis.read 1 [w] j.val) else 0) = _
  rw [hread, hzero]

theorem clear_eq_clear_write_iff {w : ℕ} {ws : List ℕ} (h : w < n) (fresh : w ∉ ws)
    {i j : Fin (2 ^ n)} {b : Fin (2 ^ 1)} :
    clear i.val ws = clear (write [w] j b).val ws ↔
      clear i.val (w :: ws) = clear j.val (w :: ws) ∧ Basis.read 1 [w] i.val = b := by
  have hsel := selects_singleton h
  have hw : (write [w] j b).val.testBit w = b.val.testBit 0 := hsel.testBit_write_getD j b Nat.one_pos
  have hread : (Basis.read 1 [w] i.val).val.testBit 0 = i.val.testBit w :=
    hsel.testBit_read i.val Nat.one_pos
  rw [clear_eq_clear_iff, clear_eq_clear_iff]
  constructor
  · intro same
    refine ⟨fun v hv => ?_, ext_testBit fun l hl => ?_⟩
    · obtain ⟨hne, hmem⟩ := List.ne_and_not_mem_of_not_mem_cons hv
      rw [same v hmem, hsel.testBit_write_of_not_mem j b fun hv => hne (List.mem_singleton.1 hv)]
    · obtain rfl : l = 0 := by omega
      rw [hread, same w fresh, hw]
  · rintro ⟨same, rfl⟩ v hv
    by_cases hvw : v = w
    · rw [hvw, hw, hread]
    · have hmem : v ∉ w :: ws := fun hmem => (List.mem_cons.1 hmem).elim hvw hv
      rw [same v hmem, hsel.testBit_write_of_not_mem j _ fun hv => hvw (List.mem_singleton.1 hv)]

theorem hadamards_apply (nodup : wires.Nodup) (below : ∀ w ∈ wires, w < n)
    (i j : Fin (2 ^ n)) (hj : ∀ w ∈ wires, j.val.testBit w = false) :
    hadamards n wires i j =
      if clear i.val wires = clear j.val wires then spread ^ wires.length else 0 := by
  induction wires generalizing j with
  | nil =>
    have hiff : clear i.val [] = clear j.val [] ↔ i = j := Fin.val_inj
    simp only [hiff]
    exact (if_congr Iff.rfl (pow_zero spread).symm rfl)
  | cons w ws ih =>
    obtain ⟨hfresh, hnodup⟩ := List.nodup_cons.1 nodup
    obtain ⟨hw, hws⟩ := List.forall_mem_cons.1 below
    obtain ⟨hzero, hzeros⟩ := List.forall_mem_cons.1 hj
    have hsel := selects_singleton hw
    -- The gate on `w` comes first and leaves the other wires at zero, whatever it makes of `w`.
    have hrest (b : Fin (2 ^ 1)) : hadamards n ws i (write [w] j b) =
        if clear i.val ws = clear (write [w] j b).val ws then spread ^ ws.length else 0 := by
      refine ih hnodup hws (write [w] j b) fun v hv => ?_
      have hne : v ∉ [w] := fun hmem => hfresh (List.mem_singleton.1 hmem ▸ hv)
      rw [hsel.testBit_write_of_not_mem j b hne, hzeros v hv]
    calc hadamards n (w :: ws) i j
        = ∑ k, hadamards n ws i k *
            if clear k.val [w] = clear j.val [w] then spread else 0 := by
          rw [hadamards, Matrix.mul_apply]
          exact Finset.sum_congr rfl fun k _ => by rw [placed_hadamard_apply hzero]
      _ = ∑ k with clear j.val [w] = clear k.val [w], hadamards n ws i k * spread := by
          simp only [mul_ite, mul_zero, eq_comm (a := clear j.val [w]), Finset.sum_filter]
      _ = ∑ b : Fin (2 ^ 1), hadamards n ws i (write [w] j b) * spread :=
          (hsel.sum_write j fun k => hadamards n ws i k * spread).symm
      _ = if clear i.val (w :: ws) = clear j.val (w :: ws) then spread ^ (ws.length + 1) else 0 := by
          simp only [hrest, clear_eq_clear_write_iff hw hfresh, ite_and, ite_mul, zero_mul, ← pow_succ]
          split
          · simp
          · simp

theorem hadamards_mulVec (h : Selects n d wires) {v : Fin (2 ^ n) → ℂ}
    (hv : ∀ k : Fin (2 ^ n), ∀ w ∈ wires, k.val.testBit w = true → v k = 0) (i : Fin (2 ^ n)) :
    (hadamards n wires *ᵥ v) i = spread ^ d * v (write wires i (state d 0)) := by
  have hzeros : ∀ w ∈ wires, (write wires i (state d 0)).val.testBit w = false := by
    intro w hw
    obtain ⟨l, hl, rfl⟩ := List.getElem_of_mem hw
    rw [← List.getD_eq_getElem _ 0 hl, h.testBit_write_getD _ _ (h.length ▸ hl), testBit_state]
    simp
  rw [mulVec, dotProduct, Finset.sum_eq_single (write wires i (state d 0)), hadamards_apply h.nodup h.below
    _ _ hzeros, if_pos (h.clear_write _ _).symm, h.length]
  · intro k _ hne
    by_cases hk : ∀ w ∈ wires, k.val.testBit w = false
    · rw [hadamards_apply h.nodup h.below _ _ hk, if_neg, zero_mul]
      refine fun same => hne (h.ext (fun l hl => ?_) fun w hw => ?_)
      · rw [hk _ (h.getD_mem hl), hzeros _ (h.getD_mem hl)]
      · rw [h.testBit_write_of_not_mem _ _ hw, clear_eq_clear_iff.1 same w hw]
    · obtain ⟨w, hw, hbit⟩ : ∃ w ∈ wires, k.val.testBit w = true := by simpa using hk
      rw [hv k w hw hbit, mul_zero]
  · exact fun hmem => absurd (Finset.mem_univ _) hmem

theorem conjTranspose_hadamards_mulVec (h : Selects n d wires) {i : Fin (2 ^ n)}
    (hi : ∀ w ∈ wires, i.val.testBit w = false) (u : Fin (2 ^ n) → ℂ) :
    ((hadamards n wires)ᴴ *ᵥ u) i = spread ^ d * ∑ b : Fin (2 ^ d), u (write wires i b) := by
  have hentry (k : Fin (2 ^ n)) : (hadamards n wires)ᴴ i k =
      if clear i.val wires = clear k.val wires then spread ^ d else 0 := by
    rw [conjTranspose_apply, hadamards_apply h.nodup h.below _ _ hi, h.length, apply_ite star, star_pow,
      star_spread, star_zero]
    simp only [eq_comm]
  rw [mulVec, dotProduct, h.sum_write i u, Finset.mul_sum, Finset.sum_filter]
  refine Finset.sum_congr rfl fun k _ => ?_
  rw [hentry, ite_mul, zero_mul]

theorem commute_hadamards {a : Operator n}
    (h : ∀ w ∈ wires, ∀ m : Operator 1, Commute a (placed [] [w] m)) : Commute a (hadamards n wires) := by
  induction wires with
  | nil => exact Commute.one_right a
  | cons w ws ih =>
    obtain ⟨hw, hws⟩ := List.forall_mem_cons.1 h
    exact (ih hws).mul_right (hw _)

/-- A rotation of one wire for each of the other wires, which controls it, with an angle that doubles
from each wire to the next. -/
def ladder (m : ℝ → Operator 1) (target : ℕ) (θ : ℝ) : List ℕ → Operator n
  | [] => 1
  | w :: ws => ladder m target (θ + θ) ws * placed [(w, true)] [target] (m θ)

theorem commute_ladder {a : Operator n} {m : ℝ → Operator 1} {target : ℕ} {θ : ℝ}
    (h : ∀ w ∈ wires, ∀ r : Operator 1, Commute a (placed [(w, true)] [target] r)) :
    Commute a (ladder m target θ wires) := by
  induction wires generalizing θ with
  | nil => exact Commute.one_right a
  | cons w ws ih =>
    obtain ⟨hw, hws⟩ := List.forall_mem_cons.1 h
    exact (ih hws).mul_right (hw _)

def yRotation (θ : ℝ) : Operator 1 := (rotationY θ).toMatrix 2 2

theorem isRotation_yRotation : IsRotation yRotation := isRotation_rotationY

theorem placed_yRotation_mulVec {target : ℕ} (htarget : target < n) {v : Fin (2 ^ n) → ℂ}
    (hv : ∀ k : Fin (2 ^ n), k.val.testBit target = true → v k = 0) (i : Fin (2 ^ n)) (θ : ℝ) :
    (placed [] [target] (yRotation θ) *ᵥ v) i =
      (if i.val.testBit target then Real.sin (θ / 2) else Real.cos (θ / 2) : ℝ) *
        v (write [target] i (state 1 0)) := by
  have hsel := selects_singleton htarget
  have hone : v (write [target] i (state 1 1)) = 0 := by
    refine hv _ ((hsel.testBit_write_getD i (state 1 1) Nat.one_pos).trans ?_)
    rfl
  have hentry : (rotationY θ).toMatrix 2 2 (Basis.read 1 [target] i.val) 0 =
      (if i.val.testBit target then Real.sin (θ / 2) else Real.cos (θ / 2) : ℝ) := by
    rw [toMatrix_rotationY, read_singleton]
    cases i.val.testBit target <;> rfl
  rw [placed_nil_mulVec hsel]
  refine (Fin.sum_univ_two _).trans ?_
  change (rotationY θ).toMatrix 2 2 (Basis.read 1 [target] i.val) 0 * v (write [target] i (state 1 0)) +
    _ * v (write [target] i (state 1 1)) = _
  rw [hone, mul_zero, add_zero, hentry]

/-- The map rotates the target, by an angle that depends on what the other wires read. -/
structure Rotates (m : ℝ → Operator 1) (target : ℕ) (angle : ℕ → ℝ) (a : Operator n) : Prop where
  free : ∀ (i : Fin (2 ^ n)) (b : Fin (2 ^ 1)), angle (write [target] i b) = angle i
  mulVec : ∀ u i, (a *ᵥ u) i = (placed [] [target] (m (angle i.val)) *ᵥ u) i

section Rotations

variable {m : ℝ → Operator 1} {target : ℕ} (hm : IsRotation m) (htarget : target < n)

include hm htarget

theorem rotates_one : Rotates m target (fun _ => 0) (1 : Operator n) := by
  refine ⟨fun _ _ => rfl, fun u i => ?_⟩
  have hone : m 0 = 1 := hm.zero
  rw [hone, placed_one (selects_singleton htarget)]

theorem Rotates.mul {f g : ℕ → ℝ} {a b : Operator n} (ha : Rotates m target f a) (hb : Rotates m target g b) :
    Rotates m target (fun i => f i + g i) (a * b) := by
  have hsel := selects_singleton htarget
  refine ⟨fun i x => by rw [ha.free, hb.free], fun u i => ?_⟩
  -- The target has no part in the angles, so that both rotations take them from the same state.
  have hinner (x : Fin (2 ^ 1)) : (b *ᵥ u) (write [target] i x) =
      (placed [] [target] (m (g i.val)) *ᵥ u) (write [target] i x) := by
    rw [hb.mulVec, hb.free]
  have hangle : m (f i.val + g i.val) = m (f i.val) * m (g i.val) := (hm.add _ _).symm
  rw [hangle, ← mulVec_mulVec, ha.mulVec, placed_mul hsel (List.forall_mem_nil _), ← mulVec_mulVec,
    placed_nil_mulVec hsel, placed_nil_mulVec hsel]
  simp only [hinner]

theorem rotates_controlled {w : ℕ} (hne : w ≠ target) (θ : ℝ) :
    Rotates m target (fun i => (i.testBit w).toNat * θ) (placed [(w, true)] [target] (m θ) : Operator n) := by
  have hsel := selects_singleton htarget
  refine ⟨fun i b => ?_, fun u i => ?_⟩
  · have hmem : w ∉ [target] := fun hmem => hne (List.mem_singleton.1 hmem)
    rw [hsel.testBit_write_of_not_mem i b hmem]
  · have hholds : holds [(w, true)] i.val = i.val.testBit w := by simp [holds]
    cases hbit : i.val.testBit w with
    | true =>
      rw [placed_mulVec hsel, placed_nil_mulVec hsel, hholds, hbit, Bool.toNat_true, Nat.cast_one, one_mul, if_pos rfl]
    | false =>
      have hone : m 0 = 1 := hm.zero
      rw [placed_mulVec hsel, hholds, hbit, Bool.toNat_false, Nat.cast_zero, zero_mul, hone, placed_one hsel,
        one_mulVec, if_neg Bool.false_ne_true]

omit hm in
theorem Rotates.mulVec_of_angle {f : ℕ → ℝ} {a : Operator n} {θ : ℝ} (ha : Rotates m target f a)
    {u : Fin (2 ^ n) → ℂ} (hu : ∀ i : Fin (2 ^ n), f i ≠ θ → u i = 0) :
    a *ᵥ u = placed [] [target] (m θ) *ᵥ u := by
  have hsel := selects_singleton htarget
  funext i
  rw [ha.mulVec]
  by_cases hangle : f i = θ
  · rw [hangle]
  · have hzero (b : Fin (2 ^ 1)) : u (write [target] i b) = 0 := hu _ (by rwa [ha.free])
    rw [placed_nil_mulVec hsel, placed_nil_mulVec hsel]
    simp only [hzero, mul_zero]

theorem rotates_ladder (free : target ∉ wires) (θ : ℝ) :
    Rotates m target (fun i => gather i wires * θ) (ladder m target θ wires : Operator n) := by
  induction wires generalizing θ with
  | nil =>
    have hzero : (fun i => (gather i [] : ℝ) * θ) = fun _ => 0 := by simp
    rw [hzero]
    exact rotates_one hm htarget
  | cons w ws ih =>
    obtain ⟨hne, hfree⟩ := List.ne_and_not_mem_of_not_mem_cons free
    have hangle : (fun i => (gather i (w :: ws) : ℝ) * θ) =
        fun i => gather i ws * (θ + θ) + (i.testBit w).toNat * θ := by
      funext i
      rw [gather]
      push_cast
      ring
    rw [hangle]
    exact (ih hfree (θ + θ)).mul hm htarget (rotates_controlled hm htarget hne.symm θ)

/-- Between two rows of Hadamard gates, from and to a zero on the controlling wires, the target takes
the mean of the rotations by all readings of the wires. -/
theorem hadamards_ladder_mulVec (h : Selects n d wires) (free : target ∉ wires)
    {v : Fin (2 ^ n) → ℂ}
    (hv : ∀ k : Fin (2 ^ n), ∀ w ∈ wires, k.val.testBit w = true → v k = 0) {i : Fin (2 ^ n)}
    (hi : ∀ w ∈ wires, i.val.testBit w = false) (θ : ℝ) :
    (((hadamards n wires)ᴴ * ladder m target θ wires * hadamards n wires) *ᵥ v) i =
      (1 / 2) ^ d * ∑ b : Fin (2 ^ d), (placed [] [target] (m (b.val * θ)) *ᵥ v) i := by
  have hsel := selects_singleton htarget
  have hnone (k : ℕ) : holds [] k = true := rfl
  have hclear : write wires i (state d 0) = i := by
    apply h.ext
    · intro l hl
      rw [h.testBit_write_getD _ _ hl, hi _ (h.getD_mem hl), testBit_state]
      simp
    · exact fun w hw => h.testBit_write_of_not_mem _ _ hw
  have hwrite (b : Fin (2 ^ d)) (e : Fin (2 ^ 1)) :
      write wires (write [target] (write wires i b) e) (state d 0) = write [target] i e := by
    have hapart : ∀ w ∈ [target], w ∉ wires := List.forall_mem_singleton.2 free
    rw [hsel.write_comm h hapart, h.write_write, hclear]
  have hread (b : Fin (2 ^ d)) :
      Basis.read 1 [target] (write wires i b).val = Basis.read 1 [target] i.val :=
    h.read_write_of_disjoint (List.forall_mem_singleton.2 free) i b
  have hreading (b : Fin (2 ^ d)) : gather (write wires i b).val wires = b.val := by
    rw [← h.val_read, h.read_write]
  have hterm (b : Fin (2 ^ d)) :
      (ladder m target θ wires *ᵥ (hadamards n wires *ᵥ v)) (write wires i b) =
        spread ^ d * (placed [] [target] (m (b.val * θ)) *ᵥ v) i := by
    rw [(rotates_ladder hm htarget free θ).mulVec, hreading, placed_mulVec hsel, if_pos (hnone _), placed_mulVec hsel,
      if_pos (hnone _), hread, Finset.mul_sum]
    refine Finset.sum_congr rfl fun e _ => ?_
    rw [hadamards_mulVec h hv, hwrite, mul_left_comm]
  rw [← mulVec_mulVec, ← mulVec_mulVec, conjTranspose_hadamards_mulVec h hi]
  simp only [hterm]
  rw [← Finset.mul_sum, ← mul_assoc, ← mul_pow, spread_mul_spread]

end Rotations

end QuantumCircuits.Operator
end
