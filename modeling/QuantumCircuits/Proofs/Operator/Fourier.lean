import Mathlib
import QuantumCircuits.Proofs.Operator.Registers

/-! The discrete Fourier transform on the basis states of a register, and the maps that are left of it
when the lowest wires are done. -/

namespace QuantumCircuits.Basis

def reversed {n : ℕ} (i : Fin (2 ^ n)) : Fin (2 ^ n) := read n (List.range n).reverse i.val

variable {n k w : ℕ}

theorem testBit_reversed (i : Fin (2 ^ n)) (hw : w < n) :
    (reversed i).val.testBit w = i.val.testBit (n - 1 - w) := by
  have hlen : w < (List.range n).reverse.length := by simpa using hw
  rw [reversed, (Selects.range n).reverse.testBit_read i.val hw, List.getD_eq_getElem _ _ hlen]
  simp

theorem reversed_reversed (i : Fin (2 ^ n)) : reversed (reversed i) = i := by
  apply ext_testBit
  intro w hw
  have hback : n - 1 - (n - 1 - w) = w := by omega
  rw [testBit_reversed _ hw, testBit_reversed _ (by omega), hback]

def above (n k i : ℕ) : ℕ := gather i (List.range' (k + 1) (n - 1 - k)).reverse

theorem val_reversed (hk : k < n) (i : Fin (2 ^ n)) :
    ∃ rest, (reversed i).val =
      above n k i.val + 2 ^ (n - 1 - k) * ((i.val.testBit k).toNat + 2 * rest) := by
  have hsplit : (List.range n).reverse =
      (List.range' (k + 1) (n - 1 - k)).reverse ++ k :: (List.range k).reverse := by
    have hfront : List.range n = List.range k ++ List.range' k (n - k) := by
      have happend := List.range'_append_1 (s := 0) (m := k) (n := n - k)
      rw [Nat.zero_add, Nat.add_sub_of_le hk.le] at happend
      rw [List.range_eq_range', List.range_eq_range', happend]
    have hlast : List.range' k (n - k) = k :: List.range' (k + 1) (n - 1 - k) := by
      have hcount : n - k = n - 1 - k + 1 := by omega
      rw [hcount, List.range'_succ]
    rw [hfront, hlast, List.reverse_append, List.reverse_cons, List.append_assoc]
    rfl
  refine ⟨gather i.val (List.range k).reverse, ?_⟩
  rw [reversed, (Selects.range n).reverse.val_read, hsplit, gather_append, List.length_reverse,
    List.length_range', gather]
  rfl

theorem div_two_pow_mul (y k : ℕ) :
    y / 2 ^ k * 2 ^ k = y / 2 ^ (k + 1) * 2 ^ (k + 1) + (y.testBit k).toNat * 2 ^ k := by
  have hbit : (y.testBit k).toNat = y / 2 ^ k % 2 := by
    rw [Nat.testBit_eq_decide_div_mod_eq]
    rcases Nat.mod_two_eq_zero_or_one (y / 2 ^ k) with h | h <;> simp [h]
  have hhalf : y / 2 ^ (k + 1) = y / 2 ^ k / 2 := by rw [Nat.pow_succ, Nat.div_div_eq_div_mul]
  rw [hbit, hhalf]
  nth_rewrite 1 [← Nat.div_add_mod (y / 2 ^ k) 2]
  rw [Nat.pow_succ]
  ring

theorem above_congr {i j : ℕ} (h : ∀ w, k < w → i.testBit w = j.testBit w) :
    above n k i = above n k j := by
  refine gather_congr fun w hw => h w ?_
  have hmem := List.mem_range'_1.1 (List.mem_reverse.1 hw)
  omega

end QuantumCircuits.Basis

noncomputable section
namespace QuantumCircuits.Operator
open Matrix QuantumCircuits.Basis DenseMatrix

variable {n k : ℕ}

def root (n : ℕ) : ℂ := Complex.exp ((2 : ℕ) * Real.pi * Complex.I / (2 ^ n : ℕ))

theorem isPrimitiveRoot_root (n : ℕ) : IsPrimitiveRoot (root n) (2 ^ n) := by
  rw [root, Nat.cast_ofNat]
  exact Complex.isPrimitiveRoot_exp (2 ^ n) (Nat.two_pow_pos n).ne'

theorem root_pow (n q : ℕ) : root n ^ q = Complex.exp (2 * Real.pi * Complex.I * (q / 2 ^ n)) := by
  rw [root, Nat.cast_ofNat, ← Complex.exp_nat_mul]
  push_cast
  ring_nf

theorem exp_half_turn (hk : k < n) :
    Complex.exp ((Real.pi / 2 ^ k : ℝ) * Complex.I) = root n ^ 2 ^ (n - 1 - k) := by
  have hpow : (2 : ℂ) ^ n = 2 ^ (n - 1 - k) * 2 ^ k * 2 := by
    rw [← pow_add, ← pow_succ]
    congr 1
    omega
  rw [root_pow, hpow]
  congr 1
  push_cast
  field_simp

theorem root_pow_add_mul (q r : ℕ) : root n ^ (q + 2 ^ n * r) = root n ^ q := by
  rw [pow_add, pow_mul, (isPrimitiveRoot_root n).pow_eq_one, one_pow, mul_one]

/-- What is left of the transform when the wires below `k` are done: they keep what they read, and the
wires from `k` on take all readings. -/
def dftFrom (n k : ℕ) : Operator n := fun y z =>
  if ∀ w < k, y.val.testBit w = z.val.testBit w then
    spread ^ (n - k) * root n ^ (y.val / 2 ^ k * 2 ^ k * (reversed z).val)
  else 0

theorem dftFrom_self (n : ℕ) : dftFrom n n = 1 := by
  ext y z
  have hsame : (∀ w < n, y.val.testBit w = z.val.testBit w) ↔ y = z :=
    ⟨ext_testBit, fun h _ _ => by rw [h]⟩
  have hzero : y.val / 2 ^ n = 0 := Nat.div_eq_of_lt y.isLt
  simp only [dftFrom, hsame, hzero, Matrix.one_apply]
  simp

def turn (n k i : ℕ) : ℂ := if i.testBit k then root n ^ (2 ^ k * above n k i) else 1

theorem hadamard_apply (b c : Bool) :
    (hadamard : DenseMatrix (Cx ℝ)).toMatrix 2 2 (if b then 1 else 0) (if c then 1 else 0) =
      spread * if b && c then -1 else 1 := by
  rw [spread_eq, toMatrix_hadamard]
  cases b <;> cases c <;> simp

theorem root_pow_reversed (hk : k < n) (q : ℕ) (z : Fin (2 ^ n)) :
    root n ^ (q * 2 ^ (k + 1) * (reversed z).val) = root n ^ (q * 2 ^ (k + 1) * above n k z.val) := by
  obtain ⟨rest, hrest⟩ := val_reversed hk z
  have hpow : 2 ^ (k + 1) * 2 ^ (n - 1 - k) = 2 ^ n := by
    rw [← pow_add]
    congr 1
    omega
  have hsum (a r : ℕ) : q * 2 ^ (k + 1) * (a + 2 ^ (n - 1 - k) * r) =
      q * 2 ^ (k + 1) * a + 2 ^ n * (q * r) := by
    rw [← hpow]
    ring
  rw [hrest, hsum, root_pow_add_mul]

theorem root_pow_reversed_bit (hk : k < n) (z : Fin (2 ^ n)) :
    root n ^ (2 ^ k * (reversed z).val) =
      root n ^ (2 ^ k * above n k z.val) * if z.val.testBit k then -1 else 1 := by
  obtain ⟨rest, hrest⟩ := val_reversed hk z
  have hhalf : root n ^ 2 ^ (n - 1) = -1 := by
    have hturn := exp_half_turn (n := n) (k := 0) (by omega)
    rw [pow_zero, div_one, Complex.exp_pi_mul_I, Nat.sub_zero] at hturn
    exact hturn.symm
  have hpow : 2 ^ k * 2 ^ (n - 1 - k) = 2 ^ (n - 1) := by
    rw [← pow_add]
    congr 1
    omega
  have hdouble : 2 ^ (n - 1) * 2 = 2 ^ n := by
    rw [← pow_succ]
    congr 1
    omega
  have hsum (a b : ℕ) : 2 ^ k * (a + 2 ^ (n - 1 - k) * (b + 2 * rest)) =
      2 ^ k * a + 2 ^ (n - 1) * b + 2 ^ n * rest := by
    rw [← hdouble, ← hpow]
    ring
  rw [hrest, hsum, root_pow_add_mul, pow_add, pow_mul _ (2 ^ (n - 1)), hhalf]
  cases z.val.testBit k <;> simp

theorem dftFrom_write (hk : k < n) (y z : Fin (2 ^ n)) (b : Fin (2 ^ 1)) :
    dftFrom n (k + 1) y (write [k] z b) =
      if b = Basis.read 1 [k] y.val then
        if ∀ w < k, y.val.testBit w = z.val.testBit w then
          spread ^ (n - (k + 1)) * root n ^ (y.val / 2 ^ (k + 1) * 2 ^ (k + 1) * above n k z.val)
        else 0
      else 0 := by
  have hsel := selects_singleton hk
  have hkept {w : ℕ} (hw : w ≠ k) : (write [k] z b).val.testBit w = z.val.testBit w :=
    hsel.testBit_write_of_not_mem z b fun hmem => hw (List.mem_singleton.1 hmem)
  have hset : (write [k] z b).val.testBit k = b.val.testBit 0 := hsel.testBit_write_getD z b Nat.one_pos
  have hread : (Basis.read 1 [k] y.val).val.testBit 0 = y.val.testBit k :=
    hsel.testBit_read y.val Nat.one_pos
  have hbit : y.val.testBit k = b.val.testBit 0 ↔ b = Basis.read 1 [k] y.val := by
    constructor
    · intro h
      apply ext_testBit
      intro w hw
      obtain rfl : w = 0 := by omega
      rw [hread, h]
    · rintro rfl
      exact hread.symm
  have hagree : (∀ w < k + 1, y.val.testBit w = (write [k] z b).val.testBit w) ↔
      b = Basis.read 1 [k] y.val ∧ ∀ w < k, y.val.testBit w = z.val.testBit w := by
    rw [Nat.forall_lt_succ_right, hset, hbit, and_comm]
    refine and_congr_right fun _ => forall₂_congr fun w hw => ?_
    rw [hkept hw.ne]
  have habove : above n k (write [k] z b).val = above n k z.val := above_congr fun w hw => hkept hw.ne'
  rw [dftFrom, root_pow_reversed hk, habove]
  simp only [hagree, ite_and]

theorem dftFrom_succ (hk : k < n) :
    dftFrom n (k + 1) * (diagonal (fun m : Fin (2 ^ n) => turn n k m.val) *
      placed (d := 1) [] [k] (hadamard.toMatrix 2 2)) = dftFrom n k := by
  have hsel := selects_singleton hk
  ext y z
  -- Only the states that differ from `z` on wire `k` contribute, and of these the one that reads there as `y`.
  let step (i : Fin (2 ^ n)) : ℂ :=
    turn n k i.val * hadamard.toMatrix 2 2 (Basis.read 1 [k] i.val) (Basis.read 1 [k] z.val)
  have hstep (b : Fin (2 ^ 1)) : step (write [k] z b) =
      spread * if b.val.testBit 0 then root n ^ (2 ^ k * (reversed z).val) else 1 := by
    have hkept {w : ℕ} (hw : w ≠ k) : (write [k] z b).val.testBit w = z.val.testBit w :=
      hsel.testBit_write_of_not_mem z b fun hmem => hw (List.mem_singleton.1 hmem)
    have hset : (write [k] z b).val.testBit k = b.val.testBit 0 := hsel.testBit_write_getD z b Nat.one_pos
    have habove : above n k (write [k] z b).val = above n k z.val := above_congr fun w hw => hkept hw.ne'
    simp only [step, turn, read_singleton, hadamard_apply, hset, habove, root_pow_reversed_bit hk]
    cases b.val.testBit 0
    · simp
    · cases z.val.testBit k <;> simp [mul_comm]
  have hread : (Basis.read 1 [k] y.val).val.testBit 0 = y.val.testBit k :=
    hsel.testBit_read y.val Nat.one_pos
  calc _ = ∑ b : Fin (2 ^ 1), dftFrom n (k + 1) y (write [k] z b) * step (write [k] z b) := by
        rw [hsel.sum_write z fun i => dftFrom n (k + 1) y i * step i, Matrix.mul_apply, Finset.sum_filter]
        refine Finset.sum_congr rfl fun i _ => ?_
        rw [diagonal_mul]
        simp only [placed, holds, List.all_nil, if_true, eq_comm (a := clear i.val [k]), mul_ite, mul_zero, step]
    _ = (if ∀ w < k, y.val.testBit w = z.val.testBit w then
          spread ^ (n - (k + 1)) * root n ^ (y.val / 2 ^ (k + 1) * 2 ^ (k + 1) * (reversed z).val)
        else 0) * (spread * if y.val.testBit k then root n ^ (2 ^ k * (reversed z).val) else 1) := by
        simp only [hstep, dftFrom_write hk, ite_mul, zero_mul, Finset.sum_ite_eq', Finset.mem_univ,
          if_true, root_pow_reversed hk, hread]
    _ = dftFrom n k y z := by
        have hcount : n - k = n - (k + 1) + 1 := by omega
        rw [dftFrom, ite_mul, zero_mul, div_two_pow_mul y.val k, hcount, pow_succ, add_mul, pow_add]
        cases y.val.testBit k
        · simp [mul_right_comm]
        · simp only [Bool.toNat_true, one_mul, if_true]
          refine if_congr Iff.rfl ?_ rfl
          ring

def dft (n : ℕ) : Operator n := fun y x => spread ^ n * root n ^ (y.val * x.val)

theorem dft_mulVec (v : Fin (2 ^ n) → ℂ) (y : Fin (2 ^ n)) :
    (dft n *ᵥ v) y = ((2 : ℝ) ^ (-(n : ℝ) / 2) : ℝ) *
      ∑ x : Fin (2 ^ n), Complex.exp (2 * Real.pi * Complex.I * (x.val * y.val / 2 ^ n)) * v x := by
  have hscale : spread ^ n = ((2 : ℝ) ^ (-(n : ℝ) / 2) : ℝ) := by
    rw [spread_eq, ← Complex.ofReal_pow, one_div, Real.sqrt_eq_rpow, ← Real.rpow_neg zero_le_two,
      ← Real.rpow_natCast, ← Real.rpow_mul zero_le_two]
    congr 2
    ring
  rw [← hscale, mulVec, dotProduct, Finset.mul_sum]
  refine Finset.sum_congr rfl fun x _ => ?_
  rw [dft, root_pow, mul_assoc]
  push_cast
  rw [mul_comm (y.val : ℂ)]

theorem dftFrom_zero_mulVec (v : Fin (2 ^ n) → ℂ) :
    dftFrom n 0 *ᵥ (fun i => v (reversed i)) = dft n *ᵥ v := by
  funext y
  calc (dftFrom n 0 *ᵥ fun i => v (reversed i)) y
      = ∑ z : Fin (2 ^ n), dftFrom n 0 y z * v (reversed z) := rfl
    _ = ∑ z : Fin (2 ^ n), dft n y (reversed z) * v (reversed z) :=
        Finset.sum_congr rfl fun z _ => by simp [dftFrom, dft]
    _ = ∑ x : Fin (2 ^ n), dft n y x * v x :=
        Equiv.sum_comp (Function.Involutive.toPerm reversed reversed_reversed) fun x =>
          dft n y x * v x

end QuantumCircuits.Operator
end
