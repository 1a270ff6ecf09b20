import Mathlib
import QuantumCircuits.Number.Cx

/-! Exact arithmetic: the real numbers as a scalar, and complex numbers over them as the complex
field. -/

noncomputable section
namespace QuantumCircuits

instance : Scalar ℝ where
  decidableLT := inferInstance
  decidableLE := inferInstance
  pi := Real.pi
  sqrt := Real.sqrt
  sin := Real.sin
  cos := Real.cos
  log2 := Real.logb 2
  hypot a b := √(a ^ 2 + b ^ 2)
  isInfinite _ := false
  ceilNat := Nat.ceil

theorem repeatedSquares_closed {α : Type} (P : α → Prop) (mul : α → α → α)
    (closed : ∀ a b, P a → P b → P (mul a b)) (acc base : α) (n : ℕ) (hacc : P acc)
    (hbase : P base) : P (repeatedSquares mul acc base n) := by
  induction n using Nat.strong_induction_on generalizing acc base with
  | _ n ih =>
    have hnext : P (if n % 2 = 1 then mul acc base else acc) := by
      split
      · exact closed acc base hacc hbase
      · exact hacc
    rw [repeatedSquares]
    split
    · exact hacc
    · dsimp only
      split
      · exact hnext
      · exact ih (n / 2) (by omega) _ _ hnext (closed base base hbase hbase)

theorem repeatedSquares_eq {α β : Type} [Monoid β] (φ : α → β) (P : α → Prop) (mul : α → α → α)
    (closed : ∀ a b, P a → P b → P (mul a b))
    (hmul : ∀ a b, P a → P b → φ (mul a b) = φ a * φ b) (acc base : α) (n : ℕ)
    (hacc : P acc) (hbase : P base) :
    φ (repeatedSquares mul acc base n) = φ acc * φ base ^ n := by
  induction n using Nat.strong_induction_on generalizing acc base with
  | _ n ih =>
    rw [repeatedSquares]
    split
    · next hn => rw [hn, pow_zero, mul_one]
    · next hn =>
      have hnext : P (if n % 2 = 1 then mul acc base else acc) := by
        split
        · exact closed acc base hacc hbase
        · exact hacc
      have hvalue : φ (if n % 2 = 1 then mul acc base else acc) = φ acc * φ base ^ (n % 2) := by
        rcases Nat.mod_two_eq_zero_or_one n with h | h
        · simp [h]
        · simp [h, hmul acc base hacc hbase]
      dsimp only
      split
      · next half =>
        have hone : n % 2 = n := by omega
        rw [hvalue, hone]
      · rw [ih (n / 2) (by omega) _ _ hnext (closed base base hbase hbase), hvalue,
          hmul base base hbase hbase, ← pow_two, ← pow_mul, mul_assoc, ← pow_add,
          Nat.mod_add_div n 2]

theorem Scalar.sum_real (xs : List ℝ) : Scalar.sum xs = xs.sum := by
  rw [List.sum_eq_foldl, ← neg_zero]
  rfl

theorem Scalar.magnitude_real (x : ℝ) : Scalar.magnitude x = |x| := by
  unfold Scalar.magnitude
  split
  · next hneg => exact (abs_of_neg hneg).symm
  · next hnonneg => exact (abs_of_nonneg (not_lt.1 hnonneg)).symm

theorem Scalar.two_real : (Scalar.two : ℝ) = 2 := Nat.cast_ofNat

theorem Scalar.twoPow_real (n : ℕ) : (Scalar.twoPow n : ℝ) = 2 ^ n := by
  have hpow := repeatedSquares_eq (fun x : ℝ => x) (fun _ => True) (· * ·) (fun _ _ _ _ => trivial)
    (fun _ _ _ _ => rfl) 1 2 n trivial trivial
  rw [one_mul] at hpow
  unfold Scalar.twoPow
  rw [Scalar.two_real]
  exact hpow

theorem Scalar.twoPower_real (k : ℤ) : (Scalar.twoPower k : ℝ) = 2 ^ k := by
  cases k with
  | ofNat n => exact (twoPow_real n).trans (zpow_natCast 2 n).symm
  | negSucc n =>
    rw [zpow_negSucc, ← one_div, ← twoPow_real]
    rfl

theorem Scalar.inUnit_eq_true_iff {x : ℝ} : Scalar.inUnit x = true ↔ 0 ≤ x ∧ x ≤ 1 := by
  rw [Scalar.inUnit, Bool.and_eq_true, decide_eq_true_iff, decide_eq_true_iff]

theorem Scalar.tolerance_real : (Scalar.tolerance : ℝ) = 1 / 10 ^ 9 := by
  rw [Scalar.tolerance]
  norm_num

namespace Cx

def toComplex (a : Cx ℝ) : ℂ := ⟨a.re, a.im⟩

def ofComplex (z : ℂ) : Cx ℝ := ⟨z.re, z.im⟩

@[simp] theorem toComplex_re (a : Cx ℝ) : a.toComplex.re = a.re := rfl

@[simp] theorem toComplex_im (a : Cx ℝ) : a.toComplex.im = a.im := rfl

@[simp] theorem toComplex_ofComplex (z : ℂ) : (ofComplex z).toComplex = z := rfl

@[simp] theorem ofComplex_toComplex (a : Cx ℝ) : ofComplex a.toComplex = a := rfl

theorem toComplex_injective : Function.Injective (toComplex : Cx ℝ → ℂ) :=
  Function.LeftInverse.injective ofComplex_toComplex

@[simp] theorem toComplex_zero : (0 : Cx ℝ).toComplex = 0 := rfl

@[simp] theorem toComplex_one : (1 : Cx ℝ).toComplex = 1 := rfl

@[simp] theorem toComplex_add (a b : Cx ℝ) : (a + b).toComplex = a.toComplex + b.toComplex := rfl

@[simp] theorem toComplex_neg (a : Cx ℝ) : (-a).toComplex = -a.toComplex := rfl

@[simp] theorem toComplex_mul (a b : Cx ℝ) : (a * b).toComplex = a.toComplex * b.toComplex :=
  Complex.ext rfl rfl

theorem toComplex_conj (a : Cx ℝ) : a.conj.toComplex = star a.toComplex := rfl

@[simp] theorem toComplex_scale (a : Cx ℝ) (x : ℝ) : (a.scale x).toComplex = x * a.toComplex := by
  apply Complex.ext <;> simp [scale, mul_comm]

theorem toComplex_sum (xs : List (Cx ℝ)) : (sum xs).toComplex = (xs.map toComplex).sum := by
  have hfold (start : Cx ℝ) : (xs.foldl (· + ·) start).toComplex = start.toComplex + (xs.map toComplex).sum := by
    induction xs generalizing start with
    | nil => exact (add_zero _).symm
    | cons x xs ih => rw [List.foldl_cons, ih, List.map_cons, List.sum_cons, toComplex_add, add_assoc]
  exact (hfold 0).trans (zero_add _)

@[simp] theorem toComplex_ofReal (x : ℝ) : (ofReal x).toComplex = x := rfl

theorem conj_ofReal (x : ℝ) : (ofReal x).conj = ofReal x := by
  rw [conj, ofReal, neg_zero]

theorem toComplex_cis (θ : ℝ) : (cis θ).toComplex = Complex.exp (θ * Complex.I) := by
  rw [Complex.exp_mul_I]
  apply Complex.ext
  · change 1 * Real.cos θ = _
    simp [Complex.cos_ofReal_re]
  · change 1 * Real.sin θ = _
    simp [Complex.sin_ofReal_re]

theorem modulus_eq_norm (a : Cx ℝ) : a.modulus = ‖a.toComplex‖ := by
  rw [Complex.norm_eq_sqrt_sq_add_sq]
  rfl

theorem normSq_toComplex (a : Cx ℝ) : Complex.normSq a.toComplex = a.normSq := Complex.normSq_apply _

theorem normSq_pos_iff (a : Cx ℝ) : 0 < a.normSq ↔ a.toComplex ≠ 0 := by
  rw [← normSq_toComplex, Complex.normSq_pos]

end Cx
end QuantumCircuits
end
