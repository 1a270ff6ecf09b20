import Mathlib
import QuantumCircuits.Matrix.Dense
import QuantumCircuits.Proofs.Number.Exact

/-! Real numbers extended by an undefined value, as machine numbers have one. What is computed from the undefined
value is undefined, and no comparison with it holds. -/

noncomputable section
namespace QuantumCircuits

/-- A real number, or the value of an operation without a result. -/
inductive PartialReal where
  | real (x : ℝ)
  | undefined

namespace PartialReal

def IsDefined : PartialReal → Prop
  | real _ => True
  | undefined => False

def bind (a : PartialReal) (f : ℝ → PartialReal) : PartialReal :=
  match a with
  | real x => f x
  | undefined => undefined

def map (f : ℝ → ℝ) (a : PartialReal) : PartialReal := a.bind fun x => real (f x)

def map₂ (f : ℝ → ℝ → ℝ) (a b : PartialReal) : PartialReal := a.bind fun x => b.map (f x)

def Compares (relation : ℝ → ℝ → Prop) : PartialReal → PartialReal → Prop
  | real x, real y => relation x y
  | _, _ => False

open Classical in
instance : Scalar PartialReal where
  zero := real 0
  one := real 1
  add := map₂ (· + ·)
  sub := map₂ (· - ·)
  mul := map₂ (· * ·)
  neg := map (- ·)
  div a b := a.bind fun x => b.bind fun y => if y = 0 then undefined else real (x / y)
  natCast n := real n
  beq a b := decide (Compares (· = ·) a b)
  lt := Compares (· < ·)
  le := Compares (· ≤ ·)
  decidableLT _ _ := propDecidable _
  decidableLE _ _ := propDecidable _
  pi := real Real.pi
  sqrt a := a.bind fun x => if x < 0 then undefined else real (Scalar.sqrt x)
  sin := map Real.sin
  cos := map Real.cos
  log2 a := a.bind fun x => if x ≤ 0 then undefined else real (Scalar.log2 x)
  hypot := map₂ Scalar.hypot
  isInfinite _ := false
  ceilNat
    | real x => ⌈x⌉₊
    | undefined => 0

variable {a b : PartialReal} {x y : ℝ}

@[simp] theorem not_isDefined_undefined : ¬ undefined.IsDefined := id

@[simp] theorem zero_eq_real : (0 : PartialReal) = real 0 := rfl

@[simp] theorem one_eq_real : (1 : PartialReal) = real 1 := rfl

@[simp] theorem real_add (x y : ℝ) : real x + real y = real (x + y) := rfl

@[simp] theorem real_sub (x y : ℝ) : real x - real y = real (x - y) := rfl

@[simp] theorem real_mul (x y : ℝ) : real x * real y = real (x * y) := rfl

@[simp] theorem neg_real (x : ℝ) : -real x = real (-x) := rfl

@[simp] theorem real_lt_real : real x < real y ↔ x < y := Iff.rfl

@[simp] theorem real_le_real : real x ≤ real y ↔ x ≤ y := Iff.rfl

theorem isDefined_map₂ (f : ℝ → ℝ → ℝ) (a b : PartialReal) :
    (map₂ f a b).IsDefined ↔ a.IsDefined ∧ b.IsDefined := by
  cases a with
  | undefined => exact ⟨False.elim, And.left⟩
  | real x =>
    cases b with
    | undefined => exact ⟨False.elim, And.right⟩
    | real y => exact ⟨fun _ => ⟨trivial, trivial⟩, fun _ => trivial⟩

@[simp] theorem isDefined_add : (a + b).IsDefined ↔ a.IsDefined ∧ b.IsDefined := isDefined_map₂ _ a b

@[simp] theorem isDefined_sub : (a - b).IsDefined ↔ a.IsDefined ∧ b.IsDefined := isDefined_map₂ _ a b

@[simp] theorem isDefined_mul : (a * b).IsDefined ↔ a.IsDefined ∧ b.IsDefined := isDefined_map₂ _ a b

@[simp] theorem isDefined_hypot : (Scalar.hypot a b).IsDefined ↔ a.IsDefined ∧ b.IsDefined := isDefined_map₂ _ a b

@[simp] theorem isDefined_neg : (-a).IsDefined ↔ a.IsDefined := by
  cases a <;> exact Iff.rfl

@[simp] theorem isDefined_magnitude : (Scalar.magnitude a).IsDefined ↔ a.IsDefined := by
  unfold Scalar.magnitude
  split
  · exact isDefined_neg
  · exact Iff.rfl

theorem isDefined_of_le (h : a ≤ b) : a.IsDefined := by
  cases a with
  | real x => trivial
  | undefined => exact False.elim h

theorem not_lt_iff : ¬ a < b ↔ (a.IsDefined → b.IsDefined → b ≤ a) := by
  cases a with
  | undefined => exact ⟨fun _ => False.elim, fun _ => id⟩
  | real x =>
    cases b with
    | undefined => exact ⟨fun _ _ => False.elim, fun _ => id⟩
    | real y =>
      rw [real_lt_real, real_le_real, not_lt]
      exact ⟨fun h _ _ => h, fun h => h trivial trivial⟩

theorem not_real_lt_iff : ¬ real x < a ↔ (a.IsDefined → a ≤ real x) :=
  not_lt_iff.trans ⟨fun h => h trivial, fun h _ => h⟩

theorem not_lt_real_iff : ¬ a < real x ↔ (a.IsDefined → real x ≤ a) :=
  not_lt_iff.trans ⟨fun h ha => h ha trivial, fun h ha _ => h ha⟩

theorem tolerance_eq_real : (Scalar.tolerance : PartialReal) = real (1 / 10 ^ 9) := by
  have hne : ((1000000000 : ℕ) : ℝ) ≠ 0 := by norm_num
  change (if ((1000000000 : ℕ) : ℝ) = 0 then undefined else real (1 / ((1000000000 : ℕ) : ℝ))) = _
  rw [if_neg hne]
  norm_num

theorem isDefined_sum (xs : List PartialReal) : (Scalar.sum xs).IsDefined ↔ ∀ x ∈ xs, x.IsDefined := by
  have hfold (start : PartialReal) : (xs.foldl (· + ·) start).IsDefined ↔ start.IsDefined ∧ ∀ x ∈ xs, x.IsDefined := by
    induction xs generalizing start with
    | nil => exact (and_iff_left nofun).symm
    | cons x xs ih => rw [List.foldl_cons, ih, isDefined_add, List.forall_mem_cons, and_assoc]
  exact (hfold _).trans (and_iff_right trivial)

end PartialReal

namespace Cx
open PartialReal

def IsDefined (a : Cx PartialReal) : Prop := a.re.IsDefined ∧ a.im.IsDefined

variable {a b : Cx PartialReal}

@[simp] theorem isDefined_zero : (0 : Cx PartialReal).IsDefined := ⟨trivial, trivial⟩

@[simp] theorem isDefined_one : (1 : Cx PartialReal).IsDefined := ⟨trivial, trivial⟩

@[simp] theorem isDefined_conj : a.conj.IsDefined ↔ a.IsDefined := and_congr_right fun _ => isDefined_neg

@[simp] theorem isDefined_add : (a + b).IsDefined ↔ a.IsDefined ∧ b.IsDefined := by
  simp only [IsDefined, add_re, add_im, PartialReal.isDefined_add]
  tauto

@[simp] theorem isDefined_sub : (a - b).IsDefined ↔ a.IsDefined ∧ b.IsDefined := by
  simp only [IsDefined, sub_re, sub_im, PartialReal.isDefined_sub]
  tauto

@[simp] theorem isDefined_mul : (a * b).IsDefined ↔ a.IsDefined ∧ b.IsDefined := by
  simp only [IsDefined, mul_re, mul_im, PartialReal.isDefined_add, PartialReal.isDefined_sub, PartialReal.isDefined_mul]
  tauto

@[simp] theorem isDefined_modulus : a.modulus.IsDefined ↔ a.IsDefined := isDefined_hypot

end Cx

namespace DenseMatrix

theorem isDefined_accumulate (y : Cx PartialReal) (as xs : List (Cx PartialReal)) :
    (accumulate y as xs).IsDefined ↔ y.IsDefined ∧ ∀ p ∈ as.zip xs, p.1.IsDefined ∧ p.2.IsDefined := by
  induction as generalizing xs y with
  | nil => simp [accumulate]
  | cons a as ih =>
    cases xs with
    | nil => simp [accumulate]
    | cons x xs =>
      rw [accumulate, ih, List.zip_cons_cons, List.forall_mem_cons, Cx.update]
      simp only [Cx.isDefined_add, Cx.isDefined_mul, Cx.isDefined_one, true_and]
      tauto

theorem isDefined_inner (as xs : List (Cx PartialReal)) :
    (inner as xs).IsDefined ↔ ∀ p ∈ as.zip xs, p.1.IsDefined ∧ p.2.IsDefined := by
  cases as with
  | nil => simp [inner]
  | cons a as =>
    cases xs with
    | nil => simp [inner]
    | cons x xs =>
      rw [inner, isDefined_accumulate, List.zip_cons_cons, List.forall_mem_cons]
      simp only [Cx.isDefined_mul, Cx.isDefined_one, true_and]

end DenseMatrix
end QuantumCircuits
end
