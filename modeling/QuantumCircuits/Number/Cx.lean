import QuantumCircuits.Number.Scalar

/-! Complex numbers over any scalar. Products and quotients by a real number go part by part. -/

namespace QuantumCircuits

@[ext]
structure Cx (R : Type) where
  re : R
  im : R

namespace Cx

variable {R : Type} [Scalar R]

def ofReal (x : R) : Cx R := ⟨x, 0⟩

instance : Zero (Cx R) := ⟨⟨0, 0⟩⟩

instance : One (Cx R) := ⟨⟨1, 0⟩⟩

instance : Inhabited (Cx R) := ⟨0⟩

instance : Add (Cx R) := ⟨fun a b => ⟨a.re + b.re, a.im + b.im⟩⟩

instance : Sub (Cx R) := ⟨fun a b => ⟨a.re - b.re, a.im - b.im⟩⟩

instance : Neg (Cx R) := ⟨fun a => ⟨-a.re, -a.im⟩⟩

instance : Mul (Cx R) :=
  ⟨fun a b => ⟨a.re * b.re - a.im * b.im, a.re * b.im + a.im * b.re⟩⟩

instance : BEq (Cx R) := ⟨fun a b => a.re == b.re && a.im == b.im⟩

def scale (a : Cx R) (x : R) : Cx R := ⟨a.re * x, a.im * x⟩

def divReal (a : Cx R) (x : R) : Cx R := ⟨a.re / x, a.im / x⟩

def conj (a : Cx R) : Cx R := ⟨a.re, -a.im⟩

def normSq (a : Cx R) : R := a.re * a.re + a.im * a.im

def modulus (a : Cx R) : R := Scalar.hypot a.re a.im

def direction (a : Cx R) : Cx R :=
  let length := a.modulus
  if length == 0 then 1 else a.divReal length

def taxicab (a : Cx R) : R := Scalar.magnitude a.re + Scalar.magnitude a.im

def polar (r θ : R) : Cx R := ⟨r * Scalar.cos θ, r * Scalar.sin θ⟩

def cis (θ : R) : Cx R := polar 1 θ

def sum (xs : List (Cx R)) : Cx R := xs.foldl (· + ·) 0

/-- The update `α a x + β y`. With unit factors it is `a x + y`, except that an infinite part times
the zero part of a factor is undefined. -/
def update (α a x β y : Cx R) : Cx R := α * a * x + β * y

def text [DecimalText R] (a : Cx R) : String :=
  let part (x : R) : String := DecimalText.shortest (Scalar.magnitude x)
  let sign := if a.re < 0 then "-" else ""
  let link := if a.im < 0 then "-" else "+"
  sign ++ part a.re ++ link ++ part a.im ++ "i"

@[simp] theorem zero_re : (0 : Cx R).re = 0 := rfl

@[simp] theorem zero_im : (0 : Cx R).im = 0 := rfl

@[simp] theorem one_re : (1 : Cx R).re = 1 := rfl

@[simp] theorem one_im : (1 : Cx R).im = 0 := rfl

@[simp] theorem add_re (a b : Cx R) : (a + b).re = a.re + b.re := rfl

@[simp] theorem add_im (a b : Cx R) : (a + b).im = a.im + b.im := rfl

@[simp] theorem sub_re (a b : Cx R) : (a - b).re = a.re - b.re := rfl

@[simp] theorem sub_im (a b : Cx R) : (a - b).im = a.im - b.im := rfl

@[simp] theorem neg_re (a : Cx R) : (-a).re = -a.re := rfl

@[simp] theorem neg_im (a : Cx R) : (-a).im = -a.im := rfl

@[simp] theorem mul_re (a b : Cx R) : (a * b).re = a.re * b.re - a.im * b.im := rfl

@[simp] theorem mul_im (a b : Cx R) : (a * b).im = a.re * b.im + a.im * b.re := rfl

end Cx
end QuantumCircuits
