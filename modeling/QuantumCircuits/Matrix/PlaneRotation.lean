import QuantumCircuits.Matrix.Evolution
import QuantumCircuits.Matrix.Tridiagonal
import QuantumCircuits.Number.Binary64

/-! Spectra by plane rotations of a tridiagonal form. Sweeps of rotations with a shift near an
eigenvalue make the last entry beside the diagonal vanish; the matrix is then smaller by one row. A
block of two rows is solved in closed form. An entry beside the diagonal counts as zero once it is
small to machine precision beside its two neighbours in the diagonal. -/

namespace QuantumCircuits

variable {R : Type} [Scalar R]

structure PlaneRotation (R : Type) where
  c : R
  s : R

namespace PlaneRotation

def signedLength (x y : R) : R :=
  let length := Scalar.sqrt (x * x + y * y)
  if 0 ≤ x then length else -length

/-- The rotation onto the direction of the vector `(x, y)` or its opposite, with `0 ≤ c`. -/
def toward (x y : R) : PlaneRotation R :=
  let length := signedLength x y
  ⟨x / length, y / length⟩

def inverse (r : PlaneRotation R) : PlaneRotation R := ⟨r.c, -r.s⟩

def mix (r : PlaneRotation R) (a b : List (Cx R)) : List (Cx R) × List (Cx R) :=
  let s : Cx R := .ofReal r.s
  (List.zipWith (fun x y => x.scale r.c + s * y) a b,
    List.zipWith (fun x y => -s.conj * x + y.scale r.c) a b)

end PlaneRotation

/-- A real symmetric tridiagonal matrix `T` and the columns of a matrix `V`, which stand for
`V T V*`. -/
structure TridiagonalForm (R : Type) where
  diagonal : Array R
  beside : Array R
  columns : Array (List (Cx R))

namespace TridiagonalForm

def ofTriangle (m : LowerTriangle R) : TridiagonalForm R :=
  let parts := m.tridiagonalize
  { diagonal := (parts.map fun (d, _) => d).toArray
    beside := (parts.map fun (_, r) => r.head.modulus).toArray
    columns := (Reflection.product (parts.map fun (_, r) => r)).toArray }

def diag (t : TridiagonalForm R) (i : Nat) : R := t.diagonal.getD i 0

def off (t : TridiagonalForm R) (i : Nat) : R := t.beside.getD i 0

def setOff (t : TridiagonalForm R) (i : Nat) (x : R) : TridiagonalForm R :=
  { t with beside := t.beside.setIfInBounds i x }

def bound (t : TridiagonalForm R) (i : Nat) : R :=
  Scalar.epsilon * (Scalar.magnitude (t.diag i) + Scalar.magnitude (t.diag (i + 1)))

def isNegligible (t : TridiagonalForm R) (i : Nat) : Bool :=
  decide (Scalar.magnitude (t.off i) ≤ t.bound i)

def lastCoupled (t : TridiagonalForm R) : Nat → Nat
  | 0 => 0
  | n + 1 => if t.bound n < Scalar.magnitude (t.off n) then n + 1 else t.lastCoupled n

def blockStart (t : TridiagonalForm R) : Nat → Nat
  | 0 => 0
  | n + 1 => if t.off n == 0 || t.isNegligible n then n + 1 else t.blockStart n

def separate (t : TridiagonalForm R) (i : Nat) : TridiagonalForm R :=
  if i = 0 then t else t.setOff (i - 1) 0

def mixColumns (t : TridiagonalForm R) (i : Nat) (r : PlaneRotation R) : TridiagonalForm R :=
  let (a, b) := r.mix (t.columns.getD i []) (t.columns.getD (i + 1) [])
  { t with columns := (t.columns.setIfInBounds i a).setIfInBounds (i + 1) b }

def setDiagonal (t : TridiagonalForm R) (i : Nat) (a b : R) : TridiagonalForm R :=
  { t with diagonal := (t.diagonal.setIfInBounds i a).setIfInBounds (i + 1) b }

def turn (t : TridiagonalForm R) (i : Nat) (r : PlaneRotation R) : TridiagonalForm R :=
  let a := t.diag i
  let b := t.diag (i + 1)
  let x := t.off i
  let cc := r.c * r.c
  let ss := r.s * r.s
  let cs := r.c * r.s
  let mixed := cs * Scalar.two * x
  let t := t.setDiagonal i (cc * a + ss * b - mixed) (ss * a + cc * b + mixed)
  (t.setOff i (cs * (a - b) + x * (cc - ss))).mixColumns i r.inverse

/-- Rotates the planes from `i` on, one for each of the given number. A rotation makes `y` vanish in
the vector `(x, y)`, whose first part stands before place `i` unless `i` is the first place of the
block, and brings up the next such vector. -/
def chase (first : Nat) : Nat → Nat → R → R → TridiagonalForm R → TridiagonalForm R
  | 0, _, _, _, t => t
  | count + 1, i, x, y, t =>
    if y == 0 then t
    else
      let r := PlaneRotation.toward x (-y)
      let t := if first < i then t.setOff (i - 1) (PlaneRotation.signedLength x y) else t
      let t := t.turn i r
      if count = 0 then t
      else
        let next := t.off (i + 1)
        chase first count (i + 1) (t.off i) (-r.s * next) (t.setOff (i + 1) (next * r.c))

/-- The eigenvalue of the block of places `i` and `i + 1` that is closer to the second diagonal
entry. -/
def shift (t : TridiagonalForm R) (i : Nat) : R :=
  let square := t.off i * t.off i
  let last := t.diag (i + 1)
  if square == 0 then last
  else
    let d := Scalar.half (t.diag i - last)
    last - square / (d + Scalar.sign d * Scalar.sqrt (d * d + square))

def sweep (t : TridiagonalForm R) (first last : Nat) : TridiagonalForm R :=
  chase first (last - first) first (t.diag first - t.shift (last - 1)) (t.off first) t

def solvePair (t : TridiagonalForm R) (i : Nat) : TridiagonalForm R :=
  let a := t.diag i
  let b := t.diag (i + 1)
  let x := t.off i
  let d := Scalar.half (a - b)
  let root := Scalar.sqrt (x * x + d * d)
  let mean := Scalar.half (a + b)
  let t := t.setDiagonal i (mean + root) (mean - root)
  let direction := mean + root - b
  if Scalar.epsilon < Scalar.sqrt (direction * direction + x * x) then
    t.mixColumns i (.toward direction x)
  else t

def solve : Nat → Nat → TridiagonalForm R → TridiagonalForm R
  | 0, _, t => t
  | steps + 1, last, t =>
    let last := t.lastCoupled last
    if last = 0 then t
    else
      let first := t.blockStart (last - 1)
      let t := t.separate first
      if last = first + 1 then solve steps (last - 1) (t.solvePair first)
      else
        let t := t.sweep first last
        solve steps (if t.isNegligible (last - 1) then last - 1 else last) t

def maxSteps (n : Nat) : Nat := 1000 * n

end TridiagonalForm

namespace DenseMatrix

def largestEntry (m : DenseMatrix (Cx R)) : R :=
  let sizes := (List.range m.columns).flatMap fun j =>
    (List.range m.rows).map fun i => (m.get i j).taxicab
  sizes.tail.foldl (fun a b => if b ≤ a then a else b) (sizes.headD 0)

def hermitianSpectrum (m : DenseMatrix (Cx R)) : Spectrum R :=
  let largest := m.largestEntry
  let scaled := if largest == 0 then m else m.map (·.divReal largest)
  let form := TridiagonalForm.ofTriangle (.ofMatrix scaled)
  let final := form.solve (TridiagonalForm.maxSteps m.rows) (m.rows - 1)
  let columns := final.columns.map List.toArray
  { values := final.diagonal.toList.map (· * largest)
    vectors := ofFn m.rows m.rows fun i j => (columns.getD j #[]).getD i 0 }

end DenseMatrix

instance : EigenSolver Float := ⟨DenseMatrix.hermitianSpectrum⟩

end QuantumCircuits
