import QuantumCircuits.Matrix.Dense
import QuantumCircuits.Number.InnerProduct

/-! Hermitian matrices in tridiagonal form. A reflection for each column makes the entries vanish
that stand more than one place below the diagonal; the product of the reflections is the unitary
that leads back from the tridiagonal form. Only the lower triangle of a matrix is read. -/

namespace QuantumCircuits

variable {R : Type} [Scalar R]

/-- The unitary `s (1 - 2 v v*)` with a vector `v` of length one and a number `s` of modulus one. -/
structure Reflection (R : Type) where
  axis : List (Cx R)
  /-- A number in the direction of `s`: the first entry of the vector that the reflection is made
  for, after the part `1 - 2 v v*`. Its other entries have become zero. -/
  head : Cx R
  proper : Bool

namespace Reflection

/-- The reflection that makes all entries of a vector vanish but the first. The head points away
from the first entry, so that the axis is not the difference of two close numbers. -/
def ofVector : List (Cx R) → Reflection R
  | [] => ⟨[], 0, false⟩
  | x :: xs =>
    let head := x.direction.scale (Cx.length (x :: xs))
    let factor := (Cx.lengthSq (x :: xs) + x.modulus * Cx.length (x :: xs)) * Scalar.two
    if factor == 0 then ⟨(x + head) :: xs, head, false⟩
    else
      let axis := ((x + head) :: xs).map (·.divReal (Scalar.sqrt factor))
      ⟨axis.map (·.divReal (Cx.length axis)), -head, true⟩

def apply (r : Reflection R) (xs : List (Cx R)) : List (Cx R) :=
  let s := r.head.direction
  let factor := Cx.laneProduct r.axis xs * s.scale (-Scalar.two)
  List.zipWith (fun a x => Cx.update factor a 1 s x) r.axis xs

end Reflection

abbrev LowerTriangle (R : Type) := List (List (Cx R))

namespace LowerTriangle

def ofMatrix (m : DenseMatrix (Cx R)) : LowerTriangle R :=
  (List.range m.rows).map fun j => (List.range' j (m.rows - j)).map fun i => m.get i j

def two : Cx R := .ofReal Scalar.two

def addTwiceProduct : LowerTriangle R → List (Cx R) → List (Cx R) → List (Cx R)
  | column :: columns, v :: vs, p :: ps =>
    (p + two * Cx.laneProduct column (v :: vs)) ::
      addTwiceProduct columns vs
        (List.zipWith (fun a q => Cx.update (two * v) a 1 1 q) column.tail ps)
  | _, _, _ => []

def twiceProduct : LowerTriangle R → List (Cx R) → List (Cx R)
  | (d :: column) :: columns, v :: vs =>
    (two * v * d * 1 + two * Cx.laneProduct column vs) ::
      addTwiceProduct columns vs (column.map fun a => two * v * a * 1)
  | _, _ => []

def addRankOne (α : Cx R) : LowerTriangle R → List (Cx R) → List (Cx R) → LowerTriangle R
  | column :: columns, x :: xs, y :: ys =>
    List.zipWith (fun a b => Cx.update (α * y.conj) b 1 1 a) column (x :: xs) ::
      addRankOne α columns xs ys
  | _, _, _ => []

/-- The matrix `(1 - 2 v v*) m (1 - 2 v v*)` for the axis `v` of a reflection. With `p = 2 m v` it
is `m - p v* - v p* + 2 (v* p) v v*`. -/
def reflect (m : LowerTriangle R) (r : Reflection R) : LowerTriangle R :=
  if r.proper then
    let v := r.axis
    let p := twiceProduct m v
    addRankOne (Cx.laneProduct v p * two) (addRankOne (-1) (addRankOne (-1) m p v) v p) v v
  else m

theorem length_addRankOne_le (α : Cx R) (m : LowerTriangle R) (x y : List (Cx R)) :
    (addRankOne α m x y).length ≤ m.length := by
  induction m generalizing x y with
  | nil => simp [addRankOne]
  | cons column columns ih =>
    match x, y with
    | [], _ => simp [addRankOne]
    | _ :: _, [] => simp [addRankOne]
    | x :: xs, y :: ys => simpa [addRankOne] using ih xs ys

theorem length_reflect_le (m : LowerTriangle R) (r : Reflection R) :
    (m.reflect r).length ≤ m.length := by
  rw [reflect]
  split
  · exact Nat.le_trans (length_addRankOne_le ..)
      (Nat.le_trans (length_addRankOne_le ..) (length_addRankOne_le ..))
  · exact Nat.le_refl _

/-- The diagonal of the tridiagonal form, and for each column the reflection of its entries below
the diagonal. The heads of the reflections are the entries beside the diagonal, up to factors of
modulus one; the last reflection acts on no entry. -/
def tridiagonalize : LowerTriangle R → List (R × Reflection R)
  | [] => []
  | column :: columns =>
    let r := Reflection.ofVector column.tail
    ((column.headD 0).re, r) :: tridiagonalize (reflect columns r)
termination_by m => m.length
decreasing_by exact Nat.lt_succ_of_le (length_reflect_le columns _)

end LowerTriangle

def Reflection.product : List (Reflection R) → List (List (Cx R))
  | [] => []
  | r :: rs =>
    (1 :: r.apply (r.axis.map fun _ => 0)) :: (product rs).map fun column => 0 :: r.apply column

end QuantumCircuits
