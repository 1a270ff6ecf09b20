import QuantumCircuits.Number.Cx

/-! Dense matrices of any shape, and the product, adjoint and powers of complex ones. -/

namespace QuantumCircuits

structure DenseMatrix (α : Type) where
  rows : Nat
  columns : Nat
  entries : Vector α (rows * columns)

namespace DenseMatrix

section Entries

variable {α β : Type}

def ofFn (rows columns : Nat) (entry : Nat → Nat → α) : DenseMatrix α :=
  ⟨rows, columns, Vector.ofFn fun k => entry (k / columns) (k % columns)⟩

def get [Zero α] (m : DenseMatrix α) (row column : Nat) : α :=
  if column < m.columns then (m.entries[row * m.columns + column]?).getD 0 else 0

theorem get_ofFn [Zero α] {rows columns i j : Nat} (entry : Nat → Nat → α) (hi : i < rows)
    (hj : j < columns) : (ofFn rows columns entry).get i j = entry i j := by
  have inside : i * columns + j < rows * columns := by
    calc i * columns + j < i * columns + columns := by omega
      _ = (i + 1) * columns := by rw [Nat.succ_mul]
      _ ≤ rows * columns := Nat.mul_le_mul_right _ hi
  have column : (i * columns + j) % columns = j := by
    rw [Nat.mul_comm, Nat.mul_add_mod, Nat.mod_eq_of_lt hj]
  have row : (i * columns + j) / columns = i := by
    rw [Nat.mul_comm, Nat.mul_add_div (by omega), Nat.div_eq_of_lt hj, Nat.add_zero]
  change (if j < columns then ((Vector.ofFn fun k : Fin (rows * columns) =>
    entry (k / columns) (k % columns))[i * columns + j]?).getD 0 else 0) = entry i j
  rw [if_pos hj, Vector.getElem?_ofFn, dif_pos inside, Option.getD_some, row, column]

def ofRows [Zero α] (rows : List (List α)) : DenseMatrix α :=
  ofFn rows.length (rows.headD []).length fun i j => ((rows[i]?.getD [])[j]?).getD 0

def toRows [Zero α] (m : DenseMatrix α) : List (List α) :=
  (List.range m.rows).map fun i => (List.range m.columns).map fun j => m.get i j

def map (f : α → β) (m : DenseMatrix α) : DenseMatrix β :=
  ⟨m.rows, m.columns, m.entries.map f⟩

instance [BEq α] : BEq (DenseMatrix α) where
  beq m n := m.rows == n.rows && m.columns == n.columns && m.entries.toArray == n.entries.toArray

end Entries

variable {R : Type} [Scalar R]

def diagonal (entries : List (Cx R)) : DenseMatrix (Cx R) :=
  ofFn entries.length entries.length fun i j => if i = j then entries.getD i 0 else 0

def unit (rows columns : Nat) : DenseMatrix (Cx R) :=
  ofFn rows columns fun i j => if i = j then 1 else 0

def identity (n : Nat) : DenseMatrix (Cx R) := unit n n

def adjoint (m : DenseMatrix (Cx R)) : DenseMatrix (Cx R) :=
  ofFn m.columns m.rows fun i j => (m.get j i).conj

def row (m : DenseMatrix (Cx R)) (i : Nat) : List (Cx R) :=
  (List.range m.columns).map fun j => m.get i j

def column (m : DenseMatrix (Cx R)) (j : Nat) : List (Cx R) :=
  (List.range m.rows).map fun i => m.get i j

def accumulate (y : Cx R) : List (Cx R) → List (Cx R) → Cx R
  | a :: as, x :: xs => accumulate (Cx.update 1 a x 1 y) as xs
  | _, _ => y

/-- Inner product by repeated update, the first term taken as it is. -/
def inner : List (Cx R) → List (Cx R) → Cx R
  | a :: as, x :: xs => accumulate (1 * a * x) as xs
  | _, _ => 0

def mul (m n : DenseMatrix (Cx R)) : DenseMatrix (Cx R) :=
  let rows := ((List.range m.rows).map m.row).toArray
  let columns := ((List.range n.columns).map n.column).toArray
  ofFn m.rows n.columns fun i j => inner (rows[i]?.getD []) (columns[j]?.getD [])

theorem get_mul (m n : DenseMatrix (Cx R)) {i j : Nat} (hi : i < m.rows) (hj : j < n.columns) :
    (mul m n).get i j = inner (m.row i) (n.column j) := by
  rw [mul, get_ofFn _ hi hj]
  simp [hi, hj]

instance : Mul (DenseMatrix (Cx R)) := ⟨mul⟩

def pow (m : DenseMatrix (Cx R)) (exponent : Nat) : DenseMatrix (Cx R) :=
  repeatedSquares mul (unit m.rows m.columns) m exponent

def diagonalEntries (m : DenseMatrix (Cx R)) : List (Cx R) :=
  (List.range (min m.rows m.columns)).map fun k => m.get k k

def allPlaces {α : Type} (m : DenseMatrix α) (test : Nat → Nat → Bool) : Bool :=
  (List.range m.rows).all fun i => (List.range m.columns).all fun j => test i j

/-- No entry of the difference of two matrices is longer than the tolerance. A difference that
cannot be compared with the tolerance is let through. -/
def isNear (m n : DenseMatrix (Cx R)) : Bool :=
  m.allPlaces fun i j => !decide (Scalar.tolerance < (m.get i j - n.get i j).modulus)

def isDiagonal (m : DenseMatrix (Cx R)) : Bool :=
  m.allPlaces fun i j => i == j || decide ((m.get i j).modulus < Scalar.tolerance)

def wireCount (m : DenseMatrix (Cx R)) : Nat := Nat.log2 m.rows

end DenseMatrix
end QuantumCircuits
