import Mathlib
import QuantumCircuits.Proofs.Matrix.Dense
import QuantumCircuits.Proofs.Operator.Placed
import QuantumCircuits.Simulation.Exact

/-! What lists of instructions do to state vectors. A placement acts as its matrix placed on its
wires, and a list of instructions as the product of its placements. -/

noncomputable section
namespace QuantumCircuits
open Matrix QuantumCircuits.Basis Operator

namespace State

section Lists

variable {R : Type} [Scalar R]

theorem amplitude?_of_lt {s : State R} {i : ℕ} (h : i < 2 ^ s.qubits) : s.amplitude? i = some (s.amp i) := by
  rw [amp, amplitude?, Vector.getElem?_eq_getElem h, Option.getD_some]

theorem zipIdx_toList (s : State R) : s.toList.zipIdx = (List.range (2 ^ s.qubits)).map fun i => (s.amp i, i) := by
  have hlength : s.toList.length = 2 ^ s.qubits := s.amplitudes.length_toList
  refine List.ext_getElem (by simp [hlength]) fun i hi hi' => ?_
  have hbelow : i < 2 ^ s.qubits := by simpa using hi'
  have hamp : s.amp i = s.amplitudes[i] := by simp [amp, amplitude?, hbelow]
  rw [List.getElem_zipIdx, List.getElem_map, List.getElem_range, hamp, Nat.zero_add]
  rfl

theorem toList_eq (s : State R) : s.toList = (List.range (2 ^ s.qubits)).map s.amp := by
  rw [← List.zipIdx_map_fst 0 s.toList, zipIdx_toList, List.map_map]
  rfl

end Lists

def vector (n : ℕ) (s : State ℝ) : Fin (2 ^ n) → ℂ := fun i => (s.amp i).toComplex

def ofVector {n : ℕ} (v : Fin (2 ^ n) → ℂ) : State ℝ :=
  .ofFn n fun i => if below : i < 2 ^ n then .ofComplex (v ⟨i, below⟩) else 0

theorem amp_of_le {s : State ℝ} {i : ℕ} (h : 2 ^ s.qubits ≤ i) : s.amp i = 0 := by
  rw [amp, amplitude?, Vector.getElem?_eq_none h]
  rfl

variable {n : ℕ}

theorem amp_ofVector (v : Fin (2 ^ n) → ℂ) (i : Fin (2 ^ n)) :
    (ofVector v).amp i = .ofComplex (v i) := by
  rw [ofVector, amp_ofFn _ _ i.isLt, dif_pos i.isLt]

theorem vector_ofVector (v : Fin (2 ^ n) → ℂ) : (ofVector v).vector n = v := by
  funext i
  rw [vector, amp_ofVector, Cx.toComplex_ofComplex]

theorem amp_basis (i : Fin (2 ^ n)) (k : ℕ) : (basis n i : State ℝ).amp k = if k = i then 1 else 0 := by
  by_cases hk : k < 2 ^ n
  · rw [basis, amp_ofFn _ _ hk]
  · have hne : k ≠ i := fun same => hk (same ▸ i.isLt)
    rw [amp_of_le (not_lt.1 hk), if_neg hne]

theorem vector_basis (i : Fin (2 ^ n)) : (basis n i : State ℝ).vector n = Pi.single i 1 := by
  funext j
  rw [vector, amp_basis, Pi.single_apply]
  simp only [apply_ite Cx.toComplex, Cx.toComplex_one, Cx.toComplex_zero, Fin.ext_iff]

theorem vector_extend (s : State ℝ) (i : Fin (2 ^ n)) : (s.extend n).vector n i = (s.amp i).toComplex := by
  rw [vector, extend, amp_ofFn n s.amp i.isLt]

theorem vector_extend_of_testBit {s : State ℝ} {i : Fin (2 ^ n)} {w : ℕ} (h : s.qubits ≤ w)
    (hbit : i.val.testBit w = true) : (s.extend n).vector n i = 0 := by
  have hlarge : 2 ^ s.qubits ≤ i.val :=
    (Nat.pow_le_pow_right Nat.two_pos h).trans (Nat.ge_two_pow_of_testBit hbit)
  rw [vector_extend, amp_of_le hlarge, Cx.toComplex_zero]

theorem placed_range_mulVec_extend {d : ℕ} {s : State ℝ} (hs : s.qubits ≤ d) (hle : d ≤ n) (m : Operator d)
    (i : Fin (2 ^ n)) : (placed [] (List.range d) m *ᵥ (s.extend n).vector n) i =
      if i.val < 2 ^ d then (m *ᵥ (s.extend d).vector d) (state d i) else 0 := by
  have hsel : Selects n d (List.range d) := (Selects.range d).mono hle
  rw [placed_nil_mulVec hsel]
  split
  · next hi =>
    simp only [read_range, vector_extend, val_write_range hle hi]
    exact Finset.sum_congr rfl fun b _ => by rw [vector_extend]
  · next hi =>
    -- A wire above those of the map reads one and still does after they are written.
    obtain ⟨w, hw, hbit⟩ := Nat.exists_ge_and_testBit_of_ge_two_pow (not_lt.1 hi)
    have hmem : w ∉ List.range d := fun hmem => absurd (List.mem_range.1 hmem) (not_lt.2 hw)
    refine Finset.sum_eq_zero fun b _ => ?_
    rw [vector_extend_of_testBit (hs.trans hw) ?_, mul_zero]
    rw [hsel.testBit_write_of_not_mem _ _ hmem, hbit]

theorem vector_extend_of_sum {k : ℕ} {J : Type} [Fintype J] {β : J → ℂ} {v : J → Fin (2 ^ n) → ℂ} {s : State ℝ}
    (hs : s.qubits = n) (h : s.vector n = ∑ j, β j • v j) :
    (s.extend k).vector k = ∑ j, β j • ((ofVector (v j)).extend k).vector k := by
  funext i
  rw [vector_extend, Finset.sum_apply]
  simp only [Pi.smul_apply, vector_extend]
  by_cases hi : i.val < 2 ^ n
  · have hentry := congrFun h ⟨i, hi⟩
    rw [Finset.sum_apply] at hentry
    refine hentry.trans (Finset.sum_congr rfl fun j _ => ?_)
    rw [amp_ofVector (v j) ⟨i, hi⟩, Cx.toComplex_ofComplex]
    rfl
  · have hzero {u : State ℝ} (hu : u.qubits = n) : (u.amp i).toComplex = 0 := by
      rw [amp_of_le (hu ▸ not_lt.1 hi), Cx.toComplex_zero]
    rw [hzero hs]
    exact (Finset.sum_eq_zero fun j _ => by rw [hzero rfl, smul_zero]).symm

theorem eq_ofVector {s : State ℝ} {v : Fin (2 ^ n) → ℂ} (hs : s.qubits = n) (h : s.vector n = v) :
    s = ofVector v := by
  subst hs
  refine ext_amp rfl fun i hi => ?_
  rw [amp_ofVector v ⟨i, hi⟩, ← h]
  exact (Cx.ofComplex_toComplex _).symm

theorem ext_vector {s t : State ℝ} (hs : s.qubits = n) (ht : t.qubits = n) (h : s.vector n = t.vector n) : s = t :=
  (eq_ofVector hs h).trans (eq_ofVector ht rfl).symm

end State

namespace Placement

variable {n d : ℕ} {p : Placement ℝ}

theorem foldl_toComplex {α : Type} (f : α → Cx ℝ) (xs : List α) (start : Cx ℝ) :
    (xs.foldl (fun sum x => sum + f x) start).toComplex =
      start.toComplex + (xs.map fun x => (f x).toComplex).sum := by
  induction xs generalizing start with
  | nil => simp
  | cons x xs ih =>
    rw [List.foldl_cons, ih, List.map_cons, List.sum_cons, Cx.toComplex_add, add_assoc]

theorem toComplex_amp_apply (p : Placement ℝ) (s : State ℝ) {i : ℕ} (hi : i < 2 ^ s.qubits) :
    ((p.apply s).amp i).toComplex =
      ((p.row s.qubits i).map fun e => e.2.toComplex * (s.amp e.1).toComplex).sum := by
  rw [amp_apply p s hi, Cx.toComplex_add, Cx.toComplex_mul, Cx.toComplex_mul, Cx.toComplex_zero, Cx.toComplex_one,
    zero_mul, zero_add, one_mul, foldl_toComplex fun e : ℕ × Cx ℝ => e.2 * s.amp e.1, Cx.toComplex_zero, zero_add]
  simp only [Cx.toComplex_mul]

theorem sum_line (columns : List (ℕ × ℕ)) (i : ℕ) (f : ℕ → ℂ) :
    ((p.line columns i).map fun e => e.2.toComplex * f e.1).sum =
      (columns.map fun c => (p.matrix.get i c.2).toComplex * f c.1).sum := by
  induction columns with
  | nil => rfl
  | cons c columns ih =>
    obtain ⟨offset, column⟩ := c
    rw [List.map_cons, List.sum_cons, ← ih, line, List.filterMap_cons]
    by_cases hpos : 0 < (p.matrix.get i column).normSq
    · simp only [hpos, if_true, List.map_cons, List.sum_cons]
      rfl
    · have hzero : (p.matrix.get i column).toComplex = 0 :=
        not_not.1 fun hne => hpos ((Cx.normSq_pos_iff _).2 hne)
      simp only [hpos, if_false, hzero, zero_mul, zero_add]
      rfl

/-- A placement acts as its matrix, placed on its targets and under its controls. -/
theorem vector_apply (h : Selects n d p.targets) {s : State ℝ} (hs : s.qubits = n) :
    (p.apply s).vector n =
      placed p.controls p.targets (p.matrix.toMatrix (2 ^ d) (2 ^ d)) *ᵥ s.vector n := by
  subst hs
  funext i
  rw [State.vector, toComplex_amp_apply p s i.isLt, placed_mulVec h]
  by_cases active : p.active i.val
  · have hwires := h.ascending
    let f (k : Fin (2 ^ s.qubits)) : ℂ :=
      p.matrix.toMatrix (2 ^ d) (2 ^ d) (read d p.targets i.val) (read d p.targets k.val) *
        s.vector s.qubits k
    have hentry (b : Fin (2 ^ d)) :
        (p.matrix.get (gather i.val p.targets)
          (gather (scatter b.val (ascending s.qubits p.targets)) p.targets)).toComplex *
            (s.amp (clear i.val p.targets ||| scatter b.val (ascending s.qubits p.targets))).toComplex =
          f (write (ascending s.qubits p.targets) i b) := by
      have hgather : gather (scatter b.val (ascending s.qubits p.targets)) p.targets =
          gather (write (ascending s.qubits p.targets) i b).val p.targets := by
        rw [hwires.val_write, ← h.gather_scatter_ascending]
      have hplace : clear i.val p.targets ||| scatter b.val (ascending s.qubits p.targets) =
          (write (ascending s.qubits p.targets) i b).val := by
        rw [hwires.val_write, place, h.clear_ascending]
      rw [hgather, hplace, ← h.val_read, ← h.val_read]
      rfl
    have hactive : holds p.controls i.val = true := active
    have hline := sum_line (p := p) (p.columns s.qubits) (gather i.val p.targets) fun j =>
      (s.amp (clear i.val p.targets ||| j)).toComplex
    rw [row, if_pos active, List.map_map, if_pos hactive]
    refine hline.trans ?_
    rw [columns, List.map_map, Basis.indices, hwires.length]
    refine (DenseMatrix.sum_map_range _ _).trans ?_
    refine (Finset.sum_congr rfl fun b _ => hentry b).trans ((h.sum_ascending i f).trans ?_)
    exact Finset.sum_congr rfl fun b _ => by simp only [f, h.read_write]
  · have hactive : ¬ holds p.controls i.val = true := active
    rw [row, if_neg active, if_neg hactive]
    simp [State.vector]

end Placement

/-- The instructions, one after the other, act as the linear map. None of them is a reset. -/
inductive Realizes (n : ℕ) : List (Instruction ℝ) → Operator n → Prop
  | nil : Realizes n [] 1
  | gate {d : ℕ} {p : Placement ℝ} {is : List (Instruction ℝ)} {m : Operator n}
    (targets : Selects n d p.targets) (free : ∀ c ∈ p.controls, c.1 ∉ p.targets)
    (matrix : p.matrix.Shaped (2 ^ d) (2 ^ d)) (rest : Realizes n is m) :
    Realizes n (.gate p :: is)
      (m * placed p.controls p.targets (p.matrix.toMatrix (2 ^ d) (2 ^ d)))
  | noise {w : ℕ} {is : List (Instruction ℝ)} {m : Operator n} (rest : Realizes n is m) :
    Realizes n (.noise w :: is) m

namespace Realizes

variable {n : ℕ} {is js : List (Instruction ℝ)} {m k : Operator n}

theorem append (h : Realizes n is m) (h' : Realizes n js k) : Realizes n (is ++ js) (k * m) := by
  induction h with
  | nil => rwa [List.nil_append, mul_one]
  | gate targets free matrix _ ih =>
    rw [← mul_assoc]
    exact .gate targets free matrix ih
  | noise _ ih => exact .noise ih

theorem copies (h : Realizes n is m) (e : ℕ) :
    Realizes n (List.replicate e is).flatten (m ^ e) := by
  induction e with
  | zero => exact .nil
  | succ e ih =>
    rw [List.replicate_succ, List.flatten_cons, pow_succ]
    exact h.append ih

theorem repeated (h : Realizes n is m) (e : ℕ) :
    Realizes n (Instruction.repeated is e) (m ^ e) := by
  unfold Instruction.repeated
  split
  · cases h
    rw [one_pow]
    exact .nil
  · cases h with
    -- One gate is repeated by the power of its matrix.
    | gate targets free matrix rest =>
      cases rest
      rw [one_mul, ← placed_pow targets free, ← DenseMatrix.toMatrix_pow matrix, ← one_mul (placed _ _ _)]
      exact .gate targets free (matrix.pow e) .nil
  · exact h.copies e

theorem run (h : Realizes n is m) {s : State ℝ} (hs : s.qubits = n) :
    is.foldlM Instruction.exactStep s = .ok (State.ofVector (m *ᵥ s.vector n)) := by
  induction h generalizing s with
  | nil =>
    rw [one_mulVec, ← State.eq_ofVector hs rfl]
    rfl
  | @gate d p is m targets free matrix _ ih =>
    rw [List.foldlM_cons]
    have hstep := ih (s := p.apply s) hs
    rw [Placement.vector_apply targets hs, mulVec_mulVec] at hstep
    exact hstep
  | noise _ ih => exact ih hs

end Realizes
end QuantumCircuits
end
