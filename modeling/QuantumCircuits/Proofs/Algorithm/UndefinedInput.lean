import Mathlib
import QuantumCircuits.Proofs.Algorithm.Compressor
import QuantumCircuits.Proofs.Number.PartialReal

/-! What the checks of matrices and ensembles let through if a number may be undefined. Each check refuses what
compares above a bound, so an undefined entry is never the reason of a refusal, and it spreads to all entries that
are computed from it. -/

noncomputable section
namespace QuantumCircuits
open PartialReal

namespace DenseMatrix

variable {m n : DenseMatrix (Cx PartialReal)} {i j : ℕ}

def IsDefined (m : DenseMatrix (Cx PartialReal)) : Prop := ∀ i < m.rows, ∀ j < m.columns, (m.get i j).IsDefined

/-- No entry of the difference of two matrices has a modulus above a bound, or an undefined one. -/
def IsClose (m n : DenseMatrix (Cx PartialReal)) (bound : ℝ) : Prop :=
  ∀ i < m.rows, ∀ j < m.columns, (m.get i j - n.get i j).modulus ≤ .real bound

theorem isNear_iff : m.isNear n = true ↔ ∀ i < m.rows, ∀ j < m.columns,
    (m.get i j).IsDefined ∧ (n.get i j).IsDefined → (m.get i j - n.get i j).modulus ≤ .real (1 / 10 ^ 9) := by
  simp only [isNear_eq_true_iff, tolerance_eq_real, not_real_lt_iff, Cx.isDefined_modulus, Cx.isDefined_sub]

theorem isClose_iff : m.IsClose n (1 / 10 ^ 9) ↔ m.isNear n = true ∧
    ∀ i < m.rows, ∀ j < m.columns, (m.get i j).IsDefined ∧ (n.get i j).IsDefined := by
  rw [isNear_iff]
  constructor
  · intro h
    have hdefined : ∀ i < m.rows, ∀ j < m.columns, (m.get i j).IsDefined ∧ (n.get i j).IsDefined := fun i hi j hj =>
      Cx.isDefined_sub.1 (Cx.isDefined_modulus.1 (isDefined_of_le (h i hi j hj)))
    exact ⟨fun i hi j hj _ => h i hi j hj, hdefined⟩
  · rintro ⟨hnear, hdefined⟩ i hi j hj
    exact hnear i hi j hj (hdefined i hi j hj)

theorem isDefined_get_adjoint (hi : i < m.columns) (hj : j < m.rows) :
    (m.adjoint.get i j).IsDefined ↔ (m.get j i).IsDefined := by
  rw [adjoint, get_ofFn _ hi hj, Cx.isDefined_conj]

theorem isDefined_get_gram (hi : i < m.columns) (hj : j < m.columns) :
    ((m.adjoint * m).get i j).IsDefined ↔ ∀ k < m.rows, (m.get k i).IsDefined ∧ (m.get k j).IsDefined := by
  have hget : (m.adjoint * m).get i j = inner (m.adjoint.row i) (m.column j) := get_mul m.adjoint m hi hj
  have hzip : (m.adjoint.row i).zip (m.column j) =
      (List.range m.rows).map fun k => (m.adjoint.get i k, m.get k j) := List.zip_map'
  rw [hget, isDefined_inner, hzip, List.forall_mem_map]
  simp only [List.mem_range]
  -- An undefined entry spreads to all inner products with its column.
  refine forall₂_congr fun k hk => ?_
  rw [isDefined_get_adjoint hi hk]

theorem isDefined_identity (d : ℕ) : (identity d : DenseMatrix (Cx PartialReal)).IsDefined := by
  intro i (hi : i < d) j (hj : j < d)
  rw [identity, unit, get_ofFn _ hi hj]
  split
  · exact Cx.isDefined_one
  · exact Cx.isDefined_zero

theorem isNear_gram_iff (hsquare : m.rows = m.columns) : (m.adjoint * m).isNear (identity m.rows) = true ↔
    ∀ i < m.columns, ∀ j < m.columns, (∀ k < m.rows, (m.get k i).IsDefined ∧ (m.get k j).IsDefined) →
      ((m.adjoint * m).get i j - (identity m.rows).get i j).modulus ≤ .real (1 / 10 ^ 9) := by
  rw [isNear_iff]
  refine forall₂_congr fun i (hi : i < m.columns) => forall₂_congr fun j (hj : j < m.columns) => ?_
  rw [and_iff_left (isDefined_identity m.rows i (hsquare ▸ hi) j (hsquare ▸ hj)), isDefined_get_gram hi hj]

theorem isClose_gram_iff (hsquare : m.rows = m.columns) :
    (m.adjoint * m).IsClose (identity m.rows) (1 / 10 ^ 9) ↔
      (m.adjoint * m).isNear (identity m.rows) = true ∧ m.IsDefined := by
  rw [isClose_iff]
  refine and_congr_right fun _ => ⟨fun h i hi j hj => ?_, fun h i hi j hj => ⟨?_, ?_⟩⟩
  · exact ((isDefined_get_gram hj hj).1 (h j hj j hj).1 i hi).1
  · exact (isDefined_get_gram hi hj).2 fun k hk => ⟨h k hk i hi, h k hk j hj⟩
  · exact isDefined_identity m.rows i (hsquare ▸ hi) j (hsquare ▸ hj)

theorem isNear_adjoint_iff (hsquare : m.rows = m.columns) : m.isNear m.adjoint = true ↔
    ∀ i < m.rows, ∀ j < m.columns, (m.get i j).IsDefined ∧ (m.get j i).IsDefined →
      (m.get i j - m.adjoint.get i j).modulus ≤ .real (1 / 10 ^ 9) := by
  rw [isNear_iff]
  refine forall₂_congr fun i hi => forall₂_congr fun j hj => ?_
  rw [isDefined_get_adjoint (hsquare ▸ hi) (hsquare ▸ hj)]

theorem isClose_adjoint_iff (hsquare : m.rows = m.columns) :
    m.IsClose m.adjoint (1 / 10 ^ 9) ↔ m.isNear m.adjoint = true ∧ m.IsDefined := by
  rw [isClose_iff]
  refine and_congr_right fun _ => ⟨fun h i hi j hj => (h i hi j hj).1, fun h i hi j hj => ⟨h i hi j hj, ?_⟩⟩
  exact (isDefined_get_adjoint (hsquare ▸ hi) (hsquare ▸ hj)).2 (h j (hsquare ▸ hj) i (hsquare ▸ hi))

end DenseMatrix

namespace Gate
open DenseMatrix

theorem isOk_ofUnitary_iff {R : Type} [Scalar R] {label : String} {m : DenseMatrix (Cx R)} :
    (ofUnitary label m).isOk = true ↔ checkDimension m = .ok () ∧ (m.adjoint * m).isNear (identity m.rows) = true := by
  simp only [isOk_eq_true_iff, ofUnitary_eq_ok_iff, exists_and_left, exists_eq, and_true]

theorem isOk_ofHamiltonian_iff {R : Type} [Scalar R] {m : DenseMatrix (Cx R)} {time : Param R} :
    (ofHamiltonian m time).isOk = true ↔ checkDimension m = .ok () ∧ m.isNear m.adjoint = true := by
  simp only [isOk_eq_true_iff, ofHamiltonian_eq_ok_iff, exists_and_left, exists_eq, and_true]
  rfl

end Gate

namespace Compressor

def IsDistribution (ensemble : List (SourceState PartialReal)) (bound : ℝ) : Prop :=
  (∀ s ∈ ensemble, 0 ≤ s.probability) ∧
    Scalar.magnitude (Scalar.sum (ensemble.map SourceState.probability) - 1) ≤ .real bound

variable {ensemble : List (SourceState PartialReal)}

theorem isDefined_total_iff :
    (Scalar.magnitude (Scalar.sum (ensemble.map SourceState.probability) - 1)).IsDefined ↔
      ∀ s ∈ ensemble, s.probability.IsDefined := by
  rw [isDefined_magnitude, PartialReal.isDefined_sub, isDefined_sum, List.forall_mem_map]
  exact and_iff_left trivial

theorem checkEnsemble_eq_ok_iff_of_defined [DecimalText PartialReal] : checkEnsemble ensemble = .ok () ↔
    (∀ s ∈ ensemble, s.probability.IsDefined → 0 ≤ s.probability) ∧
      ((∀ s ∈ ensemble, s.probability.IsDefined) →
        Scalar.magnitude (Scalar.sum (ensemble.map SourceState.probability) - 1) ≤ .real (1 / 10 ^ 9)) := by
  have hnegative (s : SourceState PartialReal) : (s.probability.IsDefined → 0 ≤ s.probability) ↔ ¬ s.probability < 0 :=
    not_lt_real_iff.symm
  rw [← isDefined_total_iff, ← not_real_lt_iff, ← tolerance_eq_real]
  simp only [hnegative]
  unfold checkEnsemble
  simp only [ite_eq_right_iff, reduceCtorEq, imp_false, Bool.or_eq_true, not_or, List.any_eq_true, decide_eq_true_eq,
    not_exists, not_and]

theorem isDistribution_iff [DecimalText PartialReal] :
    IsDistribution ensemble (1 / 10 ^ 9) ↔ checkEnsemble ensemble = .ok () ∧ ∀ s ∈ ensemble, s.probability.IsDefined := by
  rw [checkEnsemble_eq_ok_iff_of_defined]
  constructor
  · rintro ⟨hnonneg, htotal⟩
    exact ⟨⟨fun s hs _ => hnonneg s hs, fun _ => htotal⟩, isDefined_total_iff.1 (isDefined_of_le htotal)⟩
  · rintro ⟨⟨hnonneg, htotal⟩, hdefined⟩
    exact ⟨fun s hs => hnonneg s hs (hdefined s hs), htotal hdefined⟩

end Compressor

section UndefinedEntry
open DenseMatrix Compressor

theorem modulus_le_of_eq_zero {a : Cx PartialReal} (ha : a = ⟨real 0, real 0⟩) : a.modulus ≤ real (1 / 10 ^ 9) := by
  subst ha
  change √((0 : ℝ) ^ 2 + 0 ^ 2) ≤ 1 / 10 ^ 9
  norm_num

theorem DenseMatrix.get_gram_two {m : DenseMatrix (Cx PartialReal)} {i j : ℕ} (hrows : m.rows = 2) (hi : i < m.columns)
    (hj : j < m.columns) : (m.adjoint * m).get i j =
      Cx.update 1 (m.get 1 i).conj (m.get 1 j) 1 (1 * (m.get 0 i).conj * m.get 0 j) := by
  have hget : (m.adjoint * m).get i j = inner (m.adjoint.row i) (m.column j) := get_mul m.adjoint m hi hj
  have hrow : m.adjoint.row i = [(m.get 0 i).conj, (m.get 1 i).conj] := by
    have hcolumns : m.adjoint.columns = 2 := hrows
    have hentry (k : ℕ) (hk : k < 2) : m.adjoint.get i k = (m.get k i).conj := get_ofFn _ hi (hrows ▸ hk)
    rw [row, hcolumns, ← hentry 0 Nat.two_pos, ← hentry 1 Nat.one_lt_two]
    rfl
  rw [hget, hrow, column, hrows]
  rfl

theorem Gate.isOk_ofUnitary_of_units {label : String} {m : DenseMatrix (Cx PartialReal)} (hm : m.Shaped 2 2)
    (place : ℕ → ℕ) (hplace : place 0 + place 1 = 1)
    (h : ∀ j < 2, (∀ k < 2, (m.get k j).IsDefined) → ∀ k < 2, m.get k j = if place j = k then 1 else 0) :
    (Gate.ofUnitary label m).isOk = true := by
  have hcheck : Gate.checkDimension m = .ok () :=
    Gate.checkDimension_eq_ok_iff.2 ⟨hm.rows.trans hm.columns.symm, hm.rows.ge, 1, hm.rows⟩
  refine Gate.isOk_ofUnitary_iff.2 ⟨hcheck, (isNear_gram_iff (hm.rows.trans hm.columns.symm)).2 ?_⟩
  rw [hm.rows, hm.columns]
  intro i hi j hj hcolumns
  have hi' := h i hi fun k hk => (hcolumns k hk).1
  have hj' := h j hj fun k hk => (hcolumns k hk).2
  rw [get_gram_two hm.rows (hm.columns ▸ hi) (hm.columns ▸ hj), hi' 0 Nat.two_pos, hi' 1 Nat.one_lt_two,
    hj' 0 Nat.two_pos, hj' 1 Nat.one_lt_two, identity, unit, get_ofFn _ hi hj]
  apply modulus_le_of_eq_zero
  obtain ⟨h0, h1⟩ | ⟨h0, h1⟩ : place 0 = 0 ∧ place 1 = 1 ∨ place 0 = 1 ∧ place 1 = 0 := by omega
  all_goals interval_cases i <;> interval_cases j <;> simp [h0, h1, Cx.ext_iff, Cx.update, Cx.conj]

def undefinedCorner : DenseMatrix (Cx PartialReal) := ofRows [[.ofReal undefined, 0], [0, 1]]

def undefinedSource : List (SourceState PartialReal) := [⟨1, 1, undefined⟩]

@[reducible] def undefinedSpectra : EigenSolver PartialReal where
  spectrum _ := ⟨[undefined, undefined], ofRows [[1, 0], [⟨undefined, undefined⟩, ⟨undefined, undefined⟩]]⟩

@[reducible] def undefinedText : DecimalText PartialReal := ⟨fun _ => "NaN", fun _ _ => "NaN"⟩

theorem isOk_ofUnitary_undefinedCorner : (Gate.ofUnitary "u" undefinedCorner).isOk = true := by
  refine Gate.isOk_ofUnitary_of_units ⟨rfl, rfl⟩ id rfl fun j hj hcolumn k hk => ?_
  interval_cases j
  · exact absurd (hcolumn 0 Nat.two_pos).1 not_isDefined_undefined
  · interval_cases k <;> rfl

theorem isOk_ofHamiltonian_undefinedCorner :
    (Gate.ofHamiltonian undefinedCorner (.value (real (1 / 2)))).isOk = true := by
  refine Gate.isOk_ofHamiltonian_iff.2 ⟨Gate.checkDimension_eq_ok_iff.2 ⟨rfl, le_rfl, 1, rfl⟩, ?_⟩
  refine (isNear_adjoint_iff rfl).2 fun i (hi : i < 2) j (hj : j < 2) hentry => ?_
  have hcorner : ¬ (i = 0 ∧ j = 0) := by
    rintro ⟨rfl, rfl⟩
    exact not_isDefined_undefined hentry.1.1
  have hadjoint : undefinedCorner.adjoint.get i j = (undefinedCorner.get j i).conj := get_ofFn _ hi hj
  rw [hadjoint]
  apply modulus_le_of_eq_zero
  interval_cases i <;> interval_cases j
  · exact absurd ⟨rfl, rfl⟩ hcorner
  · change (0 - Cx.conj 0 : Cx PartialReal) = _
    simp [Cx.ext_iff, Cx.conj]
  · change (0 - Cx.conj 0 : Cx PartialReal) = _
    simp [Cx.ext_iff, Cx.conj]
  · change (1 - Cx.conj 1 : Cx PartialReal) = _
    simp [Cx.ext_iff, Cx.conj]

theorem not_isDefined_undefinedCorner : ¬ undefinedCorner.IsDefined := fun h =>
  not_isDefined_undefined (h 0 Nat.two_pos 0 Nat.two_pos).1

theorem isOk_ofUnitary_undefinedBasis : (Gate.ofUnitary "basis"
    (basisChange (undefinedSpectra.spectrum (meanState undefinedSource)))).isOk = true := by
  have hswap : decide (undefined ≤ undefined) = false := decide_eq_false id
  -- The eigenvalues do not compare, and so the eigenvectors are swapped.
  have hget (k j : ℕ) (hk : k < 2) (hj : j < 2) :
      (basisChange (undefinedSpectra.spectrum (meanState undefinedSource))).get k j =
        ((undefinedSpectra.spectrum (meanState undefinedSource)).vectors.get j (1 - k)).conj := by
    refine (get_ofFn _ hk hj).trans (congrArg Cx.conj ((get_ofFn _ hj hk).trans ?_))
    change (ofRows _).get j (if (!decide (undefined ≤ undefined)) = true then 1 - k else k) = _
    rw [hswap]
    rfl
  refine Gate.isOk_ofUnitary_of_units ⟨rfl, rfl⟩ (1 - ·) rfl fun j hj hcolumn k hk => ?_
  interval_cases j
  · rw [hget k 0 hk hj]
    interval_cases k
    · change Cx.conj 0 = 0
      simp [Cx.ext_iff, Cx.conj]
    · change Cx.conj 1 = 1
      simp [Cx.ext_iff, Cx.conj]
  · have hentry := hcolumn 0 Nat.two_pos
    rw [hget 0 1 Nat.two_pos hj] at hentry
    exact absurd hentry.1 not_isDefined_undefined

theorem isOk_ofUnitary_weightSorting_one :
    (Gate.ofUnitary "perm" (weightSorting 1 : DenseMatrix (Cx PartialReal))).isOk = true := by
  have horder : weightOrder 1 = [0, 1] := by
    simp [weightOrder, Basis.indices, weight, List.range_succ, List.mergeSort]
  rw [weightSorting, horder]
  refine Gate.isOk_ofUnitary_of_units ⟨rfl, rfl⟩ id rfl fun j hj hcolumn k hk => ?_
  interval_cases j <;> interval_cases k <;> rfl

def undefinedTransmitter : Circuit PartialReal :=
  ⟨"tx", ⟨[⟨"q", 1, 0⟩], 1⟩,
    [.gate (.dense "basis" (basisChange (undefinedSpectra.spectrum (meanState undefinedSource)))) [0],
      .gate (.dense "perm" (weightSorting 1)) [0]]⟩

theorem buildTransmitter_undefinedSource :
    buildTransmitter 1 (basisChange (undefinedSpectra.spectrum (meanState undefinedSource))) =
      .ok undefinedTransmitter := by
  obtain ⟨_, hbasis⟩ := isOk_eq_true_iff.1 isOk_ofUnitary_undefinedBasis
  obtain ⟨_, hsorting⟩ := isOk_eq_true_iff.1 isOk_ofUnitary_weightSorting_one
  obtain rfl := (Gate.ofUnitary_eq_ok_iff.1 hbasis).2
  obtain rfl := (Gate.ofUnitary_eq_ok_iff.1 hsorting).2
  have harity : (Gate.dense "perm" (weightSorting 1 : DenseMatrix (Cx PartialReal))).arity = 1 := by
    change Nat.log2 (weightOrder 1).toArray.size = 1
    rw [List.size_toArray, length_weightOrder]
    rfl
  refine bind_eq_ok_iff.2 ⟨_, rfl, bind_eq_ok_iff.2 ⟨_, hbasis, bind_eq_ok_iff.2 ⟨_, rfl, ?_⟩⟩⟩
  refine bind_eq_ok_iff.2 ⟨_, hsorting, Circuit.append_eq_ok_iff.2 ⟨?_, rfl⟩⟩
  change Basis.Selects 1 (Gate.dense "perm" (weightSorting 1)).arity [0]
  rw [harity]
  exact Operator.selects_singleton Nat.one_pos

theorem isOk_ofEnsemble_undefinedSource :
    (@ofEnsemble PartialReal _ undefinedSpectra undefinedText undefinedSource 1).isOk = true := by
  have hcheck : @checkEnsemble PartialReal _ undefinedText undefinedSource = .ok () := by
    refine (@checkEnsemble_eq_ok_iff_of_defined _ undefinedText).2 ⟨?_, fun h => ?_⟩
    · exact List.forall_mem_singleton.2 False.elim
    · exact absurd (h _ List.mem_cons_self) not_isDefined_undefined
  have hchannel (m : ℕ) (hm : m ≤ 1) : (∃ c, (buildChannel 1 m : Except Fault (Circuit PartialReal)) = .ok c) ∧
      ∃ r, buildReceiver 1 m undefinedTransmitter = .ok r := by
    interval_cases m <;> exact ⟨⟨_, rfl⟩, ⟨_, rfl⟩⟩
  -- Each step after the check takes what it is given.
  refine isOk_eq_true_iff.2 (exists_bind_eq_ok hcheck ?_)
  refine exists_bind_eq_ok (a := _) rfl (exists_bind_eq_ok buildTransmitter_undefinedSource ?_)
  obtain ⟨⟨c, hc⟩, r, hr⟩ := hchannel _ (Nat.min_le_right _ 1)
  exact exists_bind_eq_ok hc (exists_bind_eq_ok hr ⟨_, rfl⟩)

end UndefinedEntry

/-- What the checks of a unitary matrix, of a Hamiltonian and of an ensemble accept over numbers that may be undefined.
Only defined entries are held to the bounds: an inner product of two columns without undefined entries, an entry whose
mirror image is defined too, a probability that is defined, and the total if all of them are. So an accepted input is
within the promised bounds everywhere exactly if nothing in it is undefined. -/
theorem PartialReal.accepted_within_bounds_iff [EigenSolver PartialReal] [DecimalText PartialReal] :
    (∀ (label : String) (m : DenseMatrix (Cx PartialReal)),
      ((Gate.ofUnitary label m).isOk = true ↔ Gate.checkDimension m = .ok () ∧
        ∀ i < m.columns, ∀ j < m.columns, (∀ k < m.rows, (m.get k i).IsDefined ∧ (m.get k j).IsDefined) →
          ((m.adjoint * m).get i j - (DenseMatrix.identity m.rows).get i j).modulus ≤ .real (1 / 10 ^ 9)) ∧
      ((Gate.ofUnitary label m).isOk = true →
        ((m.adjoint * m).IsClose (DenseMatrix.identity m.rows) (1 / 10 ^ 9) ↔ m.IsDefined))) ∧
    (∀ (m : DenseMatrix (Cx PartialReal)) (time : Param PartialReal),
      ((Gate.ofHamiltonian m time).isOk = true ↔ Gate.checkDimension m = .ok () ∧
        ∀ i < m.rows, ∀ j < m.columns, (m.get i j).IsDefined ∧ (m.get j i).IsDefined →
          (m.get i j - m.adjoint.get i j).modulus ≤ .real (1 / 10 ^ 9)) ∧
      ((Gate.ofHamiltonian m time).isOk = true → (m.IsClose m.adjoint (1 / 10 ^ 9) ↔ m.IsDefined))) ∧
    ∀ ensemble : List (SourceState PartialReal),
      (Compressor.checkEnsemble ensemble = .ok () ↔
        (∀ s ∈ ensemble, s.probability.IsDefined → 0 ≤ s.probability) ∧
          ((∀ s ∈ ensemble, s.probability.IsDefined) →
            Scalar.magnitude (Scalar.sum (ensemble.map SourceState.probability) - 1) ≤ .real (1 / 10 ^ 9))) ∧
      ∀ n, (Compressor.ofEnsemble ensemble n).isOk = true →
        (Compressor.IsDistribution ensemble (1 / 10 ^ 9) ↔ ∀ s ∈ ensemble, s.probability.IsDefined) := by
  refine ⟨fun label m => ⟨?_, fun h => ?_⟩, fun m time => ⟨?_, fun h => ?_⟩, fun ensemble => ⟨?_, fun n h => ?_⟩⟩
  · rw [Gate.isOk_ofUnitary_iff]
    refine and_congr_right fun hcheck => ?_
    exact DenseMatrix.isNear_gram_iff (Gate.checkDimension_eq_ok_iff.1 hcheck).1
  · obtain ⟨hcheck, hnear⟩ := Gate.isOk_ofUnitary_iff.1 h
    rw [DenseMatrix.isClose_gram_iff (Gate.checkDimension_eq_ok_iff.1 hcheck).1]
    exact and_iff_right hnear
  · rw [Gate.isOk_ofHamiltonian_iff]
    refine and_congr_right fun hcheck => ?_
    exact DenseMatrix.isNear_adjoint_iff (Gate.checkDimension_eq_ok_iff.1 hcheck).1
  · obtain ⟨hcheck, hnear⟩ := Gate.isOk_ofHamiltonian_iff.1 h
    rw [DenseMatrix.isClose_adjoint_iff (Gate.checkDimension_eq_ok_iff.1 hcheck).1]
    exact and_iff_right hnear
  · exact Compressor.checkEnsemble_eq_ok_iff_of_defined
  · obtain ⟨c, hc⟩ := isOk_eq_true_iff.1 h
    rw [Compressor.isDistribution_iff]
    exact and_iff_right (Compressor.of_ofEnsemble_eq_ok hc).2.2

theorem PartialReal.accepted_within_bounds_identity :
    ((Gate.ofUnitary "id" (DenseMatrix.identity 2 : DenseMatrix (Cx PartialReal))).isOk = true ∧
      ((DenseMatrix.identity 2 : DenseMatrix (Cx PartialReal)).adjoint * DenseMatrix.identity 2).IsClose
        (DenseMatrix.identity 2) (1 / 10 ^ 9)) ∧
    (@Compressor.ofEnsemble PartialReal _ undefinedSpectra undefinedText undefinedSource 1).isOk = true ∧
      ¬ Compressor.IsDistribution undefinedSource (1 / 10 ^ 9) := by
  have hlaws := @accepted_within_bounds_iff undefinedSpectra undefinedText
  have hidentity : (Gate.ofUnitary "id" (DenseMatrix.identity 2 : DenseMatrix (Cx PartialReal))).isOk = true := by
    refine Gate.isOk_ofUnitary_of_units ⟨rfl, rfl⟩ id rfl fun j hj _ k hk => ?_
    interval_cases j <;> interval_cases k <;> rfl
  refine ⟨⟨hidentity, ((hlaws.1 "id" _).2 hidentity).2 (DenseMatrix.isDefined_identity 2)⟩,
    isOk_ofEnsemble_undefinedSource, fun h => ?_⟩
  exact ((hlaws.2.2 undefinedSource).2 1 isOk_ofEnsemble_undefinedSource).1 h _ List.mem_cons_self

/-- Each of the three constructors accepts an undefined number, and what it promises then fails. -/
theorem PartialReal.undefined_accepted :
    ((Gate.ofUnitary "u" undefinedCorner).isOk = true ∧
      ¬ (undefinedCorner.adjoint * undefinedCorner).IsClose (DenseMatrix.identity 2) (1 / 10 ^ 9)) ∧
    ((Gate.ofHamiltonian undefinedCorner (.value (real (1 / 2)))).isOk = true ∧
      ¬ undefinedCorner.IsClose undefinedCorner.adjoint (1 / 10 ^ 9)) ∧
    (@Compressor.ofEnsemble PartialReal _ undefinedSpectra undefinedText undefinedSource 1).isOk = true ∧
      ¬ Compressor.IsDistribution undefinedSource (1 / 10 ^ 9) := by
  refine ⟨⟨isOk_ofUnitary_undefinedCorner, fun h => ?_⟩, ⟨isOk_ofHamiltonian_undefinedCorner, fun h => ?_⟩,
    isOk_ofEnsemble_undefinedSource, fun h => h.1 _ List.mem_cons_self⟩
  · exact not_isDefined_undefinedCorner ((DenseMatrix.isClose_gram_iff rfl).1 h).2
  · exact not_isDefined_undefinedCorner ((DenseMatrix.isClose_adjoint_iff rfl).1 h).2

end QuantumCircuits
end
