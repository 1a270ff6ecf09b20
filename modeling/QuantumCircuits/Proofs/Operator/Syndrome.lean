import Mathlib
import QuantumCircuits.Proofs.Operator.Clifford

/-! Syndromes. Strings under controls mark the controls of those that change the sign of a vector, and
gates under controls on wires that read one index act if this is the index that they ask for. -/

noncomputable section
namespace QuantumCircuits
open Matrix QuantumCircuits.Basis Operator

theorem Basis.holds_zip {wires : List ℕ} {flags : List Bool} (h : wires.length = flags.length) (i : ℕ) :
    holds (wires.zip flags) i = true ↔ wires.map i.testBit = flags := by
  induction wires generalizing flags with
  | nil =>
    obtain rfl := List.length_eq_zero_iff.1 h.symm
    exact iff_of_true rfl rfl
  | cons w ws ih =>
    cases flags with
    | nil => cases h
    | cons b bs =>
      have htail := ih (Nat.succ.inj h)
      rw [holds] at htail ⊢
      rw [List.zip_cons_cons, List.all_cons, Bool.and_eq_true, htail, beq_iff_eq, List.map_cons, List.cons.injEq]

namespace PauliString

variable {n : ℕ} {wires : List ℕ} {x : ℕ} {v : Fin (2 ^ n) → ℂ}

/-- Where the vector does not vanish, the wires read the bits of an index. -/
def Reads (wires : List ℕ) (x : ℕ) (v : Fin (2 ^ n) → ℂ) : Prop :=
  ∀ i, v i ≠ 0 → ∀ w ∈ wires, i.val.testBit w = x.testBit w

theorem Reads.congr (h : Reads wires x v) {y : ℕ} (hxy : ∀ w ∈ wires, x.testBit w = y.testBit w) : Reads wires y v :=
  fun i hi w hw => (h i hi w hw).trans (hxy w hw)

theorem Reads.operator (h : Reads wires x v) (below : ∀ w ∈ wires, w < n) (p : PauliString n) :
    Reads wires (x ^^^ p.x) (p.operator *ᵥ v) := by
  intro i hi w hw
  rw [operator_mulVec] at hi
  have hread := h _ (right_ne_zero_of_mul hi) w hw
  rw [testBit_flipped _ _ (below w hw)] at hread
  rw [Nat.testBit_xor, ← hread, Bool.xor_assoc, Bool.xor_self, Bool.xor_false]

theorem reads_zero_of_marks (below : ∀ w ∈ wires, w < n) (h : ∀ w ∈ wires, (marks (2 ^ w)).operator *ᵥ v = v) :
    Reads wires 0 v := by
  intro i hi w hw
  have hvalue := congrFun (h w hw) i
  rw [operator_mark_mulVec (below w hw)] at hvalue
  rw [Nat.zero_testBit]
  by_contra hone
  rw [Bool.not_eq_false] at hone
  rw [hone, sign_true, neg_one_mul] at hvalue
  exact hi (self_eq_neg.1 hvalue.symm)

theorem placed_mulVec_of_reads {flags : List Bool} {t : ℕ} (h : Reads wires x v) (hlength : wires.length = flags.length)
    (ht : t < n) (fresh : t ∉ wires) (m : Operator 1) :
    placed (wires.zip flags) [t] m *ᵥ v =
      if wires.map x.testBit = flags then placed [] [t] m *ᵥ v else v := by
  have hsel := selects_singleton ht
  funext i
  have hholds := holds_zip hlength i.val
  rw [placed_mulVec hsel]
  by_cases hread : ∀ w ∈ wires, i.val.testBit w = x.testBit w
  · rw [List.map_congr_left hread] at hholds
    by_cases hflags : wires.map x.testBit = flags
    · rw [if_pos (hholds.2 hflags), if_pos hflags]
      exact (placed_nil_mulVec hsel m v i).symm
    · rw [if_neg fun hactive => hflags (hholds.1 hactive), if_neg hflags]
  · -- Nothing is left where the wires read another index, and the map does not change what they read.
    have hzero : v i = 0 := not_not.1 fun hne => hread (h i hne)
    have hwritten (b : Fin (2 ^ 1)) : v (write [t] i b) = 0 := by
      refine not_not.1 fun hne => hread fun w hw => ?_
      have hother : w ∉ [t] := fun hmem => fresh (List.mem_singleton.1 hmem ▸ hw)
      exact (hsel.testBit_write_of_not_mem i b hother).symm.trans (h _ hne w hw)
    have hsum : ∑ b, m (Basis.read 1 [t] i.val) b * v (write [t] i b) = 0 :=
      Finset.sum_eq_zero fun b _ => by rw [hwritten, mul_zero]
    rw [hsum, hzero, ite_self]
    split
    · exact ((placed_nil_mulVec hsel m v i).trans hsum).symm
    · exact hzero.symm

def syndrome (checks : List (ℕ × PauliString n)) (p : PauliString n) : PauliString n :=
  (checks.map fun c => if c.2.anti p then marks (2 ^ c.1) else 1).reverse.prod

theorem controlled_prod_mulVec {checks : List (ℕ × PauliString n)} {p : PauliString n} (below : ∀ c ∈ checks, c.1 < n)
    (quiet : ∀ c ∈ checks, ∀ d ∈ checks, d.2.anti (marks (2 ^ c.1)) = false)
    (h : ∀ c ∈ checks, c.2.operator *ᵥ v = sign (c.2.anti p) • v) :
    (checks.map fun c => controlled c.1 c.2).reverse.prod *ᵥ v = (syndrome checks p).operator *ᵥ v := by
  induction checks generalizing v with
  | nil => rw [syndrome, List.map_nil, List.map_nil, List.reverse_nil, List.reverse_nil, List.prod_nil, List.prod_nil,
      operator_one]
  | cons c checks ih =>
    obtain ⟨hc, hbelow⟩ := List.forall_mem_cons.1 below
    obtain ⟨hfirst, hrest⟩ := List.forall_mem_cons.1 h
    have hmarked : controlled c.1 c.2 *ᵥ v = (if c.2.anti p then marks (2 ^ c.1) else 1 : PauliString n).operator *ᵥ v := by
      rw [controlled_mulVec_of_sign hc hfirst]
      split
      · rfl
      · rw [operator_one, one_mulVec]
    -- The later strings commute with the mark, so they still change the sign as they did before it.
    have hkept : ∀ d ∈ checks, d.2.operator *ᵥ ((if c.2.anti p then marks (2 ^ c.1) else 1 : PauliString n).operator *ᵥ v) =
        sign (d.2.anti p) • ((if c.2.anti p then marks (2 ^ c.1) else 1 : PauliString n).operator *ᵥ v) := by
      intro d hd
      split
      · have hcommute := operator_mul_comm d.2 (marks (2 ^ c.1) : PauliString n)
        rw [quiet c List.mem_cons_self d (List.mem_cons_of_mem c hd), sign_false, one_smul] at hcommute
        rw [mulVec_mulVec, hcommute, ← mulVec_mulVec, hrest d hd, mulVec_smul]
      · rw [operator_one, one_mulVec]
        exact hrest d hd
    have hquiet : ∀ d ∈ checks, ∀ f ∈ checks, f.2.anti (marks (2 ^ d.1)) = false := fun d hd f hf =>
      quiet d (List.mem_cons_of_mem c hd) f (List.mem_cons_of_mem c hf)
    have hprod : (syndrome (c :: checks) p).operator =
        (syndrome checks p).operator * (if c.2.anti p then marks (2 ^ c.1) else 1 : PauliString n).operator :=
      operator_reverse_prod_cons _ _
    rw [List.map_cons, List.reverse_cons, List.prod_append, List.prod_singleton, ← mulVec_mulVec, hmarked,
      ih hbelow hquiet hkept, mulVec_mulVec, hprod]

end PauliString
end QuantumCircuits
end
