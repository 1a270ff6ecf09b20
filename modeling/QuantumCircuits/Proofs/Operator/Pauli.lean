import Mathlib
import QuantumCircuits.Proofs.Operator.Registers

/-! Strings of Pauli gates on a register. The product of two strings is a string, two strings commute up
to a sign, and every map on one wire is a combination of four strings. -/

namespace QuantumCircuits

namespace Basis

def odd : ℕ → ℕ → ℕ → Bool
  | 0, _, _ => false
  | n + 1, i, j => odd n i j ^^ (i.testBit n && j.testBit n)

theorem odd_comm (n i j : ℕ) : odd n i j = odd n j i := by
  induction n with
  | zero => rfl
  | succ n ih => rw [odd, odd, ih, Bool.and_comm]

theorem odd_xor (n i j k : ℕ) : odd n i (j ^^^ k) = (odd n i j ^^ odd n i k) := by
  induction n with
  | zero => rfl
  | succ n ih =>
    rw [odd, odd, odd, ih, Nat.testBit_xor]
    cases odd n i j <;> cases odd n i k <;> cases i.testBit n <;> cases j.testBit n <;> cases k.testBit n <;> rfl

theorem odd_congr {n i j k : ℕ} (h : ∀ w < n, j.testBit w = k.testBit w) : odd n i j = odd n i k := by
  induction n with
  | zero => rfl
  | succ n ih => rw [odd, odd, ih fun w hw => h w (hw.trans n.lt_succ_self), h n n.lt_succ_self]

theorem odd_zero (n i : ℕ) : odd n i 0 = false := by
  induction n with
  | zero => rfl
  | succ n ih => rw [odd, ih, Nat.zero_testBit, Bool.and_false, Bool.xor_false]

theorem odd_two_pow {n w : ℕ} (h : w < n) (i : ℕ) : odd n i (2 ^ w) = i.testBit w := by
  induction n with
  | zero => exact absurd h w.not_lt_zero
  | succ n ih =>
    rw [odd]
    rcases Nat.lt_succ_iff_lt_or_eq.1 h with hlt | rfl
    · rw [ih hlt, Nat.testBit_two_pow_of_ne hlt.ne, Bool.and_false, Bool.xor_false]
    · have hbelow : odd w i (2 ^ w) = odd w i 0 := by
        refine odd_congr fun v hv => ?_
        rw [Nat.testBit_two_pow_of_ne hv.ne', Nat.zero_testBit]
      rw [hbelow, odd_zero, Bool.false_xor, Nat.testBit_two_pow_self, Bool.and_true]

theorem odd_zero_left (n i : ℕ) : odd n 0 i = false := (odd_comm n 0 i).trans (odd_zero n i)

theorem odd_two_pow_left {n w : ℕ} (h : w < n) (i : ℕ) : odd n (2 ^ w) i = i.testBit w :=
  (odd_comm n _ i).trans (odd_two_pow h i)

def flipped {n : ℕ} (x : ℕ) (i : Fin (2 ^ n)) : Fin (2 ^ n) := state n (i.val ^^^ x)

variable {n : ℕ}

theorem testBit_flipped (x : ℕ) (i : Fin (2 ^ n)) {w : ℕ} (h : w < n) :
    (flipped x i).val.testBit w = (i.val.testBit w ^^ x.testBit w) := by
  rw [flipped, testBit_state, decide_eq_true h, Bool.true_and, Nat.testBit_xor]

theorem flipped_zero (i : Fin (2 ^ n)) : flipped 0 i = i :=
  ext_testBit fun w hw => by rw [testBit_flipped 0 i hw, Nat.zero_testBit, Bool.xor_false]

theorem flipped_flipped (x y : ℕ) (i : Fin (2 ^ n)) : flipped y (flipped x i) = flipped (x ^^^ y) i :=
  ext_testBit fun w hw => by
    rw [testBit_flipped _ _ hw, testBit_flipped _ _ hw, testBit_flipped _ _ hw, Nat.testBit_xor, Bool.xor_assoc]

theorem odd_flipped (z x : ℕ) (i : Fin (2 ^ n)) : odd n z (flipped x i).val = (odd n z i.val ^^ odd n z x) := by
  rw [← odd_xor]
  exact odd_congr fun w hw => (testBit_flipped x i hw).trans (Nat.testBit_xor _ _ _).symm

end Basis

open QuantumCircuits.Basis

/-- `i ^ phase` times a flip of every wire in `x`, after a change of sign for every wire in `z` that reads
one. -/
structure PauliString (n : ℕ) where
  phase : Fin 4
  x : ℕ
  z : ℕ
deriving DecidableEq

namespace PauliString

variable {n : ℕ}

instance : One (PauliString n) := ⟨⟨0, 0, 0⟩⟩

def halfTurn (b : Bool) : Fin 4 := if b then 2 else 0

instance : Mul (PauliString n) :=
  ⟨fun p q => ⟨p.phase + q.phase + halfTurn (odd n p.z q.x), p.x ^^^ q.x, p.z ^^^ q.z⟩⟩

def flips (x : ℕ) : PauliString n := ⟨0, x, 0⟩

def marks (z : ℕ) : PauliString n := ⟨0, 0, z⟩

def onWire (w : ℕ) (e : Bool × Bool) : PauliString n :=
  ⟨0, if e.1 then 2 ^ w else 0, if e.2 then 2 ^ w else 0⟩

def turned (k : Fin 4) (p : PauliString n) : PauliString n := ⟨k + p.phase, p.x, p.z⟩

def flipMark (w : ℕ) : PauliString n := turned 1 (onWire w (true, true))

def anti (p q : PauliString n) : Bool := odd n p.z q.x ^^ odd n q.z p.x

theorem flips_mul_self (x : ℕ) : (flips x * flips x : PauliString n) = 1 := by
  change PauliString.mk (0 + 0 + halfTurn (odd n 0 x)) (x ^^^ x) (0 ^^^ 0) = ⟨0, 0, 0⟩
  rw [odd_comm, odd_zero, Nat.xor_self, Nat.xor_self]
  rfl

theorem marks_mul_self (z : ℕ) : (marks z * marks z : PauliString n) = 1 := by
  change PauliString.mk (0 + 0 + halfTurn (odd n z 0)) (0 ^^^ 0) (z ^^^ z) = ⟨0, 0, 0⟩
  rw [odd_zero, Nat.xor_self, Nat.xor_self]
  rfl

theorem anti_marks_flips (z x : ℕ) : (marks z).anti (flips x : PauliString n) = odd n z x := by
  change (odd n z x ^^ odd n 0 0) = _
  rw [odd_zero, Bool.xor_false]

theorem anti_marks_marks (z y : ℕ) : (marks z).anti (marks y : PauliString n) = false := by
  change (odd n z 0 ^^ odd n y 0) = false
  rw [odd_zero, odd_zero, Bool.xor_false]

noncomputable section
open Matrix Operator

def unit (k : Fin 4) : ℂ := Complex.I ^ k.val

theorem unit_add (k l : Fin 4) : unit (k + l) = unit k * unit l := by
  rw [unit, unit, unit, ← pow_add, Fin.val_add, ← pow_eq_pow_mod _ Complex.I_pow_four]

def sign (b : Bool) : ℂ := if b then -1 else 1

theorem sign_true : sign true = -1 := rfl

theorem sign_false : sign false = 1 := rfl

theorem sign_xor (a b : Bool) : sign (a ^^ b) = sign a * sign b := by
  cases a <;> cases b <;> simp [sign]

theorem unit_halfTurn (b : Bool) : unit (halfTurn b) = sign b := by
  cases b with
  | true => exact Complex.I_sq
  | false => rfl

def operator (p : PauliString n) : Operator n := fun i j =>
  if j = flipped p.x i then unit p.phase * sign (odd n p.z j.val) else 0

theorem operator_mulVec (p : PauliString n) (v : Fin (2 ^ n) → ℂ) (i : Fin (2 ^ n)) :
    (p.operator *ᵥ v) i = unit p.phase * sign (odd n p.z (flipped p.x i).val) * v (flipped p.x i) := by
  rw [mulVec, dotProduct, Finset.sum_eq_single (flipped p.x i)]
  · rw [operator, if_pos rfl]
  · intro j _ hne
    rw [operator, if_neg hne, zero_mul]
  · exact fun h => absurd (Finset.mem_univ _) h

theorem operator_one : (1 : PauliString n).operator = 1 := by
  apply ext_mulVec
  intro v
  funext i
  have hflip : flipped (1 : PauliString n).x i = i := flipped_zero i
  have hsign : odd n (1 : PauliString n).z i.val = false := odd_zero_left n i.val
  have hunit : unit (1 : PauliString n).phase = 1 := pow_zero _
  rw [operator_mulVec, hflip, hsign, hunit, one_mulVec, one_mul]
  exact one_mul _

theorem operator_mul (p q : PauliString n) : (p * q).operator = p.operator * q.operator := by
  apply ext_mulVec
  intro v
  funext i
  have hflip : flipped (p * q).x i = flipped q.x (flipped p.x i) := (flipped_flipped _ _ i).symm
  have hback : flipped p.x i = flipped q.x (flipped (p * q).x i) := by
    rw [hflip, flipped_flipped, Nat.xor_self, flipped_zero]
  have hphase : unit (p * q).phase = unit p.phase * unit q.phase * sign (odd n p.z q.x) := by
    rw [← unit_halfTurn, ← unit_add, ← unit_add]
    rfl
  have hsign : sign (odd n (p * q).z (flipped (p * q).x i).val) =
      sign (odd n p.z (flipped (p * q).x i).val) * sign (odd n q.z (flipped (p * q).x i).val) := by
    rw [← sign_xor, odd_comm n p.z, odd_comm n q.z, ← odd_xor, odd_comm]
    rfl
  have hfirst : sign (odd n p.z (flipped p.x i).val) =
      sign (odd n p.z (flipped (p * q).x i).val) * sign (odd n p.z q.x) := by
    rw [hback, odd_flipped, sign_xor]
  rw [← mulVec_mulVec, operator_mulVec, operator_mulVec, operator_mulVec, hfirst, hphase, hsign, hflip]
  ring

theorem operator_list_prod (ps : List (PauliString n)) : ps.prod.operator = (ps.map operator).prod := by
  induction ps with
  | nil => exact operator_one
  | cons p ps ih => rw [List.prod_cons, operator_mul, ih, List.map_cons, List.prod_cons]

theorem operator_reverse_prod_cons (p : PauliString n) (ps : List (PauliString n)) :
    (p :: ps).reverse.prod.operator = ps.reverse.prod.operator * p.operator := by
  rw [operator_list_prod, operator_list_prod, List.reverse_cons, List.map_append, List.prod_append, List.map_singleton,
    List.prod_singleton]

theorem operator_turned (k : Fin 4) (p : PauliString n) : (p.turned k).operator = unit k • p.operator := by
  ext i j
  rw [Matrix.smul_apply, operator, operator, smul_eq_mul, mul_ite, mul_zero, ← mul_assoc, ← unit_add]
  rfl

theorem operator_mul_comm (p q : PauliString n) :
    p.operator * q.operator = sign (p.anti q) • (q.operator * p.operator) := by
  have hstring : p * q = (q * p).turned (halfTurn (p.anti q)) := by
    have hphase : p.phase + q.phase + halfTurn (odd n p.z q.x) =
        halfTurn (p.anti q) + (q.phase + p.phase + halfTurn (odd n q.z p.x)) := by
      have htwice : (2 + 2 : Fin 4) = 0 := rfl
      rw [anti, halfTurn, halfTurn, halfTurn]
      cases odd n p.z q.x <;> cases odd n q.z p.x <;> grind
    change PauliString.mk _ _ _ = PauliString.mk _ _ _
    rw [hphase, Nat.xor_comm p.x, Nat.xor_comm p.z]
    rfl
  rw [← operator_mul, ← operator_mul, hstring, operator_turned, unit_halfTurn]

theorem placed_wire_mulVec {w : ℕ} (hw : w < n) (m : Matrix (Fin 2) (Fin 2) ℂ) (v : Fin (2 ^ n) → ℂ)
    (i : Fin (2 ^ n)) : (placed (d := 1) [] [w] m *ᵥ v) i =
      if i.val.testBit w then m 1 0 * v (flipped (2 ^ w) i) + m 1 1 * v i
      else m 0 0 * v i + m 0 1 * v (flipped (2 ^ w) i) := by
  have hsel := selects_singleton hw
  have hwrite (b : Fin (2 ^ 1)) : write [w] i b = if b.val.testBit 0 = i.val.testBit w then i else flipped (2 ^ w) i := by
    refine ext_testBit fun l hl => ?_
    by_cases hlw : l = w
    · subst hlw
      have hwritten : (write [l] i b).val.testBit l = b.val.testBit 0 := hsel.testBit_write_getD i b Nat.one_pos
      rw [hwritten]
      split
      · assumption
      · next hne =>
        rw [testBit_flipped _ _ hl, Nat.testBit_two_pow_self, Bool.xor_true]
        exact Bool.eq_not.2 hne
    · rw [hsel.testBit_write_of_not_mem i b fun h => hlw (List.mem_singleton.1 h)]
      split
      · rfl
      · rw [testBit_flipped _ _ hl, Nat.testBit_two_pow_of_ne (Ne.symm hlw), Bool.xor_false]
  rw [placed_nil_mulVec hsel, read_singleton]
  refine (Fin.sum_univ_two _).trans ?_
  rw [hwrite, hwrite]
  cases hbit : i.val.testBit w <;> simp

theorem operator_flips_mulVec (x : ℕ) (v : Fin (2 ^ n) → ℂ) (i : Fin (2 ^ n)) :
    ((flips x).operator *ᵥ v) i = v (flipped x i) := by
  rw [operator_mulVec]
  change unit 0 * sign (odd n 0 (flipped x i).val) * v (flipped x i) = _
  rw [odd_zero_left]
  simp [unit, sign]

theorem operator_marks_mulVec (z : ℕ) (v : Fin (2 ^ n) → ℂ) (i : Fin (2 ^ n)) :
    ((marks z).operator *ᵥ v) i = sign (odd n z i.val) * v i := by
  rw [operator_mulVec]
  change unit 0 * sign (odd n z (flipped 0 i).val) * v (flipped 0 i) = _
  rw [flipped_zero]
  simp [unit]

theorem operator_mark_mulVec {w : ℕ} (hw : w < n) (v : Fin (2 ^ n) → ℂ) (i : Fin (2 ^ n)) :
    ((marks (2 ^ w)).operator *ᵥ v) i = sign (i.val.testBit w) * v i := by
  rw [operator_marks_mulVec, odd_two_pow_left hw]

theorem operator_onWire_mulVec {w : ℕ} (hw : w < n) (e : Bool × Bool) (v : Fin (2 ^ n) → ℂ) (i : Fin (2 ^ n)) :
    ((onWire w e).operator *ᵥ v) i =
      sign (e.2 && (i.val.testBit w ^^ e.1)) * v (if e.1 then flipped (2 ^ w) i else i) := by
  have hbit : (flipped (2 ^ w) i).val.testBit w = !i.val.testBit w := by
    rw [testBit_flipped _ _ hw, Nat.testBit_two_pow_self, Bool.xor_true]
  obtain ⟨x, z⟩ := e
  rw [operator_mulVec]
  cases x <;> cases z <;> simp [onWire, unit, flipped_zero, odd_zero_left, odd_two_pow_left hw, hbit]

theorem exists_placed_eq_sum {w : ℕ} (hw : w < n) (m : Matrix (Fin 2) (Fin 2) ℂ) :
    ∃ a : Bool × Bool → ℂ, (placed (d := 1) [] [w] m : Operator n) = ∑ e, a e • (onWire w e).operator := by
  -- A string with a flip takes its weight from the entries off the diagonal.
  refine ⟨fun e => if e.1 then (m 1 0 + (if e.2 then -1 else 1) * m 0 1) / 2
    else (m 0 0 + (if e.2 then -1 else 1) * m 1 1) / 2, ?_⟩
  apply ext_mulVec
  intro v
  funext i
  rw [placed_wire_mulVec hw, sum_mulVec, Finset.sum_apply, Fintype.sum_prod_type, Fintype.sum_bool]
  simp only [Fintype.sum_bool, smul_mulVec, Pi.smul_apply, smul_eq_mul, operator_onWire_mulVec hw]
  cases i.val.testBit w <;> simp [sign] <;> ring

end
end PauliString
end QuantumCircuits
