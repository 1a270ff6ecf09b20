import QuantumCircuits.Number.Scalar

/-! Basis states are naturals: wire `w` reads bit `w`. This module lists the basis states of some
wires, moves bits between an index and a list of wires, and writes an index as a label, highest
wire first. -/

namespace QuantumCircuits.Basis

def indices (n : Nat) : List Nat := List.range (2 ^ n)

def wires? (states : Nat) : Option Nat :=
  if 2 ^ Nat.log2 states = states then some (Nat.log2 states) else none

/-- Bit `j` of the result is what wire `j` of the list reads. -/
def gather (index : Nat) : List Nat → Nat
  | [] => 0
  | w :: ws => (index.testBit w).toNat + 2 * gather index ws

/-- The index in which wire `j` of the list reads bit `j` and every other wire reads zero. -/
def scatter (bits : Nat) : List Nat → Nat
  | [] => 0
  | w :: ws => (if bits.testBit 0 then 2 ^ w else 0) ||| scatter (bits / 2) ws

def others (n : Nat) (wires : List Nat) : List Nat :=
  (List.range n).filter fun w => !wires.contains w

def ascending (n : Nat) (wires : List Nat) : List Nat :=
  (List.range n).filter wires.contains

def clear (index : Nat) (wires : List Nat) : Nat :=
  wires.foldl (fun i w => if i.testBit w then i ^^^ 2 ^ w else i) index

/-- The index with wire `j` of the list set to bit `j`. -/
def place (index bits : Nat) (wires : List Nat) : Nat :=
  clear index wires ||| scatter bits wires

def digits (n : Nat) (rest : List Char) : List Char :=
  if n = 0 then rest else digits (n / 2) ((if n % 2 = 1 then '1' else '0') :: rest)
termination_by n

def label (width index : Nat) : String :=
  let ds := if index = 0 then ['0'] else digits index []
  String.ofList (List.replicate (width - ds.length) '0' ++ ds)

@[simp] theorem mem_indices {n i : Nat} : i ∈ indices n ↔ i < 2 ^ n := List.mem_range

theorem wires?_eq_some_iff {states n : Nat} : wires? states = some n ↔ states = 2 ^ n := by
  constructor
  · intro h
    unfold wires? at h
    split at h
    · rename_i same
      rw [← Option.some.inj h, same]
    · exact absurd h nofun
  · rintro rfl
    rw [wires?, Nat.log2_two_pow, if_pos rfl]

@[simp] theorem gather_nil (index : Nat) : gather index [] = 0 := rfl

theorem gather_lt (index : Nat) (wires : List Nat) : gather index wires < 2 ^ wires.length := by
  induction wires with
  | nil => simp
  | cons w ws ih =>
    have bit : (index.testBit w).toNat ≤ 1 := Bool.toNat_le _
    simp only [gather, List.length_cons, Nat.pow_succ]
    omega

theorem testBit_gather (index : Nat) (wires : List Nat) (j : Nat) :
    (gather index wires).testBit j = (wires[j]?.map index.testBit).getD false := by
  induction wires generalizing j with
  | nil => simp
  | cons w ws ih =>
    cases j with
    | zero =>
      rw [Nat.testBit_zero, List.getElem?_cons_zero, Option.map_some, Option.getD_some]
      cases bit : index.testBit w
      · exact decide_eq_false (by simp only [gather, bit, Bool.toNat_false]; omega)
      · exact decide_eq_true (by simp only [gather, bit, Bool.toNat_true]; omega)
    | succ j =>
      have half : gather index (w :: ws) / 2 = gather index ws := by
        have bit : (index.testBit w).toNat ≤ 1 := Bool.toNat_le _
        simp only [gather]
        omega
      rw [Nat.testBit_succ, half, ih]
      simp

theorem testBit_scatter_of_not_mem {bits w : Nat} {wires : List Nat} (h : w ∉ wires) :
    (scatter bits wires).testBit w = false := by
  induction wires generalizing bits with
  | nil => simp [scatter]
  | cons v ws ih =>
    obtain ⟨hne, hmem⟩ := List.ne_and_not_mem_of_not_mem_cons h
    rw [scatter, Nat.testBit_or, ih hmem, Bool.or_false]
    split
    · rw [Nat.testBit_two_pow]
      simpa using fun same : v = w => hne same.symm
    · exact Nat.zero_testBit w

theorem testBit_scatter {bits j : Nat} {wires : List Nat} (nodup : wires.Nodup)
    (h : j < wires.length) : (scatter bits wires).testBit wires[j] = bits.testBit j := by
  induction wires generalizing bits j with
  | nil => simp at h
  | cons v ws ih =>
    obtain ⟨fresh, nodup⟩ := List.nodup_cons.1 nodup
    cases j with
    | zero =>
      rw [List.getElem_cons_zero, scatter, Nat.testBit_or, testBit_scatter_of_not_mem fresh,
        Bool.or_false]
      cases bit : bits.testBit 0 <;> simp
    | succ j =>
      have below : j < ws.length := Nat.lt_of_succ_lt_succ h
      have other : v ≠ ws[j] := fun same => fresh (same ▸ List.getElem_mem below)
      rw [List.getElem_cons_succ, scatter, Nat.testBit_or, ih nodup below, Nat.testBit_succ]
      split
      · rw [Nat.testBit_two_pow, decide_eq_false other, Bool.false_or]
      · rw [Nat.zero_testBit, Bool.false_or]

theorem testBit_clear (index w : Nat) (wires : List Nat) :
    (clear index wires).testBit w = (index.testBit w && !wires.contains w) := by
  unfold clear
  induction wires generalizing index with
  | nil => simp
  | cons v ws ih =>
    rw [List.foldl_cons, ih, List.contains_cons]
    by_cases same : w = v
    · subst same
      cases bit : index.testBit w <;> simp [bit]
    · have other : (w == v) = false := by simpa using same
      have unchanged : (index ^^^ 2 ^ v).testBit w = index.testBit w := by
        rw [Nat.testBit_xor, Nat.testBit_two_pow, decide_eq_false fun e => same e.symm,
          Bool.xor_false]
      split <;> simp [other, unchanged]

theorem gather_place {index bits : Nat} {wires : List Nat} (nodup : wires.Nodup)
    (h : bits < 2 ^ wires.length) : gather (place index bits wires) wires = bits := by
  apply Nat.eq_of_testBit_eq
  intro j
  rw [testBit_gather]
  by_cases below : j < wires.length
  · have listed : wires.contains wires[j] = true := by simp
    rw [List.getElem?_eq_getElem below, Option.map_some, Option.getD_some, place, Nat.testBit_or,
      testBit_clear, listed, testBit_scatter nodup below]
    simp
  · rw [List.getElem?_eq_none (by omega), Option.map_none, Option.getD_none]
    exact (Nat.testBit_lt_two_pow (Nat.lt_of_lt_of_le h
      (Nat.pow_le_pow_right (by decide) (by omega)))).symm

end QuantumCircuits.Basis
