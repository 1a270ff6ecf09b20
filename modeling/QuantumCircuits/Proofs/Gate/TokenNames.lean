import Mathlib
import QuantumCircuits.Gate.Param

/-! The names of the elements of families. The index stands behind the last opening bracket, so a name gives
its family and its index back, whatever brackets and digits the name of the family holds, and a value that is
bound to an element is read back from no other one. -/

namespace QuantumCircuits

namespace ParamFamily

variable {f g : ParamFamily} {i j : ℕ}

theorem toList_tokenName (f : ParamFamily) (i : ℕ) :
    (f.tokenName i).toList = f.name.toList ++ '[' :: (Nat.repr i).toList ++ [']'] := by
  simp [tokenName, toString]

theorem bracket_notMem_repr (i : ℕ) : '[' ∉ (Nat.repr i).toList := by
  intro hmem
  rw [Nat.repr_eq_ofList_toDigits, String.toList_ofList] at hmem
  exact absurd (Nat.isDigit_of_mem_toDigits (by decide) (by decide) hmem) (by decide)

theorem tokenName_inj : f.tokenName i = g.tokenName j ↔ f.name = g.name ∧ i = j := by
  constructor
  · intro h
    have hreverse (f : ParamFamily) (i : ℕ) : (f.tokenName i).toList.reverse =
        ']' :: ((Nat.repr i).toList.reverse ++ '[' :: f.name.toList.reverse) := by
      simp [toList_tokenName]
    -- Read from the end, the name starts with the index, which holds no bracket.
    have hindex (f : ParamFamily) (i : ℕ) :
        ((Nat.repr i).toList.reverse ++ '[' :: f.name.toList.reverse).takeWhile (· != '[') =
          (Nat.repr i).toList.reverse := by
      rw [List.takeWhile_append_of_pos, List.takeWhile_cons_of_neg (by simp), List.append_nil]
      intro c hc
      rw [bne_iff_ne]
      rintro rfl
      exact bracket_notMem_repr i (List.mem_reverse.1 hc)
    have hlists := congrArg (fun s => s.toList.reverse) h
    simp only [hreverse, List.cons.injEq, true_and] at hlists
    have hdigits := congrArg (List.takeWhile (· != '[')) hlists
    rw [hindex, hindex] at hdigits
    rw [hdigits] at hlists
    have hname := List.cons.inj (List.append_cancel_left hlists)
    exact ⟨String.toList_inj.1 (List.reverse_inj.1 hname.2),
      Nat.repr_injective (String.toList_inj.1 (List.reverse_inj.1 hdigits))⟩
  · rintro ⟨hname, rfl⟩
    rw [tokenName, hname, tokenName]

end ParamFamily

namespace Bindings

variable {R : Type} {b b' : Bindings R} {f : ParamFamily} {values : List R} {name : String} {i k : ℕ}

def insertFrom (b : Bindings R) (f : ParamFamily) (k : ℕ) (values : List R) : Bindings R :=
  (values.zipIdx k).foldl (fun b (v, i) => b.insert (f.tokenName i) v) b

theorem insertFrom_cons (b : Bindings R) (f : ParamFamily) (k : ℕ) (v : R) (values : List R) :
    b.insertFrom f k (v :: values) = (b.insert (f.tokenName k) v).insertFrom f (k + 1) values := rfl

theorem get?_insertFrom_of_ne (h : ∀ i, k ≤ i → i < k + values.length → name ≠ f.tokenName i) :
    (b.insertFrom f k values).get? name = b.get? name := by
  induction values generalizing b k with
  | nil => rfl
  | cons v values ih =>
    rw [List.length_cons] at h
    have hrest : ∀ i, k + 1 ≤ i → i < k + 1 + values.length → name ≠ f.tokenName i := fun i hi hlt =>
      h i (Nat.le_of_succ_le hi) (by omega)
    rw [insertFrom_cons, ih hrest, get?_insert, if_neg (h k le_rfl (by omega))]

theorem get?_insertFrom (hi : i < values.length) :
    (b.insertFrom f k values).get? (f.tokenName (k + i)) = values[i]? := by
  induction values generalizing b k i with
  | nil => exact absurd hi (Nat.not_lt_zero i)
  | cons v values ih =>
    rw [insertFrom_cons]
    cases i with
    | zero =>
      -- The elements that are bound later have larger indices.
      have hlater : ∀ i, k + 1 ≤ i → i < k + 1 + values.length → f.tokenName k ≠ f.tokenName i := fun i hi _ same =>
        absurd (ParamFamily.tokenName_inj.1 same).2 (by omega)
      exact (get?_insertFrom_of_ne hlater).trans ((get?_insert ..).trans (if_pos rfl))
    | succ i =>
      rw [List.getElem?_cons_succ, Nat.add_comm i, ← Nat.add_assoc]
      exact ih (Nat.lt_of_succ_lt_succ hi)

theorem insertFamily_eq (b : Bindings R) (f : ParamFamily) (values : List R) : b.insertFamily f values =
    if values.length = f.length then .ok (b.insertFrom f 0 values)
    else .error (.state (.valueCount values.length f.name f.length)) := rfl

theorem exists_insertFamily (b : Bindings R) (h : values.length = f.length) : ∃ b', b.insertFamily f values = .ok b' :=
  ⟨_, if_pos h⟩

theorem get?_insertFamily (h : b.insertFamily f values = .ok b') (hi : i < values.length) :
    b'.get? (f.tokenName i) = values[i]? := by
  rw [insertFamily_eq] at h
  split_ifs at h
  cases h
  have hget : (b.insertFrom f 0 values).get? (f.tokenName (0 + i)) = _ := get?_insertFrom hi
  rwa [Nat.zero_add] at hget

theorem get?_insertFamily_of_ne {g : ParamFamily} (h : b.insertFamily f values = .ok b') (hname : g.name ≠ f.name)
    (i : ℕ) : b'.get? (g.tokenName i) = b.get? (g.tokenName i) := by
  rw [insertFamily_eq] at h
  split_ifs at h
  cases h
  exact get?_insertFrom_of_ne fun j _ _ same => hname (ParamFamily.tokenName_inj.1 same).1

end Bindings
end QuantumCircuits
