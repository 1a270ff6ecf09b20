import Mathlib
import QuantumCircuits.Proofs.Basis.Wires
import QuantumCircuits.Proofs.Number.Exact
import QuantumCircuits.Proofs.Success
import QuantumCircuits.State

/-! Basis states from text. The digits give the index and the length of the text gives the wires, so that a sign in
front of the digits is a wire that reads zero. -/

namespace QuantumCircuits.State

def IsBitstring (cs : List Char) : Prop := cs ≠ [] ∧ ∀ c ∈ cs, c = '0' ∨ c = '1'

/-- The digits as a number, the highest one first, behind those of another number. A character that is no digit
counts as zero. -/
def numeral (value : ℕ) (cs : List Char) : ℕ := cs.foldl (fun value c => 2 * value + (c == '1').toNat) value

variable {value i : ℕ} {c : Char} {cs : List Char} {text : String}

theorem numeral_cons (value : ℕ) (c : Char) (cs : List Char) :
    numeral value (c :: cs) = numeral (2 * value + (c == '1').toNat) cs := rfl

theorem testBit_numeral : (numeral value cs).testBit i =
    if i < cs.length then cs.reverse[i]? == some '1' else value.testBit (i - cs.length) := by
  induction cs generalizing value with
  | nil => rfl
  | cons c cs ih =>
    have hbit : (c == '1').toNat ≤ 1 := Bool.toNat_le _
    rw [numeral_cons, ih, List.length_cons, List.reverse_cons]
    -- The digit at hand stands above the ones that are read after it.
    rcases lt_trichotomy i cs.length with hlt | rfl | hlt
    · rw [if_pos hlt, if_pos (by omega), List.getElem?_append_left (by simpa using hlt)]
    · have hlast : (cs.reverse ++ [c])[cs.length]? = some c := by
        rw [← List.length_reverse, List.getElem?_concat_length]
      rw [if_neg (lt_irrefl _), if_pos (Nat.lt_succ_self _), hlast, Nat.sub_self, Nat.testBit_zero]
      cases h : c == '1' <;> simp [h]
    · have hhalf : (2 * value + (c == '1').toNat) / 2 = value := by omega
      have hsub : i - cs.length = i - (cs.length + 1) + 1 := by omega
      rw [if_neg (by omega), if_neg (by omega), hsub, Nat.testBit_succ, hhalf]

theorem numeral_lt (cs : List Char) : numeral 0 cs < 2 ^ cs.length := by
  refine Nat.lt_pow_two_of_testBit _ fun i hi => ?_
  rw [testBit_numeral, if_neg (Nat.not_lt.2 hi), Nat.zero_testBit]

theorem digit?_eq (h : c = '0' ∨ c = '1') : digit? c = some (c == '1').toNat := by
  rcases h with rfl | rfl <;> rfl

theorem digit?_eq_none_iff : digit? c = none ↔ ¬ (c = '0' ∨ c = '1') := by
  unfold digit?
  split <;> simp_all

theorem readDigits_eq (hfits : (value + 1) * 2 ^ cs.length ≤ UInt64.size) : readDigits value cs =
    if ∀ c ∈ cs, c = '0' ∨ c = '1' then .ok (numeral value cs) else .error .invalidDigit := by
  induction cs generalizing value with
  | nil => exact (if_pos (List.forall_mem_nil _)).symm
  | cons c cs ih =>
    rw [readDigits]
    by_cases hc : c = '0' ∨ c = '1'
    · have hbit : (c == '1').toNat ≤ 1 := Bool.toNat_le _
      have hdouble : (2 * value + (c == '1').toNat + 1) * 2 ^ cs.length ≤ (value + 1) * 2 ^ (c :: cs).length := by
        rw [List.length_cons, Nat.pow_succ', ← Nat.mul_assoc]
        exact Nat.mul_le_mul_right _ (by omega)
      have hnext := hdouble.trans hfits
      have hsize : 2 * value + (c == '1').toNat < UInt64.size :=
        (Nat.le_mul_of_pos_right _ (Nat.two_pow_pos _)).trans hnext
      simp only [digit?_eq hc, if_pos hsize, ih hnext, List.forall_mem_cons, hc, true_and, numeral_cons]
    · simp only [digit?_eq_none_iff.2 hc, List.forall_mem_cons, hc, false_and, if_false]

/-- What is read as a numeral: digits, and digits after one plus sign. -/
def IsNumeral (cs : List Char) : Prop := IsBitstring cs ∨ ∃ ds, cs = '+' :: ds ∧ IsBitstring ds

theorem readDigits_zero (hlength : cs.length ≤ 64) : readDigits 0 cs =
    if ∀ c ∈ cs, c = '0' ∨ c = '1' then .ok (numeral 0 cs) else .error .invalidDigit := by
  refine readDigits_eq ?_
  rw [Nat.zero_add, Nat.one_mul]
  exact Nat.pow_le_pow_right Nat.two_pos hlength

theorem readNumeral_of_isNumeral (hlength : text.toList.length ≤ 64) (h : IsNumeral text.toList) :
    readNumeral text = .ok (numeral 0 text.toList) := by
  rw [readNumeral]
  generalize text.toList = cs at hlength h ⊢
  rcases h with ⟨hne, hdigits⟩ | ⟨ds, rfl, hne, hdigits⟩
  · have hread : readDigits 0 cs = .ok (numeral 0 cs) := (readDigits_zero hlength).trans (if_pos hdigits)
    split
    · exact absurd rfl hne
    · exact hread
    · exact absurd (hdigits '+' List.mem_cons_self) (by decide)
    · exact hread
  · obtain ⟨d, ds, rfl⟩ := List.exists_cons_of_ne_nil hne
    exact (readDigits_zero (Nat.le_of_succ_le hlength)).trans (if_pos hdigits)

theorem readNumeral_of_not_isNumeral (hlength : text.toList.length ≤ 64) (h : ¬ IsNumeral text.toList) :
    readNumeral text = .error (if text.toList = [] then .empty else .invalidDigit) := by
  rw [readNumeral]
  generalize text.toList = cs at hlength h ⊢
  have hread (hne : cs ≠ []) : readDigits 0 cs = .error .invalidDigit :=
    (readDigits_zero hlength).trans (if_neg fun hdigits => h (.inl ⟨hne, hdigits⟩))
  split
  · rfl
  · next c => exact hread (List.cons_ne_nil c [])
  · next ds hne =>
    exact (readDigits_zero (Nat.le_of_succ_le hlength)).trans (if_neg fun hdigits => h (.inr ⟨ds, rfl, hne, hdigits⟩))
  · next hempty _ _ => rw [hread hempty, if_neg hempty]

theorem length_le_utf8Len (cs : List Char) : cs.length ≤ String.utf8Len cs := by
  induction cs with
  | nil => exact le_rfl
  | cons c cs ih => exact Nat.add_le_add ih (Char.utf8Size_pos c)

theorem utf8Len_eq_length (h : ∀ c ∈ cs, c.utf8Size = 1) : String.utf8Len cs = cs.length := by
  induction cs with
  | nil => rfl
  | cons c cs ih =>
    obtain ⟨hc, hcs⟩ := List.forall_mem_cons.1 h
    rw [String.utf8Len_cons, ih hcs, hc, List.length_cons]

theorem IsNumeral.utf8Len_eq (h : IsNumeral cs) : String.utf8Len cs = cs.length := by
  have hdigit (c : Char) (hc : c = '0' ∨ c = '1') : c.utf8Size = 1 := by
    rcases hc with rfl | rfl <;> rfl
  rcases h with ⟨_, hdigits⟩ | ⟨ds, rfl, _, hdigits⟩
  · exact utf8Len_eq_length fun c hc => hdigit c (hdigits c hc)
  · exact utf8Len_eq_length (List.forall_mem_cons.2 ⟨rfl, fun c hc => hdigit c (hdigits c hc)⟩)

section Label

variable {R : Type} [Scalar R]

theorem ofLabel_of_isNumeral (hsize : text.utf8ByteSize < 64) (h : IsNumeral text.toList) :
    (ofLabel text : Except Fault (State R)) = .ok (basis text.length (numeral 0 text.toList)) := by
  have hbytes : text.utf8ByteSize = text.length := by
    rw [← String.utf8Len_toList, h.utf8Len_eq, String.length_toList]
  have hlength : text.toList.length ≤ 64 := by
    rw [String.length_toList, ← hbytes]
    exact hsize.le
  rw [ofLabel, readNumeral_of_isNumeral hlength h, hbytes]

theorem ofLabel_of_not_isNumeral (hsize : text.utf8ByteSize < 64) (h : ¬ IsNumeral text.toList) :
    (ofLabel text : Except Fault (State R)) =
      .error (.state (.numeral text (if text.toList = [] then .empty else .invalidDigit))) := by
  have hlength : text.toList.length ≤ 64 := by
    rw [← String.utf8Len_toList] at hsize
    exact (length_le_utf8Len _).trans hsize.le
  rw [ofLabel, readNumeral_of_not_isNumeral hlength h]

/-- Of the texts of fewer than 64 bytes exactly the bitstrings, and the bitstrings behind one plus sign, give a state.
It is the basis state of a wire for each character, the sign included, in which a wire reads one exactly if its
character counted from the right is a one. Every other text is refused, as empty or for a character. -/
theorem ofLabel_short (text : String) (hsize : text.utf8ByteSize < 64) :
    ((ofLabel text : Except Fault (State R)).isOk = true ↔
      IsBitstring text.toList ∨ ∃ ds, text.toList = '+' :: ds ∧ IsBitstring ds) ∧
    (∀ s : State R, ofLabel text = .ok s → ∃ index < 2 ^ text.length, s = basis text.length index ∧
      ∀ i < text.length, index.testBit i = (text.toList.reverse[i]? == some '1')) ∧
    ((ofLabel text : Except Fault (State R)).isOk = false → (ofLabel text : Except Fault (State R)) =
      .error (.state (.numeral text (if text.toList = [] then .empty else .invalidDigit)))) := by
  by_cases h : IsNumeral text.toList
  · have hread : (ofLabel text : Except Fault (State R)) = .ok (basis text.length (numeral 0 text.toList)) :=
      ofLabel_of_isNumeral hsize h
    refine ⟨iff_of_true (hread ▸ rfl) h, fun s hs => ?_, fun herror => ?_⟩
    · obtain rfl := Except.ok.inj (hread.symm.trans hs)
      refine ⟨_, ?_, rfl, fun i hi => ?_⟩
      · exact (numeral_lt text.toList).trans_eq (congrArg _ String.length_toList)
      · rw [testBit_numeral, if_pos (by rwa [String.length_toList])]
    · rw [hread] at herror
      cases herror
  · have hrefused := ofLabel_of_not_isNumeral (R := R) hsize h
    refine ⟨iff_of_false ?_ h, fun s hs => ?_, fun _ => hrefused⟩
    · rw [hrefused]
      exact Bool.false_ne_true
    · rw [hrefused] at hs
      cases hs

theorem ofLabel_short_digits :
    ("101".utf8ByteSize < 64 ∧ (ofLabel "101" : Except Fault (State ℝ)) = .ok (basis 3 5)) ∧
    "12".utf8ByteSize < 64 ∧
      (ofLabel "12" : Except Fault (State ℝ)) = .error (.state (.numeral "12" .invalidDigit)) := by
  have hlist : "101".toList = ['1', '0', '1'] := rfl
  have hdigits : IsBitstring "101".toList := by
    rw [hlist]
    exact ⟨List.cons_ne_nil _ _, by simp⟩
  obtain ⟨haccepted, hstate, _⟩ := ofLabel_short (R := ℝ) "101" (by decide)
  obtain ⟨s, hs⟩ := isOk_eq_true_iff.1 (haccepted.2 (.inl hdigits))
  obtain ⟨index, hindex, rfl, hbits⟩ := hstate s hs
  have hfive : (⟨index, hindex⟩ : Fin (2 ^ 3)) = ⟨5, by decide⟩ := Basis.ext_testBit fun i hi => by
    rw [hbits i hi]
    interval_cases i <;> rfl
  exact ⟨⟨by decide, Fin.mk.inj hfive ▸ hs⟩, by decide, (ofLabel_short (R := ℝ) "12" (by decide)).2.2 rfl⟩

/-- A plus sign is accepted in front of the digits and counts as a wire. -/
theorem ofLabel_sign : "+1".utf8ByteSize < 64 ∧ ¬ IsBitstring "+1".toList ∧
    (ofLabel "+1" : Except Fault (State ℝ)) = .ok (basis 2 1) := by
  refine ⟨by decide, fun h => ?_, rfl⟩
  exact absurd (h.2 '+' List.mem_cons_self) (by decide)

end Label
end QuantumCircuits.State
