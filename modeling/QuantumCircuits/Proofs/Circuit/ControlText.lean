import Mathlib
import QuantumCircuits.Circuit.ControlState
import QuantumCircuits.Number.Scalar
import QuantumCircuits.Proofs.Success

/-! Control states as flags, as texts and as numbers. The text of a state reads back as the state, and the state that is
taken from the bits of a number has the binary digits of the number for its text, with zeros beyond the word. -/

namespace QuantumCircuits.ControlState

variable {s : ControlState} {text : String} {c : Char} {flag : Bool} {n x : ℕ}

theorem flag?_eq_some_iff : flag? c = some flag ↔ c = digit flag := by
  unfold flag?
  split <;> cases flag <;> simp_all [digit]

theorem exists_digit_iff : (∃ flag, c = digit flag) ↔ c = '0' ∨ c = '1' := by
  simp [digit]

theorem parse_eq_ok_iff : parse text = .ok s ↔ s.text = text := by
  obtain ⟨flags⟩ := s
  have hread : text.toList.reverse.mapM flag? = some flags ↔ flags.map digit = text.toList.reverse := by
    rw [mapM_eq_some_iff]
    simp only [flag?_eq_some_iff]
    rw [← List.forall₂_map_right_iff, List.forall₂_eq_eq_eq, eq_comm]
  have hprinted : ControlState.text ⟨flags⟩ = text ↔ flags.map digit = text.toList.reverse := by
    rw [ControlState.text, ← String.toList_inj, String.toList_ofList, List.map_reverse, List.reverse_eq_iff]
  rw [hprinted, ← hread, parse]
  split
  · next read h => simp [h]
  · next h => simp [h]

theorem exists_parse_iff : (∃ s, parse text = .ok s) ↔ ∀ c ∈ text.toList, c = '0' ∨ c = '1' := by
  simp only [← exists_digit_iff]
  constructor
  · rintro ⟨s, h⟩ c hc
    rw [← parse_eq_ok_iff.1 h, ControlState.text, String.toList_ofList] at hc
    obtain ⟨flag, _, rfl⟩ := List.mem_map.1 hc
    exact ⟨flag, rfl⟩
  · intro h
    obtain ⟨flags, hflags⟩ := exists_forall₂ h
    refine ⟨⟨flags.reverse⟩, parse_eq_ok_iff.2 ?_⟩
    rw [← List.forall₂_map_right_iff, List.forall₂_eq_eq_eq] at hflags
    rw [ControlState.text, List.reverse_reverse, ← hflags, String.ofList_toList]

theorem parse_eq_error (h : ¬ ∃ s, parse text = .ok s) : parse text = .error (.controlText text) := by
  unfold parse at h ⊢
  split
  · next flags hread => exact absurd ⟨⟨flags⟩, by rw [hread]⟩ h
  · rfl

def binaryText (width number : ℕ) : String :=
  String.ofList (((Nat.digits 2 number).map Nat.digitChar).reverse.leftpad width '0')

theorem map_testBit_eq (hx : x < 2 ^ n) : (List.range n).map (fun i => digit (x.testBit i)) =
    ((Nat.digits 2 x).map Nat.digitChar).rightpad n '0' := by
  induction n generalizing x with
  | zero =>
    obtain rfl : x = 0 := Nat.lt_one_iff.1 hx
    rfl
  | succ n ih =>
    have hhalf : x / 2 < 2 ^ n := Nat.div_lt_of_lt_mul (by rwa [Nat.pow_succ, Nat.mul_comm] at hx)
    have hlow : digit (x.testBit 0) = Nat.digitChar (x % 2) := by
      rcases Nat.mod_two_eq_zero_or_one x with h | h <;> simp [Nat.testBit_zero, h, digit]
    rw [List.range_succ_eq_map, List.map_cons, List.map_map, hlow]
    simp only [Function.comp_def, Nat.succ_eq_add_one, Nat.testBit_succ]
    rw [ih hhalf]
    rcases Nat.eq_zero_or_pos x with rfl | hpos
    · simp [List.rightpad, List.replicate_succ]
    · rw [Nat.digits_def' Nat.one_lt_two hpos]
      simp [List.rightpad]

theorem text_ofBits (value : UInt64) (n : ℕ) : (ofBits value n).text = binaryText n (value.toNat % 2 ^ n) := by
  have hflags : (ofBits value n).flags.map digit =
      (List.range n).map fun i => digit ((value.toNat % 2 ^ n).testBit i) := by
    rw [ofBits, List.map_map]
    refine List.map_congr_left fun i hi => ?_
    rw [Function.comp_apply, Nat.testBit_mod_two_pow, decide_eq_true (List.mem_range.1 hi), Bool.true_and]
  rw [ControlState.text, List.map_reverse, hflags, map_testBit_eq (Nat.mod_lt _ (Nat.two_pow_pos n)), binaryText]
  congr 1
  simp [List.rightpad, List.leftpad]

theorem length_text_ofBits (value : UInt64) (n : ℕ) : (ofBits value n).text.length = n := by
  simp [ControlState.text, ofBits]

/-- The three forms of a control state. Its text is read as the state, the texts that are read are exactly those of binary
digits, each as the state that it is the text of, and any other text is refused. The state that is taken from a number has
the digits of what the number leaves modulo `2 ^ n` for its text, for every length `n`, so that these digits are read as
the same state. -/
theorem encodings_agree :
    (∀ s : ControlState, parse s.text = .ok s) ∧
    (∀ text : String, ((∃ s, parse text = .ok s) ↔ ∀ c ∈ text.toList, c = '0' ∨ c = '1') ∧
      (∀ s, parse text = .ok s → s.text = text) ∧
      ((¬ ∀ c ∈ text.toList, c = '0' ∨ c = '1') → parse text = .error (.controlText text))) ∧
    ∀ (value : UInt64) (n : ℕ), (ofBits value n).text = binaryText n (value.toNat % 2 ^ n) ∧
      (binaryText n (value.toNat % 2 ^ n)).length = n ∧
      parse (binaryText n (value.toNat % 2 ^ n)) = .ok (ofBits value n) := by
  refine ⟨fun s => parse_eq_ok_iff.2 rfl, fun text => ⟨exists_parse_iff, fun s => parse_eq_ok_iff.1, fun h => ?_⟩, ?_⟩
  · exact parse_eq_error (mt exists_parse_iff.1 h)
  · intro value n
    have htext := text_ofBits value n
    exact ⟨htext, htext ▸ length_text_ofBits value n, parse_eq_ok_iff.2 htext⟩

theorem encodings_agree_wide :
    parse "10" = .ok ⟨[false, true]⟩ ∧ parse "1x" = .error (.controlText "1x") ∧ (ofBits 6 2).text = "10" ∧
      (ofBits 0x8000000000000001 66).text = "001000000000000000000000000000000000000000000000000000000000000001" ∧
      parse "001000000000000000000000000000000000000000000000000000000000000001" =
        .ok (ofBits 0x8000000000000001 66) := by
  obtain ⟨hstates, htexts, hnumbers⟩ := encodings_agree
  obtain ⟨hprinted, _, hread⟩ := hnumbers 0x8000000000000001 66
  have hlow : binaryText 2 ((6 : UInt64).toNat % 2 ^ 2) = "10" := by cbv
  have hwide : binaryText 66 ((0x8000000000000001 : UInt64).toNat % 2 ^ 66) =
      "001000000000000000000000000000000000000000000000000000000000000001" := by
    cbv
  refine ⟨hstates ⟨[false, true]⟩, (htexts "1x").2.2 (by simp), (hnumbers 6 2).1.trans hlow, hprinted.trans hwide, ?_⟩
  exact (congrArg parse hwide).symm.trans hread

end QuantumCircuits.ControlState
