import Mathlib
import QuantumCircuits.Proofs.Number.Exact
import QuantumCircuits.Simulation.Histogram

/-! What a histogram records. An occurrence adds to the count of its own index and to no other one, so the
counts are those of the list of occurrences, in whatever order it is recorded. -/

namespace QuantumCircuits.Histogram

variable {entries list front back : List (ℕ × ℕ)}

def occurrencesOf (i : ℕ) (list : List (ℕ × ℕ)) : ℕ := occurrences (list.filter fun e => e.1 == i)

theorem occurrences_append (front back : List (ℕ × ℕ)) :
    occurrences (front ++ back) = occurrences front + occurrences back := by
  induction front with
  | nil => exact (Nat.zero_add _).symm
  | cons e front ih => rw [List.cons_append, occurrences, ih, occurrences, Nat.add_assoc]

theorem occurrencesOf_append (i : ℕ) (front back : List (ℕ × ℕ)) :
    occurrencesOf i (front ++ back) = occurrencesOf i front + occurrencesOf i back := by
  rw [occurrencesOf, List.filter_append, occurrences_append]
  rfl

theorem occurrences_filter_cons (p : ℕ → Bool) (e : ℕ × ℕ) (list : List (ℕ × ℕ)) :
    occurrences ((e :: list).filter fun o => p o.1) =
      (if p e.1 then e.2 else 0) + occurrences (list.filter fun o => p o.1) := by
  rw [List.filter_cons]
  split
  · rfl
  · exact (Nat.zero_add _).symm

theorem occurrences_perm (h : front.Perm back) : occurrences front = occurrences back := by
  induction h with
  | nil => rfl
  | cons e _ ih => rw [occurrences, occurrences, ih]
  | swap d e list =>
    rw [occurrences, occurrences, occurrences, occurrences]
    omega
  | trans _ _ ih ih' => exact ih.trans ih'

theorem occurrences_once (xs : List ℕ) : occurrences (xs.map (·, 1)) = xs.length := by
  induction xs with
  | nil => rfl
  | cons x xs ih => rw [List.map_cons, occurrences, ih, List.length_cons, Nat.add_comm]

theorem occurrences_eq_sum (list : List (ℕ × ℕ)) : occurrences list = (list.map Prod.snd).sum := by
  induction list with
  | nil => rfl
  | cons e list ih => rw [occurrences, ih, List.map_cons, List.sum_cons]

theorem occurrencesOf_once (i : ℕ) (xs : List ℕ) : occurrencesOf i (xs.map (·, 1)) = xs.count i := by
  rw [occurrencesOf, List.filter_map, occurrences_once, List.count_eq_length_filter]
  rfl

theorem occurrences_filter_insert (p : ℕ → Bool) (index count : ℕ) (entries : List (ℕ × ℕ)) :
    occurrences ((insert index count entries).filter fun e => p e.1) =
      (if p index then count else 0) + occurrences (entries.filter fun e => p e.1) := by
  induction entries with
  | nil => exact occurrences_filter_cons p (index, count) []
  | cons e rest ih =>
    unfold insert
    split
    · exact occurrences_filter_cons p (index, count) (e :: rest)
    · split
      · next hsame =>
        rw [occurrences_filter_cons, occurrences_filter_cons, hsame]
        split <;> omega
      · rw [occurrences_filter_cons, ih, occurrences_filter_cons]
        omega

theorem lookup_eq_occurrencesOf (i : ℕ) (h : entries.Pairwise fun a b => a.1 < b.1) :
    (entries.lookup i).getD 0 = occurrencesOf i entries := by
  induction entries with
  | nil => rfl
  | cons e rest ih =>
    obtain ⟨hhead, htail⟩ := List.pairwise_cons.1 h
    rw [occurrencesOf, occurrences_filter_cons (· == i), List.lookup_cons]
    by_cases hi : i = e.1
    · subst hi
      have hnone : rest.filter (fun o => o.1 == e.1) = [] :=
        List.filter_eq_nil_iff.2 fun o ho => by simpa using (hhead o ho).ne'
      simp [hnone, occurrences]
    · have hbeq : (i == e.1) = false := beq_false_of_ne hi
      rw [hbeq, ih htail, if_neg fun heq => hi (beq_iff_eq.1 heq).symm, Nat.zero_add]
      rfl

def countWhere (h : Histogram) (p : ℕ → Bool) : ℕ := occurrences (h.entries.filter fun e => p e.1)

theorem get_eq_countWhere (h : Histogram) (i : ℕ) : h.get i = h.countWhere (· == i) :=
  lookup_eq_occurrencesOf i h.ascending

theorem total_eq_countWhere (h : Histogram) : h.total = h.countWhere fun _ => true := by
  rw [countWhere, List.filter_true, total]

theorem countWhere_recordTimes (h : Histogram) (index count : ℕ) (p : ℕ → Bool) :
    (h.recordTimes index count).countWhere p = (if p index then count else 0) + h.countWhere p := by
  unfold recordTimes
  split
  · exact occurrences_filter_insert p index count h.entries
  · next hzero => rw [Nat.eq_zero_of_not_pos hzero, ite_self, Nat.zero_add]

theorem wires_recordTimes (h : Histogram) (index count : ℕ) : (h.recordTimes index count).wires = h.wires := by
  unfold recordTimes
  split <;> rfl

theorem mem_recordTimes {h : Histogram} {index count : ℕ} {e : ℕ × ℕ} (he : e ∈ (h.recordTimes index count).entries) :
    e.1 = index ∨ e ∈ h.entries := by
  unfold recordTimes at he
  split at he
  · exact (mem_insert he).imp_left And.left
  · exact .inr he

section Recorded

theorem foldl_recordTimes (list : List (ℕ × ℕ)) (h : Histogram) :
    (list.foldl (fun h (index, count) => h.recordTimes index count) h).wires = h.wires ∧
      (∀ p, (list.foldl (fun h (index, count) => h.recordTimes index count) h).countWhere p =
        occurrences (list.filter fun o => p o.1) + h.countWhere p) ∧
      ∀ e ∈ (list.foldl (fun h (index, count) => h.recordTimes index count) h).entries,
        e ∈ h.entries ∨ ∃ o ∈ list, o.1 = e.1 := by
  induction list generalizing h with
  | nil => exact ⟨rfl, fun _ => (Nat.zero_add _).symm, fun _ => .inl⟩
  | cons o list ih =>
    obtain ⟨hwires, hcount, hmem⟩ := ih (h.recordTimes o.1 o.2)
    rw [List.foldl_cons]
    refine ⟨?_, fun p => ?_, fun e he => ?_⟩
    · rw [hwires, wires_recordTimes]
    · rw [hcount, countWhere_recordTimes, occurrences_filter_cons]
      omega
    · obtain he | ⟨d, hd, hsame⟩ := hmem e he
      · obtain hsame | he := mem_recordTimes he
        · exact .inr ⟨o, List.mem_cons_self, hsame.symm⟩
        · exact .inl he
      · exact .inr ⟨d, List.mem_cons_of_mem o hd, hsame⟩

variable (wires : ℕ) (list : List (ℕ × ℕ))

theorem wires_ofOccurrences : (ofOccurrences wires list).wires = wires := (foldl_recordTimes _ _).1

theorem countWhere_ofOccurrences (p : ℕ → Bool) :
    (ofOccurrences wires list).countWhere p = occurrences (list.filter fun o => p o.1) :=
  ((foldl_recordTimes _ _).2.1 p).trans (occurrences_perm ((list.mergeSort_perm _).filter _))

theorem total_ofOccurrences : (ofOccurrences wires list).total = occurrences list := by
  rw [total_eq_countWhere, countWhere_ofOccurrences, List.filter_true]

theorem get_ofOccurrences (i : ℕ) : (ofOccurrences wires list).get i = occurrencesOf i list := by
  rw [get_eq_countWhere, countWhere_ofOccurrences]
  rfl

theorem mem_ofOccurrences {e : ℕ × ℕ} (he : e ∈ (ofOccurrences wires list).entries) : ∃ o ∈ list, o.1 = e.1 := by
  obtain hnone | ⟨o, ho, hsame⟩ := (foldl_recordTimes _ _).2.2 e he
  · exact absurd hnone List.not_mem_nil
  · exact ⟨o, (list.mergeSort_perm _).mem_iff.1 ho, hsame⟩

theorem total_once (xs : List ℕ) : (ofOccurrences wires (xs.map (·, 1))).total = xs.length :=
  (total_ofOccurrences wires _).trans (occurrences_once xs)

theorem mem_once {xs : List ℕ} {e : ℕ × ℕ} (he : e ∈ (ofOccurrences wires (xs.map (·, 1))).entries) : e.1 ∈ xs := by
  obtain ⟨o, ho, hsame⟩ := mem_ofOccurrences wires _ he
  obtain ⟨x, hx, rfl⟩ := List.mem_map.1 ho
  exact hsame ▸ hx

end Recorded

theorem sum_counts (h : Histogram) : (h.entries.map fun e => (e.2 : ℝ)).sum = h.total := by
  rw [total, occurrences_eq_sum, Nat.cast_list_sum, List.map_map]
  rfl

theorem sum_shares (h : Histogram) (hpos : 0 < h.total) :
    (h.entries.map fun e => (e.2 : ℝ) / (h.total : ℝ)).sum = 1 := by
  simp only [div_eq_mul_inv]
  rw [List.sum_map_mul_right, sum_counts]
  exact mul_inv_cancel₀ (Nat.cast_ne_zero.2 hpos.ne')

end QuantumCircuits.Histogram
