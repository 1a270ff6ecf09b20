import Mathlib
import QuantumCircuits.Proofs.Simulation.Histogram

/-! How selections and marginals of histograms combine. A histogram is known by the number of occurrences that
pass each test on the indices. A selection adds the bit that its wire reads to the test, and a marginal puts the
test to the wires that it gathers, so that the laws are laws of tests. -/

namespace QuantumCircuits
open QuantumCircuits.Basis

theorem Basis.gather_gather (index : ℕ) (ws : List ℕ) (vs : List (Fin ws.length)) :
    gather (gather index ws) (vs.map Fin.val) = gather index (vs.map ws.get) := by
  induction vs with
  | nil => rfl
  | cons v vs ih =>
    have hbit : (gather index ws).testBit v = index.testBit (ws.get v) := by
      rw [testBit_gather, List.getElem?_eq_getElem v.isLt, Option.map_some, Option.getD_some, List.get_eq_getElem]
    rw [List.map_cons, List.map_cons, gather, gather, ih, hbit]

theorem Basis.gather_gather_range (index : ℕ) (front back : List ℕ) :
    gather (gather index (front ++ back)) (List.range front.length) = gather index front := by
  apply Nat.eq_of_testBit_eq
  intro j
  rw [testBit_gather, testBit_gather]
  by_cases hj : j < front.length
  · rw [List.getElem?_range hj, Option.map_some, Option.getD_some, testBit_gather, List.getElem?_append_left hj]
  · have hnone : (List.range front.length)[j]? = none := List.getElem?_eq_none (by simpa using hj)
    rw [hnone, List.getElem?_eq_none (not_lt.1 hj), Option.map_none, Option.map_none]

namespace Histogram

variable {h k : Histogram}

theorem mem_entries_iff_lookup {i n : ℕ} : (i, n) ∈ h.entries ↔ h.entries.lookup i = some n := by
  refine ⟨fun hmem => ?_, fun hlookup => ?_⟩
  · obtain ⟨front, back, hsplit⟩ := List.append_of_mem hmem
    have hbelow : ∀ e ∈ front, e.1 < i := fun e he =>
      (List.pairwise_append.1 (hsplit ▸ h.ascending)).2.2 e he (i, n) List.mem_cons_self
    exact List.lookup_eq_some_iff.2 ⟨front, back, hsplit, fun e he => bne_iff_ne.2 (hbelow e he).ne'⟩
  · obtain ⟨front, back, hsplit, -⟩ := List.lookup_eq_some_iff.1 hlookup
    exact hsplit ▸ List.mem_append_right front List.mem_cons_self

theorem mem_entries_iff {i n : ℕ} : (i, n) ∈ h.entries ↔ n ≠ 0 ∧ h.get i = n := by
  rw [get]
  refine ⟨fun hmem => ⟨(h.positive _ hmem).ne', ?_⟩, fun ⟨hne, hget⟩ => ?_⟩
  · rw [mem_entries_iff_lookup.1 hmem, Option.getD_some]
  · cases hlookup : h.entries.lookup i with
    | none => exact absurd (hget.symm.trans (congrArg (Option.getD · 0) hlookup)) hne
    | some m =>
      rw [hlookup, Option.getD_some] at hget
      exact hget ▸ mem_entries_iff_lookup.2 hlookup

theorem ext_get (hwires : h.wires = k.wires) (hget : ∀ i, h.get i = k.get i) : h = k := by
  have hperm : h.entries.Perm k.entries := by
    refine (List.perm_ext_iff_of_nodup ?_ ?_).2 fun (i, n) => ?_
    · exact h.ascending.imp fun {a b} (hlt : a.1 < b.1) heq => hlt.ne (congrArg Prod.fst heq)
    · exact k.ascending.imp fun {a b} (hlt : a.1 < b.1) heq => hlt.ne (congrArg Prod.fst heq)
    · rw [mem_entries_iff, mem_entries_iff, hget]
  have hentries : h.entries = k.entries :=
    hperm.eq_of_pairwise (fun a b _ _ hab hba => absurd (hab.trans hba) (lt_irrefl _)) h.ascending k.ascending
  cases h
  cases k
  congr

theorem ext_countWhere (hwires : h.wires = k.wires) (hcount : ∀ p, h.countWhere p = k.countWhere p) : h = k :=
  ext_get hwires fun i => by rw [get_eq_countWhere, get_eq_countWhere, hcount]

theorem countWhere_postSelect (h : Histogram) (wire : ℕ) (bit : Bool) (p : ℕ → Bool) :
    (h.postSelect wire bit).countWhere p = h.countWhere fun i => p i && i.testBit wire == bit := by
  rw [countWhere, postSelect, List.filter_filter, countWhere]

theorem countWhere_marginal (h : Histogram) (wires : List ℕ) (p : ℕ → Bool) :
    (h.marginal wires).countWhere p = h.countWhere fun i => p (gather i wires) := by
  rw [marginal, countWhere_ofOccurrences, List.filter_map, occurrences_eq_sum, List.map_map, countWhere,
    occurrences_eq_sum]
  rfl

theorem countWhere_add_not (h : Histogram) (p : ℕ → Bool) :
    h.countWhere p + (h.countWhere fun i => !p i) = h.total := by
  rw [countWhere, countWhere, ← occurrences_append]
  exact occurrences_perm (List.filter_append_perm (fun e => p e.1) h.entries)

theorem total_marginal (h : Histogram) (wires : List ℕ) : (h.marginal wires).total = h.total := by
  rw [total_eq_countWhere, countWhere_marginal, total_eq_countWhere]

theorem total_postSelect_add (h : Histogram) (wire : ℕ) :
    (h.postSelect wire true).total + (h.postSelect wire false).total = h.total := by
  rw [total_eq_countWhere, total_eq_countWhere, countWhere_postSelect, countWhere_postSelect,
    ← countWhere_add_not h fun i => i.testBit wire]
  simp

theorem wires_marginal (h : Histogram) (wires : List ℕ) : (h.marginal wires).wires = wires.length :=
  wires_ofOccurrences _ _

theorem marginal_marginal (h : Histogram) (ws : List ℕ) (vs : List (Fin ws.length)) :
    (h.marginal ws).marginal (vs.map Fin.val) = h.marginal (vs.map ws.get) := by
  refine ext_countWhere ?_ fun p => ?_
  · rw [wires_marginal, wires_marginal, List.length_map, List.length_map]
  · simp only [countWhere_marginal, gather_gather]

theorem postSelect_comm (h : Histogram) (w v : ℕ) (b c : Bool) :
    (h.postSelect w b).postSelect v c = (h.postSelect v c).postSelect w b := by
  refine ext_countWhere rfl fun p => ?_
  simp only [countWhere_postSelect, Bool.and_assoc, Bool.and_comm (_ == b)]

theorem marginal_postSelect (h : Histogram) (ws : List ℕ) (w : ℕ) (b : Bool) :
    (h.postSelect w b).marginal ws =
      ((h.marginal (ws ++ [w])).postSelect ws.length b).marginal (List.range ws.length) := by
  refine ext_countWhere ?_ fun p => ?_
  · rw [wires_marginal, wires_marginal, List.length_range]
  · have hbit (i : ℕ) : (gather i (ws ++ [w])).testBit ws.length = i.testBit w := by
      rw [testBit_gather, List.getElem?_concat_length, Option.map_some, Option.getD_some]
    simp only [countWhere_marginal, countWhere_postSelect, gather_gather_range, hbit]

instance : LawfulBEq Histogram where
  eq_of_beq {h k} hbeq := by
    obtain ⟨hwires, hentries⟩ := Bool.and_eq_true_iff.1 hbeq
    cases h
    cases k
    congr
    · exact beq_iff_eq.1 hwires
    · exact beq_iff_eq.1 hentries
  rfl := Bool.and_eq_true_iff.2 ⟨beq_self_eq_true _, beq_self_eq_true _⟩

/-- The laws of marginals and selections, for every histogram. They are equations of the histograms themselves, with
their entries, since a histogram has an entry for each index that occurred and for no other one. -/
theorem restriction_laws (k : Histogram) :
    (∀ ws, (k.marginal ws).total = k.total) ∧
      (∀ ws (vs : List (Fin ws.length)),
        (k.marginal ws).marginal (vs.map Fin.val) = k.marginal (vs.map ws.get)) ∧
      (∀ w, (k.postSelect w true).total + (k.postSelect w false).total = k.total) ∧
      (∀ w v b c, (k.postSelect w b).postSelect v c = (k.postSelect v c).postSelect w b) ∧
      (∀ ws w b, (k.postSelect w b).marginal ws =
        ((k.marginal (ws ++ [w])).postSelect ws.length b).marginal (List.range ws.length)) ∧
      (∀ i n, (i, n) ∈ k.entries ↔ n ≠ 0 ∧ k.get i = n) ∧
      ∀ l : Histogram, (k == l) = true ↔ k = l :=
  ⟨k.total_marginal, k.marginal_marginal, k.total_postSelect_add, k.postSelect_comm, k.marginal_postSelect,
    fun _ _ => mem_entries_iff, fun _ => beq_iff_eq⟩

end Histogram
end QuantumCircuits
