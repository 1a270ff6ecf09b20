import QuantumCircuits.Basis
import QuantumCircuits.Number.Scalar

/-! Histograms of measured basis states. -/

namespace QuantumCircuits

/-- How often each basis state was measured. Indices ascend strictly and no count is zero, so equal
histograms have equal lists. -/
structure Histogram where
  wires : Nat
  entries : List (Nat × Nat)
  ascending : entries.Pairwise fun a b => a.1 < b.1
  positive : ∀ e ∈ entries, 0 < e.2

namespace Histogram

instance : BEq Histogram := ⟨fun h k => h.wires == k.wires && h.entries == k.entries⟩

def empty (wires : Nat) : Histogram := ⟨wires, [], .nil, by simp⟩

def insert (index count : Nat) : List (Nat × Nat) → List (Nat × Nat)
  | [] => [(index, count)]
  | e :: rest =>
    if index < e.1 then (index, count) :: e :: rest
    else if index = e.1 then (index, e.2 + count) :: rest
    else e :: insert index count rest

theorem mem_insert {index count : Nat} {entries : List (Nat × Nat)} {e : Nat × Nat}
    (h : e ∈ insert index count entries) : (e.1 = index ∧ count ≤ e.2) ∨ e ∈ entries := by
  induction entries with
  | nil => simp_all [insert]
  | cons a rest ih =>
    unfold insert at h
    split at h
    · rcases List.mem_cons.1 h with rfl | h
      · exact .inl ⟨rfl, Nat.le_refl _⟩
      · exact .inr h
    · split at h
      · rcases List.mem_cons.1 h with rfl | h
        · exact .inl ⟨rfl, Nat.le_add_left _ _⟩
        · exact .inr (List.mem_cons_of_mem _ h)
      · rcases List.mem_cons.1 h with rfl | h
        · exact .inr List.mem_cons_self
        · exact (ih h).imp_right (List.mem_cons_of_mem _)

theorem pairwise_insert {index count : Nat} {entries : List (Nat × Nat)}
    (h : entries.Pairwise fun a b => a.1 < b.1) :
    (insert index count entries).Pairwise fun a b => a.1 < b.1 := by
  induction entries with
  | nil => simp [insert]
  | cons a rest ih =>
    obtain ⟨hhead, htail⟩ := List.pairwise_cons.1 h
    unfold insert
    split
    · rename_i below
      refine List.pairwise_cons.2 ⟨fun e he => ?_, h⟩
      rcases List.mem_cons.1 he with rfl | he
      · exact below
      · exact Nat.lt_trans below (hhead e he)
    · split
      · rename_i same
        exact List.pairwise_cons.2 ⟨fun e he => same ▸ hhead e he, htail⟩
      · rename_i notBelow notSame
        refine List.pairwise_cons.2 ⟨fun e he => ?_, ih htail⟩
        rcases mem_insert he with ⟨he, _⟩ | he
        · omega
        · exact hhead e he

def occurrences : List (Nat × Nat) → Nat
  | [] => 0
  | e :: rest => e.2 + occurrences rest

def recordTimes (h : Histogram) (index count : Nat) : Histogram :=
  if positive : 0 < count then
    { h with
      entries := insert index count h.entries
      ascending := pairwise_insert h.ascending
      positive := fun e he => by
        rcases mem_insert he with ⟨_, he⟩ | he
        · omega
        · exact h.positive e he }
  else h

def record (h : Histogram) (index : Nat) : Histogram := h.recordTimes index 1

/-- The histogram of listed indices with the number of times that each occurred. They are recorded
in descending order, so that each one goes to the front. -/
def ofOccurrences (wires : Nat) (occurrences : List (Nat × Nat)) : Histogram :=
  (occurrences.mergeSort fun a b => decide (b.1 ≤ a.1)).foldl
    (fun h (index, count) => h.recordTimes index count) (empty wires)

def get (h : Histogram) (index : Nat) : Nat := (h.entries.lookup index).getD 0

def total (h : Histogram) : Nat := occurrences h.entries

def better (a b : Nat × Nat) : Nat × Nat := if a.2 < b.2 then b else a

def mode? (h : Histogram) : Option Nat :=
  match h.entries with
  | [] => none
  | e :: rest => some (rest.foldl better e).1

def frequency {R : Type} [Scalar R] (h : Histogram) (index : Nat) : R :=
  if h.total = 0 then 0 else ((h.get index : Nat) : R) / ((h.total : Nat) : R)

def postSelect (h : Histogram) (wire : Nat) (bit : Bool) : Histogram where
  wires := h.wires
  entries := h.entries.filter fun e => e.1.testBit wire == bit
  ascending := h.ascending.filter _
  positive e he := h.positive e (List.mem_filter.1 he).1

def marginal (h : Histogram) (wires : List Nat) : Histogram :=
  ofOccurrences wires.length <| h.entries.map fun (index, count) =>
    (Basis.gather index wires, count)

def label (h : Histogram) (index : Nat) : String := Basis.label h.wires index

def text (h : Histogram) : String :=
  String.join <| h.entries.map fun (index, count) => h.label index ++ s!": {count}\n"

end Histogram
end QuantumCircuits
