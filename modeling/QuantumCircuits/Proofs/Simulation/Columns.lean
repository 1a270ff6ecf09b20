import Mathlib
import QuantumCircuits.Proofs.Simulation.Lowering

/-! A placement by its columns. Each entry of a column of the matrix sets the targets to the row of the entry. On
different wires, the rows and the columns of a placement have the same entries, each once. -/

namespace QuantumCircuits
open QuantumCircuits.Basis

namespace Placement

theorem nodup_flatMap_map {ι β γ : Type} {xs : List ι} {f : ι → List β} {g : ι → β → γ} (hxs : xs.Nodup)
    (hf : ∀ i, (f i).Nodup) (hg : ∀ {i j a b}, g i a = g j b → i = j ∧ a = b) :
    (xs.flatMap fun i => (f i).map (g i)).Nodup := by
  refine List.nodup_flatMap.2 ⟨fun i _ => (hf i).map fun a b hab => (hg hab).2, hxs.imp fun hne => ?_⟩
  intro c hi hj
  obtain ⟨a, _, rfl⟩ := List.mem_map.1 hi
  obtain ⟨b, _, hb⟩ := List.mem_map.1 hj
  exact hne (hg hb).1.symm

variable {R : Type} [Scalar R] {n d i j : ℕ} {wires : List ℕ} {entry : ℕ → Cx R} {p : Placement R} {e : Cx R}

/-- The entries of column `j`, each with its row. -/
def column (p : Placement R) (j : ℕ) : List (ℕ × Cx R) :=
  if p.active j then
    (List.range p.matrix.rows).filterMap fun row =>
      let entry := p.matrix.get row (gather j p.targets)
      if 0 < entry.normSq then some (place j row p.targets, entry) else none
  else [(j, 1)]

def byRows (p : Placement R) (n : ℕ) : List ((ℕ × ℕ) × Cx R) :=
  (indices n).flatMap fun i => (p.row n i).map fun (j, entry) => ((i, j), entry)

def byColumns (p : Placement R) (n : ℕ) : List ((ℕ × ℕ) × Cx R) :=
  (indices n).flatMap fun j => (p.column j).map fun (i, entry) => ((i, j), entry)

/-- What is left of entries for all readings of the wires, each where the wires of `i` are set to the reading. -/
def written (wires : List ℕ) (i : ℕ) (entry : ℕ → Cx R) : List (ℕ × Cx R) :=
  (indices wires.length).filterMap fun bits =>
    if 0 < (entry bits).normSq then some (place i bits wires, entry bits) else none

theorem mem_written_iff (h : Selects n d wires) (hi : i < 2 ^ n) : (j, e) ∈ written wires i entry ↔
    j < 2 ^ n ∧ clear i wires = clear j wires ∧ entry (gather j wires) = e ∧ 0 < e.normSq := by
  rw [written, List.mem_filterMap]
  constructor
  · rintro ⟨bits, hbits, hentry⟩
    split at hentry
    · next hpos =>
      cases hentry
      rw [gather_place h.nodup (mem_indices.1 hbits)]
      exact ⟨h.place_lt ⟨i, hi⟩ bits, (clear_place i bits wires).symm, rfl, hpos⟩
    · cases hentry
  · rintro ⟨hj, hsame, rfl, hpos⟩
    refine ⟨gather j wires, mem_indices.2 (gather_lt j wires), ?_⟩
    rw [if_pos hpos, h.place_gather hi hj hsame]

theorem nodup_written (h : wires.Nodup) (i : ℕ) (entry : ℕ → Cx R) : (written wires i entry).Nodup := by
  have hread : (written wires i entry).map (fun a => gather a.1 wires) =
      (indices wires.length).filter fun bits => 0 < (entry bits).normSq := by
    rw [written, List.map_filterMap, ← List.filterMap_eq_filter]
    refine List.filterMap_congr fun bits hbits => ?_
    have hplace : gather (place i bits wires) wires = bits := gather_place h (mem_indices.1 hbits)
    by_cases hpos : 0 < (entry bits).normSq <;> simp [Option.guard, hpos, hplace]
  exact .of_map _ (hread ▸ List.nodup_range.filter _)

theorem row_eq_written (h : Selects n d p.targets) (active : p.active i = true) :
    p.row n i = written (ascending n p.targets) i fun bits =>
      p.matrix.get (gather i p.targets) (gather (place i bits (ascending n p.targets)) p.targets) := by
  rw [row, if_pos active, line, columns, List.filterMap_map, List.map_filterMap, written]
  refine List.filterMap_congr fun bits _ => ?_
  have hplace : clear i p.targets ||| scatter bits (ascending n p.targets) = place i bits (ascending n p.targets) := by
    rw [place, h.clear_ascending]
  rw [← h.gather_scatter_ascending i bits, ← hplace]
  dsimp only [Function.comp]
  split <;> rfl

theorem column_eq_written (rows : p.matrix.rows = 2 ^ p.targets.length) (active : p.active j = true) :
    p.column j = written p.targets j fun row => p.matrix.get row (gather j p.targets) := by
  rw [column, if_pos active, rows]
  rfl

/-- What row `i` and column `j` have in common. -/
def HasEntry (p : Placement R) (i j : ℕ) (e : Cx R) : Prop :=
  if p.active j then
    clear i p.targets = clear j p.targets ∧ p.matrix.get (gather i p.targets) (gather j p.targets) = e ∧ 0 < e.normSq
  else i = j ∧ e = 1

/-- The controls may be read in the row as well. -/
theorem hasEntry_iff (free : ∀ c ∈ p.controls, c.1 ∉ p.targets) : p.HasEntry i j e ↔
    if p.active i then
      clear i p.targets = clear j p.targets ∧ p.matrix.get (gather i p.targets) (gather j p.targets) = e ∧ 0 < e.normSq
    else i = j ∧ e = 1 := by
  rw [HasEntry]
  by_cases hsame : clear i p.targets = clear j p.targets
  · have hactive : p.active i = p.active j :=
      holds_congr fun c hc => clear_eq_clear_iff.1 hsame c.1 (free c hc)
    rw [hactive]
  · have hne : i ≠ j := fun same => hsame (congrArg (clear · p.targets) same)
    simp [hsame, hne]

theorem mem_row_iff (h : p.Fits n) (hi : i < 2 ^ n) : (j, e) ∈ p.row n i ↔ j < 2 ^ n ∧ p.HasEntry i j e := by
  obtain ⟨_, htargets, hfree⟩ := Selects.controls_iff.1 h.wires
  rw [hasEntry_iff hfree]
  split
  · next active =>
    rw [row_eq_written htargets active, mem_written_iff htargets.ascending hi]
    simp only [htargets.clear_ascending]
    refine and_congr_right fun hj => and_congr_right fun hsame => ?_
    rw [htargets.ascending.place_gather hi hj]
    rw [htargets.clear_ascending, htargets.clear_ascending, hsame]
  · next active =>
    rw [row, if_neg active, List.mem_singleton, Prod.mk.injEq, eq_comm (a := j)]
    exact ⟨fun hentry => ⟨hentry.1 ▸ hi, hentry⟩, And.right⟩

theorem mem_column_iff (h : p.Fits n) (hj : j < 2 ^ n) : (i, e) ∈ p.column j ↔ i < 2 ^ n ∧ p.HasEntry i j e := by
  rw [HasEntry]
  split
  · next active =>
    rw [column_eq_written h.matrix.rows active, mem_written_iff h.selects_targets hj, eq_comm (a := clear j _)]
  · next active =>
    rw [column, if_neg active, List.mem_singleton, Prod.mk.injEq]
    exact ⟨fun hentry => ⟨hentry.1 ▸ hj, hentry⟩, And.right⟩

theorem nodup_row (h : p.Fits n) (i : ℕ) : (p.row n i).Nodup := by
  by_cases active : p.active i
  · rw [row_eq_written h.selects_targets active]
    exact nodup_written h.selects_targets.ascending.nodup _ _
  · rw [row, if_neg active]
    exact List.nodup_singleton _

theorem nodup_column (h : p.Fits n) (j : ℕ) : (p.column j).Nodup := by
  by_cases active : p.active j
  · rw [column_eq_written h.matrix.rows active]
    exact nodup_written h.selects_targets.nodup _ _
  · rw [column, if_neg active]
    exact List.nodup_singleton _

/-- Read by rows or by columns, a placement has the same entries in the same places. -/
theorem byRows_perm (h : p.Fits n) : (p.byRows n).Perm (p.byColumns n) := by
  have hrows : (p.byRows n).Nodup := nodup_flatMap_map List.nodup_range (nodup_row h) (by simp)
  have hcolumns : (p.byColumns n).Nodup := nodup_flatMap_map List.nodup_range (nodup_column h) (by simp)
  refine (List.perm_ext_iff_of_nodup hrows hcolumns).2 ?_
  rintro ⟨⟨i, j⟩, e⟩
  have hrow : ((i, j), e) ∈ p.byRows n ↔ i < 2 ^ n ∧ (j, e) ∈ p.row n i := by simp [byRows]
  have hcolumn : ((i, j), e) ∈ p.byColumns n ↔ j < 2 ^ n ∧ (i, e) ∈ p.column j := by simp [byColumns]
  rw [hrow, hcolumn, and_congr_right fun hi => mem_row_iff h hi, and_congr_right fun hj => mem_column_iff h hj,
    and_left_comm]

end Placement
end QuantumCircuits
