import Mathlib
import QuantumCircuits.Simulation.Instruction

/-! Reading and writing the bits of a basis state on a list of wires. A list of different wires of a
register splits each basis state into what the wires read and what is left when they are cleared. -/

namespace QuantumCircuits.Basis

/-- The list names `d` different wires of a register of `n`. -/
structure Selects (n d : ℕ) (wires : List ℕ) : Prop where
  length : wires.length = d
  nodup : wires.Nodup
  below : ∀ w ∈ wires, w < n

instance (n d : ℕ) (wires : List ℕ) : Decidable (Selects n d wires) :=
  decidable_of_iff (wires.length = d ∧ wires.Nodup ∧ ∀ w ∈ wires, w < n)
    ⟨fun ⟨length, nodup, below⟩ => ⟨length, nodup, below⟩, fun h => ⟨h.length, h.nodup, h.below⟩⟩

def state (n i : ℕ) : Fin (2 ^ n) := ⟨i % 2 ^ n, Nat.mod_lt _ (by positivity)⟩

def read (d : ℕ) (wires : List ℕ) (i : ℕ) : Fin (2 ^ d) := state d (gather i wires)

/-- The basis state in which the wires read `b` instead. -/
def write {n d : ℕ} (wires : List ℕ) (i : Fin (2 ^ n)) (b : Fin (2 ^ d)) : Fin (2 ^ n) :=
  state n (place i b wires)

def holds (controls : List (ℕ × Bool)) (i : ℕ) : Bool :=
  controls.all fun (w, flag) => i.testBit w == flag

theorem ext_testBit {n : ℕ} {i j : Fin (2 ^ n)} (h : ∀ w < n, i.val.testBit w = j.val.testBit w) :
    i = j := by
  apply Fin.ext
  apply Nat.eq_of_testBit_eq
  intro w
  by_cases hw : w < n
  · exact h w hw
  · have hle : 2 ^ n ≤ 2 ^ w := Nat.pow_le_pow_right (by decide) (by omega)
    rw [Nat.testBit_lt_two_pow (i.isLt.trans_le hle), Nat.testBit_lt_two_pow (j.isLt.trans_le hle)]

@[simp] theorem val_state_of_lt {n i : ℕ} (h : i < 2 ^ n) : (state n i).val = i := Nat.mod_eq_of_lt h

theorem testBit_state (n i w : ℕ) : (state n i).val.testBit w = (decide (w < n) && i.testBit w) :=
  Nat.testBit_mod_two_pow i n w

theorem testBit_place_of_not_mem {i b w : ℕ} {wires : List ℕ} (h : w ∉ wires) :
    (place i b wires).testBit w = i.testBit w := by
  have hcontains : wires.contains w = false := by simpa using h
  rw [place, Nat.testBit_or, testBit_clear, testBit_scatter_of_not_mem h, hcontains]
  simp

theorem testBit_place_getElem {i b j : ℕ} {wires : List ℕ} (nodup : wires.Nodup)
    (h : j < wires.length) : (place i b wires).testBit wires[j] = b.testBit j := by
  have hcontains : wires.contains wires[j] = true := by simp
  rw [place, Nat.testBit_or, testBit_clear, testBit_scatter nodup h, hcontains]
  simp

theorem clear_eq_clear_iff {i j : ℕ} {wires : List ℕ} :
    clear i wires = clear j wires ↔ ∀ w ∉ wires, i.testBit w = j.testBit w := by
  constructor
  · intro h w hw
    have hbit := congrArg (fun k => k.testBit w) h
    have hcontains : wires.contains w = false := by simpa using hw
    simpa only [testBit_clear, hcontains, Bool.not_false, Bool.and_true] using hbit
  · intro h
    apply Nat.eq_of_testBit_eq
    intro w
    rw [testBit_clear, testBit_clear]
    by_cases hw : w ∈ wires
    · simp [hw]
    · rw [h w hw]

theorem clear_place (i b : ℕ) (wires : List ℕ) : clear (place i b wires) wires = clear i wires :=
  clear_eq_clear_iff.2 fun _ hw => testBit_place_of_not_mem hw

theorem clear_congr {i : ℕ} {v w : List ℕ} (h : ∀ k, k ∈ v ↔ k ∈ w) : clear i v = clear i w := by
  apply Nat.eq_of_testBit_eq
  intro k
  simp [testBit_clear, h]

theorem holds_congr {controls : List (ℕ × Bool)} {i j : ℕ}
    (h : ∀ c ∈ controls, i.testBit c.1 = j.testBit c.1) : holds controls i = holds controls j := by
  unfold holds
  rw [Bool.eq_iff_iff, List.all_eq_true, List.all_eq_true]
  refine forall₂_congr fun c hc => ?_
  change (i.testBit c.1 == c.2) = true ↔ (j.testBit c.1 == c.2) = true
  rw [h c hc]

theorem holds_append (controls more : List (ℕ × Bool)) (i : ℕ) :
    holds (controls ++ more) i = (holds controls i && holds more i) := by
  simp [holds]

theorem gather_congr {i j : ℕ} {wires : List ℕ}
    (h : ∀ w ∈ wires, i.testBit w = j.testBit w) : gather i wires = gather j wires := by
  induction wires with
  | nil => rfl
  | cons w ws ih =>
    obtain ⟨hw, hws⟩ := List.forall_mem_cons.1 h
    rw [gather, gather, hw, ih hws]

theorem gather_append (i : ℕ) (front back : List ℕ) :
    gather i (front ++ back) = gather i front + 2 ^ front.length * gather i back := by
  induction front with
  | nil => simp
  | cons w ws ih =>
    rw [List.cons_append, gather, gather, ih, List.length_cons, Nat.pow_succ]
    ring

theorem testBit_scatter_range' (bits first count w : ℕ) :
    (scatter bits (List.range' first count)).testBit w =
      (decide (first ≤ w ∧ w < first + count) && bits.testBit (w - first)) := by
  by_cases hw : first ≤ w ∧ w < first + count
  · have hlen : w - first < (List.range' first count).length := by
      rw [List.length_range']
      omega
    have hget : (List.range' first count)[w - first] = w := by
      rw [List.getElem_range']
      omega
    have hbit : (scatter bits _).testBit _ = bits.testBit _ := testBit_scatter List.nodup_range' hlen
    rw [hget] at hbit
    rw [hbit, decide_eq_true hw, Bool.true_and]
  · have hmem : w ∉ List.range' first count := fun hmem => hw (List.mem_range'_1.1 hmem)
    rw [testBit_scatter_of_not_mem hmem, decide_eq_false hw, Bool.false_and]

theorem others_range' (n k : ℕ) : others (n + k) (List.range' 0 n) = List.range' n k := by
  have hsplit : List.range (n + k) = List.range' 0 n ++ List.range' n k := by
    have hn := List.range'_append_1 (s := 0) (m := n) (n := k)
    rw [List.range_eq_range', ← hn, Nat.zero_add]
  have hfront : (List.range' 0 n).filter (fun w => !(List.range' 0 n).contains w) = [] := by
    rw [List.filter_eq_nil_iff]
    intro w hw
    have hcontains : (List.range' 0 n).contains w = true := List.contains_iff_mem.2 hw
    rw [hcontains]
    exact Bool.false_ne_true
  have hback : (List.range' n k).filter (fun w => !(List.range' 0 n).contains w) = List.range' n k := by
    rw [List.filter_eq_self]
    intro w hw
    have hle := (List.mem_range'_1.1 hw).1
    simp [List.mem_range'_1, hle]
  rw [others, hsplit, List.filter_append, hfront, hback, List.nil_append]

theorem split_lt {n k i j : ℕ} (hi : i < 2 ^ n) (hj : j < 2 ^ k) : i + 2 ^ n * j < 2 ^ (n + k) :=
  calc i + 2 ^ n * j < 2 ^ n * (j + 1) := by
        rw [mul_add, mul_one, Nat.add_comm]
        exact Nat.add_lt_add_left hi _
    _ ≤ 2 ^ n * 2 ^ k := Nat.mul_le_mul_left _ hj
    _ = 2 ^ (n + k) := (pow_add 2 n k).symm

theorem testBit_split {n i : ℕ} (hi : i < 2 ^ n) (j w : ℕ) :
    (i + 2 ^ n * j).testBit w = if w < n then i.testBit w else j.testBit (w - n) := by
  rw [Nat.add_comm, Nat.testBit_two_pow_mul_add _ hi]

theorem split_xor {n i : ℕ} (hi : i < 2 ^ n) (j m : ℕ) : (i + 2 ^ n * j) ^^^ (2 ^ n * m) = i + 2 ^ n * (j ^^^ m) := by
  apply Nat.eq_of_testBit_eq
  intro w
  rw [Nat.testBit_xor, testBit_split hi, testBit_split hi, Nat.testBit_two_pow_mul, Nat.testBit_xor]
  by_cases hw : w < n
  · have hlow : ¬ n ≤ w := not_le.2 hw
    simp [hw, hlow]
  · simp [hw, not_lt.1 hw]

theorem sum_split {M : Type*} [AddCommMonoid M] (n k : ℕ) (f : ℕ → M) :
    ∑ i : Fin (2 ^ (n + k)), f i = ∑ j : Fin (2 ^ k), ∑ i : Fin (2 ^ n), f (i + 2 ^ n * j) := by
  have hpow : 2 ^ k * 2 ^ n = 2 ^ (n + k) := by rw [Nat.mul_comm, pow_add]
  rw [← Fintype.sum_prod_type']
  exact (Fintype.sum_equiv (finProdFinEquiv.trans (finCongr hpow)) _ _ fun _ => rfl).symm

namespace Selects

variable {n d k : ℕ} {wires : List ℕ}

theorem range (n : ℕ) : Selects n n (List.range n) :=
  ⟨List.length_range, List.nodup_range, fun _ h => List.mem_range.1 h⟩

theorem mono {m : ℕ} (h : Selects m d wires) (hle : m ≤ n) : Selects n d wires :=
  ⟨h.length, h.nodup, fun w hw => (h.below w hw).trans_le hle⟩

theorem reverse (h : Selects n d wires) : Selects n d wires.reverse :=
  ⟨List.length_reverse.trans h.length, List.nodup_reverse.2 h.nodup,
    fun w hw => h.below w (List.mem_reverse.1 hw)⟩

theorem drop (h : Selects n d wires) (k : ℕ) : Selects n (d - k) (wires.drop k) :=
  ⟨by rw [List.length_drop, h.length], h.nodup.sublist (List.drop_sublist k wires),
    fun w hw => h.below w (List.mem_of_mem_drop hw)⟩

theorem getD_mem (h : Selects n d wires) {j : ℕ} (hj : j < d) : wires.getD j 0 ∈ wires := by
  rw [List.getD_eq_getElem _ _ (h.length ▸ hj)]
  exact List.getElem_mem _

theorem getD_inj (h : Selects n d wires) {j l : ℕ} (hj : j < d) (hl : l < d)
    (same : wires.getD j 0 = wires.getD l 0) : j = l := by
  rw [List.getD_eq_getElem _ _ (h.length ▸ hj), List.getD_eq_getElem _ _ (h.length ▸ hl)] at same
  exact (h.nodup.getElem_inj_iff).1 same

theorem controls_iff {controls : List (ℕ × Bool)} :
    Selects n (controls.length + d) (controls.map Prod.fst ++ wires) ↔
      Selects n controls.length (controls.map Prod.fst) ∧ Selects n d wires ∧
        ∀ c ∈ controls, c.1 ∉ wires := by
  constructor
  · intro h
    obtain ⟨hcontrols, hwires, hdisjoint⟩ := List.nodup_append.1 h.nodup
    have hlen := h.length
    rw [List.length_append, List.length_map] at hlen
    exact ⟨⟨List.length_map _, hcontrols, fun w hw => h.below w (List.mem_append_left _ hw)⟩,
      ⟨by omega, hwires, fun w hw => h.below w (List.mem_append_right _ hw)⟩,
      fun c hc hw => hdisjoint c.1 (List.mem_map_of_mem hc) c.1 hw rfl⟩
  · rintro ⟨hcontrols, hwires, hdisjoint⟩
    refine ⟨by rw [List.length_append, hcontrols.length, hwires.length],
      List.nodup_append.2 ⟨hcontrols.nodup, hwires.nodup, ?_⟩, ?_⟩
    · rintro w hw _ hw' rfl
      obtain ⟨c, hc, rfl⟩ := List.mem_map.1 hw
      exact hdisjoint c hc hw'
    · intro w hw
      exact (List.mem_append.1 hw).elim (hcontrols.below w) (hwires.below w)

theorem leading {controls own : List (ℕ × Bool)}
    (h : Selects n (controls.length + (k + d)) (controls.map Prod.fst ++ wires))
    (hown : own.map Prod.fst = wires.take k) :
    Selects n ((controls ++ own).length + d) ((controls ++ own).map Prod.fst ++ wires.drop k) := by
  have hlist : (controls ++ own).map Prod.fst ++ wires.drop k = controls.map Prod.fst ++ wires := by
    rw [List.map_append, hown, List.append_assoc, List.take_append_drop]
  have hlength := h.length
  rw [List.length_append, List.length_map] at hlength
  have hcount : own.length = k := by
    rw [← List.length_map Prod.fst, hown, List.length_take]
    omega
  rw [hlist]
  refine ⟨?_, h.nodup, h.below⟩
  rw [h.length, List.length_append, hcount, Nat.add_assoc]

theorem mem_of_mem_outer (h : Selects n d wires) {inside : List ℕ} (below : ∀ j ∈ inside, j < d)
    {w : ℕ} (hw : w ∈ Instruction.outer wires inside) : w ∈ wires := by
  obtain ⟨j, hj, rfl⟩ := List.mem_map.1 hw
  exact h.getD_mem (below j hj)

theorem outer (h : Selects n d wires) {inside : List ℕ} (hin : Selects d k inside) :
    Selects n k (Instruction.outer wires inside) := by
  refine ⟨by rw [Instruction.outer, List.length_map, hin.length], ?_, ?_⟩
  · exact hin.nodup.map_on fun j hj l hl same => h.getD_inj (hin.below j hj) (hin.below l hl) same
  · exact fun w hw => h.below w (h.mem_of_mem_outer hin.below hw)

theorem place_lt (h : Selects n d wires) (i : Fin (2 ^ n)) (b : ℕ) : place i b wires < 2 ^ n := by
  apply Nat.lt_pow_two_of_testBit
  intro w hw
  have hmem : w ∉ wires := fun hmem => absurd (h.below w hmem) (by omega)
  rw [testBit_place_of_not_mem hmem]
  exact Nat.testBit_lt_two_pow (i.isLt.trans_le (Nat.pow_le_pow_right (by decide) hw))

theorem val_write (h : Selects n d wires) (i : Fin (2 ^ n)) (b : Fin (2 ^ d)) :
    (write wires i b).val = place i b wires := val_state_of_lt (h.place_lt i b)

theorem testBit_write_of_not_mem (h : Selects n d wires) (i : Fin (2 ^ n)) (b : Fin (2 ^ d))
    {w : ℕ} (hw : w ∉ wires) : (write wires i b).val.testBit w = i.val.testBit w := by
  rw [h.val_write, testBit_place_of_not_mem hw]

theorem testBit_write_getD (h : Selects n d wires) (i : Fin (2 ^ n)) (b : Fin (2 ^ d)) {j : ℕ}
    (hj : j < d) : (write wires i b).val.testBit (wires.getD j 0) = b.val.testBit j := by
  rw [h.val_write, List.getD_eq_getElem _ _ (h.length ▸ hj), testBit_place_getElem h.nodup]

theorem testBit_read (h : Selects n d wires) (i : ℕ) {j : ℕ} (hj : j < d) :
    (read d wires i).val.testBit j = i.testBit (wires.getD j 0) := by
  have hlen : j < wires.length := h.length ▸ hj
  rw [read, testBit_state, testBit_gather, List.getElem?_eq_getElem hlen,
    List.getD_eq_getElem _ _ hlen]
  simp [hj]

@[simp] theorem read_write (h : Selects n d wires) (i : Fin (2 ^ n)) (b : Fin (2 ^ d)) :
    read d wires (write wires i b).val = b := by
  apply ext_testBit
  intro j hj
  rw [h.testBit_read _ hj, h.testBit_write_getD i b hj]

theorem read_write_of_disjoint (h : Selects n d wires) {others : List ℕ}
    (disjoint : ∀ w ∈ others, w ∉ wires) (i : Fin (2 ^ n)) (b : Fin (2 ^ d)) :
    read k others (write wires i b).val = read k others i.val := by
  rw [read, read, gather_congr fun w hw => h.testBit_write_of_not_mem i b (disjoint w hw)]

theorem ext (h : Selects n d wires) {i j : Fin (2 ^ n)}
    (inside : ∀ l < d, i.val.testBit (wires.getD l 0) = j.val.testBit (wires.getD l 0))
    (outside : ∀ w ∉ wires, i.val.testBit w = j.val.testBit w) : i = j := by
  apply ext_testBit
  intro w _
  by_cases hw : w ∈ wires
  · obtain ⟨l, hl, rfl⟩ := List.getElem_of_mem hw
    rw [← List.getD_eq_getElem _ 0 hl]
    exact inside l (h.length ▸ hl)
  · exact outside w hw

theorem write_read (h : Selects n d wires) {i j : Fin (2 ^ n)}
    (same : clear i.val wires = clear j.val wires) : write wires i (read d wires j.val) = j := by
  apply h.ext
  · intro l hl
    rw [h.testBit_write_getD _ _ hl, h.testBit_read _ hl]
  · intro w hw
    rw [h.testBit_write_of_not_mem _ _ hw, clear_eq_clear_iff.1 same w hw]

theorem clear_write (h : Selects n d wires) (i : Fin (2 ^ n)) (b : Fin (2 ^ d)) :
    clear (write wires i b).val wires = clear i.val wires := by
  rw [h.val_write, clear_place]

@[simp] theorem write_write (h : Selects n d wires) (i : Fin (2 ^ n)) (b c : Fin (2 ^ d)) :
    write wires (write wires i b) c = write wires i c := by
  apply h.ext
  · intro l hl
    rw [h.testBit_write_getD _ _ hl, h.testBit_write_getD _ _ hl]
  · intro w hw
    rw [h.testBit_write_of_not_mem _ _ hw, h.testBit_write_of_not_mem _ _ hw,
      h.testBit_write_of_not_mem _ _ hw]

theorem write_comm (h : Selects n d wires) {others : List ℕ} (h' : Selects n k others)
    (disjoint : ∀ w ∈ wires, w ∉ others) (i : Fin (2 ^ n)) (b : Fin (2 ^ d)) (c : Fin (2 ^ k)) :
    write others (write wires i b) c = write wires (write others i c) b := by
  apply h.ext
  · intro l hl
    have hmem := disjoint _ (h.getD_mem hl)
    rw [h'.testBit_write_of_not_mem _ _ hmem, h.testBit_write_getD _ _ hl, h.testBit_write_getD _ _ hl]
  · intro w hw
    rw [h.testBit_write_of_not_mem _ _ hw]
    by_cases hmem : w ∈ others
    · obtain ⟨j, hj, rfl⟩ := List.getElem_of_mem hmem
      rw [← List.getD_eq_getElem _ 0 hj, h'.testBit_write_getD _ _ (h'.length ▸ hj),
        h'.testBit_write_getD _ _ (h'.length ▸ hj)]
    · rw [h'.testBit_write_of_not_mem _ _ hmem, h.testBit_write_of_not_mem _ _ hw,
        h'.testBit_write_of_not_mem _ _ hmem]

theorem holds_write (h : Selects n d wires) {controls : List (ℕ × Bool)}
    (free : ∀ c ∈ controls, c.1 ∉ wires) (i : Fin (2 ^ n)) (b : Fin (2 ^ d)) :
    holds controls (write wires i b).val = holds controls i.val :=
  holds_congr fun c hc => h.testBit_write_of_not_mem i b (free c hc)

theorem sum_write {M : Type*} [AddCommMonoid M] (h : Selects n d wires) (i : Fin (2 ^ n))
    (f : Fin (2 ^ n) → M) :
    ∑ b : Fin (2 ^ d), f (write wires i b) =
      ∑ k with clear i.val wires = clear k.val wires, f k := by
  refine Finset.sum_bij' (fun b _ => write wires i b) (fun k _ => read d wires k.val)
    ?_ ?_ ?_ ?_ ?_
  · intro b _
    simp [h.clear_write i b]
  · intro k _
    exact Finset.mem_univ _
  · intro b _
    exact h.read_write i b
  · intro k hk
    exact h.write_read (Finset.mem_filter.1 hk).2
  · intro b _
    rfl

theorem mem_ascending (h : Selects n d wires) (w : ℕ) : w ∈ ascending n wires ↔ w ∈ wires := by
  rw [ascending, List.mem_filter, List.mem_range, List.contains_iff_mem]
  exact ⟨And.right, fun hw => ⟨h.below w hw, hw⟩⟩

theorem ascending (h : Selects n d wires) : Selects n d (ascending n wires) := by
  have hnodup : (Basis.ascending n wires).Nodup := List.nodup_range.filter _
  have hperm : (Basis.ascending n wires).Perm wires :=
    (List.perm_ext_iff_of_nodup hnodup h.nodup).2 h.mem_ascending
  exact ⟨hperm.length_eq.trans h.length, hnodup, fun w hw => h.below w ((h.mem_ascending w).1 hw)⟩

theorem val_read (h : Selects n d wires) (i : ℕ) : (read d wires i).val = gather i wires :=
  val_state_of_lt (h.length ▸ gather_lt i wires)

theorem place_gather (h : Selects n d wires) {i j : ℕ} (hi : i < 2 ^ n) (hj : j < 2 ^ n)
    (same : clear i wires = clear j wires) : place i (gather j wires) wires = j := by
  have hval := congrArg Fin.val (h.write_read (i := ⟨i, hi⟩) (j := ⟨j, hj⟩) same)
  rwa [h.val_write, h.val_read] at hval

theorem clear_ascending (h : Selects n d wires) (i : ℕ) :
    clear i (Basis.ascending n wires) = clear i wires := clear_congr h.mem_ascending

theorem gather_scatter_ascending (h : Selects n d wires) (i b : ℕ) :
    gather (scatter b (Basis.ascending n wires)) wires = gather (place i b (Basis.ascending n wires)) wires := by
  refine gather_congr fun w hw => ?_
  have hmem := (h.mem_ascending w).2 hw
  rw [place, Nat.testBit_or, testBit_clear, List.contains_iff_mem.2 hmem, Bool.not_true, Bool.and_false, Bool.false_or]

theorem sum_ascending {M : Type*} [AddCommMonoid M] (h : Selects n d wires) (i : Fin (2 ^ n))
    (f : Fin (2 ^ n) → M) :
    ∑ b : Fin (2 ^ d), f (write (Basis.ascending n wires) i b) =
      ∑ b : Fin (2 ^ d), f (write wires i b) := by
  rw [h.ascending.sum_write, h.sum_write]
  simp only [h.clear_ascending]

theorem range' (h : k + n = d) : Selects d n (List.range' k n) := by
  refine ⟨List.length_range', List.nodup_range', fun w hw => ?_⟩
  have hmem := List.mem_range'_1.1 hw
  omega

end Selects

section Lowest

variable {n d : ℕ}

theorem getD_range {w : ℕ} (hw : w < d) : (List.range d).getD w 0 = w := by simp [hw]

theorem read_range (d i : ℕ) : read d (List.range d) i = state d i := by
  apply ext_testBit
  intro w hw
  rw [(Selects.range d).testBit_read _ hw, getD_range hw, testBit_state, decide_eq_true hw, Bool.true_and]

theorem val_write_range (hle : d ≤ n) {i : Fin (2 ^ n)} (hi : i.val < 2 ^ d) (b : Fin (2 ^ d)) :
    (write (List.range d) i b).val = b.val := by
  have hsel : Selects n d (List.range d) := (Selects.range d).mono hle
  apply Nat.eq_of_testBit_eq
  intro w
  by_cases hw : w < d
  · have hbit := hsel.testBit_write_getD i b hw
    rwa [getD_range hw] at hbit
  · have hmem : w ∉ List.range d := fun hmem => hw (List.mem_range.1 hmem)
    have hlarge : 2 ^ d ≤ 2 ^ w := Nat.pow_le_pow_right Nat.two_pos (not_lt.1 hw)
    rw [hsel.testBit_write_of_not_mem _ _ hmem, Nat.testBit_lt_two_pow (hi.trans_le hlarge),
      Nat.testBit_lt_two_pow (b.isLt.trans_le hlarge)]

end Lowest
end QuantumCircuits.Basis

namespace QuantumCircuits.Instruction

variable {k n : ℕ} {wires : List ℕ}

theorem outer_range' (h : k + n = wires.length) :
    outer wires (List.range' k n) = wires.drop k := by
  apply List.ext_getElem
  · rw [outer, List.length_map, List.length_range', List.length_drop]
    omega
  · intro i hi _
    rw [outer, List.length_map, List.length_range'] at hi
    have hlen : k + i < wires.length := by omega
    simp [outer, hlen]

theorem outer_range (h : k ≤ wires.length) :
    outer wires (List.range k) = wires.take k := by
  apply List.ext_getElem
  · rw [outer, List.length_map, List.length_range, List.length_take]
    omega
  · intro i hi _
    rw [outer, List.length_map, List.length_range] at hi
    have hlen : i < wires.length := by omega
    simp [outer, hlen]

end QuantumCircuits.Instruction
