import Mathlib
import QuantumCircuits.Circuit.Basic
import QuantumCircuits.Proofs.Basis.Wires
import QuantumCircuits.Proofs.Matrix.Dense
import QuantumCircuits.Proofs.Success

/-! What every circuit satisfies that checked calls build: registers follow one another, steps fit
their operations and the circuit, and the wrappers hold what they may hold, at every depth. Each
call keeps it. -/

namespace QuantumCircuits
open QuantumCircuits.Basis

/-- The offset of each register is the sum of the sizes before it, counted from a first wire. -/
def Register.Consecutive : ℕ → List Register → Prop
  | _, [] => True
  | first, r :: rest => r.offset = first ∧ Consecutive (first + r.size) rest

structure Layout.WellFormed (l : Layout) : Prop where
  offsets : Register.Consecutive 0 l.registers
  total : l.wires = l.sizes.sum
  nonempty : ∀ r ∈ l.registers, 0 < r.size

theorem Register.consecutive_append {first : ℕ} {rs ss : List Register} :
    Consecutive first (rs ++ ss) ↔
      Consecutive first rs ∧ Consecutive (first + (rs.map Register.size).sum) ss := by
  induction rs generalizing first with
  | nil => simp [Consecutive]
  | cons r rs ih => simp [Consecutive, ih, and_assoc, Nat.add_assoc]

theorem Register.consecutive_shift {first : ℕ} {rs : List Register} (h : Consecutive first rs)
    (distance : ℕ) : Consecutive (distance + first) (rs.map (·.shift distance)) := by
  induction rs generalizing first with
  | nil => trivial
  | cons r rs ih =>
    obtain ⟨hr, hrest⟩ := h
    refine ⟨?_, ?_⟩
    · change r.offset + distance = _
      rw [hr, Nat.add_comm]
    · have hshift := ih hrest
      rwa [← Nat.add_assoc] at hshift

theorem Register.Consecutive.bounds {first : ℕ} {rs : List Register} (h : Consecutive first rs) :
    ∀ r ∈ rs, first ≤ r.offset ∧ r.offset + r.size ≤ first + (rs.map Register.size).sum := by
  induction rs generalizing first with
  | nil => exact List.forall_mem_nil _
  | cons r rs ih =>
    obtain ⟨rfl, hrest⟩ := h
    rw [List.map_cons, List.sum_cons]
    refine List.forall_mem_cons.2 ⟨⟨le_rfl, by omega⟩, fun s hs => ?_⟩
    obtain ⟨hstart, hend⟩ := ih hrest s hs
    omega

theorem Register.Consecutive.pairwise {first : ℕ} {rs : List Register} (h : Consecutive first rs) :
    rs.Pairwise fun r s => r.offset + r.size ≤ s.offset := by
  induction rs generalizing first with
  | nil => exact .nil
  | cons r rs ih =>
    obtain ⟨rfl, hrest⟩ := h
    exact .cons (fun s hs => (hrest.bounds s hs).1) (ih hrest)

namespace Layout

theorem WellFormed.empty : Layout.empty.WellFormed := ⟨trivial, rfl, by simp [Layout.empty]⟩

theorem WellFormed.add {l m : Layout} {name : String} {size : ℕ} {r : Register}
    (h : l.WellFormed) (hadd : l.add name size = .ok (r, m)) : m.WellFormed := by
  unfold Layout.add at hadd
  split at hadd
  · cases hadd
  · next hsize =>
    cases hadd
    refine ⟨?_, ?_, ?_⟩
    · refine Register.consecutive_append.2 ⟨h.offsets, ?_, trivial⟩
      change l.wires = _
      rw [h.total, Nat.zero_add, Layout.sizes]
    · change l.wires + size = _
      simp [h.total, Layout.sizes]
    · intro s hs
      rcases List.mem_append.1 hs with hs | hs
      · exact h.nonempty s hs
      · rw [List.mem_singleton.1 hs]
        exact Nat.pos_of_ne_zero hsize

theorem WellFormed.append {l m : Layout} (h : l.WellFormed) (h' : m.WellFormed) :
    (l.append m).WellFormed := by
  refine ⟨Register.consecutive_append.2 ⟨h.offsets, ?_⟩, ?_, ?_⟩
  · have hstart : 0 + (l.registers.map Register.size).sum = l.wires + 0 := by
      rw [h.total, Layout.sizes, Nat.add_comm]
    rw [hstart]
    exact Register.consecutive_shift h'.offsets l.wires
  · change l.wires + m.wires = _
    simp [h.total, h'.total, Layout.append, Layout.sizes, Register.shift, Function.comp_def]
  · intro s hs
    rcases List.mem_append.1 hs with hs | hs
    · exact h.nonempty s hs
    · obtain ⟨r, hr, rfl⟩ := List.mem_map.1 hs
      exact h'.nonempty r hr

variable {l : Layout} {r r' : Register} {name : String}

theorem WellFormed.selects (h : l.WellFormed) (hr : r ∈ l.registers) : Selects l.wires r.size r.wires := by
  have hend := (h.offsets.bounds r hr).2
  rw [Nat.zero_add] at hend
  exact (Selects.range' rfl).mono (h.total ▸ hend)

theorem WellFormed.disjoint (h : l.WellFormed) (hr : r ∈ l.registers) (hr' : r' ∈ l.registers) (hne : r ≠ r') :
    List.Disjoint r.wires r'.wires := by
  have happart : l.registers.Pairwise fun r s => r.offset + r.size ≤ s.offset ∨ s.offset + s.size ≤ r.offset :=
    h.offsets.pairwise.imp Or.inl
  have : Std.Symm fun r s : Register => r.offset + r.size ≤ s.offset ∨ s.offset + s.size ≤ r.offset :=
    ⟨fun _ _ => Or.symm⟩
  have hbefore := happart.forall hr hr' hne
  intro w hw hw'
  rw [Register.mem_wires] at hw hw'
  omega

theorem mem_of_find? (h : l.find? name = some r) : r ∈ l.registers ∧ r.name = name :=
  ⟨List.mem_of_find?_eq_some h, by simpa using List.find?_some h⟩

end Layout

variable {R : Type}

abbrev Step.Fits (total : ℕ) (s : Step (Operation R)) : Prop :=
  Selects total s.operation.arity s.wires

theorem Circuit.checkWires_eq_ok_iff {o : Operation R} {total : ℕ} {seen wires : List ℕ} :
    Circuit.checkWires o total seen wires = .ok () ↔
      (∀ w ∈ wires, w < total) ∧ wires.Nodup ∧ ∀ w ∈ wires, w ∉ seen := by
  induction wires generalizing seen with
  | nil => simp [Circuit.checkWires]
  | cons w ws ih =>
    rw [Circuit.checkWires]
    split
    · next hle => simp [hle]
    · split
      · next hseen =>
        have hmem : w ∈ seen := by simpa using hseen
        simp [hmem]
      · next hlt hseen =>
        have hmem : w ∉ seen := by simpa using hseen
        rw [ih]
        simp only [List.mem_cons, forall_eq_or_imp, List.nodup_cons, not_or]
        constructor
        · rintro ⟨hbelow, hnodup, hfresh⟩
          exact ⟨⟨by omega, hbelow⟩, ⟨fun hw => (hfresh w hw).1 rfl, hnodup⟩, hmem,
            fun v hv => (hfresh v hv).2⟩
        · rintro ⟨⟨_, hbelow⟩, ⟨hw, hnodup⟩, _, hfresh⟩
          exact ⟨hbelow, hnodup, fun v hv => ⟨fun same => hw (same ▸ hv), hfresh v hv⟩⟩

theorem Circuit.checkStep_eq_ok_iff {total : ℕ} {s : Step (Operation R)} :
    Circuit.checkStep total s = .ok () ↔ s.Fits total := by
  rw [Circuit.checkStep]
  split
  · next hlen => exact ⟨nofun, fun h => absurd h.length hlen⟩
  · next hlen =>
    rw [Circuit.checkWires_eq_ok_iff]
    constructor
    · rintro ⟨hbelow, hnodup, _⟩
      exact ⟨not_not.1 hlen, hnodup, hbelow⟩
    · intro h
      exact ⟨h.below, h.nodup, fun _ _ => List.not_mem_nil⟩

namespace Circuit

variable {c d : Circuit R}

theorem appendAll_eq_ok_iff {steps : List (Step (Operation R))} :
    c.appendAll steps = .ok d ↔
      (∀ s ∈ steps, s.Fits c.wires) ∧ d = { c with steps := c.steps ++ steps } := by
  rw [appendAll, bind_eq_ok_iff]
  have hcheck : forM steps (checkStep c.wires) = .ok () ↔ ∀ s ∈ steps, s.Fits c.wires :=
    forM_eq_ok_iff.trans (forall₂_congr fun _ _ => checkStep_eq_ok_iff)
  rw [← hcheck]
  exact ⟨fun ⟨_, h, same⟩ => ⟨h, (pure_eq_ok_iff.1 same).symm⟩, fun ⟨h, same⟩ => ⟨_, h, same ▸ rfl⟩⟩

theorem append_eq_ok_iff {o : Operation R} {wires : List ℕ} :
    c.append o wires = .ok d ↔
      Selects c.wires o.arity wires ∧ d = { c with steps := c.steps ++ [⟨o, wires⟩] } := by
  rw [append, appendAll_eq_ok_iff, List.forall_mem_singleton]

theorem addRegister_eq_ok_iff {name : String} {size : ℕ} {r : Register} :
    c.addRegister name size = .ok (r, d) ↔
      0 < size ∧ r = ⟨name, size, c.wires⟩ ∧
        d = ⟨c.name, ⟨c.layout.registers ++ [r], c.wires + size⟩, c.steps⟩ := by
  rw [addRegister, bind_eq_ok_iff]
  unfold Layout.add
  split
  · next hzero => simp [hzero]
  · next hpos =>
    constructor
    · rintro ⟨⟨s, l⟩, hadd, same⟩
      cases hadd
      cases pure_eq_ok_iff.1 same
      exact ⟨Nat.pos_of_ne_zero hpos, rfl, rfl⟩
    · rintro ⟨_, rfl, rfl⟩
      exact ⟨_, rfl, rfl⟩

theorem addRegister_empty {size : ℕ} (hpos : 0 < size) (name register : String) :
    (empty name : Circuit R).addRegister register size =
      .ok (⟨register, size, 0⟩, ⟨name, ⟨[⟨register, size, 0⟩], size⟩, []⟩) := by
  refine addRegister_eq_ok_iff.2 ⟨hpos, rfl, ?_⟩
  simp [empty, Layout.empty, CircuitOf.wires]

theorem pos_of_addRegister {c d : Circuit R} {name : String} {size : ℕ} {r : Register}
    (h : c.addRegister name size = .ok (r, d)) : 0 < size := (addRegister_eq_ok_iff.1 h).1

theorem exists_addRegister (c : Circuit R) (name : String) {size : ℕ} (hpos : 0 < size) :
    ∃ r d, c.addRegister name size = .ok (r, d) := ⟨_, _, addRegister_eq_ok_iff.2 ⟨hpos, rfl, rfl⟩⟩

theorem of_addRegister {name : String} {size : ℕ} {r : Register}
    (h : c.addRegister name size = .ok (r, d)) :
    r = ⟨name, size, c.wires⟩ ∧ d.wires = c.wires + size ∧
      d.layout.registers = c.layout.registers ++ [r] ∧ d.steps = c.steps := by
  obtain ⟨_, hr, rfl⟩ := addRegister_eq_ok_iff.1 h
  exact ⟨hr, rfl, rfl, rfl⟩

theorem of_appendAll {steps : List (Step (Operation R))} (h : c.appendAll steps = .ok d) :
    d.layout = c.layout ∧ d.steps = c.steps ++ steps := by
  obtain ⟨_, rfl⟩ := appendAll_eq_ok_iff.1 h
  exact ⟨rfl, rfl⟩

end Circuit

namespace Operation

theorem isUnitary_of_control {o a : Operation R} {n : ℕ} {s : ControlState} (h : o.control n s = .ok a) :
    o.isUnitary = true := by
  unfold control at h
  split at h
  · cases h
  · split at h
    · next hunitary => exact hunitary
    · cases h

theorem powerOfTwo_eq_ok_iff {o a : Operation R} {k : ℕ} :
    o.powerOfTwo k = .ok a ↔ k < 32 ∧ a = .powered o (1 <<< k) := by
  have hpos : 1 <<< k ≠ 0 := by
    rw [Nat.one_shiftLeft]
    exact (Nat.two_pow_pos k).ne'
  rw [powerOfTwo, power, if_neg hpos]
  split
  · next hk => exact ⟨fun h => ⟨hk, (Except.ok.inj h).symm⟩, fun ⟨_, h⟩ => h ▸ rfl⟩
  · next hk => exact ⟨nofun, fun ⟨hlt, _⟩ => absurd hlt hk⟩

end Operation

theorem Gate.controls_le_arity (g : Gate R) : g.controls ≤ g.arity := by
  cases g with
  | fixed kind => exact Nat.le_add_right _ _
  | angle kind θ => exact Nat.le_add_right _ _
  | _ => exact Nat.zero_le _

theorem Gate.checkDimension_eq_ok_iff {m : DenseMatrix (Cx R)} :
    Gate.checkDimension m = .ok () ↔ m.rows = m.columns ∧ 2 ≤ m.rows ∧ ∃ n, m.rows = 2 ^ n := by
  have hpower : (wires? m.rows).isNone = false ↔ ∃ n, m.rows = 2 ^ n := by
    rw [Option.isNone_eq_false_iff, Option.isSome_iff_exists]
    exact exists_congr fun _ => wires?_eq_some_iff
  rw [Gate.checkDimension]
  split
  · next hne => simp [hne]
  · next heq =>
    rw [← hpower]
    split
    · next hbad =>
      rw [Bool.or_eq_true, decide_eq_true_eq] at hbad
      refine ⟨nofun, fun ⟨_, hle, hsome⟩ => ?_⟩
      rcases hbad with hlt | hnone
      · omega
      · exact absurd hnone (by rw [hsome]; decide)
    · next hgood =>
      rw [Bool.or_eq_true, decide_eq_true_eq, not_or, Bool.not_eq_true] at hgood
      exact ⟨fun _ => ⟨not_not.1 heq, not_lt.1 hgood.1, hgood.2⟩, fun _ => rfl⟩

theorem Gate.checkDimension_of_shaped {m : DenseMatrix (Cx R)} {d : ℕ} (hd : 0 < d) (hshape : m.Shaped (2 ^ d) (2 ^ d)) :
    Gate.checkDimension m = .ok () := by
  refine checkDimension_eq_ok_iff.2 ⟨hshape.rows.trans hshape.columns.symm, ?_, d, hshape.rows⟩
  rw [hshape.rows]
  exact Nat.le_self_pow hd.ne' 2

theorem Gate.shaped_of_checkDimension {m : DenseMatrix (Cx R)} (h : Gate.checkDimension m = .ok ()) :
    m.Shaped (2 ^ m.wireCount) (2 ^ m.wireCount) := by
  obtain ⟨hsquare, _, n, hn⟩ := Gate.checkDimension_eq_ok_iff.1 h
  have hcount : m.wireCount = n := by rw [DenseMatrix.wireCount, hn, Nat.log2_two_pow]
  rw [hcount]
  exact ⟨hn, hsquare ▸ hn⟩

variable [Scalar R]

def DenseMatrix.IsHamiltonian (h : DenseMatrix (Cx R)) : Prop :=
  Gate.checkDimension h = .ok () ∧ h.isNear h.adjoint = true

/-- What the constructors of dense gates and of evolutions check, of a dense gate its shape only. -/
def Gate.WellFormed : Gate R → Prop
  | .dense _ m => Gate.checkDimension m = .ok ()
  | .evolution h _ => h.IsHamiltonian
  | _ => True

inductive Operation.WellFormed : Operation R → Prop
  | primitive {g : Gate R} (gate : g.WellFormed) : WellFormed (.primitive g)
  | composite {c : Circuit R} (layout : c.layout.WellFormed) (fits : ∀ s ∈ c.steps, s.Fits c.wires)
    (inner : ∀ s ∈ c.steps, WellFormed s.operation) : WellFormed (.composite c)
  | controlled {o : Operation R} {s : ControlState} (inner : WellFormed o)
    (unitary : o.isUnitary = true) (controls : 0 < s.length) : WellFormed (.controlled o s)
  | powered {o : Operation R} {e : ℕ} (inner : WellFormed o) (exponent : 0 < e) :
    WellFormed (.powered o e)
  | inverted {o : Operation R} (inner : WellFormed o) (unitary : o.isUnitary = true) :
    WellFormed (.inverted o)

def Circuit.WellFormed (c : Circuit R) : Prop := (Operation.composite c).WellFormed

theorem Circuit.wellFormed_iff {c : Circuit R} :
    c.WellFormed ↔ c.layout.WellFormed ∧
      ∀ s ∈ c.steps, s.Fits c.wires ∧ s.operation.WellFormed := by
  constructor
  · intro h
    cases h with
    | composite layout fits inner => exact ⟨layout, fun s hs => ⟨fits s hs, inner s hs⟩⟩
  · rintro ⟨layout, hsteps⟩
    exact .composite layout (fun s hs => (hsteps s hs).1) fun s hs => (hsteps s hs).2

end QuantumCircuits
