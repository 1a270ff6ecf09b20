import Mathlib
import QuantumCircuits.Proofs.Algorithm.LogicalFidelity
import QuantumCircuits.Proofs.Operator.Syndrome
import QuantumCircuits.Proofs.Simulation.Assembly

/-! Codes given by tables of gates, and a check of the tables: which errors they correct is decided by moving
strings past the gates. Tables that pass the check correct every combination of those errors, with the
input left on the code register and some state on the syndrome register. -/

namespace QuantumCircuits
open QuantumCircuits.Basis PauliString

structure CodeTables.Check where
  wire : ℕ
  gates : List (FixedGate × ℕ)

structure CodeTables.Correction where
  gate : FixedGate
  flags : List Bool
  target : ℕ

/-- The code wires come first, the syndrome wires after them. -/
structure CodeTables where
  code : ℕ
  syndrome : ℕ
  logicalWire : ℕ
  encoder : List (FixedGate × List ℕ)
  checks : List CodeTables.Check
  corrections : List CodeTables.Correction

namespace CodeTables

abbrev wires (T : CodeTables) : ℕ := T.code + T.syndrome

def syndromeWires (T : CodeTables) : List ℕ := List.range' T.code T.syndrome

def hadamards (T : CodeTables) : List (FixedGate × List ℕ) := T.syndromeWires.map fun w => (.h, [w])

def Check.placed (first : ℕ) (c : Check) : List (FixedGate × List ℕ) := c.gates.map fun g => (g.1, [first + c.wire, g.2])

def extraction (T : CodeTables) : List (FixedGate × List ℕ) :=
  T.hadamards ++ T.checks.flatMap (Check.placed T.code) ++ T.hadamards

section Assembly

variable (R : Type) [Scalar R]

def Correction.step (wires : List ℕ) (c : Correction) : Step (Operation R) :=
  ⟨.controlled (.primitive (.fixed c.gate)) ⟨c.flags⟩, wires ++ [c.target]⟩

def layout (T : CodeTables) : Layout := ⟨[⟨"code", T.code, 0⟩, ⟨"syndrome", T.syndrome, T.code⟩], T.wires⟩

def assembled (T : CodeTables) : ErrorCorrection R where
  code := ⟨"code", T.code, 0⟩
  syndrome := ⟨"syndrome", T.syndrome, T.code⟩
  logicalWire := T.logicalWire
  encoder := ⟨"encoder", T.layout, T.encoder.map fun g => .fixed g.1 g.2⟩
  noiseLayer := ⟨"noise", T.layout, (List.range' 0 T.code).map fun w => .gate .noise [w]⟩
  extraction := ⟨"syndrome", T.layout, T.extraction.map fun g => .fixed g.1 g.2⟩
  correction := ⟨"correction", T.layout, T.corrections.map (Correction.step R T.syndromeWires)⟩
  decoder := ⟨"encoder_dg", T.layout, (T.encoder.reverse.map fun g => (g.1.adjoint, g.2)).map fun g => .fixed g.1 g.2⟩

end Assembly

def letter {n : ℕ} : FixedGate × ℕ → PauliString n
  | (.cx, w) => flips (2 ^ w)
  | (_, w) => marks (2 ^ w)

def Correction.string {n : ℕ} (c : Correction) : PauliString n :=
  match c.gate with
  | .x => flips (2 ^ c.target)
  | .y => flipMark c.target
  | _ => marks (2 ^ c.target)

def strings (T : CodeTables) : List (ℕ × PauliString T.wires) :=
  T.checks.map fun c => (T.code + c.wire, (c.gates.map letter).reverse.prod)

def fix (T : CodeTables) (x : ℕ) : PauliString T.wires :=
  ((T.corrections.filter fun c => T.syndromeWires.map x.testBit = c.flags).map Correction.string).reverse.prod

def reading (T : CodeTables) (j : ℕ) : PauliString T.wires := flips (2 ^ T.code * j)

structure Check.Sound (T : CodeTables) (c : Check) : Prop where
  wire : c.wire < T.syndrome
  gates : ∀ g ∈ c.gates, (g.1 = .cx ∨ g.1 = .cz) ∧ g.2 < T.code

structure Correction.Sound (T : CodeTables) (c : Correction) : Prop where
  gate : c.gate = .x ∨ c.gate = .y ∨ c.gate = .z
  flags : c.flags.length = T.syndrome
  target : c.target < T.code

instance (T : CodeTables) (c : Check) : Decidable (c.Sound T) :=
  decidable_of_iff (c.wire < T.syndrome ∧ ∀ g ∈ c.gates, (g.1 = .cx ∨ g.1 = .cz) ∧ g.2 < T.code)
    ⟨fun ⟨wire, gates⟩ => ⟨wire, gates⟩, fun h => ⟨h.wire, h.gates⟩⟩

instance (T : CodeTables) (c : Correction) : Decidable (c.Sound T) :=
  decidable_of_iff ((c.gate = .x ∨ c.gate = .y ∨ c.gate = .z) ∧ c.flags.length = T.syndrome ∧ c.target < T.code)
    ⟨fun ⟨gate, flags, target⟩ => ⟨gate, flags, target⟩, fun h => ⟨h.gate, h.flags, h.target⟩⟩

/-- All wires are in place, and the checks leave what the encoder makes of a logical state. -/
structure Sound (T : CodeTables) : Prop where
  nonempty : 0 < T.code ∧ 0 < T.syndrome
  logical : T.logicalWire < T.code
  encoder : ∀ g ∈ T.encoder, GateFits T.wires g
  checks : ∀ c ∈ T.checks, c.Sound T
  corrections : ∀ c ∈ T.corrections, c.Sound T
  quiet : ∀ c ∈ T.strings, ∀ d ∈ T.strings, d.2.anti (marks (2 ^ c.1)) = false
  unspread : ∀ c ∈ T.strings, c.2.pastAll T.hadamards = some c.2
  silent : ∀ w ∈ T.syndromeWires, (marks (2 ^ w) : PauliString T.wires).pastAll T.encoder = some (marks (2 ^ w))
  stabilised : ∀ c ∈ T.strings, ∃ z < 2 ^ T.code, z.testBit T.logicalWire = false ∧
    (marks z : PauliString T.wires).pastAll T.encoder = some c.2

/-- The error leaves a reading of the syndrome register for which the corrections undo it, up to a phase. -/
def Corrects (T : CodeTables) (p : PauliString T.wires) : Prop :=
  ∃ k : Fin 4, ∃ j < 2 ^ T.syndrome, (PauliString.syndrome T.strings p).pastAll T.hadamards = some (T.reading j) ∧
    (T.reading j).pastAll T.encoder = some (T.reading j) ∧
      T.fix (T.reading j * p).x * (T.reading j * p) = turned k (T.reading j)

instance (T : CodeTables) (p : PauliString T.wires) : Decidable (T.Corrects p) :=
  inferInstanceAs (Decidable (∃ _ : Fin 4, ∃ j < 2 ^ T.syndrome, _))

noncomputable section
open Matrix Operator

section Strings

variable {n : ℕ}

theorem testBit_x_mul (p q : PauliString n) (w : ℕ) : (p * q).x.testBit w = (p.x.testBit w ^^ q.x.testBit w) :=
  Nat.testBit_xor p.x q.x w

theorem testBit_x_prod {ps : List (PauliString n)} {w : ℕ} (h : ∀ p ∈ ps, p.x.testBit w = false) :
    ps.prod.x.testBit w = false := by
  induction ps with
  | nil => exact Nat.zero_testBit w
  | cons p ps ih =>
    obtain ⟨hp, hps⟩ := List.forall_mem_cons.1 h
    rw [List.prod_cons, testBit_x_mul, hp, ih hps, Bool.xor_false]

theorem testBit_x_letter {g : FixedGate × ℕ} {w : ℕ} (h : g.2 ≠ w) : (letter g : PauliString n).x.testBit w = false := by
  obtain ⟨kind, v⟩ := g
  cases kind with
  | cx => exact Nat.testBit_two_pow_of_ne h
  | _ => exact Nat.zero_testBit w

theorem gateOn_letter {g : FixedGate × ℕ} {c : ℕ} (hg : g.1 = .cx ∨ g.1 = .cz) (hc : c < n) (ht : g.2 < n) (hne : c ≠ g.2) :
    (gateOn (g.1, [c, g.2]) : Operator n) = controlled c (letter g) := by
  have hsel := selects_pair hc ht hne
  obtain ⟨kind, t⟩ := g
  rcases hg with rfl | rfl
  · exact placed_controlled hsel (placed_pauliX ht)
  · exact placed_controlled hsel (placed_pauliZ ht)

theorem gatesOn_check {gates : List (FixedGate × ℕ)} {c : ℕ} (hc : c < n)
    (h : ∀ g ∈ gates, (g.1 = .cx ∨ g.1 = .cz) ∧ g.2 < c) :
    (gatesOn (gates.map fun g => (g.1, [c, g.2])) : Operator n) = controlled c (gates.map letter).reverse.prod := by
  induction gates with
  | nil => exact (controlled_one c).symm
  | cons g gates ih =>
    obtain ⟨⟨hkind, hlt⟩, hrest⟩ := List.forall_mem_cons.1 h
    have hbit : ((gates.map letter).reverse.prod : PauliString n).x.testBit c = false := by
      refine testBit_x_prod fun p hp => ?_
      obtain ⟨d, hd, rfl⟩ := List.mem_map.1 (List.mem_reverse.1 hp)
      exact testBit_x_letter (hrest d hd).2.ne
    have hprod : controlled c ((gates.map letter).reverse.prod * letter g : PauliString n) =
        controlled c ((g :: gates).map letter).reverse.prod := by
      funext i
      rw [controlled, controlled, operator_mul, List.map_cons, operator_reverse_prod_cons]
    rw [List.map_cons, gatesOn_cons, ih hrest, gateOn_letter hkind hc (hlt.trans hc) hlt.ne', controlled_mul hc hbit, hprod]

theorem placed_correction {T : CodeTables} {c : Correction} (h : c.Sound T) (hn : T.code ≤ n) :
    (placed (d := 1) [] [c.target] (c.gate.matrix.toMatrix 2 2) : Operator n) = c.string.operator := by
  have ht : c.target < n := h.target.trans_le hn
  obtain ⟨gate, flags, target⟩ := c
  rcases h.gate with rfl | rfl | rfl
  · exact placed_pauliX ht
  · exact placed_pauliY ht
  · exact placed_pauliZ ht

theorem testBit_x_correction {c : Correction} {w : ℕ} (h : c.target ≠ w) :
    (c.string : PauliString n).x.testBit w = false := by
  obtain ⟨gate, flags, target⟩ := c
  cases gate with
  | x => exact Nat.testBit_two_pow_of_ne h
  | y => exact Nat.testBit_two_pow_of_ne h
  | _ => exact Nat.zero_testBit w

end Strings

variable {T : CodeTables} {v : Fin (2 ^ T.wires) → ℂ}

theorem mem_syndromeWires {w : ℕ} : w ∈ T.syndromeWires ↔ T.code ≤ w ∧ w < T.wires := List.mem_range'_1

theorem Correction.Sound.fresh {c : Correction} (h : c.Sound T) : c.target ∉ T.syndromeWires :=
  fun hmem => absurd (mem_syndromeWires.1 hmem).1 (not_le.2 h.target)

theorem Correction.Sound.length {c : Correction} (h : c.Sound T) : T.syndromeWires.length = c.flags.length := by
  rw [syndromeWires, List.length_range', h.flags]

theorem gatesOn_checks {checks : List Check} (h : ∀ c ∈ checks, c.Sound T) :
    (gatesOn (checks.flatMap (Check.placed T.code)) : Operator T.wires) =
      (checks.map fun c => controlled (T.code + c.wire) (c.gates.map letter).reverse.prod).reverse.prod := by
  induction checks with
  | nil => rfl
  | cons c checks ih =>
    obtain ⟨⟨hwire, hgates⟩, hrest⟩ := List.forall_mem_cons.1 h
    have hbelow : ∀ g ∈ c.gates, (g.1 = .cx ∨ g.1 = .cz) ∧ g.2 < T.code + c.wire := fun g hg =>
      ⟨(hgates g hg).1, (hgates g hg).2.trans_le (Nat.le_add_right _ _)⟩
    rw [List.flatMap_cons, gatesOn_append, ih hrest, Check.placed, gatesOn_check (Nat.add_lt_add_left hwire _) hbelow,
      List.map_cons, List.reverse_cons, List.prod_append, List.prod_singleton]

def IsLogical (T : CodeTables) (v : Fin (2 ^ T.wires) → ℂ) : Prop :=
  ∀ i, v i ≠ 0 → i.val = 0 ∨ i.val = 2 ^ T.logicalWire

namespace Sound

theorem marks_mulVec (h : T.Sound) (hv : T.IsLogical v) {z : ℕ} (hz : z.testBit T.logicalWire = false) :
    (marks z).operator *ᵥ v = v := by
  funext i
  have hlogical : T.logicalWire < T.wires := h.logical.trans_le (Nat.le_add_right _ _)
  rw [operator_marks_mulVec]
  by_cases hi : v i = 0
  · rw [hi, mul_zero]
  · have heven : odd T.wires z i.val = false := by
      rcases hv i hi with hi | hi
      · rw [hi, odd_zero]
      · rw [hi, odd_two_pow hlogical, hz]
    rw [heven, sign_false, one_mul]

theorem strings_mulVec (h : T.Sound) (hv : T.IsLogical v) :
    ∀ c ∈ T.strings, c.2.operator *ᵥ (gatesOn T.encoder *ᵥ v) = gatesOn T.encoder *ᵥ v := by
  intro c hc
  obtain ⟨z, _, hz, hpast⟩ := h.stabilised c hc
  rw [mulVec_mulVec, ← gatesOn_mul_operator h.encoder hpast, ← mulVec_mulVec, h.marks_mulVec hv hz]

theorem reads_encoded (h : T.Sound) (hv : T.IsLogical v) : Reads T.syndromeWires 0 (gatesOn T.encoder *ᵥ v) := by
  refine reads_zero_of_marks (fun w hw => (mem_syndromeWires.1 hw).2) fun w hw => ?_
  have hmark : (2 ^ w).testBit T.logicalWire = false :=
    Nat.testBit_two_pow_of_ne (h.logical.trans_le (mem_syndromeWires.1 hw).1).ne'
  rw [mulVec_mulVec, ← gatesOn_mul_operator h.encoder (h.silent w hw), ← mulVec_mulVec, h.marks_mulVec hv hmark]

theorem hadamards_fit (T : CodeTables) : ∀ g ∈ T.hadamards, GateFits T.wires g := by
  intro g hg
  obtain ⟨w, hw, rfl⟩ := List.mem_map.1 hg
  exact selects_singleton (mem_syndromeWires.1 hw).2

theorem extraction_fits (h : T.Sound) : ∀ g ∈ T.extraction, GateFits T.wires g := by
  intro g hg
  rcases List.mem_append.1 hg with hg | hg
  · rcases List.mem_append.1 hg with hg | hg
    · exact hadamards_fit T g hg
    · obtain ⟨c, hc, hg⟩ := List.mem_flatMap.1 hg
      obtain ⟨d, hd, rfl⟩ := List.mem_map.1 hg
      obtain ⟨hkind, hd⟩ := (h.checks c hc).gates d hd
      have hwire : T.code + c.wire < T.wires := Nat.add_lt_add_left (h.checks c hc).wire _
      have hne : T.code + c.wire ≠ d.2 := (hd.trans_le (Nat.le_add_right _ _)).ne'
      have harity : d.1.controls + d.1.targets = 2 := by
        rcases hkind with hkind | hkind <;> rw [hkind] <;> rfl
      rw [GateFits, harity]
      exact selects_pair hwire (hd.trans_le (Nat.le_add_right _ _)) hne
  · exact hadamards_fit T g hg

theorem extraction_mulVec (h : T.Sound) (hkept : ∀ c ∈ T.strings, c.2.operator *ᵥ v = v) {p q : PauliString T.wires}
    (hq : (PauliString.syndrome T.strings p).pastAll T.hadamards = some q) :
    gatesOn T.extraction *ᵥ (p.operator *ᵥ v) = q.operator *ᵥ (p.operator *ᵥ v) := by
  have hfit := hadamards_fit T
  have hsquare : (gatesOn T.hadamards * gatesOn T.hadamards : Operator T.wires) = 1 :=
    gatesOn_hadamards_mul_self List.nodup_range' fun w hw => (mem_syndromeWires.1 hw).2
  have hsigns : ∀ c ∈ T.strings, c.2.operator *ᵥ (gatesOn T.hadamards *ᵥ (p.operator *ᵥ v)) =
      sign (c.2.anti p) • (gatesOn T.hadamards *ᵥ (p.operator *ᵥ v)) := by
    intro c hc
    have hsign : c.2.operator *ᵥ (p.operator *ᵥ v) = sign (c.2.anti p) • (p.operator *ᵥ v) := by
      rw [mulVec_mulVec, operator_mul_comm, smul_mulVec, ← mulVec_mulVec, hkept c hc]
    rw [mulVec_mulVec, ← gatesOn_mul_operator hfit (h.unspread c hc), ← mulVec_mulVec, hsign, mulVec_smul]
  have hbelow : ∀ c ∈ T.strings, c.1 < T.wires := by
    intro c hc
    obtain ⟨d, hd, rfl⟩ := List.mem_map.1 hc
    exact Nat.add_lt_add_left (h.checks d hd).wire _
  -- Between the Hadamard gates the syndrome is a string of marks. The gates after it make flips of the marks.
  have hmarked := controlled_prod_mulVec hbelow h.quiet hsigns
  have hchecks := gatesOn_checks h.checks
  rw [strings, List.map_map] at hmarked
  rw [extraction, gatesOn_append, gatesOn_append, hchecks, ← mulVec_mulVec, ← mulVec_mulVec]
  refine (congrArg _ hmarked).trans ?_
  rw [mulVec_mulVec, ← strings, gatesOn_mul_operator hfit hq, ← mulVec_mulVec, mulVec_mulVec _ (gatesOn _), hsquare, one_mulVec]

section Recovery

variable [EigenSolver ℝ]

theorem means_gate {c : Correction} (h : c.Sound T) :
    (Operation.primitive (.fixed c.gate) : Operation ℝ).Means (d := 1) (c.gate.matrix.toMatrix 2 2) := by
  have hrange := placed_range (n := 1) (c.gate.matrix.toMatrix 2 2)
  rw [← hrange]
  rcases h.gate with hgate | hgate | hgate
  all_goals
    rw [hgate]
    exact .primitive (d := 1) (k := 0) rfl rfl rfl

theorem step_fits {c : Correction} (h : c.Sound T) : (c.step ℝ T.syndromeWires).Fits T.wires := by
  have harity : (c.step ℝ T.syndromeWires).operation.arity = 1 + c.flags.length :=
    congrArg (· + c.flags.length) (means_gate h).arity
  refine ⟨?_, ?_, ?_⟩
  · rw [harity]
    change (T.syndromeWires ++ [c.target]).length = 1 + c.flags.length
    rw [List.length_append, List.length_singleton, h.length, Nat.add_comm]
  · refine List.nodup_append.2 ⟨List.nodup_range', List.nodup_singleton _, fun w hw t ht same => h.fresh ?_⟩
    rwa [← List.mem_singleton.1 ht, ← same]
  · intro w hw
    rcases List.mem_append.1 hw with hw | hw
    · exact (mem_syndromeWires.1 hw).2
    · exact List.mem_singleton.1 hw ▸ h.target.trans_le (Nat.le_add_right _ _)

theorem placed_step {c : Correction} (h : c.Sound T) :
    (placed [] (c.step ℝ T.syndromeWires).wires (c.step ℝ T.syndromeWires).operation.meaning : Operator T.wires) =
      placed (d := 1) (T.syndromeWires.zip c.flags) [c.target] (c.gate.matrix.toMatrix 2 2) := by
  have hmeans := (means_gate h).controlled ⟨c.flags⟩
  have hfit : Selects T.wires (1 + c.flags.length) (T.syndromeWires ++ [c.target]) := hmeans.arity ▸ step_fits h
  have hle : c.flags.length ≤ (T.syndromeWires ++ [c.target]).length := hfit.length ▸ Nat.le_add_left _ _
  have hplaced := @placed_leading T.wires 1 c.flags.length [] _ _ _ hfit (Nat.add_comm c.flags.length 1)
    (@fst_lt_of_mem_zip _ c.flags) false (c.gate.matrix.toMatrix 2 2)
  rw [outerControls_zip hle, ← h.length, List.take_left, List.drop_left, h.length] at hplaced
  exact (hmeans.placed_eq [] _).trans hplaced

theorem stepsMeaning_corrections {corrections : List Correction} (h : ∀ c ∈ corrections, c.Sound T) :
    Operation.stepsMeaning T.wires (corrections.map (Correction.step ℝ T.syndromeWires)) =
      (corrections.map fun c => placed (d := 1) (T.syndromeWires.zip c.flags) [c.target]
        (c.gate.matrix.toMatrix 2 2)).reverse.prod := by
  rw [Operation.stepsMeaning_eq_prod, List.map_map]
  -- Corrections hold no evolutions, so their map does not depend on the way to find spectra.
  exact congrArg (fun maps => (List.reverse maps).prod) (List.map_congr_left fun c hc => placed_step (h c hc))

theorem corrections_mulVec {corrections : List Correction} (hsound : ∀ c ∈ corrections, c.Sound T) {x : ℕ}
    (hv : Reads T.syndromeWires x v) :
    Operation.stepsMeaning T.wires (corrections.map (Correction.step ℝ T.syndromeWires)) *ᵥ v =
      (((corrections.filter fun c => T.syndromeWires.map x.testBit = c.flags).map Correction.string).reverse.prod :
        PauliString T.wires).operator *ᵥ v := by
  induction corrections generalizing v with
  | nil => exact congrArg (· *ᵥ v) operator_one.symm
  | cons c corrections ih =>
    obtain ⟨hc, hrest⟩ := List.forall_mem_cons.1 hsound
    have hbelow : c.target < T.wires := hc.target.trans_le (Nat.le_add_right _ _)
    have hstep := placed_mulVec_of_reads hv hc.length hbelow hc.fresh (c.gate.matrix.toMatrix 2 2)
    rw [List.map_cons, Operation.stepsMeaning, placed_step hc, ← mulVec_mulVec, hstep, List.filter_cons]
    by_cases hflags : T.syndromeWires.map x.testBit = c.flags
    · rw [if_pos hflags, if_pos (decide_eq_true hflags), placed_correction hc (Nat.le_add_right _ _)]
      -- A correction flips code wires only, so the corrections after it read the same index.
      have hread : Reads T.syndromeWires x ((c.string : PauliString T.wires).operator *ᵥ v) := by
        refine (hv.operator (fun w hw => (mem_syndromeWires.1 hw).2) c.string).congr fun w hw => ?_
        have hne : c.target ≠ w := fun same => hc.fresh (same ▸ hw)
        rw [Nat.testBit_xor, testBit_x_correction hne, Bool.xor_false]
      rw [ih hrest hread, mulVec_mulVec, List.map_cons, operator_reverse_prod_cons]
    · have hskip : ¬ decide (T.syndromeWires.map x.testBit = c.flags) = true := fun h => hflags (of_decide_eq_true h)
      rw [if_neg hflags, if_neg hskip]
      exact ih hrest hv

end Recovery

end Sound

section Recovery

variable [EigenSolver ℝ]

def recovery (T : CodeTables) : Operator T.wires :=
  (gatesOn T.encoder)ᴴ *
    (Operation.stepsMeaning T.wires (T.corrections.map (Correction.step ℝ T.syndromeWires)) * gatesOn T.extraction)

theorem Sound.recovery_mulVec (h : T.Sound) (hv : T.IsLogical v) {p : PauliString T.wires} (hp : T.Corrects p) :
    ∃ k : Fin 4, ∃ j < 2 ^ T.syndrome, T.recovery *ᵥ (p.operator *ᵥ (gatesOn T.encoder *ᵥ v)) =
      unit k • ((T.reading j).operator *ᵥ v) := by
  obtain ⟨k, j, hj, hsyndrome, hpast, hfix⟩ := hp
  refine ⟨k, j, hj, ?_⟩
  have hextracted := h.extraction_mulVec (h.strings_mulVec hv) hsyndrome
  -- The extraction only adds its reading to the error, and the reading tells the corrections what to undo.
  have hread := (h.reads_encoded hv).operator (fun w hw => (mem_syndromeWires.1 hw).2) (T.reading j * p)
  rw [Nat.zero_xor] at hread
  have hcorrected := corrections_mulVec h.corrections hread
  change _ = (T.fix (T.reading j * p).x).operator *ᵥ _ at hcorrected
  have hundone : (gatesOn T.encoder)ᴴ * gatesOn T.encoder = (1 : Operator T.wires) :=
    mem_unitaryGroup_iff'.1 (gatesOn_mem_unitary h.encoder)
  rw [recovery, ← mulVec_mulVec, ← mulVec_mulVec, hextracted, mulVec_mulVec (gatesOn T.encoder *ᵥ v), ← operator_mul,
    hcorrected, mulVec_mulVec (gatesOn T.encoder *ᵥ v), ← operator_mul, hfix, operator_turned, smul_mulVec, mulVec_smul,
    mulVec_mulVec v, ← gatesOn_mul_operator h.encoder hpast, ← mulVec_mulVec, mulVec_mulVec, hundone, one_mulVec]

theorem Sound.recovery_mem_unitary (h : T.Sound) : T.recovery ∈ unitaryGroup _ ℂ := by
  have hextraction : ∀ g ∈ T.extraction, GateFits T.wires g := h.extraction_fits
  have hcorrections : Operation.stepsMeaning T.wires (T.corrections.map (Correction.step ℝ T.syndromeWires)) ∈
      unitaryGroup _ ℂ := by
    rw [Sound.stepsMeaning_corrections h.corrections]
    refine list_prod_mem fun m hm => ?_
    obtain ⟨c, hc, rfl⟩ := List.mem_map.1 (List.mem_reverse.1 hm)
    have hsound := h.corrections c hc
    have hfree : ∀ d ∈ T.syndromeWires.zip c.flags, d.1 ∉ [c.target] := fun d hd hmem =>
      hsound.fresh (List.mem_singleton.1 hmem ▸ (List.of_mem_zip hd).1)
    refine placed_mem_unitary (selects_singleton (hsound.target.trans_le (Nat.le_add_right _ _))) hfree ?_
    obtain hgate | hgate | hgate := hsound.gate
    · exact hgate ▸ DenseMatrix.isReflection_pauliX.mem_unitary
    · exact hgate ▸ DenseMatrix.isReflection_pauliY.mem_unitary
    · exact hgate ▸ DenseMatrix.isReflection_pauliZ.mem_unitary
  exact mul_mem (Unitary.star_mem (gatesOn_mem_unitary h.encoder))
    (mul_mem hcorrections (gatesOn_mem_unitary hextraction))

end Recovery

end
end CodeTables
end QuantumCircuits
