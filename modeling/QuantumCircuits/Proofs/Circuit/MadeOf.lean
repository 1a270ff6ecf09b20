import Mathlib
import QuantumCircuits.Proofs.Circuit.Gates

/-! Operations and circuits that are made of gates of one kind. Each call keeps the kind, so that a
circuit which a builder returns is known by the gates that the builder places. -/

namespace QuantumCircuits
open QuantumCircuits.Basis

variable {R : Type}

def Gate.IsNumeric : Gate R → Prop
  | .fixed _ => True
  | .angle _ θ => θ.tokenNames = []
  | .evolution _ θ => θ.tokenNames = []
  | _ => False

structure Gate.IsPure (g : Gate R) : Prop where
  tokens : g.tokenNames = []
  resets : g.isUnitary = true
  noise : g ≠ .noise

structure Operation.IsPure (o : Operation R) : Prop where
  tokens : o.tokenNames = []
  resets : o.isUnitary = true
  noise : ∀ g ∈ o.gates false, g.1 ≠ .noise

theorem Gate.IsNumeric.isPure {g : Gate R} (h : g.IsNumeric) : g.IsPure := by
  cases g with
  | fixed kind => exact ⟨rfl, rfl, nofun⟩
  | angle kind θ => exact ⟨h, rfl, nofun⟩
  | evolution m θ => exact ⟨h, rfl, nofun⟩
  | _ => exact h.elim

theorem Gate.IsPure.isExact {g : Gate R} (h : g.IsPure) (b : Bool) : Gate.IsExact (g, b) :=
  ⟨h.tokens, h.resets, fun same => h.noise (Prod.ext_iff.1 same).1⟩

variable [Scalar R] {P Q : Gate R → Prop}

/-- The operation is well formed, and all gates inside are of the given kind. -/
structure Operation.MadeOf (P : Gate R → Prop) (o : Operation R) : Prop where
  wellFormed : o.WellFormed
  gates : ∀ b, ∀ g ∈ o.gates b, P g.1

abbrev Circuit.MadeOf (P : Gate R → Prop) (c : Circuit R) : Prop := (Operation.composite c).MadeOf P

namespace Operation.MadeOf

variable {o a : Operation R}

theorem mono (h : o.MadeOf P) (hPQ : ∀ g, P g → Q g) : o.MadeOf Q :=
  ⟨h.wellFormed, fun b g hg => hPQ g.1 (h.gates b g hg)⟩

theorem primitive {g : Gate R} (hg : g.WellFormed) (hP : P g) : (Operation.primitive g).MadeOf P :=
  ⟨.primitive hg, fun _ _ hmem => List.mem_singleton.1 hmem ▸ hP⟩

theorem control {n : ℕ} {s : ControlState} (h : o.MadeOf P) (ha : o.control n s = .ok a) :
    a.MadeOf P := by
  refine ⟨h.wellFormed.control ha, fun b => ?_⟩
  unfold Operation.control at ha
  split at ha
  · cases ha
  · split at ha
    · cases ha
      exact h.gates true
    · cases ha

theorem power {e : ℕ} (h : o.MadeOf P) (ha : o.power e = .ok a) : a.MadeOf P := by
  refine ⟨h.wellFormed.power ha, fun b => ?_⟩
  unfold Operation.power at ha
  split at ha
  · cases ha
  · cases ha
    exact h.gates b

theorem powerOfTwo {k : ℕ} (h : o.MadeOf P) (ha : o.powerOfTwo k = .ok a) : a.MadeOf P := by
  unfold Operation.powerOfTwo at ha
  split at ha
  · exact h.power ha
  · cases ha

theorem inverse {c : Circuit R} (h : c.MadeOf P) (ha : (Operation.composite c).inverse = .ok a) :
    a.MadeOf P := by
  refine ⟨(h.wellFormed.inverse ha).1, fun b => ?_⟩
  obtain ⟨_, _, same⟩ := bind_eq_ok_iff.1 ha
  obtain rfl := pure_eq_ok_iff.1 same
  exact h.gates b

end Operation.MadeOf

namespace Circuit

variable {c d : Circuit R}

theorem madeOf_iff : c.MadeOf P ↔ c.WellFormed ∧ ∀ s ∈ c.steps, s.operation.MadeOf P := by
  constructor
  · intro h
    refine ⟨h.wellFormed, fun s hs => ⟨(WellFormed.steps h.wellFormed s hs).2, fun b g hg => ?_⟩⟩
    exact h.gates b g (Operation.mem_gates_composite hs hg)
  · rintro ⟨hwell, hsteps⟩
    refine ⟨hwell, fun b g hg => ?_⟩
    rw [Operation.gates_composite] at hg
    obtain ⟨s, hs, hg⟩ := List.mem_flatMap.1 hg
    exact (hsteps s hs).gates b g hg

theorem MadeOf.empty (name : String) : (Circuit.empty name : Circuit R).MadeOf P :=
  madeOf_iff.2 ⟨.empty name, List.forall_mem_nil _⟩

theorem MadeOf.addRegister {name : String} {size : ℕ} {r : Register} (h : c.MadeOf P)
    (hadd : c.addRegister name size = .ok (r, d)) : d.MadeOf P := by
  refine madeOf_iff.2 ⟨WellFormed.addRegister h.wellFormed hadd, ?_⟩
  obtain ⟨_, _, rfl⟩ := addRegister_eq_ok_iff.1 hadd
  exact (madeOf_iff.1 h).2

theorem MadeOf.appendAll {steps : List (Step (Operation R))} (h : c.MadeOf P)
    (hsteps : ∀ s ∈ steps, s.operation.MadeOf P) (happend : c.appendAll steps = .ok d) :
    d.MadeOf P := by
  have hwell := WellFormed.appendAll h.wellFormed (fun s hs => (hsteps s hs).wellFormed) happend
  refine madeOf_iff.2 ⟨hwell, fun s hs => ?_⟩
  obtain ⟨_, rfl⟩ := appendAll_eq_ok_iff.1 happend
  rcases List.mem_append.1 hs with hs | hs
  · exact (madeOf_iff.1 h).2 s hs
  · exact hsteps s hs

theorem MadeOf.append {o : Operation R} {wires : List ℕ} (h : c.MadeOf P) (ho : o.MadeOf P)
    (happend : c.append o wires = .ok d) : d.MadeOf P :=
  h.appendAll (List.forall_mem_singleton.2 ho) happend

end Circuit

section SingleRegister

variable {n : ℕ}

def Layout.single (name : String) (n : ℕ) : Layout := ⟨[⟨name, n, 0⟩], n⟩

theorem Layout.single_wellFormed (name : String) (hn : 0 < n) : (Layout.single name n).WellFormed :=
  ⟨⟨rfl, trivial⟩, (Nat.add_zero n).symm, List.forall_mem_singleton.2 hn⟩

theorem Register.wires_first (name : String) (n : ℕ) : (⟨name, n, 0⟩ : Register).wires = List.range n :=
  List.range_eq_range'.symm

theorem Circuit.madeOf_single {name register : String} {steps : List (Step (Operation R))} (hn : 0 < n)
    (h : ∀ s ∈ steps, s.Fits n ∧ s.operation.MadeOf P) : Circuit.MadeOf P ⟨name, .single register n, steps⟩ :=
  madeOf_iff.2 ⟨wellFormed_iff.2 ⟨Layout.single_wellFormed register hn, fun s hs => ⟨(h s hs).1, (h s hs).2.wellFormed⟩⟩,
    fun s hs => (h s hs).2⟩

end SingleRegister

theorem Operation.IsPure.madeOf {o : Operation R} (h : o.IsPure) (hwell : o.WellFormed) :
    o.MadeOf Gate.IsPure := by
  refine ⟨hwell, fun b g hg => ⟨?_, (isUnitary_iff b o).1 h.resets g hg, ?_⟩⟩
  · have htokens := h.tokens
    rw [tokenNames_eq_flatMap b, List.flatMap_eq_nil_iff] at htokens
    exact htokens g hg
  · have hmem : g.1 ∈ (o.gates false).map Prod.fst := by
      rw [map_gates false b]
      exact List.mem_map_of_mem hg
    obtain ⟨g', hg', same⟩ := List.mem_map.1 hmem
    exact same ▸ h.noise g' hg'

theorem Operation.MadeOf.isExact_of_isPure {o : Operation R} (h : o.MadeOf Gate.IsPure) : o.IsExact :=
  isExact_iff.2 fun g hg => (h.gates false g hg).isExact g.2

theorem Operation.MadeOf.isExact {o : Operation R} (h : o.MadeOf Gate.IsNumeric) : o.IsExact :=
  (h.mono fun _ => Gate.IsNumeric.isPure).isExact_of_isPure

end QuantumCircuits
