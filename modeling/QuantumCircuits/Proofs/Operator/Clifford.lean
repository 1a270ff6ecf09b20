import Mathlib
import QuantumCircuits.Proofs.Operator.Pauli

/-! Gates that take strings to strings. Hadamard gates and controlled strings are sums of strings, and a
string that is moved past one of them picks up what it anticommutes with. -/

namespace QuantumCircuits.PauliString
open QuantumCircuits.Basis

variable {n : ℕ}

/-- What a string becomes when another string moves past it. -/
def pastString (q p : PauliString n) : PauliString n := p.turned (halfTurn (q.anti p))

def pastHadamard (w : ℕ) (p : PauliString n) : PauliString n :=
  match (flips (2 ^ w)).anti p, (marks (2 ^ w)).anti p with
  | false, false => p
  | false, true => p * (flips (2 ^ w) * marks (2 ^ w))
  | true, false => p * (marks (2 ^ w) * flips (2 ^ w))
  | true, true => p.turned (halfTurn true)

def pastControlled (c : ℕ) (q p : PauliString n) : PauliString n :=
  match (marks (2 ^ c)).anti p, q.anti p with
  | false, false => p
  | false, true => p * marks (2 ^ c)
  | true, false => p * q
  | true, true => (p * (marks (2 ^ c) * q)).turned (halfTurn true)

def past (p : PauliString n) : FixedGate × List ℕ → Option (PauliString n)
  | (.x, [w]) => some (pastString (flips (2 ^ w)) p)
  | (.z, [w]) => some (pastString (marks (2 ^ w)) p)
  | (.h, [w]) => some (pastHadamard w p)
  | (.cx, [c, t]) => some (pastControlled c (flips (2 ^ t)) p)
  | (.cz, [c, t]) => some (pastControlled c (marks (2 ^ t)) p)
  | _ => none

def pastAll (gates : List (FixedGate × List ℕ)) (p : PauliString n) : Option (PauliString n) :=
  gates.foldlM past p

noncomputable section
open Matrix Operator

theorem operator_pastString (q p : PauliString n) :
    q.operator * p.operator = (pastString q p).operator * q.operator := by
  rw [pastString, operator_turned, unit_halfTurn, smul_mul_assoc]
  exact operator_mul_comm q p

theorem operator_of_mul_self {p : PauliString n} (h : p * p = 1) : p.operator * p.operator = 1 := by
  rw [← operator_mul, h, operator_one]

theorem operator_pastHadamard {w : ℕ} (hw : w < n) (p : PauliString n) :
    ((flips (2 ^ w)).operator + (marks (2 ^ w)).operator) * p.operator =
      (pastHadamard w p).operator * ((flips (2 ^ w)).operator + (marks (2 ^ w)).operator) := by
  have hx := operator_mul_comm (flips (2 ^ w)) p
  have hz := operator_mul_comm (marks (2 ^ w)) p
  have hxx := operator_of_mul_self (flips_mul_self (n := n) (2 ^ w))
  have hzz := operator_of_mul_self (marks_mul_self (n := n) (2 ^ w))
  have hanti : (marks (2 ^ w)).anti (flips (2 ^ w) : PauliString n) = true := by
    rw [anti_marks_flips, odd_two_pow hw, Nat.testBit_two_pow_self]
  have hzx := operator_mul_comm (marks (2 ^ w)) (flips (2 ^ w) : PauliString n)
  rw [hanti, sign_true, neg_smul, one_smul] at hzx
  -- The two strings of the gate anticommute, so that either of them turns the other one around.
  have hxzx := congrArg ((flips (2 ^ w)).operator * ·) hzx
  have hzxz := congrArg ((marks (2 ^ w)).operator * ·) (congrArg Neg.neg hzx)
  simp only [mul_neg, neg_neg, ← mul_assoc, hxx, hzz, one_mul] at hxzx hzxz
  rw [add_mul]
  unfold pastHadamard
  split
  · next hxp hzp => rw [hx, hz, hxp, hzp, sign_false, one_smul, one_smul, mul_add]
  · next hxp hzp =>
    rw [hx, hz, hxp, hzp, sign_false, sign_true, one_smul, neg_smul, one_smul, operator_mul, operator_mul,
      mul_assoc, mul_add, hxzx, mul_assoc, hzz, mul_one, mul_add, mul_neg, add_comm]
  · next hxp hzp =>
    rw [hx, hz, hxp, hzp, sign_false, sign_true, one_smul, neg_smul, one_smul, operator_mul, operator_mul,
      mul_assoc, mul_add, mul_assoc _ _ (flips (2 ^ w)).operator, hxx, mul_one, ← hzxz, mul_add, mul_neg, add_comm]
  · next hxp hzp =>
    rw [hx, hz, hxp, hzp, sign_true, operator_turned, unit_halfTurn, sign_true, smul_mul_assoc, mul_add, smul_add]

def controlled (c : ℕ) (p : PauliString n) : Operator n := fun i =>
  if i.val.testBit c then p.operator i else (1 : Operator n) i

theorem controlled_mulVec (c : ℕ) (p : PauliString n) (v : Fin (2 ^ n) → ℂ) (i : Fin (2 ^ n)) :
    (controlled c p *ᵥ v) i = if i.val.testBit c then (p.operator *ᵥ v) i else v i := by
  rw [mulVec, controlled]
  split
  · rfl
  · exact congrFun (one_mulVec v) i

theorem controlled_eq {c : ℕ} (hc : c < n) (p : PauliString n) :
    controlled c p = (1 / 2 : ℂ) • (1 + (marks (2 ^ c)).operator + (1 - (marks (2 ^ c)).operator) * p.operator) := by
  apply ext_mulVec
  intro v
  funext i
  rw [controlled_mulVec, smul_mulVec, add_mulVec, add_mulVec, ← mulVec_mulVec, sub_mulVec, one_mulVec, one_mulVec]
  simp only [Pi.smul_apply, Pi.add_apply, Pi.sub_apply, operator_mark_mulVec hc, smul_eq_mul]
  cases i.val.testBit c
  · rw [sign_false]
    simp
    ring
  · rw [sign_true]
    simp
    ring

theorem controlled_one (c : ℕ) : controlled c (1 : PauliString n) = 1 := by
  funext i
  rw [controlled, operator_one, ite_self]

theorem controlled_mul {c : ℕ} (hc : c < n) {p : PauliString n} (hp : p.x.testBit c = false) (q : PauliString n) :
    controlled c p * controlled c q = controlled c (p * q) := by
  apply ext_mulVec
  intro v
  funext i
  have hbit : (flipped p.x i).val.testBit c = i.val.testBit c := by
    rw [testBit_flipped _ _ hc, hp, Bool.xor_false]
  rw [← mulVec_mulVec, controlled_mulVec, controlled_mulVec, controlled_mulVec, operator_mul,
    ← mulVec_mulVec, operator_mulVec p, operator_mulVec p, controlled_mulVec, hbit]
  cases i.val.testBit c <;> rfl

theorem controlled_mulVec_of_sign {c : ℕ} (hc : c < n) {q : PauliString n} {b : Bool} {v : Fin (2 ^ n) → ℂ}
    (h : q.operator *ᵥ v = sign b • v) :
    controlled c q *ᵥ v = if b then (marks (2 ^ c)).operator *ᵥ v else v := by
  funext i
  rw [controlled_mulVec, h, Pi.smul_apply, smul_eq_mul]
  cases b with
  | true =>
    rw [if_pos rfl, operator_mark_mulVec hc]
    cases i.val.testBit c
    · exact (one_mul _).symm
    · rfl
  | false =>
    rw [if_neg Bool.false_ne_true, sign_false, one_mul, ite_self]

theorem operator_pastControlled {c : ℕ} (hc : c < n) {q : PauliString n} (hq : q * q = 1)
    (hcommute : (marks (2 ^ c)).anti q = false) (p : PauliString n) :
    controlled c q * p.operator = (pastControlled c q p).operator * controlled c q := by
  have hz := operator_mul_comm (marks (2 ^ c)) p
  have ha := operator_mul_comm q p
  have hza := operator_mul_comm (marks (2 ^ c)) q
  rw [hcommute, sign_false, one_smul] at hza
  have hzz (y : Operator n) : y * (marks (2 ^ c)).operator * (marks (2 ^ c)).operator = y := by
    rw [mul_assoc, operator_of_mul_self (marks_mul_self _), mul_one]
  have haa (y : Operator n) : y * q.operator * q.operator = y := by
    rw [mul_assoc, operator_of_mul_self hq, mul_one]
  have haz (y : Operator n) : y * q.operator * (marks (2 ^ c)).operator = y * (marks (2 ^ c)).operator * q.operator := by
    rw [mul_assoc, ← hza, mul_assoc]
  have hfirst : (marks (2 ^ c)).operator * q.operator * p.operator =
      (sign (q.anti p) * sign ((marks (2 ^ c)).anti p)) • (p.operator * (marks (2 ^ c)).operator * q.operator) := by
    rw [mul_assoc, ha, mul_smul_comm, ← mul_assoc, hz, smul_mul_assoc, smul_smul]
  rw [controlled_eq hc, smul_mul_assoc, mul_smul_comm]
  congr 1
  unfold pastControlled
  -- The products are sorted into strings, the marks in front of the controlled string.
  split
  all_goals
    next hzp hap =>
      simp only [hzp, hap, sign_true, sign_false, mul_one, mul_neg, one_smul, neg_smul, neg_neg] at hz ha hfirst
      simp only [operator_turned, unit_halfTurn, sign_true, operator_mul, add_mul, sub_mul, mul_add, mul_sub, one_mul, mul_one,
        ← mul_assoc, hz, ha, hfirst, hzz, haa, haz, one_smul, neg_smul, neg_mul] <;> abel

theorem placed_pauliX {w : ℕ} (hw : w < n) :
    (placed (d := 1) [] [w] (DenseMatrix.pauliX.toMatrix 2 2) : Operator n) = (flips (2 ^ w)).operator := by
  apply ext_mulVec
  intro v
  funext i
  rw [placed_wire_mulVec hw, operator_flips_mulVec, DenseMatrix.toMatrix_pauliX]
  cases i.val.testBit w <;> simp

theorem placed_pauliZ {w : ℕ} (hw : w < n) :
    (placed (d := 1) [] [w] (DenseMatrix.pauliZ.toMatrix 2 2) : Operator n) = (marks (2 ^ w)).operator := by
  apply ext_mulVec
  intro v
  funext i
  rw [placed_wire_mulVec hw, operator_mark_mulVec hw, DenseMatrix.toMatrix_pauliZ]
  cases i.val.testBit w <;> simp [sign]

theorem placed_pauliY {w : ℕ} (hw : w < n) :
    (placed (d := 1) [] [w] (DenseMatrix.pauliY.toMatrix 2 2) : Operator n) = (flipMark w).operator := by
  apply ext_mulVec
  intro v
  funext i
  rw [placed_wire_mulVec hw, flipMark, operator_turned, smul_mulVec, Pi.smul_apply, operator_onWire_mulVec hw,
    DenseMatrix.toMatrix_pauliY]
  cases i.val.testBit w <;> simp [sign, unit]

theorem placed_hadamard {w : ℕ} (hw : w < n) :
    (placed (d := 1) [] [w] (DenseMatrix.hadamard.toMatrix 2 2) : Operator n) =
      spread • ((flips (2 ^ w)).operator + (marks (2 ^ w)).operator) := by
  apply ext_mulVec
  intro v
  funext i
  rw [placed_wire_mulVec hw, smul_mulVec, add_mulVec, Pi.smul_apply, Pi.add_apply, operator_flips_mulVec,
    operator_mark_mulVec hw, DenseMatrix.toMatrix_hadamard, spread_eq]
  cases i.val.testBit w
  · simp [sign]
    ring
  · simp [sign]
    ring

theorem placed_controlled {c t : ℕ} (h : Selects n 2 [c, t]) {m : Operator 1} {p : PauliString n}
    (hm : (placed [] [t] m : Operator n) = p.operator) : (placed [(c, true)] [t] m : Operator n) = controlled c p := by
  have hsel : Selects n 1 [t] := h.drop 1
  apply ext_mulVec
  intro v
  funext i
  have hholds : holds [(c, true)] i.val = i.val.testBit c := by simp [holds]
  rw [controlled_mulVec, ← hm, placed_nil_mulVec hsel, placed_mulVec hsel, hholds]

def gateOn (g : FixedGate × List ℕ) : Operator n :=
  placed ((g.2.take g.1.controls).map fun w => (w, true)) (g.2.drop g.1.controls)
    (g.1.matrix.toMatrix (2 ^ g.1.targets) (2 ^ g.1.targets))

def GateFits (n : ℕ) (g : FixedGate × List ℕ) : Prop := Selects n (g.1.controls + g.1.targets) g.2

instance (n : ℕ) (g : FixedGate × List ℕ) : Decidable (GateFits n g) := inferInstanceAs (Decidable (Selects _ _ _))

theorem gateOn_mul_operator {g : FixedGate × List ℕ} (h : GateFits n g) {p q : PauliString n}
    (hpast : p.past g = some q) : gateOn g * p.operator = q.operator * gateOn g := by
  unfold past at hpast
  split at hpast
  · next w =>
    obtain rfl := Option.some.inj hpast
    have hgate : gateOn (.x, [w]) = (flips (2 ^ w) : PauliString n).operator :=
      placed_pauliX (h.below w List.mem_cons_self)
    rw [hgate, operator_pastString]
  · next w =>
    obtain rfl := Option.some.inj hpast
    have hgate : gateOn (.z, [w]) = (marks (2 ^ w) : PauliString n).operator :=
      placed_pauliZ (h.below w List.mem_cons_self)
    rw [hgate, operator_pastString]
  · next w =>
    obtain rfl := Option.some.inj hpast
    have hw : w < n := h.below w List.mem_cons_self
    have hgate : gateOn (.h, [w]) = spread • ((flips (2 ^ w)).operator + (marks (2 ^ w) : PauliString n).operator) :=
      placed_hadamard hw
    rw [hgate, smul_mul_assoc, operator_pastHadamard hw, mul_smul_comm]
  · next c t =>
    obtain rfl := Option.some.inj hpast
    have ht : t < n := h.below t (List.mem_cons_of_mem c List.mem_cons_self)
    have hgate : gateOn (.cx, [c, t]) = controlled c (flips (2 ^ t) : PauliString n) :=
      placed_controlled h (placed_pauliX ht)
    have hne : c ≠ t := fun same => (List.nodup_cons.1 h.nodup).1 (List.mem_singleton.2 same)
    have hcommute : (marks (2 ^ c)).anti (flips (2 ^ t) : PauliString n) = false := by
      rw [anti_marks_flips, odd_two_pow ht, Nat.testBit_two_pow_of_ne hne]
    rw [hgate, operator_pastControlled (h.below c List.mem_cons_self) (flips_mul_self _) hcommute]
  · next c t =>
    obtain rfl := Option.some.inj hpast
    have ht : t < n := h.below t (List.mem_cons_of_mem c List.mem_cons_self)
    have hgate : gateOn (.cz, [c, t]) = controlled c (marks (2 ^ t) : PauliString n) :=
      placed_controlled h (placed_pauliZ ht)
    rw [hgate, operator_pastControlled (h.below c List.mem_cons_self) (marks_mul_self _) (anti_marks_marks _ _)]
  · cases hpast

theorem GateFits.adjoint {g : FixedGate × List ℕ} (h : GateFits n g) : GateFits n (g.1.adjoint, g.2) := by
  obtain ⟨kind, wires⟩ := g
  cases kind <;> exact h

theorem GateFits.targets {g : FixedGate × List ℕ} (h : GateFits n g) :
    Selects n g.1.targets (g.2.drop g.1.controls) := by
  have hdrop := Selects.drop h g.1.controls
  rwa [Nat.add_sub_cancel_left] at hdrop

theorem GateFits.free {g : FixedGate × List ℕ} (h : GateFits n g) :
    ∀ c ∈ (g.2.take g.1.controls).map fun w => (w, true), c.1 ∉ g.2.drop g.1.controls := by
  intro c hc
  obtain ⟨w, hw, rfl⟩ := List.mem_map.1 hc
  exact fun hmem => List.disjoint_take_drop h.nodup le_rfl hw hmem

theorem gateOn_mem_unitary {g : FixedGate × List ℕ} (h : GateFits n g) : (gateOn g : Operator n) ∈ unitaryGroup _ ℂ :=
  placed_mem_unitary h.targets h.free g.1.matrix_mem_unitary

theorem gateOn_adjoint {g : FixedGate × List ℕ} (h : GateFits n g) :
    (gateOn (g.1.adjoint, g.2) : Operator n) = (gateOn g)ᴴ := by
  have hadjoint := placed_conjTranspose (n := n) h.free (g.1.matrix.toMatrix (2 ^ g.1.targets) (2 ^ g.1.targets))
  rw [← FixedGate.toMatrix_adjoint] at hadjoint
  rw [gateOn, gateOn, ← hadjoint]
  obtain ⟨kind, wires⟩ := g
  cases kind <;> rfl

def gatesOn (gates : List (FixedGate × List ℕ)) : Operator n := (gates.map gateOn).reverse.prod

theorem gatesOn_cons (g : FixedGate × List ℕ) (gates : List (FixedGate × List ℕ)) :
    (gatesOn (g :: gates) : Operator n) = gatesOn gates * gateOn g := by
  rw [gatesOn, List.map_cons, List.reverse_cons, List.prod_append, List.prod_singleton, gatesOn]

theorem gatesOn_append (front back : List (FixedGate × List ℕ)) :
    (gatesOn (front ++ back) : Operator n) = gatesOn back * gatesOn front := by
  rw [gatesOn, List.map_append, List.reverse_append, List.prod_append, gatesOn, gatesOn]

theorem gatesOn_mem_unitary {gates : List (FixedGate × List ℕ)} (h : ∀ g ∈ gates, GateFits n g) :
    (gatesOn gates : Operator n) ∈ unitaryGroup _ ℂ := by
  refine list_prod_mem fun m hm => ?_
  obtain ⟨g, hg, rfl⟩ := List.mem_map.1 (List.mem_reverse.1 hm)
  exact gateOn_mem_unitary (h g hg)

theorem gatesOn_adjoint {gates : List (FixedGate × List ℕ)} (h : ∀ g ∈ gates, GateFits n g) :
    (gatesOn (gates.reverse.map fun g => (g.1.adjoint, g.2)) : Operator n) = (gatesOn gates)ᴴ := by
  induction gates with
  | nil => exact conjTranspose_one.symm
  | cons g gates ih =>
    obtain ⟨hg, hgates⟩ := List.forall_mem_cons.1 h
    have hlast : (gatesOn [(g.1.adjoint, g.2)] : Operator n) = (gateOn g)ᴴ := by
      rw [gatesOn_cons, gateOn_adjoint hg]
      exact one_mul _
    rw [List.reverse_cons, List.map_append, gatesOn_append, ih hgates, List.map_singleton, hlast, gatesOn_cons,
      conjTranspose_mul]

theorem gatesOn_mul_operator {gates : List (FixedGate × List ℕ)} (h : ∀ g ∈ gates, GateFits n g)
    {p q : PauliString n} (hpast : p.pastAll gates = some q) :
    gatesOn gates * p.operator = q.operator * gatesOn gates := by
  induction gates generalizing p with
  | nil =>
    obtain rfl := Option.some.inj hpast
    exact (one_mul _).trans (mul_one _).symm
  | cons g gates ih =>
    obtain ⟨hg, hgates⟩ := List.forall_mem_cons.1 h
    obtain ⟨r, hr, hrest⟩ := Option.bind_eq_some_iff.1 hpast
    rw [gatesOn_cons, mul_assoc, gateOn_mul_operator hg hr, ← mul_assoc, ih hgates hrest, mul_assoc]

theorem gatesOn_hadamards_mul_self {wires : List ℕ} (nodup : wires.Nodup) (below : ∀ w ∈ wires, w < n) :
    (gatesOn (wires.map fun w => (.h, [w])) : Operator n) * gatesOn (wires.map fun w => (.h, [w])) = 1 := by
  induction wires with
  | nil => exact one_mul _
  | cons w ws ih =>
    obtain ⟨hfresh, hnodup⟩ := List.nodup_cons.1 nodup
    obtain ⟨hw, hws⟩ := List.forall_mem_cons.1 below
    have hone : (gateOn (.h, [w]) : Operator n) * gateOn (.h, [w]) = 1 := by
      have hsquare := placed_mul (selects_singleton hw) (List.forall_mem_nil _)
        (DenseMatrix.hadamard.toMatrix 2 2) (DenseMatrix.hadamard.toMatrix 2 2)
      rw [DenseMatrix.isReflection_hadamard.involutive] at hsquare
      exact hsquare.symm.trans (placed_one (selects_singleton hw))
    have hcommute : Commute (gateOn (.h, [w]) : Operator n) (gatesOn (ws.map fun w => (.h, [w]))) := by
      refine Commute.list_prod_right _ _ fun m hm => ?_
      obtain ⟨g, hg, rfl⟩ := List.mem_map.1 (List.mem_reverse.1 hm)
      obtain ⟨v, hv, rfl⟩ := List.mem_map.1 hg
      have hne (u : ℕ) (hu : u ∈ [w]) : u ∉ [v] := by
        rw [List.mem_singleton.1 hu, List.mem_singleton]
        exact fun same => hfresh (same ▸ hv)
      exact placed_commute (selects_singleton hw) (selects_singleton (hws v hv)) hne (List.forall_mem_nil _)
        (List.forall_mem_nil _) _ _
    rw [List.map_cons, gatesOn_cons, mul_assoc, hcommute.left_comm, hone, mul_one, ih hnodup hws]

end
end QuantumCircuits.PauliString
