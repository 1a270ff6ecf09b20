import Mathlib
import QuantumCircuits.Proofs.Success
import QuantumCircuits.Simulation.Sampling

/-! How many draws a sampler takes. A sampler that takes the same number wherever it succeeds can be run a
number of times, and the runs go on from where the ones before them stopped. -/

namespace QuantumCircuits

def DrawSource.advance {R : Type} (source : DrawSource R) (draws : ℕ) : DrawSource R :=
  { source with used := source.used + draws }

theorem DrawSource.advance_advance {R : Type} (source : DrawSource R) (m n : ℕ) :
    (source.advance m).advance n = source.advance (m + n) := by
  rw [advance, advance, advance, Nat.add_assoc]

namespace Sampler

variable {R α β : Type} {source rest : DrawSource R} {x : Sampler R α} {f : α → Sampler R β} {m n : ℕ} {P : α → Prop}
  {Q : β → Prop}

theorem liftM_ok_bind (a : α) (f : α → Sampler R β) : (liftM (.ok a : Except Fault α) : Sampler R α) >>= f = f a :=
  pure_bind a f

/-- Wherever the sampler succeeds, it has taken that many draws, and its result has the property. -/
def Takes (n : ℕ) (P : α → Prop) (x : Sampler R α) : Prop :=
  ∀ source a rest, x.run.run source = (.ok a, rest) → rest = source.advance n ∧ P a

theorem Takes.bind (hx : x.Takes m P) (hf : ∀ a, P a → (f a).Takes n Q) : (x >>= f).Takes (m + n) Q := by
  intro source b rest h
  obtain ⟨a, middle, hfirst, hsecond⟩ := run_bind_eq_ok_iff.1 h
  obtain ⟨rfl, ha⟩ := hx _ _ _ hfirst
  obtain ⟨rfl, hb⟩ := hf a ha _ _ _ hsecond
  exact ⟨source.advance_advance m n, hb⟩

theorem takes_pure {a : α} (h : P a) : (pure a : Sampler R α).Takes 0 P := by
  intro source b rest hrun
  obtain ⟨rfl, rfl⟩ := run_pure_eq_ok_iff.1 hrun
  exact ⟨rfl, h⟩

theorem takes_liftM {r : Except Fault α} (h : ∀ a, r = .ok a → P a) : (liftM r : Sampler R α).Takes 0 P := by
  intro source a rest hrun
  obtain ⟨hr, rfl⟩ := run_liftM_eq_ok_iff.1 hrun
  exact ⟨rfl, h a hr⟩

theorem takes_drawUnit : (drawUnit : Sampler R R).Takes 1 fun _ => True := by
  rintro source a rest ⟨⟩
  exact ⟨rfl, trivial⟩

theorem takes_drawFraction : (drawFraction : Sampler R R).Takes 1 fun _ => True := by
  rintro source a rest ⟨⟩
  exact ⟨rfl, trivial⟩

theorem run_mapM_of_kind {S : DrawSource R → Prop} {g : α → DrawSource R → β}
    (h : ∀ a source, S source → (f a).run.run source = (.ok (g a source), source.advance m))
    (hadvance : ∀ source, S source → S (source.advance m)) (as : List α) (hsource : S source) :
    (as.mapM f).run.run source =
      (.ok (as.mapIdx fun i a => g a (source.advance (i * m))), source.advance (as.length * m)) := by
  induction as generalizing source with
  | nil => rw [List.length_nil, Nat.zero_mul]; rfl
  | cons a as ih =>
    rw [List.mapM_cons, run_bind (h a source hsource), run_bind (ih (hadvance source hsource)), List.mapIdx_cons]
    simp only [DrawSource.advance_advance, List.length_cons, Nat.zero_mul, Nat.succ_mul, Nat.add_comm m]
    rfl

theorem run_mapM {g : α → DrawSource R → β} (h : ∀ a source, (f a).run.run source = (.ok (g a source), source.advance 1))
    (as : List α) (source : DrawSource R) : (as.mapM f).run.run source =
      (.ok (as.mapIdx fun i a => g a (source.advance i)), source.advance as.length) := by
  have hrun : (as.mapM f).run.run source = _ :=
    run_mapM_of_kind (S := fun _ => True) (fun a source _ => h a source) (fun _ _ => trivial) as trivial
  simpa only [Nat.mul_one] using hrun

theorem mapM_range_add (x : Sampler R α) (m n : ℕ) : ((List.range (m + n)).mapM fun _ => x) = do
    let earlier ← (List.range m).mapM fun _ => x
    let later ← (List.range n).mapM fun _ => x
    return earlier ++ later := by
  rw [List.range_add, List.mapM_append, List.mapM_map]
  rfl

section Times

variable (x)

theorem times_zero (done : List α) : x.times 0 done = pure done := rfl

theorem times_succ (n : ℕ) (done : List α) : x.times (n + 1) done = x >>= fun a => x.times n (a :: done) := rfl

theorem times_append (n : ℕ) (front done : List α) :
    x.times n (front ++ done) = x.times n front >>= fun results => pure (results ++ done) := by
  induction n generalizing front with
  | zero => rw [times_zero, times_zero, pure_bind]
  | succ n ih =>
    rw [times_succ, times_succ, bind_assoc]
    exact congrArg (x >>= ·) (funext fun a => ih (a :: front))

theorem times_add (m n : ℕ) (done : List α) : x.times (m + n) done = x.times m done >>= x.times n := by
  induction m generalizing done with
  | zero => rw [Nat.zero_add, times_zero, pure_bind]
  | succ m ih =>
    rw [Nat.succ_add, times_succ, times_succ, bind_assoc]
    exact congrArg (x >>= ·) (funext fun a => ih (a :: done))

end Times

theorem run_times_add_eq_ok_iff {results : List α} : (x.times (m + n) []).run.run source = (.ok results, rest) ↔
    ∃ earlier later middle, (x.times m []).run.run source = (.ok earlier, middle) ∧
      (x.times n []).run.run middle = (.ok later, rest) ∧ results = later ++ earlier := by
  rw [times_add, run_bind_eq_ok_iff]
  have hsecond (earlier : List α) : x.times n earlier = x.times n [] >>= fun later => pure (later ++ earlier) :=
    x.times_append n [] earlier
  constructor
  · rintro ⟨earlier, middle, hfirst, h⟩
    rw [hsecond] at h
    obtain ⟨later, stop, hlater, hpure⟩ := run_bind_eq_ok_iff.1 h
    obtain ⟨rfl, rfl⟩ := run_pure_eq_ok_iff.1 hpure
    exact ⟨earlier, later, middle, hfirst, hlater, rfl⟩
  · rintro ⟨earlier, later, middle, hfirst, hlater, rfl⟩
    refine ⟨earlier, middle, hfirst, ?_⟩
    rw [hsecond]
    exact run_bind_eq_ok_iff.2 ⟨later, rest, hlater, rfl⟩

theorem Takes.times (h : x.Takes m P) (n : ℕ) {done : List α} (hdone : ∀ a ∈ done, P a) :
    (x.times n done).Takes (n * m) fun results => results.length = n + done.length ∧ ∀ a ∈ results, P a := by
  induction n generalizing done with
  | zero =>
    rw [Nat.zero_mul, Nat.zero_add]
    exact takes_pure ⟨rfl, hdone⟩
  | succ n ih =>
    rw [times_succ, Nat.succ_mul, Nat.add_comm (n * m)]
    refine h.bind fun a ha => ?_
    have hrest := ih (List.forall_mem_cons.2 ⟨ha, hdone⟩)
    rwa [List.length_cons, ← Nat.add_assoc, Nat.add_right_comm] at hrest

theorem exists_times {S : DrawSource R → Prop} (hx : ∀ source, S source → ∃ a, x.run.run source = (.ok a, source.advance m))
    (hadvance : ∀ source, S source → S (source.advance m)) (hsource : S source) (n : ℕ) (done : List α) :
    ∃ results, (x.times n done).run.run source = (.ok results, source.advance (n * m)) := by
  induction n generalizing source done with
  | zero => exact ⟨done, by rw [Nat.zero_mul]; rfl⟩
  | succ n ih =>
    obtain ⟨a, ha⟩ := hx source hsource
    obtain ⟨results, hresults⟩ := ih (hadvance source hsource) (a :: done)
    refine ⟨results, ?_⟩
    rw [times_succ, run_bind ha, hresults, source.advance_advance, Nat.succ_mul, Nat.add_comm m]

theorem Takes.exists_results [Inhabited α] (h : x.Takes m P) {results : List α}
    (hrun : (x.times n []).run.run source = (.ok results, rest)) :
    ∃ result : ℕ → α, results = ((List.range n).map result).reverse ∧
      ∀ j < n, x.run.run (source.advance (j * m)) = (.ok (result j), source.advance (j * m + m)) := by
  induction n generalizing results rest with
  | zero =>
    obtain ⟨rfl, rfl⟩ := run_pure_eq_ok_iff.1 hrun
    exact ⟨fun _ => default, rfl, nofun⟩
  | succ n ih =>
    obtain ⟨earlier, later, middle, hearlier, hlater, rfl⟩ := run_times_add_eq_ok_iff.1 hrun
    obtain ⟨rfl, _⟩ := h.times n (List.forall_mem_nil P) _ _ _ hearlier
    obtain ⟨result, rfl, hresult⟩ := ih hearlier
    obtain ⟨a, stop, hlast, hpure⟩ := run_bind_eq_ok_iff.1 hlater
    obtain ⟨rfl, rfl⟩ := run_pure_eq_ok_iff.1 hpure
    obtain ⟨rfl, _⟩ := h _ _ _ hlast
    refine ⟨Function.update result n a, ?_, fun j hj => ?_⟩
    · have hmap : (List.range n).map (Function.update result n a) = (List.range n).map result :=
        List.map_congr_left fun j hj => Function.update_of_ne (List.mem_range.1 hj).ne _ _
      rw [List.range_succ, List.map_append, hmap, List.reverse_append, List.map_singleton, Function.update_self]
      rfl
    · rcases Nat.lt_succ_iff_lt_or_eq.1 hj with hlt | rfl
      · rw [Function.update_of_ne hlt.ne]
        exact hresult j hlt
      · rw [Function.update_self, hlast, source.advance_advance]

end Sampler
end QuantumCircuits
