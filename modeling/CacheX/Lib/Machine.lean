import Mathlib.Data.Option.Basic
import Mathlib.Data.List.Basic
import Mathlib.Data.List.Forall2
import Mathlib.Order.Monotone.Basic

/-!
# Partial deterministic machines

A machine takes one input at a time. A step either gives the next state and an output, or is
undefined (`none`). A run over a list of inputs is defined when every one of its steps is.

* `run_append`, `run_append_inv`: a run over `is ++ js` is the run over `is` followed by the run
  over `js`.
* `run_of_invariant`: an invariant under which every step is defined, and which every step
  keeps, makes every run defined and holds at its end. `run_of_traceInvariant` is the same for an
  invariant that also speaks about the inputs and outputs so far, and `run_outputs` for inputs and
  outputs with a property of their own.
* `run_relates`: a relation that every step keeps, against a total abstract step with related
  outputs, makes every run defined with outputs related to the abstract run's. `run_simulates` is
  the case of equal outputs. `run_coupled` is the rule for two machines that are both partial.
* `iterate_halts`: a measure makes a machine without inputs halt unless it stalls forever.
-/

namespace CacheX.Machine

variable {σ τ ι ρ : Type}

/-- The run of a machine over a list of inputs, with the outputs in order. -/
def run (step : σ → ι → Option (σ × ρ)) : σ → List ι → Option (σ × List ρ)
  | s, [] => some (s, [])
  | s, i :: is =>
      match step s i with
      | none => none
      | some (s', r) => (run step s' is).map fun p => (p.1, r :: p.2)

/-- The run of a total machine. -/
def runTotal (step : σ → ι → σ × ρ) : σ → List ι → σ × List ρ
  | s, [] => (s, [])
  | s, i :: is =>
      let p := step s i
      let q := runTotal step p.1 is
      (q.1, p.2 :: q.2)

theorem run_cons_some {step : σ → ι → Option (σ × ρ)} {s s' s'' : σ} {i : ι} {is : List ι} {r : ρ}
    {rs : List ρ} (h : step s i = some (s', r)) (hr : run step s' is = some (s'', rs)) :
    run step s (i :: is) = some (s'', r :: rs) := by
  simp [run, h, hr]

theorem run_cons_inv {step : σ → ι → Option (σ × ρ)} {s s'' : σ} {i : ι} {is : List ι}
    {rs : List ρ} (h : run step s (i :: is) = some (s'', rs)) :
    ∃ s' r rs', step s i = some (s', r) ∧ run step s' is = some (s'', rs') ∧ rs = r :: rs' := by
  simp only [run] at h
  split at h
  · cases h
  · next s' r hs =>
    obtain ⟨⟨t, rs'⟩, ht, he⟩ := Option.map_eq_some_iff.mp h
    cases he
    exact ⟨s', r, rs', hs, ht, rfl⟩

theorem run_append {step : σ → ι → Option (σ × ρ)} {s s' s'' : σ} {is js : List ι} {rs qs : List ρ}
    (h : run step s is = some (s', rs)) (h' : run step s' js = some (s'', qs)) :
    run step s (is ++ js) = some (s'', rs ++ qs) := by
  induction is generalizing s rs with
  | nil =>
    cases h
    exact h'
  | cons i is ih =>
    obtain ⟨t, r, rs', hs, hr, rfl⟩ := run_cons_inv h
    exact run_cons_some hs (ih hr)

theorem run_append_inv {step : σ → ι → Option (σ × ρ)} {s s'' : σ} {is js : List ι} {rs : List ρ}
    (h : run step s (is ++ js) = some (s'', rs)) :
    ∃ s' qs qs', run step s is = some (s', qs) ∧ run step s' js = some (s'', qs') ∧
      rs = qs ++ qs' := by
  induction is generalizing s rs with
  | nil => exact ⟨s, [], rs, rfl, h, rfl⟩
  | cons i is ih =>
    obtain ⟨t, r, rs', hs, hr, rfl⟩ := run_cons_inv h
    obtain ⟨s', qs, qs', hqs, hqs', rfl⟩ := ih hr
    exact ⟨s', r :: qs, qs', run_cons_some hs hqs, hqs', rfl⟩

theorem run_length {step : σ → ι → Option (σ × ρ)} {s s' : σ} {is : List ι} {rs : List ρ}
    (h : run step s is = some (s', rs)) : rs.length = is.length := by
  induction is generalizing s rs with
  | nil =>
    cases h
    rfl
  | cons i is ih =>
    obtain ⟨t, r, rs', hs, hr, rfl⟩ := run_cons_inv h
    simp [ih hr]

/-- The invariant rule. If every step from a state with `P` is defined and keeps `P`, then
every run from such a state is defined and ends in one. -/
theorem run_of_invariant {step : σ → ι → Option (σ × ρ)} {P : σ → Prop}
    (hstep : ∀ s i, P s → ∃ s' r, step s i = some (s', r) ∧ P s') {s : σ} (hs : P s)
    (is : List ι) : ∃ s' rs, run step s is = some (s', rs) ∧ P s' := by
  induction is generalizing s with
  | nil => exact ⟨s, [], rfl, hs⟩
  | cons i is ih =>
    obtain ⟨t, r, ht, hinv⟩ := hstep s i hs
    obtain ⟨s', rs, hr, hinv'⟩ := ih hinv
    exact ⟨s', r :: rs, run_cons_some ht hr, hinv'⟩

/-- The invariant rule for inputs with `I`, where every output has `Q`. -/
theorem run_outputs {step : σ → ι → Option (σ × ρ)} {P : σ → Prop} {I : ι → Prop} {Q : ρ → Prop}
    (hstep : ∀ s i, P s → I i → ∃ s' r, step s i = some (s', r) ∧ P s' ∧ Q r) {s : σ} (hs : P s)
    {is : List ι} (his : ∀ i ∈ is, I i) :
    ∃ s' rs, run step s is = some (s', rs) ∧ P s' ∧ ∀ r ∈ rs, Q r := by
  induction is generalizing s with
  | nil => exact ⟨s, [], rfl, hs, fun r hr => absurd hr List.not_mem_nil⟩
  | cons i is ih =>
    obtain ⟨t, r, ht, hinv, hr⟩ := hstep s i hs (his i List.mem_cons_self)
    obtain ⟨s', rs, hrun, hinv', hrs⟩ := ih hinv fun j hj => his j (List.mem_cons_of_mem _ hj)
    exact ⟨s', r :: rs, run_cons_some ht hrun, hinv', List.forall_mem_cons.mpr ⟨hr, hrs⟩⟩

theorem run_of_traceInvariant_from {step : σ → ι → Option (σ × ρ)} {P : σ → List (ι × ρ) → Prop}
    (hstep : ∀ s tr i, P s tr → ∃ s' r, step s i = some (s', r) ∧ P s' (tr ++ [(i, r)]))
    {s : σ} {tr : List (ι × ρ)} (hs : P s tr) (is : List ι) :
    ∃ s' rs, run step s is = some (s', rs) ∧ P s' (tr ++ is.zip rs) := by
  induction is generalizing s tr with
  | nil => exact ⟨s, [], rfl, by simpa using hs⟩
  | cons i is ih =>
    obtain ⟨t, r, ht, hinv⟩ := hstep s tr i hs
    obtain ⟨s', rs, hr, hinv'⟩ := ih hinv
    refine ⟨s', r :: rs, run_cons_some ht hr, ?_⟩
    rw [List.zip_cons_cons]
    simpa using hinv'

/-- The invariant rule for an invariant that also speaks about the inputs and outputs so far. -/
theorem run_of_traceInvariant {step : σ → ι → Option (σ × ρ)} {P : σ → List (ι × ρ) → Prop}
    (hstep : ∀ s tr i, P s tr → ∃ s' r, step s i = some (s', r) ∧ P s' (tr ++ [(i, r)]))
    {s : σ} (hs : P s []) (is : List ι) :
    ∃ s' rs, run step s is = some (s', rs) ∧ P s' (is.zip rs) :=
  run_of_traceInvariant_from hstep hs is

theorem runTotal_invariant {step : σ → ι → σ × ρ} {P : σ → Prop}
    (hstep : ∀ s i, P s → P (step s i).1) {s : σ} (hs : P s) (is : List ι) :
    P (runTotal step s is).1 := by
  induction is generalizing s with
  | nil => exact hs
  | cons i is ih => exact ih (hstep s i hs)

/-- A machine without inputs, such as a loop. If a measure never grows, and falls in every step from
a state that is neither an end (`P`) nor stalls (`Q`), then the machine comes to an end unless it
stalls forever. -/
theorem iterate_halts {step : σ → σ} {P Q : σ → Prop} (measure : σ → Nat)
    (hle : ∀ s, measure (step s) ≤ measure s)
    (hlt : ∀ s, ¬ P s → ¬ Q s → measure (step s) < measure s) {s : σ}
    (hfair : ∀ k, ∃ j, k ≤ j ∧ ¬ Q (step^[j] s)) : ∃ k, P (step^[k] s) := by
  have hanti : Antitone fun k => measure (step^[k] s) := by
    refine antitone_nat_of_succ_le fun k => ?_
    rw [Function.iterate_succ_apply']
    exact hle _
  -- the end is reached from any point of the run, by induction on the measure there
  suffices h : ∀ m k, measure (step^[k] s) = m → ∃ k, P (step^[k] s) from h _ 0 rfl
  intro m
  induction m using Nat.strongRecOn with
  | ind m ih =>
    intro k hk
    obtain ⟨j, hkj, hj⟩ := hfair k
    by_cases hend : P (step^[j] s)
    · exact ⟨j, hend⟩
    · have hfall : measure (step^[j + 1] s) < m := by
        rw [Function.iterate_succ_apply', ← hk]
        exact (hlt _ hend hj).trans_le (hanti hkj)
      exact ih _ hfall (j + 1) rfl

/-- The places where a row with one more item at its end can be split. -/
theorem snoc_split {α : Type} {l pre post : List α} {x y : α} (h : l ++ [x] = pre ++ y :: post) :
    (pre = l ∧ y = x) ∨ ∃ post', l = pre ++ y :: post' := by
  rcases List.eq_nil_or_concat post with rfl | ⟨post', z, rfl⟩
  · obtain ⟨hl, hx⟩ := List.append_inj' h rfl
    exact Or.inl ⟨hl.symm, (List.cons.inj hx).1.symm⟩
  · rw [List.concat_eq_append, ← List.cons_append, ← List.append_assoc] at h
    exact Or.inr ⟨post', (List.append_inj' h rfl).1⟩

/-- The simulation rule. `R is s t` relates the states of the two machines when the inputs `is` are
still to come, so it can speak about their order. If every step keeps it and gives outputs related
by `Q`, then the ends of the two runs are related, and so are their outputs, one by one. -/
theorem run_relates {step : σ → ι → Option (σ × ρ)} {astep : τ → ι → τ × ρ}
    {R : List ι → σ → τ → Prop} {Q : ρ → ρ → Prop}
    (hstep : ∀ i is s t, R (i :: is) s t →
      ∃ s' r, step s i = some (s', r) ∧ Q r (astep t i).2 ∧ R is s' (astep t i).1)
    {is : List ι} {s : σ} {t : τ} (h : R is s t) :
    ∃ s' rs, run step s is = some (s', rs) ∧ List.Forall₂ Q rs (runTotal astep t is).2 ∧
      R [] s' (runTotal astep t is).1 := by
  induction is generalizing s t with
  | nil => exact ⟨s, [], rfl, List.Forall₂.nil, h⟩
  | cons i is ih =>
    obtain ⟨s1, r, hs1, hQ, hR1⟩ := hstep i is s t h
    obtain ⟨s', rs, hr, hQs, hR'⟩ := ih hR1
    exact ⟨s', r :: rs, run_cons_some hs1 hr, List.Forall₂.cons hQ hQs, hR'⟩

/-- The simulation rule with equal outputs. -/
theorem run_simulates {step : σ → ι → Option (σ × ρ)} {astep : τ → ι → τ × ρ} {R : σ → τ → Prop}
    (hstep : ∀ s t i, R s t → ∃ s', step s i = some (s', (astep t i).2) ∧ R s' (astep t i).1)
    {s : σ} {t : τ} (h : R s t) (is : List ι) :
    ∃ s', run step s is = some (s', (runTotal astep t is).2) ∧ R s' (runTotal astep t is).1 := by
  obtain ⟨s', rs, hr, hQ, hR⟩ := run_relates (R := fun _ => R) (Q := Eq)
    (fun i _ s t h => by
      obtain ⟨s', hs, hR⟩ := hstep s t i h
      exact ⟨s', _, hs, rfl, hR⟩) (show (fun _ => R) is s t from h)
  rw [List.forall₂_eq_eq_eq] at hQ
  exact ⟨s', hQ ▸ hr, hR⟩

/-- The rule for two machines on the same inputs: a relation under which both steps are defined, and
which they keep. -/
theorem run_coupled {κ : Type} {step : σ → ι → Option (σ × ρ)} {step' : τ → ι → Option (τ × κ)}
    {R : σ → τ → Prop} {Q : ρ → κ → Prop}
    (hstep : ∀ s t i, R s t → ∃ s' t' r q, step s i = some (s', r) ∧ step' t i = some (t', q) ∧
      R s' t' ∧ Q r q) {s : σ} {t : τ} (h : R s t) (is : List ι) :
    ∃ s' t' rs qs, run step s is = some (s', rs) ∧ run step' t is = some (t', qs) ∧ R s' t' ∧
      List.Forall₂ Q rs qs := by
  induction is generalizing s t with
  | nil => exact ⟨s, t, [], [], rfl, rfl, h, List.Forall₂.nil⟩
  | cons i is ih =>
    obtain ⟨s₁, t₁, r, q, hs, ht, h₁, hrq⟩ := hstep s t i h
    obtain ⟨s', t', rs, qs, hrs, hqs, h', hall⟩ := ih h₁
    exact ⟨s', t', r :: rs, q :: qs, run_cons_some hs hrs, run_cons_some ht hqs, h',
      List.Forall₂.cons hrq hall⟩

end CacheX.Machine
