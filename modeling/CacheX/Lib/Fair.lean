import Mathlib.Logic.Function.Iterate
import Mathlib.Logic.Relation
import Mathlib.Order.WellFounded

/-!
# Runs with steps from outside

A system takes steps of its own, and between them its surroundings may change the state, or nothing
happens. A run is an infinite sequence of states; it is fair if the system is not held up forever:
when it can take a step of its own at every moment from some moment on, then it takes one.

* `Run.reaches`: the states of a run are reachable, so invariants hold all along it.
* `exists_run`: every state that can be reached is on some fair run.
* `halts_of_fair`: if a measure falls with every step of the system and does not grow otherwise,
  then a fair run comes to a state in which the system has no step left to take.
-/

namespace CacheX.Fair

variable {σ μ : Type} {own other : σ → σ → Prop} {run : Nat → σ}

/-- Each step is the system's, comes from outside or is none, and the system is not held up
forever. -/
structure Run (own other : σ → σ → Prop) (run : Nat → σ) : Prop where
  step : ∀ n, own (run n) (run (n + 1)) ∨ other (run n) (run (n + 1)) ∨ run (n + 1) = run n
  fair : ∀ n, (∀ k, n ≤ k → ∃ s, own (run k) s) → ∃ k, n ≤ k ∧ own (run k) (run (k + 1))

namespace Run

theorem reaches (h : Run own other run) (n : Nat) :
    Relation.ReflTransGen (fun s s' => own s s' ∨ other s s') (run 0) (run n) := by
  induction n with
  | zero => exact .refl
  | succ n ih =>
    rcases h.step n with hs | hs | hs
    · exact ih.tail (.inl hs)
    · exact ih.tail (.inr hs)
    · rw [hs]
      exact ih

/-- A fair run from one of its later moments on. -/
theorem drop (h : Run own other run) (k : Nat) : Run own other fun n => run (k + n) where
  step := fun n => h.step (k + n)
  fair := by
    intro n hn
    obtain ⟨j, hj, hown⟩ := h.fair (k + n) fun m hm => by
      obtain ⟨i, rfl⟩ := Nat.exists_eq_add_of_le ((Nat.le_add_right k n).trans hm)
      exact hn i (Nat.le_of_add_le_add_left hm)
    obtain ⟨i, rfl⟩ := Nat.exists_eq_add_of_le ((Nat.le_add_right k n).trans hj)
    exact ⟨i, Nat.le_of_add_le_add_left hj, hown⟩

/-- A fair run with one more step before it. -/
theorem cons (h : Run own other run) {s : σ} (hs : own s (run 0) ∨ other s (run 0)) :
    Run own other fun n => Nat.casesOn n s run where
  step := fun n => match n with
    | 0 => hs.imp id .inl
    | n + 1 => h.step n
  fair := by
    intro n hn
    obtain ⟨k, hk, hown⟩ := h.fair n fun k hk => hn (k + 1) (hk.trans (Nat.le_succ k))
    exact ⟨k + 1, hk.trans (Nat.le_succ k), hown⟩

/-- Steps from outside that come whenever they stay possible count as the system's own. -/
theorem absorb {granted : σ → σ → Prop}
    (h : Run own (fun s s' => granted s s' ∨ other s s') run)
    (hgranted : ∀ n, (∃ s, granted (run n) s) → ∃ k, n ≤ k ∧ granted (run k) (run (k + 1))) :
    Run (fun s s' => own s s' ∨ granted s s') other run where
  step := fun n => by
    rcases h.step n with hs | (hs | hs) | hs
    · exact .inl (.inl hs)
    · exact .inl (.inr hs)
    · exact .inr (.inl hs)
    · exact .inr (.inr hs)
  fair := by
    intro n hn
    by_cases hall : ∀ k, n ≤ k → ∃ s, own (run k) s
    · obtain ⟨k, hk, hown⟩ := h.fair n hall
      exact ⟨k, hk, .inl hown⟩
    · push Not at hall
      obtain ⟨k, hk, hstuck⟩ := hall
      obtain ⟨s, hs | hs⟩ := hn k hk
      · exact absurd hs (hstuck s)
      · obtain ⟨j, hj, hstep⟩ := hgranted k ⟨s, hs⟩
        exact ⟨j, hk.trans hj, .inr hstep⟩

end Run

open Classical in
/-- A run in which the system takes a step whenever it can. -/
theorem exists_eager (own other : σ → σ → Prop) (s : σ) : ∃ run, run 0 = s ∧ Run own other run := by
  let next : σ → σ := fun s => if h : ∃ s', own s s' then h.choose else s
  have hnext : ∀ s, (∃ s', own s s') → own s (next s) := by
    intro s h
    show own s (if h : ∃ s', own s s' then h.choose else s)
    rw [dif_pos h]
    exact h.choose_spec
  refine ⟨fun n => next^[n] s, rfl, fun n => ?_, fun n h => ⟨n, Nat.le_refl n, ?_⟩⟩
  · simp only [Function.iterate_succ_apply']
    by_cases h : ∃ s', own (next^[n] s) s'
    · exact .inl (hnext _ h)
    · exact .inr (.inr (dif_neg h))
  · simp only [Function.iterate_succ_apply']
    exact hnext _ (h n (Nat.le_refl n))

theorem exists_run {s₀ s : σ}
    (h : Relation.ReflTransGen (fun s s' => own s s' ∨ other s s') s₀ s) :
    ∃ run k, run 0 = s₀ ∧ run k = s ∧ Run own other run := by
  induction h using Relation.ReflTransGen.head_induction_on with
  | refl =>
    obtain ⟨run, hrun, hfair⟩ := exists_eager own other s
    exact ⟨run, 0, hrun, hrun, hfair⟩
  | head hstep _ ih =>
    obtain ⟨run, k, rfl, hk, hfair⟩ := ih
    exact ⟨_, k + 1, rfl, hk, hfair.cons hstep⟩

/-- The rule for fair runs. -/
theorem halts_of_fair [Preorder μ] [WellFoundedLT μ] (h : Run own other run) {P : σ → Prop}
    (hinv : ∀ n, P (run n)) (measure : σ → μ)
    (hown : ∀ s s', P s → own s s' → measure s' < measure s)
    (hother : ∀ s s', P s → other s s' → measure s' ≤ measure s) :
    ∃ n, ∀ s, ¬ own (run n) s := by
  have hle : ∀ n k, n ≤ k → measure (run k) ≤ measure (run n) := by
    intro n k hnk
    induction hnk with
    | refl => exact le_refl _
    | step _ ih =>
      rcases h.step _ with hs | hs | hs
      · exact (hown _ _ (hinv _) hs).le.trans ih
      · exact (hother _ _ (hinv _) hs).trans ih
      · rw [hs]
        exact ih
  by_contra hnever
  have henabled : ∀ n, ∃ s, own (run n) s := by
    intro n
    by_contra hn
    exact hnever ⟨n, not_exists.mp hn⟩
  -- the measure would fall forever
  suffices hfrom : ∀ m n, measure (run n) ≠ m from hfrom _ 0 rfl
  intro m
  induction m using WellFoundedLT.induction with
  | ind m ih =>
    intro n hn
    obtain ⟨k, hnk, hk⟩ := h.fair n fun k _ => henabled k
    refine ih (measure (run (k + 1))) ?_ (k + 1) rfl
    rw [← hn]
    exact (hown _ _ (hinv k) hk).trans_le (hle n k hnk)

end CacheX.Fair
