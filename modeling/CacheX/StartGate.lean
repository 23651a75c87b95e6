import CacheX.Lib.Condition
import Mathlib.Data.Finset.Card
import Mathlib.Data.Fintype.Basic
import Mathlib.Data.Fintype.Option

/-!
# The start gate of the benchmarks

`StartGate` of `bench_util.hpp` as `run_concurrent` uses it: every client calls `arrive_and_wait`,
and the thread that started them calls `wait_until_all_ready`, reads the clock, and calls
`release`. The methods are code over one mutex and two condition variables.

* `ClientPoint`, `StarterPoint`: where a thread can be, with the code that is left.
* `GateInv`: `remaining_` counts the clients that have not arrived, and nobody is let through early.
* `gate_together`: nobody passes before all have arrived and the gate is released, and the clock is
  read between these moments.
* `gate_opens`: everybody passes in the end; no notification is missed.
-/

namespace CacheX.Bench

open Condition

/-- The condition variables. -/
inductive GateCv
  | ready
  | go
deriving DecidableEq, Repr

/-- What the mutex protects. -/
structure StartGate where
  remaining : Int
  released : Bool := false
deriving DecidableEq, Repr

namespace StartGate

/-- The predicate of the waits in `ready_`. -/
def allReady (g : StartGate) : Bool := g.remaining == 0

/-- `if (--remaining_ == 0) ready_.notify_all();` -/
def count : Instr StartGate GateCv :=
  .update (fun g => { g with remaining := g.remaining - 1 })
    fun g => if g.allReady then some .ready else none

def arriveAndWait : List (Instr StartGate GateCv) :=
  [.lock, count, .wait .ready allReady, .wait .go released, .unlock]

def waitUntilAllReady : List (Instr StartGate GateCv) :=
  [.lock, .wait .ready allReady, .unlock]

/-- The guard of `released_` is gone before the notification. -/
def release : List (Instr StartGate GateCv) :=
  [.lock, .update (fun g => { g with released := true }) (fun _ => none), .unlock, .notifyAll .go]

/-- The `n` clients, and the thread that starts them. -/
def program (n : Nat) : Option (Fin n) → List (Instr StartGate GateCv)
  | some _ => arriveAndWait
  | none => waitUntilAllReady ++ release

abbrev Threads (n : Nat) := State (Option (Fin n)) StartGate GateCv

/-- The gate has just been built, and the threads are on their way to it. -/
def startGate (n : Nat) : Threads n := start { remaining := n } (program n)

/-- The client has counted itself. -/
def Arrived {n : Nat} (s : Threads n) (i : Fin n) : Prop :=
  s.code (some i) ≠ arriveAndWait ∧ s.code (some i) ≠ arriveAndWait.tail

/-! ## Nothing is announced too late -/

/-- What is waited for. -/
inductive Waits : GateCv → (StartGate → Bool) → Prop
  | ready : Waits .ready allReady
  | go : Waits .go released

theorem announced_arriveAndWait : Announced Waits arriveAndWait := by
  refine ⟨fun cv pred g hwaits hpred => ?_, .ready, .go, trivial⟩
  cases hwaits with
  | ready => exact .inr (.inl (if_pos hpred))
  | go => exact .inl hpred

theorem announced_starter : Announced Waits (waitUntilAllReady ++ release) := by
  refine ⟨.ready, fun cv pred g hwaits hpred => ?_, trivial⟩
  cases hwaits with
  | ready => exact .inl hpred
  | go => exact .inr (.inr (.inl rfl))

theorem inv_startGate (n : Nat) : Inv Waits (startGate n) := by
  refine inv_start (fun t => ?_) fun t => ?_
  · cases t with
    | none => simp [program, waitUntilAllReady, release, Held]
    | some i => simp [program, arriveAndWait, count, Held]
  · cases t with
    | none => exact announced_starter
    | some i => exact announced_arriveAndWait

/-! ## Where the threads can be -/

inductive ClientPoint
  | enter
  | counting
  | notifying
  | ready
  | go
  | leave
  | passed
deriving DecidableEq, Repr

inductive StarterPoint
  | enter
  | ready
  | leave
  | timing
  | setting
  | unlocking
  | notifying
  | done
deriving DecidableEq, Repr

namespace ClientPoint

def code : ClientPoint → List (Instr StartGate GateCv)
  | .enter => arriveAndWait
  | .counting => [count, .wait .ready allReady, .wait .go released, .unlock]
  | .notifying => [.notifyAll .ready, .wait .ready allReady, .wait .go released, .unlock]
  | .ready => [.wait .ready allReady, .wait .go released, .unlock]
  | .go => [.wait .go released, .unlock]
  | .leave => [.unlock]
  | .passed => []

def arrived : ClientPoint → Bool
  | .enter => false
  | .counting => false
  | _ => true

/-- Past the first wait. -/
def gathered : ClientPoint → Bool
  | .go => true
  | .leave => true
  | .passed => true
  | _ => false

/-- Past the second wait. -/
def freed : ClientPoint → Bool
  | .leave => true
  | .passed => true
  | _ => false

/-- One step of a client along `arrive_and_wait`, and what it does to the gate. -/
inductive Move (g : StartGate) : ClientPoint → StartGate → ClientPoint → Prop
  | enter : Move g .enter g .counting
  | last (h : g.remaining - 1 = 0) :
      Move g .counting { g with remaining := g.remaining - 1 } .notifying
  | count (h : g.remaining - 1 ≠ 0) :
      Move g .counting { g with remaining := g.remaining - 1 } .ready
  | notify : Move g .notifying g .ready
  | ready (h : g.remaining = 0) : Move g .ready g .go
  | go (h : g.released = true) : Move g .go g .leave
  | leave : Move g .leave g .passed

end ClientPoint

namespace StarterPoint

def code : StarterPoint → List (Instr StartGate GateCv)
  | .enter => waitUntilAllReady ++ release
  | .ready => [.wait .ready allReady, .unlock] ++ release
  | .leave => [.unlock] ++ release
  | .timing => release
  | .setting => [.update (fun g => { g with released := true }) (fun _ => none), .unlock,
      .notifyAll .go]
  | .unlocking => [.unlock, .notifyAll .go]
  | .notifying => [.notifyAll .go]
  | .done => []

/-- Past the wait. -/
def gathered : StarterPoint → Bool
  | .enter => false
  | .ready => false
  | _ => true

def released : StarterPoint → Bool
  | .unlocking => true
  | .notifying => true
  | .done => true
  | _ => false

/-- One step of the starter. -/
inductive Move (g : StartGate) : StarterPoint → StartGate → StarterPoint → Prop
  | enter : Move g .enter g .ready
  | ready (h : g.remaining = 0) : Move g .ready g .leave
  | leave : Move g .leave g .timing
  | lock : Move g .timing g .setting
  | set : Move g .setting { g with released := true } .unlocking
  | unlock : Move g .unlocking g .notifying
  | notify : Move g .notifying g .done

end StarterPoint

variable {n : Nat} {s s' : Threads n}

/-- A step of a client is a move, or nothing as far as the gate and the code go. -/
theorem client_moves {i : Fin n} {p : ClientPoint} (hp : s.code (some i) = p.code)
    {g : StartGate} {code : Option (Fin n) → List (Instr StartGate GateCv)}
    (h : Effect s (some i) g code) :
    (g = s.shared ∧ code = s.code) ∨
      ∃ p', p.Move s.shared g p' ∧ code = Function.update s.code (some i) p'.code := by
  cases h with
  | none => exact .inl ⟨rfl, rfl⟩
  | lock hcode =>
    rw [hp] at hcode
    cases p <;> cases hcode
    exact .inr ⟨_, .enter, rfl⟩
  | unlock hcode =>
    rw [hp] at hcode
    cases p <;> cases hcode
    exact .inr ⟨_, .leave, rfl⟩
  | update hcode =>
    rw [hp] at hcode
    cases p <;> cases hcode
    by_cases hlast : s.shared.remaining - 1 = 0
    · exact .inr ⟨_, .last hlast, congrArg (fun signal => Function.update s.code (some i)
        (afterUpdate signal _)) (if_pos (beq_iff_eq.mpr hlast))⟩
    · exact .inr ⟨_, .count hlast, congrArg (fun signal => Function.update s.code (some i)
        (afterUpdate signal _)) (if_neg (mt beq_iff_eq.mp hlast))⟩
  | notifyAll hcode =>
    rw [hp] at hcode
    cases p <;> cases hcode
    exact .inr ⟨_, .notify, rfl⟩
  | pass hcode hpred =>
    rw [hp] at hcode
    cases p <;> cases hcode
    · exact .inr ⟨_, .ready (beq_iff_eq.mp hpred), rfl⟩
    · exact .inr ⟨_, .go hpred, rfl⟩

theorem starter_moves {p : StarterPoint} (hp : s.code none = p.code)
    {g : StartGate} {code : Option (Fin n) → List (Instr StartGate GateCv)}
    (h : Effect s none g code) :
    (g = s.shared ∧ code = s.code) ∨
      ∃ p', p.Move s.shared g p' ∧ code = Function.update s.code none p'.code := by
  cases h with
  | none => exact .inl ⟨rfl, rfl⟩
  | lock hcode =>
    rw [hp] at hcode
    cases p <;> cases hcode
    · exact .inr ⟨_, .enter, rfl⟩
    · exact .inr ⟨_, .lock, rfl⟩
  | unlock hcode =>
    rw [hp] at hcode
    cases p <;> cases hcode
    · exact .inr ⟨_, .leave, rfl⟩
    · exact .inr ⟨_, .unlock, rfl⟩
  | update hcode =>
    rw [hp] at hcode
    cases p <;> cases hcode
    exact .inr ⟨_, .set, rfl⟩
  | notifyAll hcode =>
    rw [hp] at hcode
    cases p <;> cases hcode
    exact .inr ⟨_, .notify, rfl⟩
  | pass hcode hpred =>
    rw [hp] at hcode
    cases p <;> cases hcode
    exact .inr ⟨_, .ready (beq_iff_eq.mp hpred), rfl⟩

/-! ## The gate keeps -/

/-- The gate `g`, with every client at a point of its own and the starter at one. -/
structure GateInv (g : StartGate) (point : Fin n → ClientPoint) (main : StarterPoint)
    (missing : Finset (Fin n)) : Prop where
  missing_iff : ∀ i, i ∈ missing ↔ (point i).arrived = false
  remaining : g.remaining = missing.card
  released : g.released = main.released
  gathered : ∀ i, (point i).gathered = true → missing = ∅
  starterGathered : main.gathered = true → missing = ∅
  freed : ∀ i, (point i).freed = true → main.released = true

namespace GateInv

variable {g g' : StartGate} {point : Fin n → ClientPoint} {main : StarterPoint}
  {missing : Finset (Fin n)} {i : Fin n} {p : ClientPoint}

theorem start (n : Nat) :
    GateInv { remaining := n } (fun _ : Fin n => .enter) .enter Finset.univ where
  missing_iff i := iff_of_true (Finset.mem_univ i) rfl
  remaining := by rw [Finset.card_univ, Fintype.card_fin]
  released := rfl
  gathered := nofun
  starterGathered := nofun
  freed := nofun

theorem missing_eq_empty (h : GateInv g point main missing) (hzero : g.remaining = 0) :
    missing = ∅ :=
  Finset.card_eq_zero.mp (Int.natCast_eq_zero.mp (h.remaining.symm.trans hzero))

/-- A client moves on without touching the gate. -/
theorem moveClient (h : GateInv g point main missing) (harrived : p.arrived = (point i).arrived)
    (hgathered : p.gathered = true → missing = ∅)
    (hfreed : p.freed = true → main.released = true) :
    GateInv g (Function.update point i p) main missing where
  missing_iff j := by
    rw [h.missing_iff j]
    rcases eq_or_ne j i with rfl | hj
    · rw [Function.update_self, harrived]
    · rw [Function.update_of_ne hj]
  remaining := h.remaining
  released := h.released
  gathered j hj := by
    rcases eq_or_ne j i with rfl | hne
    · exact hgathered (Function.update_self j p point ▸ hj)
    · exact h.gathered j (Function.update_of_ne hne p point ▸ hj)
  starterGathered := h.starterGathered
  freed j hj := by
    rcases eq_or_ne j i with rfl | hne
    · exact hfreed (Function.update_self j p point ▸ hj)
    · exact h.freed j (Function.update_of_ne hne p point ▸ hj)

/-- A client counts itself. Nobody can be past a wait before that. -/
theorem count (h : GateInv g point main missing) (hat : (point i).arrived = false)
    (harrived : p.arrived = true) (hgathered : p.gathered = false) (hfreed : p.freed = false) :
    GateInv { g with remaining := g.remaining - 1 } (Function.update point i p) main
      (missing.erase i) := by
  have hi : i ∈ missing := (h.missing_iff i).mpr hat
  have hne : missing ≠ ∅ := Finset.ne_empty_of_mem hi
  have hpos : 0 < missing.card := Finset.card_pos.mpr ⟨i, hi⟩
  constructor
  · intro j
    rw [Finset.mem_erase, h.missing_iff j]
    rcases eq_or_ne j i with rfl | hj
    · rw [Function.update_self, harrived]
      exact iff_of_false (fun hand => hand.1 rfl) nofun
    · rw [Function.update_of_ne hj]
      exact and_iff_right hj
  · show g.remaining - 1 = _
    rw [h.remaining, Finset.card_erase_of_mem hi, Int.natCast_sub hpos]
    rfl
  · exact h.released
  · intro j hj
    rcases eq_or_ne j i with rfl | hne'
    · rw [Function.update_self, hgathered] at hj
      cases hj
    · rw [Function.update_of_ne hne'] at hj
      exact absurd (h.gathered j hj) hne
  · exact fun hs => absurd (h.starterGathered hs) hne
  · intro j hj
    rcases eq_or_ne j i with rfl | hne'
    · rw [Function.update_self, hfreed] at hj
      cases hj
    · rw [Function.update_of_ne hne'] at hj
      exact h.freed j hj

theorem clientMove (h : GateInv g point main missing) (hmove : (point i).Move g g' p) :
    ∃ missing', GateInv g' (Function.update point i p) main missing' := by
  generalize hat : point i = q at hmove
  cases hmove with
  | enter => exact ⟨_, h.moveClient (by rw [hat]; rfl) nofun nofun⟩
  | last => exact ⟨_, h.count (by rw [hat]; rfl) rfl rfl rfl⟩
  | count => exact ⟨_, h.count (by rw [hat]; rfl) rfl rfl rfl⟩
  | notify => exact ⟨_, h.moveClient (by rw [hat]; rfl) nofun nofun⟩
  | ready hzero =>
    exact ⟨_, h.moveClient (by rw [hat]; rfl) (fun _ => h.missing_eq_empty hzero) nofun⟩
  | go hreleased =>
    exact ⟨_, h.moveClient (by rw [hat]; rfl) (fun _ => h.gathered i (by rw [hat]; rfl))
      fun _ => h.released.symm.trans hreleased⟩
  | leave =>
    exact ⟨_, h.moveClient (by rw [hat]; rfl) (fun _ => h.gathered i (by rw [hat]; rfl))
      fun _ => h.freed i (by rw [hat]; rfl)⟩

theorem starterMove {q : StarterPoint} (h : GateInv g point main missing)
    (hmove : main.Move g g' q) : GateInv g' point q missing := by
  cases hmove with
  | enter => exact { h with starterGathered := nofun }
  | ready hzero => exact { h with starterGathered := fun _ => h.missing_eq_empty hzero }
  | leave => exact { h with starterGathered := fun _ => h.starterGathered rfl }
  | lock => exact { h with starterGathered := fun _ => h.starterGathered rfl }
  | set =>
    exact { h with
      released := rfl
      starterGathered := fun _ => h.starterGathered rfl
      freed := fun _ _ => rfl }
  | unlock => exact { h with starterGathered := fun _ => h.starterGathered rfl }
  | notify => exact { h with starterGathered := fun _ => h.starterGathered rfl }

end GateInv

/-- Where the threads of `s` are. -/
structure Located (s : Threads n) (point : Fin n → ClientPoint) (main : StarterPoint)
    (missing : Finset (Fin n)) : Prop where
  client : ∀ i, s.code (some i) = (point i).code
  starter : s.code none = main.code
  gate : GateInv s.shared point main missing

theorem located_start (n : Nat) :
    Located (startGate n) (fun _ => .enter) .enter Finset.univ :=
  ⟨fun _ => rfl, rfl, .start n⟩

namespace Located

variable {point : Fin n → ClientPoint} {main : StarterPoint} {missing : Finset (Fin n)}

theorem step {t : Option (Fin n)} (h : Located s point main missing) (hstep : Step s t s') :
    ∃ point' main' missing', Located s' point' main' missing' := by
  have heffect := hstep.effect
  have hsame : s'.shared = s.shared ∧ s'.code = s.code →
      ∃ point' main' missing', Located s' point' main' missing' := by
    rintro ⟨hshared, hcode⟩
    exact ⟨point, main, missing, hcode ▸ h.client, hcode ▸ h.starter, hshared ▸ h.gate⟩
  cases t with
  | none =>
    rcases starter_moves h.starter heffect with hnone | ⟨q, hmove, hcode⟩
    · exact hsame hnone
    · refine ⟨point, q, missing, fun i => ?_, ?_, h.gate.starterMove hmove⟩
      · rw [hcode, Function.update_of_ne (Option.some_ne_none i)]
        exact h.client i
      · rw [hcode, Function.update_self]
  | some i =>
    rcases client_moves (h.client i) heffect with hnone | ⟨p, hmove, hcode⟩
    · exact hsame hnone
    · obtain ⟨missing', hgate⟩ := h.gate.clientMove hmove
      refine ⟨_, main, missing', fun j => ?_, ?_, hgate⟩
      · rw [hcode]
        rcases eq_or_ne j i with rfl | hj
        · rw [Function.update_self, Function.update_self]
        · rw [Function.update_of_ne hj, Function.update_of_ne fun he => hj (Option.some.inj he)]
          exact h.client j
      · rw [hcode, Function.update_of_ne (Option.some_ne_none i).symm]
        exact h.starter

theorem spurious (h : Located s point main missing) (hstep : Spurious s s') :
    Located s' point main missing := by
  cases hstep with
  | wake => exact ⟨h.client, h.starter, h.gate⟩

end Located

theorem located_of_reaches (h : Reaches (startGate n) s) :
    ∃ point main missing, Located s point main missing := by
  induction h with
  | refl => exact ⟨_, _, _, located_start n⟩
  | tail _ hstep ih =>
    obtain ⟨point, main, missing, hloc⟩ := ih
    rcases hstep with ⟨t, hstep⟩ | hstep
    · exact hloc.step hstep
    · exact ⟨point, main, missing, hloc.spurious hstep⟩

/-! ## The code tells where a thread is -/

theorem ClientPoint.eq_passed {p : ClientPoint} (h : p.code = []) : p = .passed := by
  cases p <;> cases h
  rfl

theorem StarterPoint.eq_timing {p : StarterPoint} (h : p.code = release) : p = .timing := by
  have hlen := congrArg List.length h
  cases p <;> first | rfl | cases hlen

theorem Located.arrived_iff {point : Fin n → ClientPoint} {main : StarterPoint}
    {missing : Finset (Fin n)} (h : Located s point main missing) (i : Fin n) :
    Arrived s i ↔ (point i).arrived = true := by
  rw [Arrived, h.client i]
  cases point i with
  | enter => exact iff_of_false (fun hand => hand.1 rfl) nofun
  | counting => exact iff_of_false (fun hand => hand.2 rfl) nofun
  | _ => exact iff_of_true ⟨nofun, nofun⟩ rfl

theorem Located.all_arrived {point : Fin n → ClientPoint} {main : StarterPoint}
    {missing : Finset (Fin n)} (h : Located s point main missing) :
    missing = ∅ ↔ ∀ i, Arrived s i := by
  rw [Finset.eq_empty_iff_forall_notMem]
  refine forall_congr' fun i => ?_
  rw [h.arrived_iff, h.gate.missing_iff, Bool.not_eq_false]

theorem ClientPoint.cases_of_atRest {p : ClientPoint} {g : StartGate} (h : AtRest g p.code) :
    p = .passed ∨ p = .ready ∧ g.remaining ≠ 0 ∨ p = .go ∧ g.released = false := by
  rcases h with hend | ⟨cv, pred, rest, hcode, hpred⟩
  · exact .inl (eq_passed hend)
  · cases p <;> cases hcode
    · exact .inr (.inl ⟨rfl, beq_eq_false_iff_ne.mp hpred⟩)
    · exact .inr (.inr ⟨rfl, hpred⟩)

theorem StarterPoint.cases_of_atRest {p : StarterPoint} {g : StartGate} (h : AtRest g p.code) :
    p = .done ∨ p = .ready ∧ g.remaining ≠ 0 := by
  rcases h with hend | ⟨cv, pred, rest, hcode, hpred⟩
  · cases p <;> cases hend
    exact .inl rfl
  · cases p <;> cases hcode
    exact .inr ⟨rfl, beq_eq_false_iff_ne.mp hpred⟩

/-- When all threads are at rest, all have ended. -/
theorem Located.all_end {point : Fin n → ClientPoint} {main : StarterPoint}
    {missing : Finset (Fin n)} (h : Located s point main missing)
    (hrest : ∀ t, AtRest s.shared (s.code t)) (t : Option (Fin n)) : s.code t = [] := by
  have hclient : ∀ i, AtRest s.shared (point i).code := fun i => h.client i ▸ hrest (some i)
  -- all clients have counted themselves, so the starter has not been held up
  have hmissing : missing = ∅ := by
    rw [Finset.eq_empty_iff_forall_notMem]
    intro i hi
    have hat := (h.gate.missing_iff i).mp hi
    rcases ClientPoint.cases_of_atRest (hclient i) with hp | ⟨hp, -⟩ | ⟨hp, -⟩ <;>
      rw [hp] at hat <;> cases hat
  have hzero : s.shared.remaining = 0 := by
    rw [h.gate.remaining, hmissing]
    rfl
  have hmain : main = .done :=
    (StarterPoint.cases_of_atRest (h.starter ▸ hrest none)).resolve_right fun hand => hand.2 hzero
  have hreleased : s.shared.released = true := by
    rw [h.gate.released, hmain]
    rfl
  cases t with
  | none => rw [h.starter, hmain]; rfl
  | some i =>
    rcases ClientPoint.cases_of_atRest (hclient i) with hp | ⟨-, hne⟩ | ⟨-, hheld⟩
    · rw [h.client i, hp]
      rfl
    · exact absurd hzero hne
    · cases hreleased.symm.trans hheld

end StartGate

open StartGate

/-- **The clients start together.** In every state that `n` clients and their starter can reach,
with wakeups for no reason and in any interleaving: a client that has passed the gate has passed it
after the release, and all clients had arrived; at the moment the starter reads the clock, all have
arrived and none has passed; the counter is never negative and is zero exactly when all have
arrived; and a thread that is blocked although what it waits for holds is about to be notified. -/
theorem gate_together {n : Nat} {s : Threads n} (h : Reaches (startGate n) s) :
    (∀ i, s.code (some i) = [] → s.shared.released = true ∧ ∀ j, Arrived s j) ∧
    (s.code none = release → ∀ j, Arrived s j ∧ s.code (some j) ≠ []) ∧
    0 ≤ s.shared.remaining ∧ (s.shared.remaining = 0 ↔ ∀ j, Arrived s j) ∧
    ∀ t cv pred rest, s.mode t = .blocked → s.code t = .wait cv pred :: rest →
      pred s.shared = true → ∃ u, s.mode u = .running ∧ Soon cv (s.code u) := by
  obtain ⟨point, main, missing, hloc⟩ := located_of_reaches h
  refine ⟨fun i hi => ?_, fun hmain j => ?_, ?_, ?_, ((inv_startGate n).of_reaches h).wakeup⟩
  · have hp := ClientPoint.eq_passed ((hloc.client i).symm.trans hi)
    refine ⟨hloc.gate.released.trans (hloc.gate.freed i ?_),
      hloc.all_arrived.mp (hloc.gate.gathered i ?_)⟩
    · rw [hp]
      rfl
    · rw [hp]
      rfl
  · have hat := StarterPoint.eq_timing (hloc.starter.symm.trans hmain)
    refine ⟨hloc.all_arrived.mp (hloc.gate.starterGathered ?_) j, fun hend => ?_⟩
    · rw [hat]
      rfl
    · have hp := ClientPoint.eq_passed ((hloc.client j).symm.trans hend)
      have hfreed := hloc.gate.freed j (by rw [hp]; rfl)
      rw [hat] at hfreed
      cases hfreed
  · rw [hloc.gate.remaining]
    exact Int.natCast_nonneg _
  · rw [hloc.gate.remaining, ← hloc.all_arrived, Int.natCast_eq_zero, Finset.card_eq_zero]

/-- Two clients. The first one finds the second one missing and is blocked, as the starter is; the
second one wakes both. The starter reads the clock while the clients are blocked again. -/
theorem gate_together_two :
    ∃ s₀ s : Threads 2, Reaches s₀ s ∧ s₀.mode (some 0) = .blocked ∧ ¬ (∀ j, Arrived s₀ j) ∧
      s.mode (some 0) = .blocked ∧ s.mode (some 1) = .blocked ∧ s.code none = release ∧
      ∀ j, Arrived s j ∧ s.code (some j) ≠ [] := by
  have hrun : ∃ s₀ s : Threads 2, Reaches (startGate 2) s₀ ∧ Reaches s₀ s ∧
      s₀.mode (some 0) = .blocked ∧ s₀.shared.remaining = 1 ∧
      s.mode (some 0) = .blocked ∧ s.mode (some 1) = .blocked ∧ s.code none = release :=
    ⟨_, _, .head (.inl ⟨none, .lock rfl rfl rfl⟩) (.head (.inl ⟨none, .block rfl rfl rfl⟩)
      (.head (.inl ⟨some 0, .lock rfl rfl rfl⟩) (.head (.inl ⟨some 0, .update rfl rfl⟩)
      (.head (.inl ⟨some 0, .block rfl rfl rfl⟩) .refl)))),
      .head (.inl ⟨some 1, .lock rfl rfl rfl⟩) (.head (.inl ⟨some 1, .update rfl rfl⟩)
      (.head (.inl ⟨some 1, .notifyAll rfl rfl⟩) (.head (.inl ⟨some 1, .pass rfl rfl rfl⟩)
      (.head (.inl ⟨some 1, .block rfl rfl rfl⟩) (.head (.inl ⟨some 0, .relock rfl rfl⟩)
      (.head (.inl ⟨some 0, .pass rfl rfl rfl⟩) (.head (.inl ⟨some 0, .block rfl rfl rfl⟩)
      (.head (.inl ⟨none, .relock rfl rfl⟩) (.head (.inl ⟨none, .pass rfl rfl rfl⟩)
      (.head (.inl ⟨none, .unlock rfl rfl⟩) .refl)))))))))), rfl, rfl, rfl, rfl, rfl⟩
  obtain ⟨s₀, s, hbefore, hafter, hblocked, hone, hblocked₀, hblocked₁, hmain⟩ := hrun
  have hmissing : ¬ ∀ j, Arrived s₀ j := fun hall => by
    have hzero := (gate_together hbefore).2.2.2.1.mpr hall
    rw [hone] at hzero
    cases hzero
  exact ⟨s₀, s, hafter, hblocked, hmissing, hblocked₀, hblocked₁, hmain,
    (gate_together (hbefore.trans hafter)).2.1 hmain⟩

/-- **The gate opens.** In every fair run in which threads stop waking up for no reason at some
moment, there is a moment when every client has passed and the starter is done. -/
theorem gate_opens {n k : Nat} {run : Nat → Threads n} (hstart : run 0 = startGate n)
    (hrun : Fair.Run Own Spurious run)
    (hcalm : ∀ m, k ≤ m → Own (run m) (run (m + 1)) ∨ run (m + 1) = run m) :
    ∃ m, ∀ t, (run m).code t = [] := by
  have hinv : Inv Waits (run 0) := hstart ▸ inv_startGate n
  obtain ⟨m, hrest⟩ := settles hinv hrun hcalm
  obtain ⟨point, main, missing, hloc⟩ := located_of_reaches (hstart ▸ hrun.reaches m)
  exact ⟨m, hloc.all_end hrest⟩

/-- Three clients. -/
theorem gate_opens_three :
    ∃ (run : Nat → Threads 3) (m : Nat), run 0 = startGate 3 ∧ ∀ t, (run m).code t = [] := by
  obtain ⟨run, hstart, hrun⟩ := Fair.exists_eager Own (fun _ _ => False) (startGate 3)
  have hcalm : ∀ m, Own (run m) (run (m + 1)) ∨ run (m + 1) = run m := fun m =>
    (hrun.step m).imp id fun hstep => hstep.resolve_left id
  have hfair : Fair.Run Own Spurious run := ⟨fun m => (hcalm m).imp id .inr, hrun.fair⟩
  obtain ⟨m, hend⟩ := gate_opens hstart hfair fun m (_ : 0 ≤ m) => hcalm m
  exact ⟨run, m, hstart, hend⟩

end CacheX.Bench
