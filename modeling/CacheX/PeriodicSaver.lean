import CacheX.Lib.Fair
import Mathlib.Algebra.BigOperators.Group.Finset.Basic
import Mathlib.Algebra.Order.BigOperators.Group.Finset

/-!
# The periodic saver

`PeriodicSaver` of `persistence.cpp` with its mutex and its condition variable. The thread waits
with `wait_for` and a predicate, which is a loop around a wait that releases the mutex; it is woken
by a notification, by the timeout, or for no reason. Any number of threads call `stop`, and the
steps of all of them interleave in any way. What a save does is not looked at here: it succeeds or
it fails.

* `Inv`: the invariant. A thread that waits while the flag is set is about to be notified.
* `stop_safe`: who joins, who may return early, and how many saves are still completed.
* `stop_prompt`: once the flag is set the saver returns and so does every call of `stop`, without
  any timeout.
-/

namespace CacheX

/-- Where `run` is: before its lock, at the predicate of `wait_for`, blocked in the condition
variable, on the way out of it, at `if (stopping_)`, in `save`, or at its end. -/
inductive SaverThread
  | enter
  | test
  | waiting
  | woken (timedOut : Bool)
  | check
  | saving
  | returned
deriving DecidableEq, Repr

/-- How far the thread is from its end once the flag is set. -/
def SaverThread.rank : SaverThread → Nat
  | .saving => 6
  | .waiting => 6
  | .enter => 5
  | .woken _ => 5
  | .test => 4
  | .check => 3
  | .returned => 0

/-- `notify_all`: it reaches a thread that is blocked, and is lost on any other. -/
def SaverThread.notified : SaverThread → SaverThread
  | .waiting => .woken false
  | thread => thread

theorem SaverThread.notified_eq_iff {x t : SaverThread} (ht : t ≠ .woken false) :
    x.notified = t ↔ x = t ∧ t ≠ .waiting := by
  cases x with
  | waiting => exact iff_of_false (Ne.symm ht) fun hand => hand.2 hand.1.symm
  | _ =>
    refine ⟨fun he => ⟨he, ?_⟩, fun hand => hand.1⟩
    rw [← he]
    exact nofun

theorem SaverThread.rank_notified (t : SaverThread) : t.notified.rank ≤ t.rank := by
  cases t with
  | waiting => exact Nat.le_succ 5
  | _ => exact Nat.le_refl _

/-- Where a call of `stop` is. `returned true` has joined the thread. -/
inductive StopCall
  | idle
  | enter
  | holding
  | notify
  | join
  | returned (joined : Bool)
deriving DecidableEq, Repr

/-- The call has set the flag. -/
def StopCall.stopper : StopCall → Bool
  | .notify => true
  | .join => true
  | .returned joined => joined
  | _ => false

/-- How far a call is from its return. -/
def StopCall.rank : StopCall → Nat
  | .idle => 4
  | .enter => 4
  | .holding => 3
  | .notify => 2
  | .join => 1
  | .returned _ => 0

/-- Who holds the mutex. -/
inductive MutexHolder
  | saver
  | caller (i : Nat)
deriving DecidableEq, Repr

/-- The object and the threads that use it. -/
structure PeriodicSaver where
  mutex : Option MutexHolder
  stopping : Bool
  thread : SaverThread
  callers : Nat → StopCall
  saves : Nat
  failures : Nat

namespace PeriodicSaver

/-- The constructor has started the thread. -/
def start : PeriodicSaver := ⟨none, false, .enter, fun _ => .idle, 0, 0⟩

def setCaller (s : PeriodicSaver) (i : Nat) (c : StopCall) : PeriodicSaver :=
  { s with callers := Function.update s.callers i c }

/-- A step of the thread or of a call of `stop`. -/
inductive Own (s : PeriodicSaver) : PeriodicSaver → Prop
  | lock (hat : s.thread = .enter) (hfree : s.mutex = none) :
      Own s { s with mutex := some .saver, thread := .test }
  | testStop (hat : s.thread = .test) (hstop : s.stopping = true) :
      Own s { s with thread := .check }
  | testWait (hat : s.thread = .test) (hgo : s.stopping = false) :
      Own s { s with mutex := none, thread := .waiting }
  | relock {timedOut} (hat : s.thread = .woken timedOut) (hfree : s.mutex = none) :
      Own s { s with mutex := some .saver, thread := if timedOut then .check else .test }
  | leave (hat : s.thread = .check) (hstop : s.stopping = true) :
      Own s { s with mutex := none, thread := .returned }
  | save (hat : s.thread = .check) (hgo : s.stopping = false) :
      Own s { s with mutex := none, thread := .saving }
  | saved (ok : Bool) (hat : s.thread = .saving) :
      Own s { s with
        thread := .enter
        saves := s.saves + if ok then 1 else 0
        failures := s.failures + if ok then 0 else 1 }
  | callerLock {i} (hat : s.callers i = .enter) (hfree : s.mutex = none) :
      Own s ({ s with mutex := some (.caller i) }.setCaller i .holding)
  | early {i} (hat : s.callers i = .holding) (hstop : s.stopping = true) :
      Own s ({ s with mutex := none }.setCaller i (.returned false))
  | set {i} (hat : s.callers i = .holding) (hgo : s.stopping = false) :
      Own s ({ s with mutex := none, stopping := true }.setCaller i .notify)
  | notify {i} (hat : s.callers i = .notify) :
      Own s ({ s with thread := s.thread.notified }.setCaller i .join)
  | join {i} (hat : s.callers i = .join) (hdone : s.thread = .returned) :
      Own s (s.setCaller i (.returned true))

/-- The interval runs out, the wait ends for no reason, or one of `n` threads calls `stop`. -/
inductive Outside (n : Nat) (s : PeriodicSaver) : PeriodicSaver → Prop
  | timeout (hat : s.thread = .waiting) : Outside n s { s with thread := .woken true }
  | spurious (hat : s.thread = .waiting) : Outside n s { s with thread := .woken false }
  | call {i} (hi : i < n) (hat : s.callers i = .idle) : Outside n s (s.setCaller i .enter)

/-- What holds at any moment, with `n` threads that may call `stop`. -/
structure Inv (n : Nat) (s : PeriodicSaver) : Prop where
  saverLock : s.mutex = some .saver ↔ s.thread = .test ∨ s.thread = .check
  callerLock : ∀ i, s.mutex = some (.caller i) ↔ s.callers i = .holding
  range : ∀ i, n ≤ i → s.callers i = .idle
  nobody : s.stopping = false → ∀ i, (s.callers i).stopper = false
  somebody : s.stopping = true → ∃ i, (s.callers i).stopper = true ∧
    ∀ j, (s.callers j).stopper = true → j = i
  wakeup : s.thread = .waiting → s.stopping = true → ∃ i, s.callers i = .notify
  joined : ∀ i, s.callers i = .returned true → s.thread = .returned
  returned : s.thread = .returned → s.stopping = true

variable {n : Nat} {s s' : PeriodicSaver}

@[simp]
theorem callers_setCaller (i j : Nat) (c : StopCall) :
    (s.setCaller i c).callers j = if j = i then c else s.callers j :=
  Function.update_apply ..

theorem stopper_setCaller {i : Nat} {c : StopCall} (hc : c.stopper = (s.callers i).stopper)
    (j : Nat) : ((s.setCaller i c).callers j).stopper = (s.callers j).stopper := by
  rw [callers_setCaller]
  split
  · next hj => rw [hc, hj]
  · rfl

theorem inv_start : Inv n start := by
  constructor <;> simp [start, StopCall.stopper]

namespace Inv

/-- Only the holder of the mutex is inside a critical section. -/
theorem not_holding (h : Inv n s) (hm : ∀ i, s.mutex ≠ some (.caller i)) (i : Nat) :
    s.callers i ≠ .holding :=
  fun hi => hm i ((h.callerLock i).mpr hi)

theorem not_inside (h : Inv n s) (hm : s.mutex ≠ some .saver) :
    s.thread ≠ .test ∧ s.thread ≠ .check :=
  ⟨fun ht => hm (h.saverLock.mpr (.inl ht)), fun ht => hm (h.saverLock.mpr (.inr ht))⟩

theorem not_joined (h : Inv n s) {i : Nat} (hi : s.callers i = .returned true)
    {thread : SaverThread} (hat : s.thread = thread) (hne : thread ≠ .returned) : False :=
  hne (hat.symm.trans (h.joined i hi))

theorem enterLock (h : Inv n s) {thread : SaverThread} (hfree : s.mutex = none)
    (hat : s.thread ≠ .returned) (hthread : thread = .test ∨ thread = .check) :
    Inv n { s with mutex := some .saver, thread := thread } :=
  { h with
    saverLock := iff_of_true rfl hthread
    callerLock := fun i => iff_of_false nofun
      (h.not_holding (fun _ => by rw [hfree]; exact nofun) i)
    wakeup := by rcases hthread with rfl | rfl <;> exact nofun
    joined := fun i hi => absurd (h.joined i hi) hat
    returned := by rcases hthread with rfl | rfl <;> exact nofun }

theorem leaveLock (h : Inv n s) {thread : SaverThread} (hin : s.thread = .test ∨ s.thread = .check)
    (hthread : thread ≠ .test ∧ thread ≠ .check)
    (hgo : thread = .waiting → s.stopping = false)
    (hstop : thread = .returned → s.stopping = true) :
    Inv n { s with mutex := none, thread := thread } := by
  have hm := h.saverLock.mpr hin
  have hat : s.thread ≠ .returned := by rcases hin with hat | hat <;> rw [hat] <;> exact nofun
  exact { h with
    saverLock := iff_of_false nofun (not_or.mpr hthread)
    callerLock := fun i => iff_of_false nofun
      (h.not_holding (fun _ => by rw [hm]; exact nofun) i)
    wakeup := fun hw hs => by cases (hgo hw).symm.trans hs
    joined := fun i hi => absurd (h.joined i hi) hat
    returned := hstop }

/-- A step of a caller that does not set the flag and leaves the thread alone. -/
theorem moveCaller (h : Inv n s) {i : Nat} {c : StopCall} {mutex : Option MutexHolder}
    (hi : i < n) (hsaver : mutex = some .saver ↔ s.mutex = some .saver)
    (hlock : ∀ j, mutex = some (.caller j) ↔ (if j = i then c else s.callers j) = .holding)
    (hc : c.stopper = (s.callers i).stopper) (hnotify : s.callers i ≠ .notify)
    (hjoin : c = .returned true → s.thread = .returned) :
    Inv n ({ s with mutex := mutex }.setCaller i c) where
  saverLock := hsaver.trans h.saverLock
  callerLock := fun j => by
    rw [callers_setCaller]
    exact hlock j
  range := fun j hj => by
    rw [callers_setCaller, if_neg (Nat.ne_of_gt (Nat.lt_of_lt_of_le hi hj))]
    exact h.range j hj
  nobody := fun hs j => (stopper_setCaller hc j).trans (h.nobody hs j)
  somebody := fun hs => by
    obtain ⟨k, hk, huniq⟩ := h.somebody hs
    refine ⟨k, (stopper_setCaller hc k).trans hk, fun j hj => huniq j ?_⟩
    rwa [stopper_setCaller (s := { s with mutex := mutex }) hc] at hj
  wakeup := fun hw hs => by
    obtain ⟨k, hk⟩ := h.wakeup hw hs
    have hki : k ≠ i := fun hki => hnotify (hki ▸ hk)
    refine ⟨k, ?_⟩
    rw [callers_setCaller, if_neg hki]
    exact hk
  joined := fun j hj => by
    rw [callers_setCaller] at hj
    split at hj
    · exact hjoin hj
    · exact h.joined j hj
  returned := h.returned

theorem lt_of_busy (h : Inv n s) {i : Nat} {c : StopCall} (hat : s.callers i = c)
    (hc : c ≠ .idle) : i < n :=
  Nat.lt_of_not_le fun hle => hc (hat.symm.trans (h.range i hle))

theorem setFlag (h : Inv n s) {i : Nat} (hat : s.callers i = .holding) (hgo : s.stopping = false) :
    Inv n ({ s with mutex := none, stopping := true }.setCaller i .notify) := by
  have hm := (h.callerLock i).mpr hat
  have hnobody := h.nobody hgo
  have hother : ∀ j, (if j = i then StopCall.notify else s.callers j).stopper = true → j = i := by
    intro j hj
    split at hj
    · assumption
    · rw [hnobody j] at hj
      cases hj
  exact
  { saverLock := iff_of_false nofun
      (not_or.mpr (h.not_inside (by rw [hm]; exact nofun)))
    callerLock := fun j => by
      rw [callers_setCaller]
      refine iff_of_false nofun ?_
      split
      · exact nofun
      · next hj =>
        intro hholding
        cases hm.symm.trans ((h.callerLock j).mpr hholding)
        exact hj rfl
    range := fun j hj => by
      have hlt := h.lt_of_busy hat nofun
      rw [callers_setCaller, if_neg (Nat.ne_of_gt (Nat.lt_of_lt_of_le hlt hj))]
      exact h.range j hj
    nobody := nofun
    somebody := fun _ => ⟨i, by rw [callers_setCaller, if_pos rfl]; rfl, fun j hj => by
      rw [callers_setCaller] at hj
      exact hother j hj⟩
    wakeup := fun _ _ => ⟨i, by rw [callers_setCaller, if_pos rfl]⟩
    joined := fun j hj => by
      rw [callers_setCaller] at hj
      split at hj
      · cases hj
      · have hj' := hnobody j
        rw [show s.callers j = _ from hj] at hj'
        cases hj'
    returned := fun _ => rfl }

theorem notifyAll (h : Inv n s) {i : Nat} (hat : s.callers i = .notify) :
    Inv n ({ s with thread := s.thread.notified }.setCaller i .join) := by
  have hc : StopCall.join.stopper = (s.callers i).stopper := by rw [hat]; rfl
  exact
  { saverLock := by
      show s.mutex = _ ↔ s.thread.notified = .test ∨ s.thread.notified = .check
      rw [h.saverLock, SaverThread.notified_eq_iff (t := .test) nofun,
        SaverThread.notified_eq_iff (t := .check) nofun]
      exact or_congr (and_iff_left nofun).symm (and_iff_left nofun).symm
    callerLock := fun j => by
      rw [callers_setCaller]
      refine (h.callerLock j).trans ?_
      split
      · next hj =>
        rw [hj, hat]
        exact iff_of_false nofun nofun
      · rfl
    range := fun j hj => by
      have hlt := h.lt_of_busy hat nofun
      rw [callers_setCaller, if_neg (Nat.ne_of_gt (Nat.lt_of_lt_of_le hlt hj))]
      exact h.range j hj
    nobody := fun hs j => (stopper_setCaller hc j).trans (h.nobody hs j)
    somebody := fun hs => by
      obtain ⟨k, hk, huniq⟩ := h.somebody hs
      refine ⟨k, (stopper_setCaller hc k).trans hk, fun j hj => huniq j ?_⟩
      exact (stopper_setCaller hc j).symm.trans hj
    wakeup := fun hw _ => absurd rfl ((SaverThread.notified_eq_iff (t := .waiting) nofun).mp hw).2
    joined := fun j hj => by
      rw [callers_setCaller] at hj
      split at hj
      · cases hj
      · exact (SaverThread.notified_eq_iff (t := .returned) nofun).mpr ⟨h.joined j hj, nofun⟩
    returned := fun hr =>
      h.returned ((SaverThread.notified_eq_iff (t := .returned) nofun).mp hr).1 }

theorem own (h : Inv n s) (hstep : Own s s') : Inv n s' := by
  cases hstep with
  | lock hat hfree => exact h.enterLock hfree (by rw [hat]; exact nofun) (.inl rfl)
  | testStop hat hstop =>
    exact { h with
      saverLock := iff_of_true (h.saverLock.mpr (.inl hat)) (.inr rfl)
      wakeup := nofun
      joined := fun i hi => (h.not_joined hi hat nofun).elim
      returned := nofun }
  | testWait hat hgo => exact h.leaveLock (.inl hat) ⟨nofun, nofun⟩ (fun _ => hgo) nofun
  | @relock timedOut hat hfree =>
    refine h.enterLock hfree (by rw [hat]; exact nofun) ?_
    cases timedOut with
    | true => exact .inr rfl
    | false => exact .inl rfl
  | leave hat hstop =>
    exact h.leaveLock (.inr hat) ⟨nofun, nofun⟩ nofun fun _ => hstop
  | save hat hgo => exact h.leaveLock (.inr hat) ⟨nofun, nofun⟩ nofun nofun
  | saved ok hat =>
    have hm : s.mutex ≠ some .saver := fun hm => by
      rcases h.saverLock.mp hm with ht | ht <;> cases hat.symm.trans ht
    exact { h with
      saverLock := iff_of_false hm (by rintro (ht | ht) <;> cases ht)
      wakeup := nofun
      joined := fun i hi => (h.not_joined hi hat nofun).elim
      returned := nofun }
  | @callerLock i hat hfree =>
    refine h.moveCaller (h.lt_of_busy hat nofun) (iff_of_false nofun (by rw [hfree]; exact nofun))
      (fun j => ?_) (by rw [hat]; rfl) (by rw [hat]; exact nofun) nofun
    split
    · next hj => rw [hj]; exact iff_of_true rfl rfl
    · next hj =>
      refine iff_of_false (fun he => hj ?_) (h.not_holding (fun _ => by rw [hfree]; exact nofun) j)
      cases he
      rfl
  | @early i hat hstop =>
    have hm := (h.callerLock i).mpr hat
    refine h.moveCaller (h.lt_of_busy hat nofun) (iff_of_false nofun (by rw [hm]; exact nofun))
      (fun j => ?_) (by rw [hat]; rfl) (by rw [hat]; exact nofun) nofun
    refine iff_of_false nofun ?_
    split
    · exact nofun
    · next hj =>
      intro hholding
      have hm' := (h.callerLock j).mpr hholding
      rw [hm] at hm'
      cases hm'
      exact hj rfl
  | set hat hgo => exact h.setFlag hat hgo
  | notify hat => exact h.notifyAll hat
  | @join i hat hdone =>
    show Inv n ({ s with mutex := s.mutex }.setCaller i _)
    refine h.moveCaller (h.lt_of_busy hat nofun) Iff.rfl (fun j => ?_) (by rw [hat]; rfl)
      (by rw [hat]; exact nofun) fun _ => hdone
    rw [h.callerLock j]
    split
    · next hj =>
      rw [hj, hat]
      exact iff_of_false nofun nofun
    · rfl

theorem outside (h : Inv n s) (hstep : Outside n s s') : Inv n s' := by
  have hwake : ∀ timedOut, s.thread = .waiting → Inv n { s with thread := .woken timedOut } := by
    intro timedOut hat
    have hm : s.mutex ≠ some .saver := fun hm => by
      rcases h.saverLock.mp hm with ht | ht <;> cases hat.symm.trans ht
    exact { h with
      saverLock := iff_of_false hm (by rintro (ht | ht) <;> cases ht)
      wakeup := nofun
      joined := fun i hi => (h.not_joined hi hat nofun).elim
      returned := nofun }
  cases hstep with
  | timeout hat => exact hwake true hat
  | spurious hat => exact hwake false hat
  | @call i hi hat =>
    show Inv n ({ s with mutex := s.mutex }.setCaller i _)
    refine h.moveCaller hi Iff.rfl (fun j => ?_) (by rw [hat]; rfl) (by rw [hat]; exact nofun) nofun
    rw [h.callerLock j]
    split
    · next hj =>
      rw [hj, hat]
      exact iff_of_false nofun nofun
    · rfl

end Inv

/-- The invariant holds in every state of every run. -/
theorem inv_of_reaches (h : Relation.ReflTransGen (fun s s' => Own s s' ∨ Outside n s s') start s) :
    Inv n s := by
  induction h with
  | refl => exact inv_start
  | tail _ hstep ih => exact hstep.elim ih.own ih.outside

/-! ## After the flag is set -/

theorem stopper_kept {i j : Nat} {c : StopCall}
    (hc : (s.callers i).stopper = true → c.stopper = true)
    (hj : (s.callers j).stopper = true) : ((s.setCaller i c).callers j).stopper = true := by
  rw [callers_setCaller]
  split
  · next hji => exact hc (hji ▸ hj)
  · exact hj

/-- A call that has set the flag goes on to notify, to join and to return. -/
theorem stopper_step {j : Nat} (hj : (s.callers j).stopper = true)
    (hstep : Own s s' ∨ Outside n s s') : (s'.callers j).stopper = true := by
  rcases hstep with hstep | hstep
  · cases hstep with
    | lock | testStop | testWait | relock | leave | save | saved => exact hj
    | callerLock hat _ => exact stopper_kept (fun hc => by rw [hat] at hc; cases hc) hj
    | early hat _ => exact stopper_kept (fun hc => by rw [hat] at hc; cases hc) hj
    | set => exact stopper_kept (fun _ => rfl) hj
    | notify => exact stopper_kept (fun _ => rfl) hj
    | join => exact stopper_kept (fun _ => rfl) hj
  · cases hstep with
    | timeout | spurious => exact hj
    | call _ hat => exact stopper_kept (fun hc => by rw [hat] at hc; cases hc) hj

theorem stopper_reaches {j : Nat} (hj : (s.callers j).stopper = true)
    (h : Relation.ReflTransGen (fun s s' => Own s s' ∨ Outside n s s') s s') :
    (s'.callers j).stopper = true := by
  induction h with
  | refl => exact hj
  | tail _ hstep ih => exact stopper_step ih hstep

/-- Only a call of `stop` sets the flag, and it is then about to notify. -/
theorem caller_of_set (hgo : s.stopping = false) (hstop : s'.stopping = true)
    (hstep : Own s s' ∨ Outside n s s') :
    ∃ i, s.callers i = .holding ∧ s'.callers i = .notify := by
  have hsame : s'.stopping ≠ s.stopping := by rw [hgo, hstop]; exact nofun
  rcases hstep with hstep | hstep
  · cases hstep with
    | @set i hat _ => exact ⟨i, hat, by rw [callers_setCaller, if_pos rfl]⟩
    | _ => exact absurd rfl hsame
  · cases hstep with
    | _ => exact absurd rfl hsame

/-- At most the save that is under way is still completed. -/
theorem saves_after_stop (hstop : s.stopping = true)
    (h : Relation.ReflTransGen (fun s s' => Own s s' ∨ Outside n s s') s s') :
    s'.stopping = true ∧ s'.saves + s'.failures ≤ s.saves + s.failures + 1 ∧
      (s'.thread = .saving → s'.saves + s'.failures = s.saves + s.failures) := by
  induction h with
  | refl => exact ⟨hstop, Nat.le_succ _, fun _ => rfl⟩
  | @tail u v _ hstep ih =>
    obtain ⟨hu, hle, hsaving⟩ := ih
    have hgo : u.stopping ≠ false := by rw [hu]; exact nofun
    rcases hstep with hstep | hstep
    · cases hstep with
      | lock | testStop | leave => exact ⟨hu, hle, nofun⟩
      | testWait hat hgo' => exact absurd hgo' hgo
      | @relock timedOut hat hfree =>
        refine ⟨hu, hle, fun hs => ?_⟩
        cases timedOut <;> cases hs
      | save hat hgo' => exact absurd hgo' hgo
      | saved ok hat =>
        have htotal := hsaving hat
        refine ⟨hu, ?_, nofun⟩
        cases ok
        · exact Nat.le_of_eq (congrArg Nat.succ htotal)
        · show u.saves + 1 + u.failures ≤ _
          rw [Nat.add_right_comm, htotal]
      | callerLock | early | join => exact ⟨hu, hle, hsaving⟩
      | set hat hgo' => exact absurd hgo' hgo
      | notify hat =>
        refine ⟨hu, hle, fun hs => hsaving ?_⟩
        exact ((SaverThread.notified_eq_iff (t := .saving) nofun).mp hs).1
    · cases hstep with
      | timeout | spurious => exact ⟨hu, hle, nofun⟩
      | call => exact ⟨hu, hle, hsaving⟩

/-- What is left to do once the flag is set. -/
def work (n : Nat) (s : PeriodicSaver) : Nat :=
  s.thread.rank + ∑ i ∈ Finset.range n, (s.callers i).rank

theorem work_thread {thread : SaverThread} {mutex : Option MutexHolder} {saves failures : Nat}
    (h : thread.rank < s.thread.rank) :
    work n { s with mutex := mutex, thread := thread, saves := saves, failures := failures }
      < work n s :=
  Nat.add_lt_add_right h _

theorem sum_setCaller {i : Nat} (hi : i < n) {c : StopCall} (hc : c.rank < (s.callers i).rank) :
    ∑ j ∈ Finset.range n, ((s.setCaller i c).callers j).rank
      < ∑ j ∈ Finset.range n, (s.callers j).rank := by
  refine Finset.sum_lt_sum (fun j _ => ?_) ⟨i, Finset.mem_range.mpr hi, ?_⟩
  · rw [callers_setCaller]
    split
    · next hj => exact hj ▸ hc.le
    · exact le_refl _
  · rw [callers_setCaller, if_pos rfl]
    exact hc

/-- A caller takes a step; the thread gets no further from its end. -/
theorem work_caller {i : Nat} (hi : i < n) {c : StopCall} {mutex : Option MutexHolder}
    {stopping : Bool} {thread : SaverThread} (hc : c.rank < (s.callers i).rank)
    (hthread : thread.rank ≤ s.thread.rank) :
    work n ({ s with
      mutex := mutex
      stopping := stopping
      thread := thread }.setCaller i c) < work n s :=
  Nat.add_lt_add_of_le_of_lt hthread (sum_setCaller hi hc)

theorem Inv.work_own (h : Inv n s) (hstop : s.stopping = true) (hstep : Own s s') :
    work n s' < work n s := by
  have hgo : s.stopping ≠ false := by rw [hstop]; exact nofun
  cases hstep with
  | lock hat hfree => exact work_thread (by rw [hat]; decide)
  | testStop hat hs => exact work_thread (by rw [hat]; decide)
  | testWait hat hgo' => exact absurd hgo' hgo
  | @relock timedOut hat hfree =>
    refine work_thread ?_
    rw [hat]
    cases timedOut <;> decide
  | leave hat hs => exact work_thread (by rw [hat]; decide)
  | save hat hgo' => exact absurd hgo' hgo
  | saved ok hat => exact work_thread (by rw [hat]; decide)
  | callerLock hat hfree =>
    exact work_caller (h.lt_of_busy hat nofun) (by rw [hat]; decide) (le_refl _)
  | early hat hs => exact work_caller (h.lt_of_busy hat nofun) (by rw [hat]; decide) (le_refl _)
  | set hat hgo' => exact absurd hgo' hgo
  | notify hat =>
    exact work_caller (h.lt_of_busy hat nofun) (by rw [hat]; decide) s.thread.rank_notified
  | join hat hdone =>
    exact Nat.add_lt_add_left (sum_setCaller (h.lt_of_busy hat nofun) (by rw [hat]; decide)) _

theorem work_outside (hstep : Outside n s s') : work n s' ≤ work n s := by
  cases hstep with
  | timeout hat => exact Nat.add_le_add_right (by rw [hat]; exact Nat.le_succ 5) _
  | spurious hat => exact Nat.add_le_add_right (by rw [hat]; exact Nat.le_succ 5) _
  | @call i hi hat =>
    refine Nat.add_le_add_left (Finset.sum_le_sum fun j _ => ?_) _
    rw [callers_setCaller]
    split
    · next hj =>
      rw [hj, hat]
      exact le_refl _
    · exact le_refl _

/-- A call that has not been made or has returned. -/
def Settled (c : StopCall) : Prop := c = .idle ∨ ∃ joined, c = .returned joined

/-- Once the flag is set there is always a step to take, and no timeout is needed for it. -/
theorem Inv.advances (h : Inv n s) (hstop : s.stopping = true)
    (hend : ¬ (s.thread = .returned ∧ ∀ i, Settled (s.callers i))) : ∃ s', Own s s' := by
  cases hm : s.mutex with
  | some holder =>
    cases holder with
    | saver =>
      rcases h.saverLock.mp hm with hat | hat
      · exact ⟨_, .testStop hat hstop⟩
      · exact ⟨_, .leave hat hstop⟩
    | caller i => exact ⟨_, .early ((h.callerLock i).mp hm) hstop⟩
  | none =>
    have hfree := h.not_inside (by rw [hm]; exact nofun)
    cases hat : s.thread with
    | enter => exact ⟨_, .lock hat hm⟩
    | test => exact absurd hat hfree.1
    | waiting =>
      obtain ⟨i, hi⟩ := h.wakeup hat hstop
      exact ⟨_, .notify hi⟩
    | woken timedOut => exact ⟨_, .relock hat hm⟩
    | check => exact absurd hat hfree.2
    | saving => exact ⟨_, .saved true hat⟩
    | returned =>
      -- some call is still under way
      obtain ⟨i, hi⟩ := not_forall.mp fun hall => hend ⟨hat, hall⟩
      cases hc : s.callers i with
      | idle => exact absurd (.inl hc) hi
      | enter => exact ⟨_, .callerLock hc hm⟩
      | holding => exact absurd hc (h.not_holding (fun _ => by rw [hm]; exact nofun) i)
      | notify => exact ⟨_, .notify hc⟩
      | join => exact ⟨_, .join hc hat⟩
      | returned joined => exact absurd (.inr ⟨joined, hc⟩) hi

/-- A call of `stop` that sets the flag while the saver is blocked. -/
theorem blocked_reached :
    ∃ s, Relation.ReflTransGen (fun s s' => Own s s' ∨ Outside 2 s s') start s ∧
      s.thread = .waiting ∧ s.stopping = true := by
  refine ⟨_, .head (.inl (.lock rfl rfl)) (.head (.inl (.testWait rfl rfl))
    (.head (.inr (.call (i := 0) Nat.two_pos rfl)) (.head (.inl (.callerLock (i := 0) rfl rfl))
    (.head (.inl (.set (i := 0) rfl rfl)) .refl)))), ?_, ?_⟩
  · rfl
  · rfl

end PeriodicSaver

open PeriodicSaver

/-- **Stopping the saver is safe.** With any number of threads that call `stop`, at any moment: at
most one of them is inside the critical section, and then the saver is not. The flag is set exactly
if some call has set it, and only one has. It does so inside the critical section, and from then on
it is the one that notifies and joins: it returns as a call that has joined, and when it has
returned the saver has returned, while a call that found the flag set may have returned earlier. A
saver that is blocked while the flag is set is about to be notified, and from the moment the flag is
set at most one more save is completed. -/
theorem stop_safe {n : Nat} {s : PeriodicSaver}
    (h : Relation.ReflTransGen (fun s s' => Own s s' ∨ Outside n s s') PeriodicSaver.start s) :
    (∀ i j, s.callers i = .holding → s.callers j = .holding → i = j) ∧
    (∀ i, s.callers i = .holding → s.thread ≠ .test ∧ s.thread ≠ .check) ∧
    (∀ i j, (s.callers i).stopper = true → (s.callers j).stopper = true → i = j) ∧
    (s.stopping = true ↔ ∃ i, (s.callers i).stopper = true) ∧
    (∀ s', Own s s' ∨ Outside n s s' → s.stopping = false → s'.stopping = true →
      ∃ i, s.callers i = .holding ∧ s'.callers i = .notify) ∧
    (∀ i, (s.callers i).stopper = true → ∀ s',
      Relation.ReflTransGen (fun s s' => Own s s' ∨ Outside n s s') s s' →
      (s'.callers i).stopper = true ∧
        ∀ joined, s'.callers i = .returned joined → joined = true ∧ s'.thread = .returned) ∧
    (∀ i, s.callers i = .returned true → s.thread = .returned) ∧
    (s.thread = .waiting → s.stopping = true → ∃ i, s.callers i = .notify) ∧
    (s.stopping = true → ∀ s',
      Relation.ReflTransGen (fun s s' => Own s s' ∨ Outside n s s') s s' →
      s'.saves + s'.failures ≤ s.saves + s.failures + 1) := by
  have hinv := inv_of_reaches h
  have hset : ∀ i, (s.callers i).stopper = true → s.stopping = true := fun i hi =>
    Bool.of_not_eq_false fun hs => by rw [hinv.nobody hs i] at hi; cases hi
  refine ⟨fun i j hi hj => ?_, fun i hi => hinv.not_inside ?_, fun i j hi hj => ?_,
    ⟨fun hs => (hinv.somebody hs).imp fun _ hi => hi.1, fun ⟨i, hi⟩ => hset i hi⟩,
    fun s' hstep hgo hstop => caller_of_set hgo hstop hstep, fun i hi s' hs' => ?_, hinv.joined,
    hinv.wakeup, fun hstop s' hs' => (saves_after_stop hstop hs').2.1⟩
  · cases ((hinv.callerLock i).mpr hi).symm.trans ((hinv.callerLock j).mpr hj)
    rfl
  · rw [(hinv.callerLock i).mpr hi]
    exact nofun
  · obtain ⟨k, -, huniq⟩ := hinv.somebody (hset i hi)
    exact (huniq i hi).trans (huniq j hj).symm
  · have hstopper := stopper_reaches hi hs'
    refine ⟨hstopper, fun joined hj => ?_⟩
    rw [hj] at hstopper
    cases (hstopper : joined = true)
    exact ⟨rfl, (inv_of_reaches (h.trans hs')).joined i hj⟩

/-- The flag is set while the saver is blocked, and before it is notified. The call that has set it
returns only after the saver. -/
theorem stop_safe_blocked :
    ∃ s : PeriodicSaver, s.thread = .waiting ∧ s.stopping = true ∧ ∃ i, s.callers i = .notify ∧
      ∀ s', Relation.ReflTransGen (fun s s' => Own s s' ∨ Outside 2 s s') s s' →
        ∀ joined, s'.callers i = .returned joined → joined = true ∧ s'.thread = .returned := by
  obtain ⟨s, h, hthread, hstop⟩ := blocked_reached
  obtain ⟨-, -, -, -, -, hreturns, -, hwakeup, -⟩ := stop_safe h
  obtain ⟨i, hi⟩ := hwakeup hthread hstop
  exact ⟨s, hthread, hstop, i, hi, fun s' hs' => (hreturns i (by rw [hi]; rfl) s' hs').2⟩

/-- **Stopping the saver is prompt.** In every fair run, from the moment the flag is set, the saver
returns and so does every call of `stop` that has been made. Only steps of the saver and of the
callers are needed for that: no timeout has to run out. -/
theorem stop_prompt {n k : Nat} {run : Nat → PeriodicSaver} (hstart : run 0 = PeriodicSaver.start)
    (hrun : Fair.Run Own (Outside n) run) (hstop : (run k).stopping = true) :
    ∃ m, k ≤ m ∧ (run m).thread = .returned ∧ ∀ i, Settled ((run m).callers i) := by
  have hinv : ∀ m, Inv n (run (k + m)) ∧ (run (k + m)).stopping = true := fun m =>
    ⟨inv_of_reaches (hstart ▸ hrun.reaches (k + m)),
      (saves_after_stop hstop ((hrun.drop k).reaches m)).1⟩
  obtain ⟨m, hstuck⟩ := Fair.halts_of_fair (P := fun s => Inv n s ∧ s.stopping = true)
    (hrun.drop k) hinv (work n) (fun _ _ h => h.1.work_own h.2) (fun _ _ _ => work_outside)
  refine ⟨k + m, Nat.le_add_right k m, ?_⟩
  by_contra hend
  obtain ⟨s', hstep⟩ := (hinv m).1.advances (hinv m).2 hend
  exact hstuck s' hstep

/-- A run in which the flag is set while the saver is blocked. -/
theorem stop_prompt_blocked :
    ∃ (run : Nat → PeriodicSaver) (k m : Nat), (run k).thread = .waiting ∧
      (run k).stopping = true ∧ k ≤ m ∧ (run m).thread = .returned := by
  obtain ⟨s, h, hthread, hstop⟩ := blocked_reached
  obtain ⟨run, k, hstart, rfl, hrun⟩ := Fair.exists_run h
  obtain ⟨m, hkm, hreturned, -⟩ := stop_prompt hstart hrun hstop
  exact ⟨run, k, m, hthread, hstop, hkm, hreturned⟩

end CacheX
