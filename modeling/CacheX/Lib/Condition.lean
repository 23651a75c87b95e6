import CacheX.Lib.Fair
import Mathlib.Algebra.BigOperators.Group.Finset.Basic
import Mathlib.Algebra.Order.BigOperators.Group.Finset
import Mathlib.Data.Fintype.BigOperators
import Mathlib.Logic.Function.Basic

/-!
# Threads with a mutex and condition variables

Threads run straight-line code over data that one mutex protects. `wait` is the wait with a
predicate, which is a loop: the predicate is tested with the mutex held, and as long as it fails
the thread releases the mutex and blocks. A notification reaches the threads that are blocked at
that moment and no others. A thread can also wake up for no reason.

Two conditions on the code, thread by thread, are enough:

* `Held`: waits and updates happen with the mutex held, and it is released in the end.
* `Announced`: an update that can make the predicate of a wait true is followed by a notification,
  with nothing but the release of the mutex in between.

Results:

* `Inv.of_reaches`: both are kept, and no wakeup is lost: when the predicate of a blocked thread
  holds, some thread is about to notify it.
* `Inv.quiescent`: if no thread can go on, each has ended or waits for something that is false.
* `settles`: a fair run in which threads stop waking up for no reason comes to such a state.
-/

namespace CacheX.Condition

variable {ι σ κ : Type}

/-- What a thread does next. `update` goes on with a notification if the new data ask for one. -/
inductive Instr (σ κ : Type)
  | lock
  | unlock
  | update (f : σ → σ) (signal : σ → Option κ)
  | notifyAll (cv : κ)
  | wait (cv : κ) (pred : σ → Bool)

/-- A thread that is blocked or woken is inside the `wait` at the head of its code. -/
inductive Mode
  | running
  | blocked
  | woken
deriving DecidableEq, Repr

structure State (ι σ κ : Type) where
  shared : σ
  mutex : Option ι
  code : ι → List (Instr σ κ)
  mode : ι → Mode

/-- All threads are before their first instruction. -/
def start (shared : σ) (program : ι → List (Instr σ κ)) : State ι σ κ :=
  ⟨shared, none, program, fun _ => .running⟩

/-- What a notification does to a thread. -/
def wake [DecidableEq κ] (cv : κ) : List (Instr σ κ) → Mode → Mode
  | .wait cv' _ :: _, .blocked => if cv' = cv then .woken else .blocked
  | _, mode => mode

theorem wake_cases [DecidableEq κ] (cv : κ) (code : List (Instr σ κ)) (mode : Mode) :
    wake cv code mode = mode ∨ mode = .blocked ∧ wake cv code mode = .woken := by
  unfold wake
  split
  · split
    · exact .inr ⟨rfl, rfl⟩
    · exact .inl rfl
  · exact .inl rfl

theorem wake_ne_blocked [DecidableEq κ] {cv : κ} {pred : σ → Bool} {rest : List (Instr σ κ)}
    {mode : Mode} : wake cv (.wait cv pred :: rest) mode ≠ .blocked := by
  cases mode with
  | blocked => simp [wake]
  | _ => exact nofun

/-- The code after an update. -/
def afterUpdate (signal : Option κ) (rest : List (Instr σ κ)) : List (Instr σ κ) :=
  match signal with
  | some cv => .notifyAll cv :: rest
  | none => rest

section

variable [DecidableEq ι] [DecidableEq κ]

/-- A step of thread `i`. -/
inductive Step (s : State ι σ κ) (i : ι) : State ι σ κ → Prop
  | lock {rest} (hmode : s.mode i = .running) (hcode : s.code i = .lock :: rest)
      (hfree : s.mutex = none) :
      Step s i { s with mutex := some i, code := Function.update s.code i rest }
  | unlock {rest} (hmode : s.mode i = .running) (hcode : s.code i = .unlock :: rest) :
      Step s i { s with mutex := none, code := Function.update s.code i rest }
  | update {f signal rest} (hmode : s.mode i = .running)
      (hcode : s.code i = .update f signal :: rest) :
      Step s i { s with
        shared := f s.shared
        code := Function.update s.code i (afterUpdate (signal (f s.shared)) rest) }
  | notifyAll {cv rest} (hmode : s.mode i = .running) (hcode : s.code i = .notifyAll cv :: rest) :
      Step s i { s with
        code := Function.update s.code i rest
        mode := fun j => wake cv (s.code j) (s.mode j) }
  | pass {cv pred rest} (hmode : s.mode i = .running) (hcode : s.code i = .wait cv pred :: rest)
      (hpred : pred s.shared = true) :
      Step s i { s with code := Function.update s.code i rest }
  | block {cv pred rest} (hmode : s.mode i = .running) (hcode : s.code i = .wait cv pred :: rest)
      (hpred : pred s.shared = false) :
      Step s i { s with mutex := none, mode := Function.update s.mode i .blocked }
  | relock (hmode : s.mode i = .woken) (hfree : s.mutex = none) :
      Step s i { s with mutex := some i, mode := Function.update s.mode i .running }

/-- A step of some thread. -/
def Own (s s' : State ι σ κ) : Prop := ∃ i, Step s i s'

/-- A thread wakes up for no reason. -/
inductive Spurious (s : State ι σ κ) : State ι σ κ → Prop
  | wake {i} (hmode : s.mode i = .blocked) :
      Spurious s { s with mode := Function.update s.mode i .woken }

def Reaches : State ι σ κ → State ι σ κ → Prop :=
  Relation.ReflTransGen fun s s' => Own s s' ∨ Spurious s s'

end

/-! ## Code that can be trusted -/

/-- The code is right about the mutex, which the thread holds now or does not. -/
def Held : Bool → List (Instr σ κ) → Prop
  | held, [] => held = false
  | held, .lock :: rest => held = false ∧ Held true rest
  | held, .unlock :: rest => held = true ∧ Held false rest
  | held, .update _ _ :: rest => held = true ∧ Held true rest
  | held, .notifyAll _ :: rest => Held held rest
  | held, .wait _ _ :: rest => held = true ∧ Held true rest

/-- The code notifies `cv` before it can be held up. -/
def Soon (cv : κ) : List (Instr σ κ) → Prop
  | .unlock :: rest => Soon cv rest
  | .notifyAll cv' :: rest => cv' = cv ∨ Soon cv rest
  | _ => False

/-- The code waits for nothing but what `waits` lists, and announces all of it that it brings
about. -/
def Announced (waits : κ → (σ → Bool) → Prop) : List (Instr σ κ) → Prop
  | [] => True
  | .update f signal :: rest =>
    (∀ cv pred x, waits cv pred → pred (f x) = true →
      pred x = true ∨ signal (f x) = some cv ∨ Soon cv rest) ∧ Announced waits rest
  | .wait cv pred :: rest => waits cv pred ∧ Announced waits rest
  | _ :: rest => Announced waits rest

/-- The code has ended, or waits for something that is false. -/
def AtRest (shared : σ) (code : List (Instr σ κ)) : Prop :=
  code = [] ∨ ∃ cv pred rest, code = .wait cv pred :: rest ∧ pred shared = false

variable {waits : κ → (σ → Bool) → Prop} {held : Bool} {mode : Mode} {cv : κ} {pred : σ → Bool}
  {code rest : List (Instr σ κ)}

theorem Held.afterUpdate {signal : Option κ} (h : Held held rest) :
    Held held (afterUpdate signal rest) := by
  cases signal with
  | none => exact h
  | some cv => exact h

theorem Announced.afterUpdate {signal : Option κ} (h : Announced waits rest) :
    Announced waits (afterUpdate signal rest) := by
  cases signal with
  | none => exact h
  | some cv => exact h

theorem soon_afterUpdate {signal : Option κ} (h : signal = some cv ∨ Soon cv rest) :
    Soon cv (afterUpdate signal rest) := by
  cases signal with
  | none => exact h.resolve_left nofun
  | some cv' => exact h.imp Option.some.inj id

/-- What holds of a thread by itself. -/
structure Proper (waits : κ → (σ → Bool) → Prop) (held : Bool) (mode : Mode)
    (code : List (Instr σ κ)) : Prop where
  running : mode = .running → Held held code
  waiting : mode ≠ .running → held = false ∧ ∃ cv pred rest, code = .wait cv pred :: rest ∧
    Held true rest
  announced : Announced waits code

namespace Proper

theorem of_running (hheld : Held held code) (hann : Announced waits code) :
    Proper waits held .running code :=
  ⟨fun _ => hheld, fun h => absurd rfl h, hann⟩

/-- A thread that blocks or wakes up inside its `wait`. -/
theorem of_waiting (hmode : mode ≠ .running) (hheld : Held true rest)
    (hann : Announced waits (.wait cv pred :: rest)) :
    Proper waits false mode (.wait cv pred :: rest) :=
  ⟨fun h => absurd h hmode, fun _ => ⟨rfl, cv, pred, rest, rfl, hheld⟩, hann⟩

/-- A thread that waits can be woken. -/
theorem wake (h : Proper waits held mode code) (hmode : mode ≠ .running) :
    Proper waits held .woken code :=
  ⟨nofun, fun _ => h.waiting hmode, h.announced⟩

end Proper

/-! ## The invariant -/

variable {i : ι}

/-- Only what thread `i` holds has changed hands. -/
theorem other_iff {mutex mutex' : Option ι} (h : mutex = none ∨ mutex = some i)
    (h' : mutex' = none ∨ mutex' = some i) (j : ι) (hj : j ≠ i) :
    mutex = some j ↔ mutex' = some j := by
  have hnot : ∀ {m : Option ι}, m = none ∨ m = some i → m ≠ some j := by
    rintro m (rfl | rfl) he
    · cases he
    · exact hj (Option.some.inj he).symm
  exact iff_of_false (hnot h) (hnot h')

variable [DecidableEq ι] {s s' : State ι σ κ}

/-- Every thread is proper, and a blocked thread whose predicate holds is about to be notified. -/
structure Inv (waits : κ → (σ → Bool) → Prop) (s : State ι σ κ) : Prop where
  proper : ∀ i, Proper waits (decide (s.mutex = some i)) (s.mode i) (s.code i)
  wakeup : ∀ i cv pred rest, s.mode i = .blocked → s.code i = .wait cv pred :: rest →
    pred s.shared = true → ∃ j, s.mode j = .running ∧ Soon cv (s.code j)

theorem inv_start {shared : σ} {program : ι → List (Instr σ κ)}
    (hheld : ∀ i, Held false (program i)) (hann : ∀ i, Announced waits (program i)) :
    Inv waits (start shared program) :=
  ⟨fun i => .of_running (hheld i) (hann i), nofun⟩

namespace Inv

/-- One thread moves on and may wake up others. What is true now has been announced by another
thread, or this one announces it. -/
theorem advance (h : Inv waits s) {shared : σ} {mutex : Option ι} {mode : ι → Mode}
    (hself : Proper waits (decide (mutex = some i)) (mode i) code)
    (hmutex : ∀ j, j ≠ i → (mutex = some j ↔ s.mutex = some j))
    (hmode : ∀ j, j ≠ i → mode j = s.mode j ∨ s.mode j = .blocked ∧ mode j = .woken)
    (hblocked : ∀ cv pred rest, mode i = .blocked → code = .wait cv pred :: rest →
      pred shared = false)
    (hsoon : ∀ j cv pred rest, j ≠ i → mode j = .blocked → s.code j = .wait cv pred :: rest →
      pred shared = true →
      pred s.shared = true ∧ ¬ Soon cv (s.code i) ∨ mode i = .running ∧ Soon cv code) :
    Inv waits ⟨shared, mutex, Function.update s.code i code, mode⟩ := by
  constructor
  · intro j
    rcases eq_or_ne j i with rfl | hj
    · show Proper waits _ (mode j) (Function.update s.code j code j)
      rw [Function.update_self]
      exact hself
    · show Proper waits (decide (mutex = some j)) (mode j) (Function.update s.code i code j)
      rw [Function.update_of_ne hj, decide_eq_decide.mpr (hmutex j hj)]
      have hproper := h.proper j
      rcases hmode j hj with hsame | ⟨hwas, hwoken⟩
      · rw [hsame]
        exact hproper
      · rw [hwoken]
        rw [hwas] at hproper
        exact hproper.wake nofun
  · intro j cv pred rest hat hcode hpred
    dsimp only at hat hcode hpred ⊢
    rcases eq_or_ne j i with rfl | hj
    · rw [Function.update_self] at hcode
      rw [hblocked cv pred rest hat hcode] at hpred
      cases hpred
    · rw [Function.update_of_ne hj] at hcode
      rcases hsoon j cv pred rest hj hat hcode hpred with ⟨hwas, hnot⟩ | ⟨hrunning, hself⟩
      · have hat' : s.mode j = .blocked := (hmode j hj).elim (fun he => he.symm.trans hat)
          fun he => he.1
        obtain ⟨k, hk, hsoon'⟩ := h.wakeup j cv pred rest hat' hcode hwas
        have hki : k ≠ i := fun hki => hnot (hki ▸ hsoon')
        refine ⟨k, ?_, ?_⟩
        · rcases hmode k hki with he | ⟨he, -⟩
          · exact he.trans hk
          · cases hk.symm.trans he
        · rw [Function.update_of_ne hki]
          exact hsoon'
      · refine ⟨i, hrunning, ?_⟩
        rw [Function.update_self]
        exact hself

/-- A running thread moves on and wakes up nobody. -/
theorem goOn (h : Inv waits s) {shared : σ} {mutex : Option ι} (hmode : s.mode i = .running)
    (hheld : Held (decide (mutex = some i)) code) (hann : Announced waits code)
    (hmutex : ∀ j, j ≠ i → (mutex = some j ↔ s.mutex = some j))
    (hsoon : ∀ cv pred, waits cv pred → pred shared = true →
      pred s.shared = true ∧ ¬ Soon cv (s.code i) ∨ Soon cv code) :
    Inv waits ⟨shared, mutex, Function.update s.code i code, s.mode⟩ := by
  refine h.advance ?_ hmutex (fun _ _ => .inl rfl) ?_ ?_
  · rw [hmode]
    exact .of_running hheld hann
  · intro cv pred rest hat
    cases hmode.symm.trans hat
  · intro j cv pred rest _ _ hcode hpred
    have hproper := h.proper j
    rw [hcode] at hproper
    exact (hsoon cv pred hproper.announced.1 hpred).imp id fun hself => ⟨hmode, hself⟩

/-- A thread blocks, or goes on with its wait. -/
theorem inWait (h : Inv waits s) {mutex : Option ι} {mode : Mode}
    (hself : Proper waits (decide (mutex = some i)) mode (.wait cv pred :: rest))
    (hcode : s.code i = .wait cv pred :: rest)
    (hmutex : ∀ j, j ≠ i → (mutex = some j ↔ s.mutex = some j))
    (hblocked : mode = .blocked → pred s.shared = false) :
    Inv waits { s with mutex := mutex, mode := Function.update s.mode i mode } := by
  have hinv : Inv waits ⟨s.shared, mutex, Function.update s.code i (s.code i),
      Function.update s.mode i mode⟩ := by
    refine h.advance ?_ hmutex (fun j hj => .inl (Function.update_of_ne hj ..)) ?_ ?_
    · rw [Function.update_self, hcode]
      exact hself
    · intro cv' pred' rest' hat hcode'
      rw [Function.update_self] at hat
      rw [hcode] at hcode'
      cases hcode'
      exact hblocked hat
    · intro j cv' pred' rest' _ _ _ hpred
      exact .inl ⟨hpred, by rw [hcode]; exact id⟩
  rw [Function.update_eq_self] at hinv
  exact hinv

theorem spurious (h : Inv waits s) (hstep : Spurious s s') : Inv waits s' := by
  cases hstep with
  | @wake i hmode =>
    have hproper := h.proper i
    have hwaits : s.mode i ≠ .running := by rw [hmode]; exact nofun
    obtain ⟨-, cv, pred, rest, hcode, -⟩ := hproper.waiting hwaits
    exact h.inWait (hcode ▸ hproper.wake hwaits) hcode (fun _ _ => Iff.rfl) nofun

variable [DecidableEq κ]

theorem notified (h : Inv waits s) (hmode : s.mode i = .running)
    (hcode : s.code i = .notifyAll cv :: rest) :
    Inv waits { s with
      code := Function.update s.code i rest
      mode := fun j => wake cv (s.code j) (s.mode j) } := by
  have hproper := h.proper i
  rw [hcode, hmode] at hproper
  have hself : wake cv (s.code i) (s.mode i) = .running := by rw [hcode, hmode]; rfl
  refine h.advance ?_ (fun _ _ => Iff.rfl) (fun j _ => wake_cases ..) ?_ ?_
  · rw [hself]
    exact .of_running (hproper.running rfl) hproper.announced
  · intro cv' pred rest' hat
    cases hself.symm.trans hat
  · intro j cv' pred rest' _ hat hcode' hpred
    -- a thread that is still blocked is not in this condition variable
    have hne : cv ≠ cv' := by
      rintro rfl
      rw [hcode'] at hat
      exact wake_ne_blocked hat
    by_cases hsoon : Soon cv' rest
    · exact .inr ⟨hself, hsoon⟩
    · refine .inl ⟨hpred, ?_⟩
      rw [hcode]
      exact not_or.mpr ⟨hne, hsoon⟩

/-- What the threads do keeps the invariant. -/
theorem step (h : Inv waits s) (hstep : Step s i s') : Inv waits s' := by
  have hproper := h.proper i
  cases hstep with
  | lock hmode hcode hfree =>
    rw [hcode, hmode] at hproper
    refine h.goOn hmode ?_ hproper.announced (other_iff (.inr rfl) (.inl hfree)) ?_
    · rw [decide_eq_true rfl]
      exact (hproper.running rfl).2
    · intro cv pred _ hpred
      exact .inl ⟨hpred, by rw [hcode]; exact id⟩
  | @unlock rest hmode hcode =>
    rw [hcode, hmode] at hproper
    obtain ⟨hholds, hheld⟩ := hproper.running rfl
    refine h.goOn hmode hheld hproper.announced
      (other_iff (.inl rfl) (.inr (of_decide_eq_true hholds))) ?_
    intro cv pred _ hpred
    rw [hcode]
    by_cases hsoon : Soon cv rest
    · exact .inr hsoon
    · exact .inl ⟨hpred, hsoon⟩
  | update hmode hcode =>
    rw [hcode, hmode] at hproper
    obtain ⟨hholds, hheld⟩ := hproper.running rfl
    refine h.goOn hmode ?_ hproper.announced.2.afterUpdate (fun _ _ => Iff.rfl) ?_
    · rw [hholds]
      exact hheld.afterUpdate
    · intro cv pred hwaits hpred
      refine (hproper.announced.1 cv pred s.shared hwaits hpred).imp (fun hwas => ⟨hwas, ?_⟩)
        soon_afterUpdate
      rw [hcode]
      exact id
  | notifyAll hmode hcode => exact h.notified hmode hcode
  | pass hmode hcode hpred =>
    rw [hcode, hmode] at hproper
    obtain ⟨hholds, hheld⟩ := hproper.running rfl
    refine h.goOn hmode ?_ hproper.announced.2 (fun _ _ => Iff.rfl) ?_
    · rw [hholds]
      exact hheld
    · intro cv pred _ hpred
      exact .inl ⟨hpred, by rw [hcode]; exact id⟩
  | block hmode hcode hpred =>
    rw [hcode, hmode] at hproper
    obtain ⟨hholds, hheld⟩ := hproper.running rfl
    exact h.inWait (.of_waiting nofun hheld hproper.announced) hcode
      (other_iff (.inl rfl) (.inr (of_decide_eq_true hholds))) fun _ => hpred
  | relock hmode hfree =>
    obtain ⟨-, cv, pred, rest, hcode, hheld⟩ := hproper.waiting (by rw [hmode]; exact nofun)
    refine h.inWait (.of_running ?_ (hcode ▸ hproper.announced)) hcode
      (other_iff (.inr rfl) (.inl hfree)) nofun
    exact ⟨decide_eq_true rfl, hheld⟩

theorem of_reaches (h : Inv waits s) (hreach : Reaches s s') : Inv waits s' := by
  induction hreach with
  | refl => exact h
  | tail _ hstep ih => exact hstep.elim (fun ⟨_, hstep⟩ => ih.step hstep) ih.spurious

/-! ### When nothing moves any more -/

theorem free_of_stuck (h : Inv waits s) (hstuck : ∀ s', ¬ Own s s') : s.mutex = none := by
  by_contra hne
  obtain ⟨i, hi⟩ := Option.ne_none_iff_exists'.mp hne
  have hproper := h.proper i
  rw [decide_eq_true hi] at hproper
  have hmode : s.mode i = .running := by
    by_contra hmode
    cases (hproper.waiting hmode).1
  have hheld := hproper.running hmode
  cases hcode : s.code i with
  | nil =>
    rw [hcode] at hheld
    cases hheld
  | cons instr rest =>
    rw [hcode] at hheld
    cases instr with
    | lock => cases hheld.1
    | unlock => exact hstuck _ ⟨i, .unlock hmode hcode⟩
    | update f signal => exact hstuck _ ⟨i, .update hmode hcode⟩
    | notifyAll cv => exact hstuck _ ⟨i, .notifyAll hmode hcode⟩
    | wait cv pred =>
      cases hpred : pred s.shared with
      | true => exact hstuck _ ⟨i, .pass hmode hcode hpred⟩
      | false => exact hstuck _ ⟨i, .block hmode hcode hpred⟩

/-- If no thread can go on, each has ended or is blocked for something that is false. -/
theorem quiescent (h : Inv waits s) (hstuck : ∀ s', ¬ Own s s') (i : ι) :
    AtRest s.shared (s.code i) := by
  have hfree := h.free_of_stuck hstuck
  have hproper := h.proper i
  rw [hfree, decide_eq_false nofun] at hproper
  cases hmode : s.mode i with
  | running =>
    have hheld := hproper.running hmode
    cases hcode : s.code i with
    | nil => exact .inl rfl
    | cons instr rest =>
      rw [hcode] at hheld
      cases instr with
      | lock => exact (hstuck _ ⟨i, .lock hmode hcode hfree⟩).elim
      | notifyAll cv => exact (hstuck _ ⟨i, .notifyAll hmode hcode⟩).elim
      | unlock => cases hheld.1
      | update f signal => cases hheld.1
      | wait cv pred => cases hheld.1
  | woken => exact (hstuck _ ⟨i, .relock hmode hfree⟩).elim
  | blocked =>
    obtain ⟨-, cv, pred, rest, hcode, -⟩ := hproper.waiting (by rw [hmode]; exact nofun)
    refine .inr ⟨cv, pred, rest, hcode, ?_⟩
    by_contra htrue
    -- whoever is to notify it can go on
    obtain ⟨j, hrunning, hsoon⟩ :=
      h.wakeup i cv pred rest hmode hcode (Bool.eq_true_of_not_eq_false htrue)
    cases hcode' : s.code j with
    | nil =>
      rw [hcode'] at hsoon
      exact hsoon
    | cons instr rest' =>
      rw [hcode'] at hsoon
      cases instr with
      | unlock => exact hstuck _ ⟨j, .unlock hrunning hcode'⟩
      | notifyAll cv' => exact hstuck _ ⟨j, .notifyAll hrunning hcode'⟩
      | lock => exact hsoon
      | update f signal => exact hsoon
      | wait cv' pred' => exact hsoon

end Inv

/-! ## What a step does to the data and to the code -/

/-- Either nothing, or the thread gets past the instruction at the head of its code. -/
inductive Effect (s : State ι σ κ) (i : ι) : σ → (ι → List (Instr σ κ)) → Prop
  | none : Effect s i s.shared s.code
  | lock {rest : List (Instr σ κ)} (hcode : s.code i = .lock :: rest) :
      Effect s i s.shared (Function.update s.code i rest)
  | unlock {rest : List (Instr σ κ)} (hcode : s.code i = .unlock :: rest) :
      Effect s i s.shared (Function.update s.code i rest)
  | update {f : σ → σ} {signal : σ → Option κ} {rest : List (Instr σ κ)}
      (hcode : s.code i = .update f signal :: rest) :
      Effect s i (f s.shared)
        (Function.update s.code i (afterUpdate (signal (f s.shared)) rest))
  | notifyAll {cv : κ} {rest : List (Instr σ κ)} (hcode : s.code i = .notifyAll cv :: rest) :
      Effect s i s.shared (Function.update s.code i rest)
  | pass {cv : κ} {pred : σ → Bool} {rest : List (Instr σ κ)}
      (hcode : s.code i = .wait cv pred :: rest) (hpred : pred s.shared = true) :
      Effect s i s.shared (Function.update s.code i rest)

theorem Step.effect [DecidableEq κ] (h : Step s i s') : Effect s i s'.shared s'.code := by
  cases h with
  | lock _ hcode => exact .lock hcode
  | unlock _ hcode => exact .unlock hcode
  | update _ hcode => exact .update hcode
  | notifyAll _ hcode => exact .notifyAll hcode
  | pass _ hcode hpred => exact .pass hcode hpred
  | block | relock => exact .none

/-! ## Fair runs -/

/-- A notification costs more than it can give to all threads together. -/
def Instr.cost (n : Nat) : Instr σ κ → Nat
  | .update _ _ => 2 * n + 2
  | .notifyAll _ => 2 * n + 1
  | _ => 1

def codeCost (n : Nat) : List (Instr σ κ) → Nat
  | [] => 0
  | instr :: rest => instr.cost n + codeCost n rest

def Mode.rank : Mode → Nat
  | .blocked => 0
  | .running => 1
  | .woken => 2

variable [Fintype ι]

/-- What the threads can do at most, if none of them wakes up for no reason. -/
def work (s : State ι σ κ) : Nat :=
  ∑ i, codeCost (Fintype.card ι) (s.code i) + ∑ i, (s.mode i).rank

theorem sum_update_add_le {α : Type} (f : α → Nat) (g : ι → α) {i : ι} {a : α} {d : Nat}
    (h : f a + d ≤ f (g i)) : ∑ j, f (Function.update g i a j) + d ≤ ∑ j, f (g j) := by
  have hi := Finset.mem_univ i
  rw [← Finset.add_sum_erase _ _ hi, ← Finset.add_sum_erase _ _ hi, Function.update_self]
  have hrest : ∑ j ∈ Finset.univ.erase i, f (Function.update g i a j)
      = ∑ j ∈ Finset.univ.erase i, f (g j) :=
    Finset.sum_congr rfl fun j hj => by rw [Function.update_of_ne (Finset.ne_of_mem_erase hj)]
  rw [hrest, Nat.add_right_comm]
  exact Nat.add_le_add_right h _

/-- A thread gets past an instruction. -/
theorem work_code {shared : σ} {mutex : Option ι} {instr : Instr σ κ}
    (hcode : s.code i = instr :: rest) {after : List (Instr σ κ)}
    (hcost : codeCost (Fintype.card ι) after
      < instr.cost (Fintype.card ι) + codeCost (Fintype.card ι) rest) :
    work ⟨shared, mutex, Function.update s.code i after, s.mode⟩ < work s := by
  refine Nat.add_lt_add_right (sum_update_add_le (d := 1) _ s.code ?_) _
  rw [hcode]
  exact hcost

/-- A thread stays where it is, in another mode. -/
theorem work_mode {mutex : Option ι} {mode : Mode} (hrank : mode.rank < (s.mode i).rank) :
    work { s with mutex := mutex, mode := Function.update s.mode i mode } < work s :=
  Nat.add_lt_add_left (sum_update_add_le (d := 1) Mode.rank s.mode hrank) _

variable [DecidableEq κ]

theorem rank_wake (cv : κ) (code : List (Instr σ κ)) (mode : Mode) :
    (wake cv code mode).rank ≤ mode.rank + 2 := by
  rcases wake_cases cv code mode with h | ⟨rfl, h⟩
  · rw [h]
    exact Nat.le_add_right _ _
  · rw [h]
    exact Nat.le_refl _

theorem Step.work_lt (h : Step s i s') : work s' < work s := by
  have hone : ∀ rest : List (Instr σ κ), codeCost (Fintype.card ι) rest
      < 1 + codeCost (Fintype.card ι) rest := fun rest => Nat.lt_add_of_pos_left Nat.one_pos
  cases h with
  | lock _ hcode => exact work_code hcode (hone _)
  | unlock _ hcode => exact work_code hcode (hone _)
  | pass _ hcode => exact work_code hcode (hone _)
  | @update f signal rest _ hcode =>
    refine work_code hcode ?_
    cases signal (f s.shared) with
    | none => exact Nat.lt_add_of_pos_left (Nat.succ_pos _)
    | some cv => exact Nat.add_lt_add_right (Nat.lt_succ_self _) _
  | @notifyAll cv rest _ hcode =>
    have hcodes := sum_update_add_le (codeCost (Fintype.card ι)) s.code (i := i) (a := rest)
      (d := 2 * Fintype.card ι + 1) (by rw [hcode]; exact Nat.le_of_eq (Nat.add_comm _ _))
    have hmodes : ∑ j, (wake cv (s.code j) (s.mode j)).rank
        ≤ ∑ j, (s.mode j).rank + 2 * Fintype.card ι :=
      calc ∑ j, (wake cv (s.code j) (s.mode j)).rank
          ≤ ∑ j, ((s.mode j).rank + 2) := Finset.sum_le_sum fun j _ => rank_wake ..
        _ = ∑ j, (s.mode j).rank + 2 * Fintype.card ι := by
            rw [Finset.sum_add_distrib, Finset.sum_const_nat fun _ _ => rfl, Finset.card_univ,
              Nat.mul_comm]
    show _ + _ < _ + _
    dsimp only
    omega
  | block hmode =>
    refine work_mode ?_
    rw [hmode]
    exact Nat.zero_lt_one
  | relock hmode =>
    refine work_mode ?_
    rw [hmode]
    exact Nat.lt_succ_self 1

/-- A fair run in which, from some moment on, no thread wakes up for no reason, comes to rest. -/
theorem settles {run : Nat → State ι σ κ} (hinv : Inv waits (run 0))
    (hrun : Fair.Run Own Spurious run) {k : Nat}
    (hcalm : ∀ n, k ≤ n → Own (run n) (run (n + 1)) ∨ run (n + 1) = run n) :
    ∃ n, ∀ i, AtRest (run n).shared ((run n).code i) := by
  have htail : Fair.Run Own (fun _ _ => False) fun n => run (k + n) :=
    ⟨fun n => (hcalm (k + n) (Nat.le_add_right k n)).imp id .inr, (hrun.drop k).fair⟩
  obtain ⟨n, hstuck⟩ := Fair.halts_of_fair (P := fun _ => True) htail (fun _ => trivial) work
    (fun _ _ _ ⟨_, hstep⟩ => hstep.work_lt) (fun _ _ _ => False.elim)
  exact ⟨k + n, (hinv.of_reaches (hrun.reaches (k + n))).quiescent hstuck⟩


end CacheX.Condition
