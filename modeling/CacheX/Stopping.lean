import CacheX.Lib.Fair
import CacheX.Workers
import Mathlib.Algebra.GroupWithZero.Nat

/-!
# Stopping the server

What `Server::run` does once `stop_requested_` is set, over the steps of `Workers.lean`. The loop
looks at the flag once in each pass, so that a pass under way is finished, and `join_all_workers`
waits for the clients that are still connected.

* `accepted_le`: at most one more connection is accepted.
* `work_lt`: every step other than a call of `stop` brings the server nearer to its end.
* `moves_of_live`: until everything has ended there is such a step.
* `server_stops`: `run` returns, with every thread joined, unless a client is served forever.
-/

namespace CacheX

/-- The steps that a connection has still to make, at most. -/
def WorkerStage.rank : WorkerStage → Nat
  | .accepted => 5
  | .counted => 4
  | .serving => 3
  | .released => 2
  | .failed => 1
  | .finished => 1
  | .refused => 0
  | .dropped => 0
  | .exited => 0

theorem WorkerStage.Moves.rank_lt {a b : WorkerStage} (h : a.Moves b) : b.rank < a.rank := by
  cases h <;> decide

/-- The pass under way may still accept a connection. -/
def Loop.mayAccept : Loop → Bool
  | .poll => true
  | .reap _ _ => true
  | .join _ _ => true
  | .accept => true
  | _ => false

namespace Pool

variable {maxConnections : UInt64} {s s' : Pool}

/-! ## The last pass -/

/-- With the flag set, a connection is accepted in the pass under way or not at all. -/
theorem accepted_step (hstop : s.stopRequested = true) (hstep : Step maxConnections s s') :
    s'.stopRequested = true ∧
      s'.stages.length + s'.loop.mayAccept.toNat ≤ s.stages.length + s.loop.mayAccept.toNat := by
  cases hstep with
  | stop => exact ⟨rfl, Nat.le_refl _⟩
  | again hl hgo => cases hstop.symm.trans hgo
  | accept hl =>
    refine ⟨hstop, ?_⟩
    rw [List.length_append, hl]
    exact Nat.le_refl _
  | reapDone hl hi =>
    refine ⟨hstop, ?_⟩
    rw [hl]
    exact Nat.add_le_add_left (Bool.toNat_le _) _
  | full hl | count hl | create hl | createFailed hl | undo hl =>
    refine ⟨hstop, ?_⟩
    rw [List.length_set, hl]
    exact Nat.le_refl _
  | release hid | finish hid | exit hid =>
    refine ⟨hstop, ?_⟩
    rw [List.length_set]
  | notJoinable | join => exact ⟨hstop, Nat.le_refl _⟩
  | polled _ hl | keep hl | found hl | reaped hl =>
    refine ⟨hstop, ?_⟩
    rw [hl]
    exact Nat.le_refl _
  | «over» | interrupted | pollFailed | vanished | free | refused | number | push | swap | done =>
    exact ⟨hstop, Nat.le_add_right _ _⟩

theorem accepted_le (hstop : s.stopRequested = true) (hreach : Reaches maxConnections s s') :
    s'.stopRequested = true ∧
      s'.stages.length + s'.loop.mayAccept.toNat ≤ s.stages.length + s.loop.mayAccept.toNat := by
  induction hreach with
  | refl => exact ⟨hstop, Nat.le_refl _⟩
  | tail _ hstep ih =>
    have hnext := accepted_step ih.1 hstep
    exact ⟨hnext.1, hnext.2.trans ih.2⟩

/-! ## What is left to do -/

/-- The steps that the loop has still to make once the flag is set, at most. A pass that may accept
has six to spare for the connection. -/
def loopWork (s : Pool) : Nat :=
  match s.loop with
  | .poll => 18 + s.workers.length + 2 * s.workers.length
  | .reap i _ => 17 + s.workers.length + 2 * (s.workers.length - i)
  | .join i _ => 16 + s.workers.length + 2 * (s.workers.length - i)
  | .accept => 16 + s.workers.length
  | .check _ => 9 + s.workers.length
  | .number _ => 8 + s.workers.length
  | .count _ => 7 + s.workers.length
  | .create _ => 6 + s.workers.length
  | .push _ => 5 + s.workers.length
  | .refuse _ => 4 + s.workers.length
  | .undo _ => 4 + s.workers.length
  | .test => 3 + s.workers.length
  | .leave => 2 + s.workers.length
  | .joinAll => 1 + s.remaining.length
  | .returned => 0

def stagesWork (l : List WorkerStage) : Nat := (l.map WorkerStage.rank).sum

/-- The steps that the loop and the connections have still to make, at most. -/
def work (s : Pool) : Nat := s.loopWork + stagesWork s.stages

theorem stagesWork_snoc (l : List WorkerStage) (a : WorkerStage) :
    stagesWork (l ++ [a]) = stagesWork l + a.rank := by
  rw [stagesWork, List.map_append, List.sum_append, List.map_singleton, List.sum_singleton]
  rfl

theorem stagesWork_set {l : List WorkerStage} {id : Nat} {a : WorkerStage} (h : l[id]? = some a)
    (b : WorkerStage) : stagesWork (l.set id b) + a.rank = stagesWork l + b.rank := by
  induction l generalizing id with
  | nil => cases h
  | cons c l ih =>
    cases id with
    | zero =>
      cases h
      simp only [stagesWork, List.set_cons_zero, List.map_cons, List.sum_cons]
      omega
    | succ id =>
      have hl := ih h
      simp only [stagesWork, List.set_cons_succ, List.map_cons, List.sum_cons] at hl ⊢
      omega

/-- A connection that moves has less to do. -/
theorem stagesWork_lt {l : List WorkerStage} {id : Nat} {a b : WorkerStage} (h : l[id]? = some a)
    (hmoves : a.Moves b) : stagesWork (l.set id b) < stagesWork l := by
  have hset := stagesWork_set h b
  have hrank := hmoves.rank_lt
  omega

/-- The worker that is being joined in `reap_finished_workers` has set its flag. -/
def Joining (s : Pool) : Prop :=
  ∀ i ready, s.loop = .join i ready → ∃ id, s.workers[i]? = some id ∧ s.flagged id = true

theorem Joining.step (h : Inv maxConnections s) (hjoining : Joining s)
    (hstep : Step maxConnections s s') : Joining s' := by
  have hchange := step_change h hstep
  have hkeep : s'.loop = s.loop → s'.workers = s.workers → Joining s' := by
    intro hloop hworkers i ready hl
    obtain ⟨id, hi, hid⟩ := hjoining i ready (hloop ▸ hl)
    exact ⟨id, hworkers ▸ hi, flagged_next hchange hid⟩
  cases hstep with
  | found hl hi hid =>
    rintro i ready ⟨⟩
    exact ⟨_, hi, hid⟩
  | stop | release | finish | exit | notJoinable | join => exact hkeep rfl rfl
  | @reapDone i ready hl hi =>
    intro j r hj
    cases ready <;> cases hj
  | _ => exact nofun

/-- What is used about the states of a run. -/
structure Live (maxConnections : UInt64) (s : Pool) : Prop where
  inv : Inv maxConnections s
  joining : Joining s

theorem Live.start (maxConnections : UInt64) : Live maxConnections {} :=
  ⟨Inv.start maxConnections, nofun⟩

theorem Live.step (h : Live maxConnections s) (hstep : Step maxConnections s s') :
    Live maxConnections s' :=
  ⟨h.inv.step hstep, h.joining.step h.inv hstep⟩

theorem work_lt (h : Inv maxConnections s) (hstop : s.stopRequested = true)
    (hstep : Step maxConnections s s') (hne : s' ≠ { s with stopRequested := true }) :
    s'.work < s.work := by
  cases hstep with
  | stop => exact absurd rfl hne
  | again hl hgo => cases hstop.symm.trans hgo
  | release hid => exact Nat.add_lt_add_left (stagesWork_lt hid .release) _
  | finish hid => exact Nat.add_lt_add_left (stagesWork_lt hid .finish) _
  | exit hid => exact Nat.add_lt_add_left (stagesWork_lt hid .exit) _
  | full hl =>
    have hstages := stagesWork_lt (h.client_at hl rfl) .refuse
    simp only [work, loopWork, hl]
    omega
  | count hl =>
    have hstages := stagesWork_lt (h.client_at hl rfl) .count
    simp only [work, loopWork, hl]
    omega
  | create hl =>
    have hstages := stagesWork_lt (h.client_at hl rfl) .create
    simp only [work, loopWork, hl]
    omega
  | createFailed hl =>
    have hstages := stagesWork_lt (h.client_at hl rfl) .fail
    simp only [work, loopWork, hl]
    omega
  | undo hl =>
    have hstages := stagesWork_lt (h.client_at hl rfl) .drop
    simp only [work, loopWork, hl]
    omega
  | accept hl =>
    simp only [work, loopWork, hl, stagesWork_snoc, WorkerStage.rank]
    omega
  | keep hl hi | found hl hi =>
    have hlt := (List.getElem?_eq_some_iff.mp hi).1
    simp only [work, loopWork, hl]
    omega
  | reaped hl hi =>
    have hlt := (List.getElem?_eq_some_iff.mp hi).1
    have hlength := List.length_eraseIdx_of_lt hlt
    simp only [work, loopWork, hl, hlength]
    omega
  | @reapDone i ready hl hi =>
    cases ready <;> simp only [work, loopWork, hl] <;> simp <;> omega
  | push hl =>
    simp only [work, loopWork, hl, List.length_append, List.length_singleton]
    omega
  | notJoinable hl hrem | join hl hrem | done hl hrem =>
    simp only [work, loopWork, hl, hrem, List.length_cons]
    omega
  | «over» hl | interrupted hl | pollFailed hl | polled _ hl | vanished hl | free hl | refused hl
  | number hl | swap hl =>
    simp only [work, loopWork, hl]
    omega

/-! ## Something is always possible -/

/-- The loop has returned and no thread is left. -/
def Ended (s : Pool) : Prop :=
  s.loop = .returned ∧ ∀ id, s.started id = true → s.stages[id]? = some .exited ∧ id ∈ s.joined

/-- A step other than a call of `stop`. -/
def Moves (maxConnections : UInt64) (s s' : Pool) : Prop :=
  Step maxConnections s s' ∧ s' ≠ { s with stopRequested := true }

/-- A step that shows in any other field is not a call of `stop`. -/
theorem moves_of_ne {α : Type} (field : Pool → α)
    (hfield : field { s with stopRequested := true } = field s)
    (hstep : Step maxConnections s s') (hne : field s' ≠ field s) : Moves maxConnections s s' :=
  ⟨hstep, fun heq => hne ((congrArg field heq).trans hfield)⟩

theorem moves_of_loop (hstep : Step maxConnections s s') (hloop : s'.loop ≠ s.loop) :
    ∃ s', Moves maxConnections s s' :=
  ⟨s', moves_of_ne Pool.loop rfl hstep hloop⟩

theorem moves_of_stage {id : Nat} {a b : WorkerStage} (ha : s.stages[id]? = some a)
    (hmoves : a.Moves b) (hstep : Step maxConnections s s')
    (hstages : s'.stages = s.stages.set id b) : Moves maxConnections s s' := by
  refine moves_of_ne Pool.stages rfl hstep fun heq => ?_
  have hlt := stagesWork_lt ha hmoves
  rw [← hstages, heq] at hlt
  exact Nat.lt_irrefl _ hlt

/-- A thread that has not ended can make a step. -/
theorem moves_of_started {id : Nat} (hid : s.started id = true)
    (hlive : s.stages[id]? ≠ some .exited) : ∃ s', Moves maxConnections s s' := by
  obtain ⟨a, ha, hstarted⟩ := (Option.any_eq_true _ _).mp hid
  cases a with
  | serving => exact ⟨_, moves_of_stage ha .release (.release ha) rfl⟩
  | released => exact ⟨_, moves_of_stage ha .finish (.finish ha) rfl⟩
  | finished => exact ⟨_, moves_of_stage ha .exit (.exit ha) rfl⟩
  | exited => exact absurd ha hlive
  | _ => cases hstarted

theorem started_of_flagged {id : Nat} (h : s.flagged id = true) : s.started id = true := by
  obtain ⟨a, ha, hflagged⟩ := (Option.any_eq_true _ _).mp h
  rw [started, ha]
  cases a with
  | finished | exited => rfl
  | _ => cases hflagged

theorem moves_of_live (h : Live maxConnections s) (hstop : s.stopRequested = true) :
    Ended s ∨ ∃ s', Moves maxConnections s s' := by
  cases hl : s.loop with
  | test => exact .inr (moves_of_loop (.over hl hstop) (by rw [hl]; exact nofun))
  | poll => exact .inr (moves_of_loop (.interrupted hl) (by rw [hl]; exact nofun))
  | reap i ready =>
    right
    cases hi : s.workers[i]? with
    | none =>
      refine moves_of_loop (.reapDone hl (List.getElem?_eq_none_iff.mp hi)) ?_
      rw [hl]
      cases ready <;> exact nofun
    | some id =>
      cases hid : s.flagged id with
      | false =>
        refine moves_of_loop (.keep hl hi hid) ?_
        rw [hl]
        exact fun heq => Nat.succ_ne_self i (Loop.reap.inj heq).1
      | true => exact moves_of_loop (.found hl hi hid) (by rw [hl]; exact nofun)
  | join i ready =>
    right
    obtain ⟨id, hi, hid⟩ := h.joining i ready hl
    by_cases hexited : s.stages[id]? = some .exited
    · exact moves_of_loop (.reaped hl hi hexited) (by rw [hl]; exact nofun)
    · exact moves_of_started (started_of_flagged hid) hexited
  | accept => exact .inr (moves_of_loop (.vanished hl) (by rw [hl]; exact nofun))
  | check id =>
    right
    by_cases hfull : maxConnections ≤ s.activeConnections
    · exact moves_of_loop (.full hl hfull) (by rw [hl]; exact nofun)
    · exact moves_of_loop (.free hl (UInt64.not_le.mp hfull)) (by rw [hl]; exact nofun)
  | refuse id => exact .inr (moves_of_loop (.refused hl) (by rw [hl]; exact nofun))
  | number id => exact .inr (moves_of_loop (.number hl) (by rw [hl]; exact nofun))
  | count id => exact .inr (moves_of_loop (.count hl) (by rw [hl]; exact nofun))
  | create id => exact .inr (moves_of_loop (.create hl) (by rw [hl]; exact nofun))
  | undo id => exact .inr (moves_of_loop (.undo hl) (by rw [hl]; exact nofun))
  | push id => exact .inr (moves_of_loop (.push hl) (by rw [hl]; exact nofun))
  | leave => exact .inr (moves_of_loop (.swap hl) (by rw [hl]; exact nofun))
  | joinAll =>
    right
    cases hrem : s.remaining with
    | nil => exact moves_of_loop (.done hl hrem) (by rw [hl]; exact nofun)
    | cons id rest =>
      have hne : rest ≠ s.remaining := by
        rw [hrem]
        exact (List.cons_ne_self id rest).symm
      by_cases hjoined : id ∈ s.joined
      · exact ⟨_, moves_of_ne Pool.remaining rfl (.notJoinable hl hrem hjoined) hne⟩
      · by_cases hexited : s.stages[id]? = some .exited
        · exact ⟨_, moves_of_ne Pool.remaining rfl (.join hl hrem hjoined hexited) hne⟩
        · have hheld : id ∈ s.held := by
            rw [held, hrem]
            simp
          exact moves_of_started ((h.inv.held id).mp hheld) hexited
  | returned =>
    refine .inl ⟨hl, fun id hid => ?_⟩
    have hjoined := h.inv.joined_of_returned hl hid
    exact ⟨h.inv.joined id hjoined, hjoined⟩

/-! ## Runs -/

/-- The call of `serve` returns. When it does is up to the client. -/
def Release (s s' : Pool) : Prop :=
  ∃ id, s.stages[id]? = some .serving ∧ s' = { s with
    activeConnections := s.activeConnections - 1
    stages := s.stages.set id .released }

/-- A call of `stop`. -/
def Stop (s s' : Pool) : Prop := s' = { s with stopRequested := true }

/-- The other steps of the loop and of the workers. -/
def Own (maxConnections : UInt64) (s s' : Pool) : Prop :=
  Moves maxConnections s s' ∧ ¬ Release s s'

theorem own_or_release : Own maxConnections s s' ∨ Release s s' ↔ Moves maxConnections s s' := by
  constructor
  · rintro (hown | ⟨id, hid, rfl⟩)
    · exact hown.1
    · exact moves_of_stage hid .release (.release hid) rfl
  · intro hmoves
    by_cases hrelease : Release s s'
    · exact .inr hrelease
    · exact .inl ⟨hmoves, hrelease⟩

theorem step_of_run {run : Nat → Pool}
    (hrun : Fair.Run (Own maxConnections) (fun s s' => Release s s' ∨ Stop s s') run) (n : Nat) :
    Step maxConnections (run n) (run (n + 1)) ∨ run (n + 1) = run n := by
  rcases hrun.step n with hown | (hrelease | hstop) | hsame
  · exact .inl hown.1.1
  · exact .inl (own_or_release.mp (.inr hrelease)).1
  · rw [hstop]
    exact .inl .stop
  · exact .inr hsame

theorem reaches_of_run {run : Nat → Pool}
    (hrun : Fair.Run (Own maxConnections) (fun s s' => Release s s' ∨ Stop s s') run) {k n : Nat}
    (hk : k ≤ n) : Reaches maxConnections (run k) (run n) := by
  induction hk with
  | refl => exact .refl
  | step _ ih =>
    rcases step_of_run hrun _ with hstep | hsame
    · exact ih.tail hstep
    · rw [hsame]
      exact ih

/-- A client that is served is served until `serve` returns. -/
theorem serving_next (h : Inv maxConnections s) (hstep : Step maxConnections s s') {id : Nat}
    (hid : s.stages[id]? = some .serving) : s'.stages[id]? = some .serving ∨ Release s s' := by
  have hother : ∀ {j a b}, s.stages[j]? = some a → a ≠ .serving →
      (s.stages.set j b)[id]? = some .serving := by
    intro j a b hj ha
    rw [List.getElem?_set_ne, hid]
    rintro rfl
    exact ha (Option.some.inj (hj.symm.trans hid))
  cases hstep with
  | release hj => exact .inr ⟨_, hj, rfl⟩
  | finish hj | exit hj => exact .inl (hother hj nofun)
  | full hl | count hl | create hl | createFailed hl | undo hl =>
    exact .inl (hother (h.client_at hl rfl) nofun)
  | accept hl =>
    left
    rw [List.getElem?_append_left (List.getElem?_eq_some_iff.mp hid).1, hid]
  | _ => exact .inl hid

theorem release_of_left {run : Nat → Pool} (hlive : ∀ n, Live maxConnections (run n))
    (hrun : Fair.Run (Own maxConnections) (fun s s' => Release s s' ∨ Stop s s') run)
    {id n m : Nat} (hnm : n ≤ m) (hserving : (run n).stages[id]? = some .serving)
    (hleft : (run m).stages[id]? ≠ some .serving) :
    ∃ k, n ≤ k ∧ Release (run k) (run (k + 1)) := by
  by_contra hnever
  refine hleft ?_
  -- without a return it is served at every later moment
  induction hnm with
  | refl => exact hserving
  | @step j hnj ih =>
    have hj : (run j).stages[id]? = some .serving := by
      by_contra hgone
      exact hgone (ih hgone)
    rcases step_of_run hrun j with hstep | hsame
    · exact (serving_next (hlive j).inv hstep hj).resolve_right fun hr => hnever ⟨j, hnj, hr⟩
    · rw [hsame]
      exact hj

/-- **Stopping.** Take any run of the server from its start in which neither the loop nor a worker
is held up forever, and a moment at which `stop` has been called. From then on at most one more
connection is accepted, and either some client is served forever, or `run` returns and every thread
that was ever started has ended and has been joined. -/
theorem server_stops (maxConnections : UInt64) {run : Nat → Pool} (hstart : run 0 = {})
    (hrun : Fair.Run (Own maxConnections) (fun s s' => Release s s' ∨ Stop s s') run) {k : Nat}
    (hstop : (run k).stopRequested = true) :
    (∀ n, k ≤ n → (run n).stages.length ≤ (run k).stages.length + 1) ∧
    ((∃ (id m : Nat), ∀ n, m ≤ n → (run n).stages[id]? = some .serving) ∨
      ∃ n, k ≤ n ∧ Ended (run n)) := by
  have hlive : ∀ n, Live maxConnections (run n) := by
    intro n
    induction n with
    | zero =>
      rw [hstart]
      exact .start maxConnections
    | succ n ih =>
      rcases step_of_run hrun n with hstep | hsame
      · exact ih.step hstep
      · rw [hsame]
        exact ih
  have hlater : ∀ n, k ≤ n → (run n).stopRequested = true ∧ (run n).stages.length +
      (run n).loop.mayAccept.toNat ≤ (run k).stages.length + (run k).loop.mayAccept.toNat :=
    fun n hn => accepted_le hstop (reaches_of_run hrun hn)
  constructor
  · intro n hn
    exact (Nat.le_add_right _ _).trans
      ((hlater n hn).2.trans (Nat.add_le_add_left (Bool.toNat_le _) _))
  · by_cases hforever : ∃ (id m : Nat), ∀ n, m ≤ n → (run n).stages[id]? = some .serving
    · exact .inl hforever
    right
    push Not at hforever
    have hgranted : ∀ n, (∃ s, Release (run n) s) → ∃ j, n ≤ j ∧ Release (run j) (run (j + 1)) := by
      rintro n ⟨_, id, hid, -⟩
      obtain ⟨m, hnm, hleft⟩ := hforever id n
      exact release_of_left hlive hrun hnm hid hleft
    obtain ⟨n, hstuck⟩ := Fair.halts_of_fair ((hrun.absorb hgranted).drop k)
      (P := fun s => Live maxConnections s ∧ s.stopRequested = true)
      (fun n => ⟨hlive _, (hlater _ (Nat.le_add_right k n)).1⟩) work
      (by
        intro s s' hs hstep
        obtain ⟨hstep, hne⟩ := own_or_release.mp hstep
        exact work_lt hs.1.inv hs.2 hstep hne)
      (by
        rintro s s' - rfl
        exact Nat.le_refl _)
    have hn := Nat.le_add_right k n
    refine ⟨k + n, hn, (moves_of_live (hlive _) (hlater _ hn).1).resolve_right ?_⟩
    rintro ⟨s', hmoves⟩
    exact hstuck s' (own_or_release.mpr hmoves)

/-- The stop flag is set while one client is served and the loop is about to accept a second. -/
theorem server_stops_accepting :
    ∃ (run : Nat → Pool) (k : Nat), (run k).loop = .accept ∧ (run k).stages = [.serving] ∧
      ((∃ (id m : Nat), ∀ n, m ≤ n → (run n).stages[id]? = some .serving) ∨
        ∃ n, k ≤ n ∧ Ended (run n)) := by
  have hown : ∀ {s s' : Pool}, Step 2 s s' → s'.loop ≠ s.loop →
      Own 2 s s' ∨ Release s s' ∨ Stop s s' := by
    intro s s' hstep hloop
    refine .inl ⟨moves_of_ne Pool.loop rfl hstep hloop, ?_⟩
    rintro ⟨id, hid, rfl⟩
    exact hloop rfl
  have hsteps : Relation.ReflTransGen (fun s s' => Own 2 s s' ∨ Release s s' ∨ Stop s s') {} {
      loop := .accept
      stopRequested := true
      connectionsServed := 1
      activeConnections := 1
      stages := [.serving]
      workers := [0] } := by
    refine .head (hown (.again rfl rfl) nofun) (.head (hown (.polled true rfl) nofun) ?_)
    refine .head (hown (.reapDone rfl (by decide)) nofun) (.head (hown (.accept rfl) nofun) ?_)
    refine .head (hown (.free rfl (by decide)) nofun) (.head (hown (.number rfl) nofun) ?_)
    refine .head (hown (.count rfl) nofun) (.head (hown (.create rfl) nofun) ?_)
    refine .head (hown (.push rfl) nofun) (.head (hown (.again rfl rfl) nofun) ?_)
    refine .head (hown (.polled true rfl) nofun) (.head (hown (.keep rfl rfl rfl) (by decide)) ?_)
    refine .head (hown (.reapDone rfl (by decide)) nofun) (.single (.inr (.inr ?_)))
    rfl
  obtain ⟨run, k, hstart, hk, hrun⟩ := Fair.exists_run hsteps
  refine ⟨run, k, by rw [hk], by rw [hk], (server_stops 2 hstart hrun (k := k) ?_).2⟩
  rw [hk]

end Pool

end CacheX
