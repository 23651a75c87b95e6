import Mathlib.Data.List.Perm.Basic
import Mathlib.Logic.Relation

/-!
# The worker threads of the server

`Server::run`, `spawn_worker`, `reap_finished_workers` and `join_all_workers` of `server.cpp`: the
accept loop and the worker threads, one atomic action at a time, interleaved in any way. What a
worker does between its start and the decrement of the counter is `Connection::serve`, which is left
open here.

* `Pool.step_change`: what a step does to the stages of the connections and to the counter.
* `Pool.step_held`: what a step does to the threads that are there to be joined.
* `Pool.Inv.step`: the invariant.
* `Pool.reap_exact`: which workers a call of `reap_finished_workers` removes.
* `Pool.accounting`: the counter, the limit, and that every worker is joined once.
-/

namespace CacheX

/-! ## The steps -/

/-- Where an accepted connection is. -/
inductive WorkerStage
  /-- The accept loop holds its socket. -/
  | accepted
  /-- It is told that the limit is reached. -/
  | refused
  /-- It is counted and has no thread yet. -/
  | counted
  /-- Its thread could not be created. -/
  | failed
  /-- Neither counted nor started. -/
  | dropped
  /-- Its thread runs `serve`. -/
  | serving
  /-- Not counted any more. -/
  | released
  /-- The flag is set. -/
  | finished
  /-- The thread has ended. -/
  | exited
deriving DecidableEq, Repr

namespace WorkerStage

/-- The increment of `active_connections_` for it has run, and the decrement has not. -/
def pending : WorkerStage → Bool
  | counted => true
  | failed => true
  | serving => true
  | _ => false

/-- Has a thread, or had one. -/
def started : WorkerStage → Bool
  | serving => true
  | released => true
  | finished => true
  | exited => true
  | _ => false

/-- What the `finished` flag of the worker says. -/
def flagged : WorkerStage → Bool
  | finished => true
  | exited => true
  | _ => false

/-- The ways of a connection. -/
inductive Moves : WorkerStage → WorkerStage → Prop
  | refuse : Moves accepted refused
  | count : Moves accepted counted
  | create : Moves counted serving
  | fail : Moves counted failed
  | drop : Moves failed dropped
  | release : Moves serving released
  | finish : Moves released finished
  | exit : Moves finished exited

end WorkerStage

/-- Where the accept loop is. In `reap` and `join`, `i` is the index in `workers_`, and `ready` is
what `poll` returned. -/
inductive Loop
  /-- `while (!stop_requested_.load())` -/
  | test
  | poll
  | reap (i : Nat) (ready : Bool)
  | join (i : Nat) (ready : Bool)
  | accept
  /-- The comparison with `max_connections`. -/
  | check (id : Nat)
  | refuse (id : Nat)
  /-- `connections_served_.fetch_add(1)` -/
  | number (id : Nat)
  /-- `active_connections_.fetch_add(1)` -/
  | count (id : Nat)
  /-- The construction of the thread. -/
  | create (id : Nat)
  /-- The `catch` block. -/
  | undo (id : Nat)
  | push (id : Nat)
  /-- Before the swap in `join_all_workers`. -/
  | leave
  | joinAll
  | returned
deriving DecidableEq, Repr

namespace Loop

/-- The connection whose socket the loop holds, with its stage. -/
def client : Loop → Option (Nat × WorkerStage)
  | check id => some (id, .accepted)
  | refuse id => some (id, .refused)
  | number id => some (id, .accepted)
  | count id => some (id, .accepted)
  | create id => some (id, .counted)
  | undo id => some (id, .failed)
  | _ => none

/-- The worker that has been started and not yet pushed. -/
def pushing : Loop → List Nat
  | push id => [id]
  | _ => []

/-- The limit has been checked and the counter not yet incremented. -/
def admitting : Loop → Bool
  | number _ => true
  | count _ => true
  | _ => false

/-- Inside `reap_finished_workers`. -/
def reaping : Loop → Bool
  | reap _ _ => true
  | join _ _ => true
  | _ => false

end Loop

/-- The accept loop, the stop flag and the counters, the connections accepted so far in order, the
workers in `workers_` and in the local vector of `join_all_workers`, and the workers that have been
joined, in order. -/
structure Pool where
  loop : Loop := .test
  stopRequested : Bool := false
  connectionsServed : UInt64 := 0
  activeConnections : UInt64 := 0
  stages : List WorkerStage := []
  workers : List Nat := []
  remaining : List Nat := []
  joined : List Nat := []
deriving DecidableEq, Repr

namespace Pool

def flagged (s : Pool) (id : Nat) : Bool := s.stages[id]?.any WorkerStage.flagged

def started (s : Pool) (id : Nat) : Bool := s.stages[id]?.any WorkerStage.started

/-- One step of the accept loop, of a worker thread, or of whoever calls `stop`. A `join` waits
until the thread has ended. -/
inductive Step (maxConnections : UInt64) (s : Pool) : Pool → Prop
  | stop : Step maxConnections s { s with stopRequested := true }
  | again : s.loop = .test → s.stopRequested = false →
    Step maxConnections s { s with loop := .poll }
  | over : s.loop = .test → s.stopRequested = true →
    Step maxConnections s { s with loop := .leave }
  | interrupted : s.loop = .poll → Step maxConnections s { s with loop := .test }
  | pollFailed : s.loop = .poll → Step maxConnections s { s with loop := .leave }
  | polled (ready : Bool) : s.loop = .poll →
    Step maxConnections s { s with loop := .reap 0 ready }
  | keep {i id : Nat} {ready : Bool} : s.loop = .reap i ready → s.workers[i]? = some id →
    s.flagged id = false → Step maxConnections s { s with loop := .reap (i + 1) ready }
  | found {i id : Nat} {ready : Bool} : s.loop = .reap i ready → s.workers[i]? = some id →
    s.flagged id = true → Step maxConnections s { s with loop := .join i ready }
  | reaped {i id : Nat} {ready : Bool} : s.loop = .join i ready → s.workers[i]? = some id →
    s.stages[id]? = some .exited →
    Step maxConnections s { s with
      loop := .reap i ready
      workers := s.workers.eraseIdx i
      joined := s.joined ++ [id] }
  | reapDone {i : Nat} {ready : Bool} : s.loop = .reap i ready → s.workers.length ≤ i →
    Step maxConnections s { s with loop := if ready then .accept else .test }
  | vanished : s.loop = .accept → Step maxConnections s { s with loop := .test }
  | accept : s.loop = .accept →
    Step maxConnections s { s with
      loop := .check s.stages.length
      stages := s.stages ++ [.accepted] }
  | full {id : Nat} : s.loop = .check id → maxConnections ≤ s.activeConnections →
    Step maxConnections s { s with loop := .refuse id, stages := s.stages.set id .refused }
  | free {id : Nat} : s.loop = .check id → s.activeConnections < maxConnections →
    Step maxConnections s { s with loop := .number id }
  | refused {id : Nat} : s.loop = .refuse id → Step maxConnections s { s with loop := .test }
  | number {id : Nat} : s.loop = .number id →
    Step maxConnections s { s with
      loop := .count id
      connectionsServed := s.connectionsServed + 1 }
  | count {id : Nat} : s.loop = .count id →
    Step maxConnections s { s with
      loop := .create id
      activeConnections := s.activeConnections + 1
      stages := s.stages.set id .counted }
  | create {id : Nat} : s.loop = .create id →
    Step maxConnections s { s with loop := .push id, stages := s.stages.set id .serving }
  | createFailed {id : Nat} : s.loop = .create id →
    Step maxConnections s { s with loop := .undo id, stages := s.stages.set id .failed }
  | undo {id : Nat} : s.loop = .undo id →
    Step maxConnections s { s with
      loop := .test
      activeConnections := s.activeConnections - 1
      stages := s.stages.set id .dropped }
  | push {id : Nat} : s.loop = .push id →
    Step maxConnections s { s with loop := .test, workers := s.workers ++ [id] }
  | swap : s.loop = .leave →
    Step maxConnections s { s with loop := .joinAll, remaining := s.workers, workers := [] }
  | notJoinable {id : Nat} {rest : List Nat} : s.loop = .joinAll → s.remaining = id :: rest →
    id ∈ s.joined → Step maxConnections s { s with remaining := rest }
  | join {id : Nat} {rest : List Nat} : s.loop = .joinAll → s.remaining = id :: rest →
    id ∉ s.joined → s.stages[id]? = some .exited →
    Step maxConnections s { s with remaining := rest, joined := s.joined ++ [id] }
  | done : s.loop = .joinAll → s.remaining = [] →
    Step maxConnections s { s with loop := .returned }
  | release {id : Nat} : s.stages[id]? = some .serving →
    Step maxConnections s { s with
      activeConnections := s.activeConnections - 1
      stages := s.stages.set id .released }
  | finish {id : Nat} : s.stages[id]? = some .released →
    Step maxConnections s { s with stages := s.stages.set id .finished }
  | exit {id : Nat} : s.stages[id]? = some .finished →
    Step maxConnections s { s with stages := s.stages.set id .exited }

/-- Any number of steps. -/
def Reaches (maxConnections : UInt64) : Pool → Pool → Prop :=
  Relation.ReflTransGen (Step maxConnections)

/-- The threads that have been joined or are there to be joined. -/
def held (s : Pool) : List Nat := s.joined ++ (s.workers ++ (s.remaining ++ s.loop.pushing))

/-! ## The invariant -/

/-- What holds in every state. -/
structure Inv (maxConnections : UInt64) (s : Pool) : Prop where
  client : ∀ id stage, s.loop.client = some (id, stage) → s.stages[id]? = some stage
  count : s.activeConnections.toNat = s.stages.countP WorkerStage.pending
  limit : s.activeConnections ≤ maxConnections
  room : s.loop.admitting = true → s.activeConnections < maxConnections
  nodup : s.held.Nodup
  held : ∀ id, id ∈ s.held ↔ s.started id = true
  joined : ∀ id ∈ s.joined, s.stages[id]? = some .exited
  remaining : s.loop ≠ .joinAll → s.remaining = []
  workers : s.loop = .joinAll ∨ s.loop = .returned → s.workers = []

/-- What a step does to the stages of the connections, and to the counter. -/
inductive Change (maxConnections : UInt64) (s s' : Pool) : Prop
  | same (hstages : s'.stages = s.stages) (hactive : s'.activeConnections = s.activeConnections)
  | arrived (hstages : s'.stages = s.stages ++ [.accepted])
    (hactive : s'.activeConnections = s.activeConnections)
  | counted {id : Nat} (hid : s.stages[id]? = some .accepted)
    (hstages : s'.stages = s.stages.set id .counted) (hroom : s.activeConnections < maxConnections)
    (hactive : s'.activeConnections = s.activeConnections + 1)
  | uncounted {id : Nat} {a b : WorkerStage} (hid : s.stages[id]? = some a)
    (hstages : s'.stages = s.stages.set id b) (hmoves : a.Moves b) (ha : a.pending = true)
    (hb : b.pending = false) (hactive : s'.activeConnections = s.activeConnections - 1)
  | moved {id : Nat} {a b : WorkerStage} (hid : s.stages[id]? = some a)
    (hstages : s'.stages = s.stages.set id b) (hmoves : a.Moves b)
    (hpending : b.pending = a.pending) (hactive : s'.activeConnections = s.activeConnections)

variable {maxConnections : UInt64} {s s' : Pool}

theorem Inv.client_at (h : Inv maxConnections s) {loop : Loop} (hl : s.loop = loop) {id : Nat}
    {stage : WorkerStage} (hc : loop.client = some (id, stage)) : s.stages[id]? = some stage :=
  h.client id stage (hl ▸ hc)

theorem step_change (h : Inv maxConnections s) (hstep : Step maxConnections s s') :
    Change maxConnections s s' := by
  cases hstep with
  | accept => exact .arrived rfl rfl
  | full hl => exact .moved (h.client_at hl rfl) rfl .refuse rfl rfl
  | count hl => exact .counted (h.client_at hl rfl) rfl (h.room (by rw [hl]; rfl)) rfl
  | create hl => exact .moved (h.client_at hl rfl) rfl .create rfl rfl
  | createFailed hl => exact .moved (h.client_at hl rfl) rfl .fail rfl rfl
  | undo hl => exact .uncounted (h.client_at hl rfl) rfl .drop rfl rfl rfl
  | release hid => exact .uncounted hid rfl .release rfl rfl rfl
  | finish hid => exact .moved hid rfl .finish rfl rfl
  | exit hid => exact .moved hid rfl .exit rfl rfl
  | _ => exact .same rfl rfl

/-! ### Stages and the counter -/

theorem countP_move {l : List WorkerStage} {id : Nat} {a : WorkerStage} (h : l[id]? = some a)
    (b : WorkerStage) :
    (l.set id b).countP WorkerStage.pending + a.pending.toNat
      = l.countP WorkerStage.pending + b.pending.toNat := by
  obtain ⟨hlt, rfl⟩ := List.getElem?_eq_some_iff.mp h
  rw [List.countP_set hlt]
  cases ha : l[id].pending with
  | false => cases b.pending <;> simp
  | true =>
    have hpos : 0 < l.countP WorkerStage.pending :=
      List.countP_pos_iff.mpr ⟨l[id], List.getElem_mem hlt, ha⟩
    cases b.pending <;> simp <;> omega

/-- A counted connection keeps the counter above zero. -/
theorem Inv.active_pos (h : Inv maxConnections s) {id : Nat} {a : WorkerStage}
    (hid : s.stages[id]? = some a) (ha : a.pending = true) : 0 < s.activeConnections.toNat := by
  rw [h.count]
  exact List.countP_pos_iff.mpr ⟨a, List.mem_of_getElem? hid, ha⟩

theorem Inv.toNat_sub_one (h : Inv maxConnections s) {id : Nat} {a : WorkerStage}
    (hid : s.stages[id]? = some a) (ha : a.pending = true) :
    (s.activeConnections - 1).toNat = s.activeConnections.toNat - 1 :=
  UInt64.toNat_sub_of_le _ _ (UInt64.le_iff_toNat_le.mpr (h.active_pos hid ha))

theorem Change.count (hchange : Change maxConnections s s') (h : Inv maxConnections s) :
    s'.activeConnections.toNat = s'.stages.countP WorkerStage.pending ∧
      s'.activeConnections ≤ maxConnections := by
  have hcount := h.count
  have hlimit := UInt64.le_iff_toNat_le.mp h.limit
  rw [UInt64.le_iff_toNat_le]
  cases hchange with
  | same hstages hactive =>
    rw [hstages, hactive]
    exact ⟨hcount, hlimit⟩
  | arrived hstages hactive =>
    rw [hstages, hactive, List.countP_append]
    exact ⟨hcount, hlimit⟩
  | counted hid hstages hroom hactive =>
    have hmove := countP_move hid .counted
    have hlt := UInt64.lt_iff_toNat_lt.mp hroom
    have hmax := maxConnections.toNat_lt
    have hadd : (s.activeConnections + 1).toNat = s.activeConnections.toNat + 1 := by
      rw [UInt64.toNat_add, UInt64.toNat_one, Nat.mod_eq_of_lt (by omega)]
    rw [hstages, hactive, hadd]
    simp only [WorkerStage.pending, Bool.toNat_false, Bool.toNat_true] at hmove
    omega
  | @uncounted id a b hid hstages hmoves ha hb hactive =>
    have hmove := countP_move hid b
    have hpos := h.active_pos hid ha
    rw [hstages, hactive, h.toNat_sub_one hid ha]
    rw [ha, hb] at hmove
    simp only [Bool.toNat_false, Bool.toNat_true] at hmove
    omega
  | @moved id a b hid hstages hmoves hpending hactive =>
    have hmove := countP_move hid b
    rw [hstages, hactive]
    rw [hpending] at hmove
    omega

theorem Change.stages (hchange : Change maxConnections s s') :
    s'.stages = s.stages ∨ s'.stages = s.stages ++ [.accepted] ∨
      ∃ id a b, s.stages[id]? = some a ∧ s'.stages = s.stages.set id b ∧ a.Moves b := by
  cases hchange with
  | same hstages => exact Or.inl hstages
  | arrived hstages => exact Or.inr (Or.inl hstages)
  | counted hid hstages => exact Or.inr (Or.inr ⟨_, _, _, hid, hstages, .count⟩)
  | uncounted hid hstages hmoves => exact Or.inr (Or.inr ⟨_, _, _, hid, hstages, hmoves⟩)
  | moved hid hstages hmoves => exact Or.inr (Or.inr ⟨_, _, _, hid, hstages, hmoves⟩)

/-- A connection before and after a step: as it was, or one move further. -/
theorem Change.stage_next (hchange : Change maxConnections s s') {id : Nat} {a : WorkerStage}
    (ha : s.stages[id]? = some a) : ∃ b, s'.stages[id]? = some b ∧ (b = a ∨ a.Moves b) := by
  have hlt := (List.getElem?_eq_some_iff.mp ha).1
  rcases hchange.stages with hstages | hstages | ⟨j, c, d, hj, hstages, hmoves⟩
  · exact ⟨a, by rw [hstages, ha], Or.inl rfl⟩
  · exact ⟨a, by rw [hstages, List.getElem?_append_left hlt, ha], Or.inl rfl⟩
  · rw [hstages, List.getElem?_set]
    split
    · next heq =>
      subst heq
      cases hj.symm.trans ha
      exact ⟨d, if_pos hlt, Or.inr hmoves⟩
    · exact ⟨a, ha, Or.inl rfl⟩

theorem any_of_moves {p : WorkerStage → Bool} (hp : ∀ a b, a.Moves b → p a = true → p b = true)
    (hchange : Change maxConnections s s') {id : Nat} (h : s.stages[id]?.any p = true) :
    s'.stages[id]?.any p = true := by
  obtain ⟨a, ha, hpa⟩ := (Option.any_eq_true p _).mp h
  obtain ⟨b, hb, hab⟩ := hchange.stage_next ha
  rw [hb]
  rcases hab with rfl | hmoves
  · exact hpa
  · exact hp a b hmoves hpa

theorem started_next (hchange : Change maxConnections s s') {id : Nat} (h : s.started id = true) :
    s'.started id = true :=
  any_of_moves (fun a b hm ha => by cases hm <;> first | rfl | cases ha) hchange h

theorem flagged_next (hchange : Change maxConnections s s') {id : Nat} (h : s.flagged id = true) :
    s'.flagged id = true :=
  any_of_moves (fun a b hm ha => by cases hm <;> first | rfl | cases ha) hchange h

/-! ### Threads -/

theorem any_set {l : List WorkerStage} {id : Nat} {a : WorkerStage} (h : l[id]? = some a)
    (b : WorkerStage) (p : WorkerStage → Bool) (j : Nat) :
    (l.set id b)[j]?.any p = if id = j then p b else l[j]?.any p := by
  rw [List.getElem?_set, if_pos (List.getElem?_eq_some_iff.mp h).1]
  split <;> rfl

/-- A move that starts no thread. -/
theorem any_set_same {l : List WorkerStage} {id : Nat} {a b : WorkerStage} (h : l[id]? = some a)
    {p : WorkerStage → Bool} (hp : p b = p a) (j : Nat) : (l.set id b)[j]?.any p = l[j]?.any p := by
  rw [any_set h]
  split
  · next heq =>
    subst heq
    rw [h, hp]
    rfl
  · rfl

theorem any_snoc (l : List WorkerStage) {a : WorkerStage} {p : WorkerStage → Bool}
    (ha : p a = false) (j : Nat) : (l ++ [a])[j]?.any p = l[j]?.any p := by
  rw [List.getElem?_append]
  split
  · rfl
  · next hlt =>
    rw [List.getElem?_eq_none (Nat.not_lt.mp hlt), List.getElem?_singleton]
    split
    · exact ha
    · rfl

/-- Joining takes a thread from where it waits. -/
theorem perm_join {joined l l' rest : List Nat} {id : Nat} (h : (id :: l').Perm l) :
    ((joined ++ [id]) ++ (l' ++ rest)).Perm (joined ++ (l ++ rest)) := by
  rw [List.append_assoc]
  exact (h.append_right rest).append_left joined

theorem perm_eraseIdx {l : List Nat} {i id : Nat} (h : l[i]? = some id) :
    (id :: l.eraseIdx i).Perm l := by
  obtain ⟨hlt, rfl⟩ := List.getElem?_eq_some_iff.mp h
  exact List.getElem_cons_eraseIdx_perm hlt

/-- The threads stay where they are. -/
theorem held_congr {t : Pool} (hjoined : t.joined = s.joined) (hworkers : t.workers = s.workers)
    (hremaining : t.remaining = s.remaining) (hpushing : t.loop.pushing = s.loop.pushing) :
    t.held.Perm s.held := by
  rw [held, held, hjoined, hworkers, hremaining, hpushing]

/-- A step keeps the threads there are, or starts one. -/
theorem step_held (h : Inv maxConnections s) (hstep : Step maxConnections s s') :
    (s'.held.Perm s.held ∧ ∀ id, s'.started id = s.started id) ∨
    ∃ id, s'.held = s.held ++ [id] ∧ s.started id = false ∧
      ∀ j, s'.started j = true ↔ s.started j = true ∨ j = id := by
  cases hstep with
  | @create id hl =>
    have hid : s.stages[id]? = some .counted := h.client_at hl rfl
    have hnot : s.started id = false := by
      rw [started, hid]
      rfl
    refine Or.inr ⟨id, ?_, hnot, fun j => ?_⟩
    · simp only [held, hl, Loop.pushing, List.append_nil, List.append_assoc]
    · show (s.stages.set id .serving)[j]?.any _ = true ↔ s.stages[j]?.any _ = true ∨ _
      rw [any_set hid]
      split
      · next heq => exact iff_of_true rfl (Or.inr heq.symm)
      · next hne => exact ⟨Or.inl, fun hj => hj.resolve_right fun heq => hne heq.symm⟩
  | push hl =>
    refine Or.inl ⟨?_, fun _ => rfl⟩
    have hrem : s.remaining = [] := h.remaining (by rw [hl]; exact Loop.noConfusion)
    simp only [held, hl, hrem, Loop.pushing, List.nil_append, List.append_nil]
    exact List.Perm.refl _
  | reaped hl hi hid =>
    refine Or.inl ⟨?_, fun _ => rfl⟩
    simp only [held, hl, Loop.pushing]
    exact perm_join (perm_eraseIdx hi)
  | swap hl =>
    refine Or.inl ⟨?_, fun _ => rfl⟩
    have hrem : s.remaining = [] := h.remaining (by rw [hl]; exact Loop.noConfusion)
    simp only [held, hl, hrem, Loop.pushing, List.nil_append, List.append_nil]
    exact List.Perm.refl _
  | join hl hrem hnot hid =>
    refine Or.inl ⟨?_, fun _ => rfl⟩
    have hworkers := h.workers (Or.inl hl)
    simp only [held, hl, hrem, hworkers, Loop.pushing, List.nil_append]
    exact perm_join (List.Perm.refl _)
  | @notJoinable id rest hl hrem hmem =>
    -- a thread that waits has not been joined
    have hdis := List.nodup_append.mp h.nodup
    refine absurd rfl (hdis.2.2 id hmem id ?_)
    rw [hrem]
    exact List.mem_append_right _ (List.mem_append_left _ List.mem_cons_self)
  | stop => exact Or.inl ⟨held_congr rfl rfl rfl rfl, fun _ => rfl⟩
  | polled ready hl => exact Or.inl ⟨held_congr rfl rfl rfl (by rw [hl]; rfl), fun _ => rfl⟩
  | @reapDone i ready hl =>
    refine Or.inl ⟨held_congr rfl rfl rfl ?_, fun _ => rfl⟩
    rw [hl]
    cases ready <;> rfl
  | accept hl => exact Or.inl ⟨held_congr rfl rfl rfl (by rw [hl]; rfl), any_snoc _ rfl⟩
  | full hl | count hl | createFailed hl | undo hl =>
    have hid := h.client_at hl rfl
    exact Or.inl ⟨held_congr rfl rfl rfl (by rw [hl]; rfl), any_set_same hid rfl⟩
  | release hid | finish hid | exit hid =>
    exact Or.inl ⟨held_congr rfl rfl rfl rfl, any_set_same hid rfl⟩
  | _ hl => exact Or.inl ⟨held_congr rfl rfl rfl (by rw [hl]; rfl), fun _ => rfl⟩

theorem Inv.step_nodup (h : Inv maxConnections s) (hstep : Step maxConnections s s') :
    s'.held.Nodup ∧ ∀ id, id ∈ s'.held ↔ s'.started id = true := by
  rcases step_held h hstep with ⟨hperm, hsame⟩ | ⟨id, hheld, hnot, hstarted⟩
  · exact ⟨hperm.nodup_iff.mpr h.nodup, fun id => by rw [hperm.mem_iff, h.held, hsame]⟩
  · rw [hheld]
    refine ⟨List.nodup_append.mpr ⟨h.nodup, List.pairwise_singleton _ id, ?_⟩, fun j => ?_⟩
    · rintro a ha b hb rfl
      rw [List.mem_singleton.mp hb, h.held, hnot] at ha
      cases ha
    · rw [List.mem_append, h.held, List.mem_singleton, hstarted]

/-- Which thread is joined in a step, if one is. -/
theorem step_joined (hstep : Step maxConnections s s') :
    s'.joined = s.joined ∨ ∃ id, s'.joined = s.joined ++ [id] ∧ s.stages[id]? = some .exited ∧
      s'.stages = s.stages := by
  cases hstep with
  | reaped hl hi hid => exact Or.inr ⟨_, rfl, hid, rfl⟩
  | join hl hrem hnot hid => exact Or.inr ⟨_, rfl, hid, rfl⟩
  | _ => exact Or.inl rfl

theorem exited_next (hchange : Change maxConnections s s') {id : Nat}
    (h : s.stages[id]? = some .exited) : s'.stages[id]? = some .exited := by
  obtain ⟨b, hb, rfl | hmoves⟩ := hchange.stage_next h
  · exact hb
  · cases hmoves

theorem refused_next (hchange : Change maxConnections s s') {id : Nat}
    (h : s.stages[id]? = some .refused) : s'.stages[id]? = some .refused := by
  obtain ⟨b, hb, rfl | hmoves⟩ := hchange.stage_next h
  · exact hb
  · cases hmoves

theorem Inv.step_joined (h : Inv maxConnections s) (hstep : Step maxConnections s s') :
    ∀ id ∈ s'.joined, s'.stages[id]? = some .exited := by
  have hchange := step_change h hstep
  intro id hid
  rcases Pool.step_joined hstep with hsame | ⟨j, hjoin, hj, hstages⟩
  · exact exited_next hchange (h.joined id (hsame ▸ hid))
  · rw [hjoin] at hid
    rcases List.mem_append.mp hid with hid | hid
    · exact exited_next hchange (h.joined id hid)
    · rw [List.mem_singleton.mp hid, hstages]
      exact hj

/-! ### The loop -/

theorem client_not_started {loop : Loop} {id : Nat} {stage : WorkerStage}
    (h : loop.client = some (id, stage)) : stage.started = false := by
  cases loop <;> cases h <;> rfl

/-- A thread is not the connection that the loop holds. -/
theorem Inv.client_set (h : Inv maxConnections s) {j : Nat} {a b : WorkerStage}
    (hj : s.stages[j]? = some a) (ha : a.started = true) {id : Nat} {stage : WorkerStage}
    (hc : s.loop.client = some (id, stage)) : (s.stages.set j b)[id]? = some stage := by
  have hid := h.client id stage hc
  have hne : j ≠ id := by
    rintro rfl
    cases hj.symm.trans hid
    cases ha.symm.trans (client_not_started hc)
  rwa [List.getElem?_set_ne hne]

theorem getElem?_set_of_some {l : List WorkerStage} {id : Nat} {a : WorkerStage}
    (h : l[id]? = some a) (b : WorkerStage) : (l.set id b)[id]? = some b :=
  List.getElem?_set_self (List.getElem?_eq_some_iff.mp h).1

theorem Inv.step_client (h : Inv maxConnections s) (hstep : Step maxConnections s s') :
    ∀ id stage, s'.loop.client = some (id, stage) → s'.stages[id]? = some stage := by
  intro id stage hc
  cases hstep with
  | stop => exact h.client id stage hc
  | accept =>
    cases hc
    exact List.getElem?_concat_length
  | free hl | number hl =>
    cases hc
    exact h.client_at hl rfl
  | full hl | count hl | createFailed hl =>
    cases hc
    exact getElem?_set_of_some (h.client_at hl rfl) _
  | @reapDone i ready => cases ready <;> cases hc
  | release hj | finish hj | exit hj => exact h.client_set hj rfl hc
  | notJoinable hl | join hl =>
    rw [hl] at hc
    cases hc
  | _ => cases hc

/-- The counter of another thread only goes down. -/
theorem Inv.sub_lt (h : Inv maxConnections s) {id : Nat} {a : WorkerStage}
    (hid : s.stages[id]? = some a) (ha : a.pending = true)
    (hlt : s.activeConnections < maxConnections) : s.activeConnections - 1 < maxConnections := by
  rw [UInt64.lt_iff_toNat_lt] at hlt ⊢
  rw [h.toNat_sub_one hid ha]
  omega

theorem Inv.step_room (h : Inv maxConnections s) (hstep : Step maxConnections s s') :
    s'.loop.admitting = true → s'.activeConnections < maxConnections := by
  intro hadm
  cases hstep with
  | stop => exact h.room hadm
  | free hl hlt => exact hlt
  | number hl => exact h.room (by rw [hl]; rfl)
  | @reapDone i ready => cases ready <;> cases hadm
  | release hid => exact h.sub_lt hid rfl (h.room hadm)
  | finish | exit => exact h.room hadm
  | notJoinable hl | join hl =>
    rw [hl] at hadm
    cases hadm
  | _ => cases hadm

theorem Inv.step_vectors (h : Inv maxConnections s) (hstep : Step maxConnections s s') :
    (s'.loop ≠ .joinAll → s'.remaining = []) ∧
      (s'.loop = .joinAll ∨ s'.loop = .returned → s'.workers = []) := by
  have hrem : ∀ {loop}, s.loop = loop → loop ≠ .joinAll → s.remaining = [] := fun hl hne =>
    h.remaining (hl ▸ hne)
  cases hstep with
  | stop | release | finish | exit => exact ⟨h.remaining, h.workers⟩
  | swap => exact ⟨fun hne => absurd rfl hne, fun _ => rfl⟩
  | notJoinable hl | join hl =>
    exact ⟨fun hne => absurd hl hne, fun _ => h.workers (Or.inl hl)⟩
  | done hl hnil => exact ⟨fun _ => hnil, fun _ => h.workers (Or.inl hl)⟩
  | polled ready hl => exact ⟨fun _ => hrem hl Loop.noConfusion, fun hp => by simp at hp⟩
  | @reapDone i ready hl =>
    exact ⟨fun _ => hrem hl Loop.noConfusion, fun hp => by cases ready <;> simp at hp⟩
  | _ hl => exact ⟨fun _ => hrem hl Loop.noConfusion, fun hp => by simp at hp⟩

theorem Inv.step (h : Inv maxConnections s) (hstep : Step maxConnections s s') :
    Inv maxConnections s' where
  client := h.step_client hstep
  count := ((step_change h hstep).count h).1
  limit := ((step_change h hstep).count h).2
  room := h.step_room hstep
  nodup := (h.step_nodup hstep).1
  held := (h.step_nodup hstep).2
  joined := h.step_joined hstep
  remaining := (h.step_vectors hstep).1
  workers := (h.step_vectors hstep).2

theorem Inv.start (maxConnections : UInt64) : Inv maxConnections {} where
  client _ _ h := nomatch h
  count := rfl
  limit := UInt64.le_iff_toNat_le.mpr (Nat.zero_le _)
  room h := nomatch h
  nodup := List.nodup_nil
  held _ := iff_of_false List.not_mem_nil Bool.false_ne_true
  joined _ h := nomatch h
  remaining _ := rfl
  workers _ := rfl

theorem Inv.reaches (h : Inv maxConnections s) (hreach : Reaches maxConnections s s') :
    Inv maxConnections s' := by
  induction hreach with
  | refl => exact h
  | tail _ hstep ih => exact ih.step hstep

/-- What a step keeps of a connection is kept by any number of steps. -/
theorem reaches_keeps {P : Pool → Prop}
    (hkeeps : ∀ {s s' : Pool}, Change maxConnections s s' → P s → P s')
    (h : Inv maxConnections s) (hreach : Reaches maxConnections s s') (hs : P s) : P s' := by
  induction hreach with
  | refl => exact hs
  | tail hsteps hstep ih => exact hkeeps (step_change (h.reaches hsteps) hstep) ih

/-! ## Reaping -/

/-- Steps, of the loop or of a worker, while `reap_finished_workers` is running. -/
def Reaping (maxConnections : UInt64) : Pool → Pool → Prop :=
  Relation.ReflTransGen fun s s' => Step maxConnections s s' ∧ s'.loop.reaping = true

/-- Where a call of `reap_finished_workers` is that was entered in `s₀`: it has looked at the first
workers of that time, has kept some of them and joined the others. -/
structure Reaped (s₀ s : Pool) : Prop where
  parts : ∃ looked rest kept i ready, s₀.workers = looked ++ rest ∧ s.workers = kept ++ rest ∧
    kept.Sublist looked ∧ kept.length = i ∧ (s.loop = .reap i ready ∨ s.loop = .join i ready) ∧
    (∀ id ∈ kept, s₀.flagged id = false) ∧ ∀ id ∈ looked, id ∈ kept ∨ id ∈ s.joined

theorem Reaped.start {s₀ : Pool} {ready : Bool} (h : s₀.loop = .reap 0 ready) : Reaped s₀ s₀ :=
  ⟨[], s₀.workers, [], 0, ready, rfl, rfl, List.Sublist.refl _, rfl, Or.inl h,
    fun _ hid => absurd hid List.not_mem_nil, fun _ hid => absurd hid List.not_mem_nil⟩

/-- The worker at the index is the first one that has not been looked at. -/
theorem rest_of_getElem? {kept rest workers : List Nat} {i id : Nat}
    (hworkers : workers = kept ++ rest) (hlen : kept.length = i) (hi : workers[i]? = some id) :
    ∃ later, rest = id :: later := by
  rw [hworkers, ← hlen, List.getElem?_append_right (Nat.le_refl _), Nat.sub_self] at hi
  cases rest with
  | nil => cases hi
  | cons x later =>
    cases hi
    exact ⟨later, rfl⟩

theorem Reaped.step {s₀ : Pool} (h₀ : ∀ id, s₀.flagged id = true → s.flagged id = true)
    (h : Reaped s₀ s) (hstep : Step maxConnections s s') (hreaping : s'.loop.reaping = true) :
    Reaped s₀ s' := by
  obtain ⟨looked, rest, kept, i, ready, hworkers₀, hworkers, hsub, hlen, hloop, hkept, hlooked⟩ :=
    h.parts
  have hsame : ∀ {t : Pool}, t.loop = s.loop → t.workers = s.workers → t.joined = s.joined →
      Reaped s₀ t := fun hl hw hj =>
    ⟨looked, rest, kept, i, ready, hworkers₀, hw.trans hworkers, hsub, hlen, hl ▸ hloop, hkept,
      hj ▸ hlooked⟩
  cases hstep with
  | @keep j id _ hl hi hflag =>
    have hij : j = i := by
      rcases hloop with h | h <;> cases hl.symm.trans h
      rfl
    subst hij
    obtain ⟨later, rfl⟩ := rest_of_getElem? hworkers hlen hi
    refine ⟨looked ++ [id], later, kept ++ [id], _, _, ?_, ?_, hsub.append (List.Sublist.refl _),
      ?_, Or.inl rfl, fun k hk => ?_, fun k hk => ?_⟩
    · rw [List.append_assoc, hworkers₀]
      rfl
    · rw [List.append_assoc]
      exact hworkers
    · rw [List.length_append, hlen]
      rfl
    · rcases List.mem_append.mp hk with hk | hk
      · exact hkept k hk
      · -- its flag is not set now, so it was not set before
        rw [List.mem_singleton.mp hk, ← Bool.not_eq_true]
        intro hset
        rw [h₀ id hset] at hflag
        cases hflag
    · rcases List.mem_append.mp hk with hk | hk
      · exact (hlooked k hk).imp (List.mem_append_left _) fun hk => hk
      · exact Or.inl (List.mem_append_right _ hk)
  | found hl =>
    rcases hloop with h | h
    · cases hl.symm.trans h
      exact ⟨looked, rest, kept, _, _, hworkers₀, hworkers, hsub, hlen, Or.inr rfl, hkept, hlooked⟩
    · cases hl.symm.trans h
  | @reaped j id _ hl hi =>
    have hij : j = i := by
      rcases hloop with h | h <;> cases hl.symm.trans h
      rfl
    subst hij
    obtain ⟨later, rfl⟩ := rest_of_getElem? hworkers hlen hi
    refine ⟨looked ++ [id], later, kept, _, _, ?_, ?_, hsub.trans (List.sublist_append_left _ _),
      hlen, Or.inl rfl, hkept, fun k hk => ?_⟩
    · rw [List.append_assoc, hworkers₀]
      rfl
    · show s.workers.eraseIdx j = _
      rw [hworkers, List.eraseIdx_append_of_length_le (Nat.le_of_eq hlen), hlen, Nat.sub_self]
      rfl
    · rcases List.mem_append.mp hk with hk | hk
      · exact (hlooked k hk).imp (fun hk => hk) (List.mem_append_left _)
      · exact Or.inr (List.mem_append_right _ hk)
  | stop | release | finish | exit => exact hsame rfl rfl rfl
  | polled _ hl | notJoinable hl | join hl => rcases hloop with h | h <;> cases hl.symm.trans h
  | @reapDone _ ready => cases ready <;> cases hreaping
  | _ => cases hreaping

/-- A call of `reap_finished_workers` that is done with its loop has kept the order, has removed
every worker that was finished when it was entered, and none that is not finished. -/
theorem reap_exact {s₀ : Pool} (h : Inv maxConnections s₀) {ready : Bool}
    (hentered : s₀.loop = .reap 0 ready) (hreaping : Reaping maxConnections s₀ s)
    {ready' : Bool} (hdone : s.loop = .reap s.workers.length ready') :
    s.workers.Sublist s₀.workers ∧ ∀ id ∈ s₀.workers,
      (s₀.flagged id = true → id ∉ s.workers) ∧
      (id ∉ s.workers → s.flagged id = true ∧ id ∈ s.joined) := by
  have hreaped : Reaches maxConnections s₀ s ∧ Reaped s₀ s := by
    clear hdone
    induction hreaping with
    | refl => exact ⟨.refl, .start hentered⟩
    | tail _ hstep ih =>
      refine ⟨ih.1.tail hstep.1, ih.2.step (fun id hid => ?_) hstep.1 hstep.2⟩
      exact reaches_keeps (P := fun s => s.flagged id = true) (fun hc => flagged_next hc) h ih.1 hid
  obtain ⟨hreach, ⟨looked, rest, kept, i, r, hworkers₀, hworkers, hsub, hlen, hloop, hkept,
    hlooked⟩⟩ := hreaped
  have hi : i = s.workers.length := by
    rcases hloop with h | h <;> cases hdone.symm.trans h
    rfl
  have hrest : rest = [] := by
    rw [hi, hworkers, List.length_append] at hlen
    exact List.length_eq_zero_iff.mp (by omega)
  rw [hrest, List.append_nil] at hworkers hworkers₀
  rw [hworkers, hworkers₀]
  refine ⟨hsub, fun id hid => ⟨fun hflag hmem => ?_, fun hnot => ?_⟩⟩
  · cases hflag.symm.trans (hkept id hmem)
  · have hjoined := (hlooked id hid).resolve_left hnot
    refine ⟨?_, hjoined⟩
    rw [flagged, (h.reaches hreach).joined id hjoined]
    rfl

/-! ## The accounts -/

theorem step_active (h : Inv maxConnections s) (hstep : Step maxConnections s s') :
    s'.activeConnections = s.activeConnections ∨
    s'.activeConnections.toNat = s.activeConnections.toNat + 1 ∨
    s'.activeConnections.toNat + 1 = s.activeConnections.toNat := by
  have hchange := step_change h hstep
  have hcount := (hchange.count h).1
  have hcount₀ := h.count
  cases hchange with
  | same _ hactive => exact Or.inl hactive
  | arrived _ hactive => exact Or.inl hactive
  | counted hid hstages =>
    have hmove := countP_move hid .counted
    rw [← hstages] at hmove
    simp only [WorkerStage.pending, Bool.toNat_false, Bool.toNat_true] at hmove
    omega
  | uncounted hid hstages _ ha _ hactive =>
    have hpos := h.active_pos hid ha
    rw [hactive, h.toNat_sub_one hid ha]
    omega
  | moved _ _ _ _ hactive => exact Or.inl hactive

theorem Inv.joined_of_returned (h : Inv maxConnections s) (hreturned : s.loop = .returned)
    {id : Nat} (hid : s.started id = true) : id ∈ s.joined := by
  have hmem := (h.held id).mpr hid
  have hremaining : s.remaining = [] := h.remaining (by rw [hreturned]; exact Loop.noConfusion)
  have hpushing : s.loop.pushing = [] := by rw [hreturned]; rfl
  rwa [Pool.held, h.workers (Or.inr hreturned), hremaining, hpushing, List.nil_append,
    List.nil_append, List.append_nil] at hmem

/-- **Worker accounting.** In every state that the accept loop and the workers reach: the counter is
the number of connections whose increment has run and whose decrement has not, is at most the limit,
and changes by one at a time without wrapping around; a connection that is refused stays so, and one
that has a thread is not refused later; no thread is joined twice, and none that has not ended; once
`run` has returned, every thread that was started has been joined; and a call of
`reap_finished_workers` removes the workers that are finished. -/
theorem accounting (maxConnections : UInt64) {s : Pool} (hreach : Reaches maxConnections {} s) :
    s.activeConnections.toNat = s.stages.countP WorkerStage.pending ∧
    s.activeConnections ≤ maxConnections ∧
    (∀ s', Step maxConnections s s' → s'.activeConnections = s.activeConnections ∨
      s'.activeConnections.toNat = s.activeConnections.toNat + 1 ∨
      s'.activeConnections.toNat + 1 = s.activeConnections.toNat) ∧
    (∀ s' id, Reaches maxConnections s s' →
      (s.stages[id]? = some .refused → s'.stages[id]? = some .refused) ∧
      (s.started id = true → s'.started id = true)) ∧
    s.joined.Nodup ∧ (∀ id ∈ s.joined, s.stages[id]? = some .exited) ∧
    (s.loop = .returned → ∀ id, s.started id = true → id ∈ s.joined) ∧
    ∀ ready s₁ ready₁, s.loop = .reap 0 ready → Reaping maxConnections s s₁ →
      s₁.loop = .reap s₁.workers.length ready₁ →
      s₁.workers.Sublist s.workers ∧ ∀ id ∈ s.workers,
        (s.flagged id = true → id ∉ s₁.workers) ∧
        (id ∉ s₁.workers → s₁.flagged id = true ∧ id ∈ s₁.joined) := by
  have h := (Inv.start maxConnections).reaches hreach
  refine ⟨h.count, h.limit, fun s' hstep => step_active h hstep, fun s' id hlater => ⟨?_, ?_⟩,
    (List.nodup_append.mp h.nodup).1, h.joined, fun hreturned id => h.joined_of_returned hreturned,
    fun ready s₁ ready₁ hentered hreaping hdone => reap_exact h hentered hreaping hdone⟩
  · exact reaches_keeps (P := fun s => s.stages[id]? = some .refused) (fun hc => refused_next hc) h
      hlater
  · exact reaches_keeps (P := fun s => s.started id = true) (fun hc => started_next hc) h hlater

/-- With a limit of one connection, the second client is refused while the first one is served. -/
theorem accounting_refused :
    ∃ s, Reaches 1 {} s ∧ s.stages = [.serving, .refused] ∧ s.activeConnections.toNat = 1 := by
  have hsteps : Reaches 1 {} {
      loop := .refuse 1
      connectionsServed := 1
      activeConnections := 1
      stages := [.serving, .refused]
      workers := [0] } := by
    refine .head (.again rfl rfl) (.head (.polled true rfl) (.head (.reapDone rfl (by decide)) ?_))
    refine .head (.accept rfl) (.head (.free rfl (by decide)) (.head (.number rfl) ?_))
    refine .head (.count rfl) (.head (.create rfl) (.head (.push rfl) ?_))
    refine .head (.again rfl rfl) (.head (.polled true rfl) (.head (.keep rfl rfl rfl) ?_))
    refine .head (.reapDone rfl (by decide)) (.head (.accept rfl) ?_)
    exact .single (.full rfl (by decide))
  exact ⟨_, hsteps, rfl, (accounting 1 hsteps).1⟩

end Pool

end CacheX
