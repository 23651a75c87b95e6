import CacheX.Command
import CacheX.View

/-!
# Clients in parallel

Any number of clients act on one cache. The mutex of a shard makes each call on a key one atomic
step. `LOAD` and `SAVE` are not atomic: a `LOAD` is one step per replayed record and a `SAVE` one
step per exported shard, and the steps of other clients come in between. A schedule is a list of
turns: a client, a clock reading and what the client does. A turn that does not apply in the state
the client is in leaves everything as it is.

`lastMutation k` is the last event of a run that wrote or deleted `k`. `Sound` is the invariant: the
shards are well formed, and an entry that is resident was put there by the last mutation of its
key. Main result: `no_stale_reads`.
-/

namespace CacheX

open Decimal (ascii)

/-- What a client is in the middle of. The records a `LOAD` has still to replay are listed in the
order of the replay. -/
inductive Client
  | idle
  | loading (rest : List Record) (elapsed : Millis) (result : LoadResult)
  | saving (next : Nat) (entries : List EntrySnapshot)

/-- What a client does in one turn. `startLoad` has the snapshot file as it is read. -/
inductive Action
  | command (command : Command)
  | startLoad (file : Option Bytes) (wall : Millis)
  | replayNext
  | finishLoad
  | startSave
  | exportShard
  | finishSave (wall : Millis) (outcome : SaveOutcome)

structure Turn where
  now : Time
  client : Nat
  action : Action

/-- What a turn did. -/
inductive Event
  | none
  | replied (command : Command) (reply : Bytes)
  | replayed (record : Record) (elapsed : Millis)
  | exported (shard : Nat)
  | finished (reply : Bytes)

structure System where
  cache : ShardedCache
  clients : Nat → Client

namespace System

/-- No client has done anything yet. -/
def new (sc : ShardedCache) : System := ⟨sc, fun _ => .idle⟩

def setClient (s : System) (i : Nat) (c : Client) : System :=
  { s with clients := fun j => if j = i then c else s.clients j }

/-- The first part of a `LOAD`: the parse, on which no other client has an influence. -/
def beginLoad (wall : Millis) : Except LoadError Parsed → Client × Event
  | .error e => (.idle, .finished (replyLoad { error := e.text }))
  | .ok p => (.loading p.records.reverse (elapsedMs wall p.savedAt) {}, .none)

/-- One turn. -/
def step (stdHash : Bytes → UInt64) (s : System) (t : Turn) : Option (System × Event) :=
  match t.action, s.clients t.client with
  | .command command, .idle =>
    if command.type = .save ∨ command.type = .load then some (s, .none)
    else
      (execute stdHash true ⟨fun _ => t.now, 0, .done⟩ ⟨s.cache, none⟩ command).map fun p =>
        ({ s with cache := p.1.cache }, .replied command p.2)
  | .startLoad none _, .idle => some (s, .finished (replyLoad { ok := true }))
  | .startLoad (some bytes) wall, .idle =>
    let started := beginLoad wall (parseSnapshot bytes)
    some (s.setClient t.client started.1, started.2)
  | .replayNext, .loading (record :: rest) elapsed result =>
    (replayRecord stdHash elapsed t.now record (s.cache, result)).map fun p =>
      ({ s with cache := p.1 }.setClient t.client (.loading rest elapsed p.2),
        .replayed record elapsed)
  | .finishLoad, .loading [] _ result =>
    some (s.setClient t.client .idle, .finished (replyLoad { result with ok := true }))
  | .startSave, .idle => some (s.setClient t.client (.saving 0 []), .none)
  | .exportShard, .saving j entries =>
    match s.cache.shards[j]? with
    | none => some (s, .none)
    | some c =>
      some (s.setClient t.client (.saving (j + 1) (entries ++ c.exportEntries t.now)), .exported j)
  | .finishSave wall outcome, .saving j entries =>
    if j < s.cache.shards.length then some (s, .none)
    else some (s.setClient t.client .idle,
      .finished (replySave (writeSnapshot outcome wall none entries).2))
  | _, _ => some (s, .none)

end System

/-! ## The history of a key -/

/-- The turns of a run with what they did, oldest first. -/
abbrev Run := List (Turn × Event)

/-- What a command writes to `k`: a binding, or `none` if it deletes `k`. -/
def Command.mutation (now : Time) (command : Command) (k : Bytes) : Option (Option Timed) :=
  if command.key = k then
    match command.type, command.ttl with
    | .set, none => some (some (command.value, none))
    | .set, some seconds =>
      if seconds ≤ 0 then some none
      else some (some (command.value, some (now + seconds * 1000 * nanosPerMilli)))
    | .delete, _ => some none
    | _, _ => none
  else none

/-- What a turn wrote to `k`. A replayed record that has run out writes nothing. -/
def mutation (k : Bytes) (x : Turn × Event) : Option (Option Timed) :=
  match x.2 with
  | .replied command _ => command.mutation x.1.now k
  | .replayed record elapsed =>
    if record.key = k then (restored elapsed x.1.now record).map fun e => some e.timed else none
  | _ => none

def lastMutation (k : Bytes) (run : Run) : Option (Option Timed) :=
  (run.filterMap (mutation k)).getLast?

/-- What a `GET` may reply after a run: the value of the last mutation of the key, if that was a
write whose deadline, if any, is still to come; or nil. -/
def GetOk (run : Run) (now : Time) (k reply : Bytes) : Prop :=
  (∃ v d, reply = replyValue v ∧ lastMutation k run = some (some (v, d)) ∧ ∀ t ∈ d, now < t) ∨
    reply = replyNil

open ShardedCache

variable {stdHash : Bytes → UInt64}

namespace ConcurrentLemmas

theorem lastMutation_snoc (k : Bytes) (run : Run) (x : Turn × Event) :
    lastMutation k (run ++ [x]) = (mutation k x).or (lastMutation k run) := by
  unfold lastMutation
  rw [List.filterMap_append]
  cases hm : mutation k x with
  | none => simp [hm]
  | some m => simp [hm]

/-- A command whose call stores an entry is the `SET` of this entry. -/
theorem set_of_stored {command : Command} {op : Op} (h : command.op = some op) {now : Time}
    {e : Entry} (he : stored (now, op) = some e) :
    command.type = .set ∧ e.key = command.key ∧ e.value = command.value ∧
      (command.ttl = none ∧ e.expiresAt = none ∨
        ∃ seconds, command.ttl = some seconds ∧ ¬ seconds ≤ 0 ∧
          e.expiresAt = some (now + seconds * 1000 * nanosPerMilli)) := by
  obtain ⟨type, key, value, ttl⟩ := command
  cases type with
  | set =>
    cases ttl with
    | none =>
      cases h
      cases he
      exact ⟨rfl, rfl, rfl, Or.inl ⟨rfl, rfl⟩⟩
    | some seconds =>
      cases h
      simp only [stored] at he
      split at he
      · cases he
      · next hpos =>
        cases he
        have hs : ¬ seconds ≤ 0 := fun hle =>
          hpos (Int.mul_nonpos_of_nonpos_of_nonneg hle (by decide))
        exact ⟨rfl, rfl, rfl, Or.inr ⟨seconds, rfl, hs, rfl⟩⟩
  | get => cases h; cases he
  | delete => cases h; cases he
  | exists_ => cases h; cases he
  | ttl => cases h; cases he
  | _ => cases h

/-- A call that stores an entry is a command that writes its binding. -/
theorem mutation_stored {command : Command} {op : Op} (h : command.op = some op) {now : Time}
    {e : Entry} (he : stored (now, op) = some e) :
    command.mutation now e.key = some (some e.timed) := by
  obtain ⟨htype, hkey, hvalue, hexpires⟩ := set_of_stored h he
  rw [Command.mutation, if_pos hkey.symm, htype, Entry.timed, hvalue]
  rcases hexpires with ⟨httl, hnone⟩ | ⟨seconds, httl, hpos, hsome⟩
  · rw [httl, hnone]
  · rw [httl, hsome]
    exact if_neg hpos

/-- A command whose call does not write or delete `k` is no mutation of `k`. -/
theorem mutation_none {command : Command} {op : Op} (h : command.op = some op) {now : Time}
    {k : Bytes} (hk : k = command.key → mutates op = false) : command.mutation now k = none := by
  by_cases hkey : command.key = k
  · have hm := hk hkey.symm
    obtain ⟨type, key, value, ttl⟩ := command
    unfold Command.mutation
    rw [if_pos hkey]
    cases type with
    | set =>
      cases ttl with
      | none => cases h; cases hm
      | some seconds => cases h; cases hm
    | delete => cases h; cases hm
    | _ => rfl
  · exact if_neg hkey

/-- `PING` and `QUIT` do not touch anything. -/
theorem execute_pure {command : Command} (hop : command.op = none)
    (hnot : ¬ (command.type = .save ∨ command.type = .load)) :
    ∃ reply, (∀ env w, execute stdHash true env w command = some (w, reply)) ∧
      command.type ≠ .get ∧ ∀ now k, command.mutation now k = none := by
  obtain ⟨type, key, value, ttl⟩ := command
  cases type with
  | set => cases ttl <;> cases hop
  | get => cases hop
  | delete => cases hop
  | exists_ => cases hop
  | ttl => cases hop
  | ping => exact ⟨_, fun _ _ => rfl, (fun h => by cases h), fun _ _ => ite_self _⟩
  | save => exact absurd (Or.inl rfl) hnot
  | load => exact absurd (Or.inr rfl) hnot
  | quit => exact ⟨_, fun _ _ => rfl, (fun h => by cases h), fun _ _ => ite_self _⟩

theorem lt_of_not_expired {now d : Time} {e : Entry} (h : isExpired now e = false)
    (hd : d ∈ e.expiresAt) : now < d := by
  unfold isExpired at h
  rw [show e.expiresAt = some d from hd] at h
  exact Int.not_le.mp (of_decide_eq_false h)

/-- An entry found after a call on the key `k`. -/
theorem find_step {sc sc' : ShardedCache} (h : sc.WF stdHash) {now : Time} {op : Op}
    {k k' : Bytes} {e : Entry} (hk : op.key = some k)
    (habs : sc'.abs
      = sc.abs.set (sc.shardIndexFor stdHash k) ((sc.lru stdHash k).step (now, op)).1)
    (hf : (sc'.lru stdHash k').find k' = some e) :
    stored (now, op) = some e ∨
      ((sc.lru stdHash k').find k' = some e ∧ (k' = k → mutates op = false)) := by
  rw [lru_set habs k'] at hf
  split at hf
  · next hi =>
    rw [lru_congr hi]
    exact Lru.step_find (h.lru_wf k) hk hf
  · next hi => exact Or.inr ⟨hf, fun he => absurd (by rw [he]) hi⟩

/-- An entry found after another one was stored. -/
theorem find_stores {sc sc' : ShardedCache} (h : sc.WF stdHash) {e₀ e : Entry} {k : Bytes}
    (hst : Stores stdHash sc sc' e₀) (hf : (sc'.lru stdHash k).find k = some e) :
    e = e₀ ∨ ((sc.lru stdHash k).find k = some e ∧ k ≠ e₀.key) := by
  rw [lru_set hst.2 k] at hf
  split at hf
  · next hi =>
    have hfront := Lru.find_store_some (h.lru_wf e₀.key) hf
    by_cases hne : k = e₀.key
    · subst hne
      exact Or.inl (Option.some.inj (hfront.symm.trans (Keyed.find_cons_self e₀ _)))
    · rw [Lru.find_touch_ne hne] at hfront
      exact Or.inr ⟨by rw [lru_congr hi]; exact hfront, hne⟩
  · next hi => exact Or.inr ⟨hf, fun he => absurd (by rw [he]) hi⟩

end ConcurrentLemmas

open ConcurrentLemmas

/-! ## The invariant -/

/-- The shards are well formed with their capacities, every resident entry was put there by the last
mutation of its key, and every `GET` so far was answered as it may be. -/
structure Sound (stdHash : Bytes → UInt64) (capacities : List (Option Nat)) (s : System)
    (run : Run) : Prop where
  wf : s.cache.WF stdHash
  capacities : s.cache.abs.map Lru.capacity = capacities
  origin : ∀ k e, (s.cache.lru stdHash k).find k = some e →
    lastMutation k run = some (some e.timed)
  reads : ∀ pre t command reply post, run = pre ++ (t, .replied command reply) :: post →
    command.type = .get → GetOk pre t.now command.key reply

variable {capacities : List (Option Nat)} {s s' : System} {run : Run}

/-- A turn that does not touch the cache and answers no `GET`. -/
theorem Sound.quiet (h : Sound stdHash capacities s run) {x : Turn × Event}
    (hcache : s'.cache = s.cache) (hm : ∀ k, mutation k x = none)
    (hx : ∀ command reply, x.2 = .replied command reply → command.type ≠ .get) :
    Sound stdHash capacities s' (run ++ [x]) := by
  refine ⟨hcache ▸ h.wf, hcache ▸ h.capacities, fun k e hf => ?_, ?_⟩
  · rw [lastMutation_snoc, hm k, Option.none_or]
    rw [hcache] at hf
    exact h.origin k e hf
  · intro pre t command reply post hsplit hget
    rcases Machine.snoc_split hsplit with ⟨-, hlast⟩ | ⟨post', hrun⟩
    · exact absurd hget (hx command reply (by rw [← hlast]))
    · exact h.reads pre t command reply post' hrun hget

/-- A command that is one call on the cache. -/
theorem Sound.call (h : Sound stdHash capacities s run) {t : Turn} {command : Command} {op : Op}
    (hop : command.op = some op) :
    ∃ sc' reply,
      execute stdHash true ⟨fun _ => t.now, 0, .done⟩ ⟨s.cache, none⟩ command
        = some (⟨sc', none⟩, reply) ∧
      Sound stdHash capacities { s with cache := sc' } (run ++ [(t, .replied command reply)]) := by
  have hk := op_key hop
  obtain ⟨sc', hstep, hwf, habs⟩ :=
    step_spec h.wf (show (t.now, op).2.key = some command.key from hk)
  rw [Lru.step_reply (s.cache.lru stdHash command.key) hk] at hstep
  refine ⟨sc', _, by rw [execute_op stdHash true _ _ hop, hstep]; rfl, hwf,
    (capacity_set habs (Lru.step_capacity _ _)).trans h.capacities, fun k e hf => ?_, ?_⟩
  · rw [lastMutation_snoc]
    rcases find_step h.wf hk habs hf with hst | ⟨hold, hkeep⟩
    · obtain ⟨-, rfl⟩ := Keyed.find_some hf
      show (command.mutation t.now e.key).or _ = _
      rw [mutation_stored hop hst]
      rfl
    · show (command.mutation t.now k).or _ = _
      rw [mutation_none hop hkeep, Option.none_or]
      exact h.origin k e hold
  · intro pre t' command' reply post hsplit hget
    rcases Machine.snoc_split hsplit with ⟨rfl, hlast⟩ | ⟨post', hrun⟩
    · cases hlast
      obtain ⟨type, key, value, ttl⟩ := command
      cases hget
      cases hop
      rcases (s.cache.lru stdHash key).view_cases t.now key with
        ⟨-, hv⟩ | ⟨e, -, -, hv⟩ | ⟨e, hf, hx, hv⟩
      · exact Or.inr (by simp only [cellStep, hv]; rfl)
      · exact Or.inr (by simp only [cellStep, hv]; rfl)
      · exact Or.inl ⟨e.value, e.expiresAt, by simp only [cellStep, hv]; rfl, h.origin key e hf,
          fun d hd => lt_of_not_expired hx hd⟩
    · exact h.reads pre t' command' reply post' hrun hget

/-- One replayed record of a `LOAD`. -/
theorem Sound.replay (h : Sound stdHash capacities s run) (t : Turn) (record : Record)
    (elapsed : Millis) (result : LoadResult) :
    ∃ sc' result',
      replayRecord stdHash elapsed t.now record (s.cache, result) = some (sc', result') ∧
      ∀ clients, Sound stdHash capacities ⟨sc', clients⟩
        (run ++ [(t, .replayed record elapsed)]) := by
  have hreads : ∀ pre t' command reply post,
      run ++ [(t, .replayed record elapsed)] = pre ++ (t', .replied command reply) :: post →
      command.type = .get → GetOk pre t'.now command.key reply := by
    intro pre t' command reply post hsplit hget
    rcases Machine.snoc_split hsplit with ⟨-, hlast⟩ | ⟨post', hrun⟩
    · cases hlast
    · exact h.reads pre t' command reply post' hrun hget
  rcases replayRecord_spec h.wf result elapsed t.now record with
    ⟨e₀, sc', hres, hone, hst⟩ | ⟨hres, hone⟩
  · refine ⟨sc', _, hone, fun clients => ⟨hst.1, (capacity_set hst.2 rfl).trans h.capacities,
      fun k e hf => ?_, hreads⟩⟩
    have hkey := restored_key hres
    rw [lastMutation_snoc]
    rcases find_stores h.wf hst hf with rfl | ⟨hold, hne⟩
    · obtain ⟨-, rfl⟩ := Keyed.find_some hf
      simp only [mutation, if_pos hkey.symm, hres, Option.map_some, Option.some_or]
    · rw [hkey] at hne
      simp only [mutation, if_neg (Ne.symm hne), Option.none_or]
      exact h.origin k e hold
  · refine ⟨s.cache, _, hone, fun clients => ⟨h.wf, h.capacities, fun k e hf => ?_, hreads⟩⟩
    rw [lastMutation_snoc]
    simp only [mutation, hres, Option.map_none, ite_self, Option.none_or]
    exact h.origin k e hf

/-- Every turn of every client is defined and keeps the invariant. -/
theorem sound_step (h : Sound stdHash capacities s run) (t : Turn) :
    ∃ s' x, s.step stdHash t = some (s', x) ∧ Sound stdHash capacities s' (run ++ [(t, x)]) := by
  have hquiet : ∀ (s' : System) (x : Event), s'.cache = s.cache →
      (∀ k, mutation k (t, x) = none) →
      (∀ command reply, x = .replied command reply → command.type ≠ .get) →
      ∃ s₁ x₁, some (s', x) = some (s₁, x₁) ∧ Sound stdHash capacities s₁ (run ++ [(t, x₁)]) :=
    fun s' x hc hm hx => ⟨s', x, rfl, h.quiet hc hm hx⟩
  have hidle : ∃ s₁ x₁, some (s, Event.none) = some (s₁, x₁) ∧
      Sound stdHash capacities s₁ (run ++ [(t, x₁)]) :=
    hquiet s .none rfl (fun _ => rfl) fun _ _ hx => by cases hx
  unfold System.step
  split
  · next command _ _ =>
    split
    · exact hidle
    · next hnot =>
      cases hop : command.op with
      | some op =>
        obtain ⟨sc', reply, hexec, hsound⟩ := h.call hop
        exact ⟨_, _, by rw [hexec]; rfl, hsound⟩
      | none =>
        obtain ⟨reply, hexec, hget, hmut⟩ := execute_pure hop hnot
        rw [hexec]
        exact hquiet _ _ rfl (hmut t.now) fun _ _ hx => by cases hx; exact hget
  · exact hquiet s _ rfl (fun _ => rfl) fun _ _ hx => by cases hx
  · next bytes wall _ _ =>
    generalize parseSnapshot bytes = parsed
    cases parsed with
    | error e => exact hquiet _ _ rfl (fun _ => rfl) fun _ _ hx => by cases hx
    | ok p => exact hquiet _ _ rfl (fun _ => rfl) fun _ _ hx => by cases hx
  · next record rest elapsed result _ _ =>
    obtain ⟨sc', result', hone, hsound⟩ := h.replay t record elapsed result
    exact ⟨_, _, by rw [hone]; rfl, hsound _⟩
  · exact hquiet _ _ rfl (fun _ => rfl) fun _ _ hx => by cases hx
  · exact hquiet _ _ rfl (fun _ => rfl) fun _ _ hx => by cases hx
  · split
    · exact hidle
    · exact hquiet _ _ rfl (fun _ => rfl) fun _ _ hx => by cases hx
  · split
    · exact hidle
    · exact hquiet _ _ rfl (fun _ => rfl) fun _ _ hx => by cases hx
  · exact hidle

/-! ## Runs -/

theorem sound_new (shardCount : Nat) (capacity : Option Nat) :
    Sound stdHash ((ShardedCache.new shardCount capacity).abs.map Lru.capacity)
      (System.new (.new shardCount capacity)) [] := by
  refine ⟨wf_shardedNew shardCount capacity, rfl, fun k e hf => ?_, ?_⟩
  · have hitems := items_shardedNew (List.mem_of_getElem?
      (@abs_shardIndexFor stdHash (ShardedCache.new shardCount capacity) k))
    obtain ⟨he, -⟩ := Keyed.find_some hf
    rw [show (System.new (.new shardCount capacity)).cache.lru stdHash k
      = (ShardedCache.new shardCount capacity).lru stdHash k from rfl, hitems] at he
    cases he
  · intro pre t command reply post hsplit
    exact absurd hsplit.symm (by simp)

/-- A bounded cache never holds more than its total capacity. -/
theorem Sound.size_le {shardCount n : Nat}
    (h : Sound stdHash ((ShardedCache.new shardCount (some n)).abs.map Lru.capacity) s run) :
    s.cache.size ≤ n := by
  have hcaps : (s.cache.abs.map fun l => l.capacity.getD 0)
      = (ShardedCache.bounded shardCount n).abs.map fun l => l.capacity.getD 0 := by
    have := congrArg (List.map fun c : Option Nat => c.getD 0) h.capacities
    rwa [List.map_map, List.map_map] at this
  have hle := size_le_sum h.wf fun l hl hnone => by
    have hmem : l.capacity ∈ s.cache.abs.map Lru.capacity := List.mem_map_of_mem hl
    rw [h.capacities, hnone] at hmem
    obtain ⟨l', hl', hc⟩ := List.mem_map.mp hmem
    obtain ⟨c, hc', rfl⟩ := List.mem_map.mp hl'
    obtain ⟨i, -, rfl⟩ := List.mem_map.mp hc'
    cases hc
  rwa [hcaps, sum_capacity] at hle

/-- **No stale and no invented reads.** Whatever the clients do and however their turns
interleave, every turn is defined. A `GET` replies the value of the last write to the key, if that
write has not been deleted and its deadline is still to come, or nil. The shards keep their
invariant, every resident key is in the shard that owns it, and a bounded cache holds no more than
its total capacity. -/
theorem no_stale_reads (stdHash : Bytes → UInt64) (shardCount : Nat) (capacity : Option Nat)
    (turns : List Turn) :
    ∃ s events,
      Machine.run (System.step stdHash) (System.new (.new shardCount capacity)) turns
        = some (s, events) ∧
      (∀ pre t command reply post,
        turns.zip events = pre ++ (t, .replied command reply) :: post → command.type = .get →
        GetOk pre t.now command.key reply) ∧
      (∀ c ∈ s.cache.shards, c.RepInv) ∧
      (∀ j c, s.cache.shards[j]? = some c → ∀ e ∈ c.entries.toList,
        s.cache.shardIndexFor stdHash e.key = j) ∧
      ∀ n ∈ capacity, s.cache.size ≤ n := by
  obtain ⟨s, events, hrun, h⟩ := Machine.run_of_traceInvariant
    (fun s run t h => @sound_step stdHash _ s run h t) (sound_new shardCount capacity) turns
  refine ⟨s, events, hrun, h.reads, fun c hc => repInv_of_wf (h.wf.shard c hc), ?_, ?_⟩
  · intro j c hj e he
    exact h.wf.owner hj he
  · intro n hn
    cases hn
    exact h.size_le

end CacheX
