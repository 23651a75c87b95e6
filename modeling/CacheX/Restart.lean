import CacheX.Scan
import CacheX.Wire

/-!
# A restart that clients do not notice

The replies to all commands depend on the recency lists and the capacities of the shards, and on the
snapshot file; not on the index, on node ids or on the counters. A `SAVE` and a load at the next
start bring back the recency lists, as long as nothing has a deadline.

* `execute_content`: two servers with the same content give the same replies.
* `load_content`: what a saved cache without deadlines is loaded back to.
* `restart_invisible`: after `SAVE` and a restart every later command is answered as if there had
  been no restart.
-/

namespace CacheX

open ShardedCache RestoreLemmas ScanLemmas

/-! ## The content of a cache -/

namespace Lru

/-- Everything but the counters. -/
def content (s : Lru) : Option Nat × List Entry := (s.capacity, s.items)

/-- The same cache with other counters. -/
def recount (s : Lru) (evictions expiredRemovals : Nat) : Lru :=
  { s with evictions := evictions, expiredRemovals := expiredRemovals }

theorem recount_of_content {s t : Lru} (h : s.content = t.content) :
    t = s.recount t.evictions t.expiredRemovals := by
  obtain ⟨capacity, items, a, b⟩ := s
  obtain ⟨capacity', items', a', b'⟩ := t
  cases h
  rfl

variable (s : Lru) (m n : Nat)

theorem erase_recount (now : Time) (k : Bytes) :
    ((s.recount m n).erase now k).1.content = (s.erase now k).1.content ∧
      ((s.recount m n).erase now k).2 = (s.erase now k).2 := by
  have hfind : (s.recount m n).find k = s.find k := rfl
  cases hf : s.find k with
  | none =>
    rw [erase_absent hf, erase_absent (hfind.trans hf)]
    exact ⟨rfl, rfl⟩
  | some e =>
    cases hx : isExpired now e with
    | false =>
      rw [erase_live hf hx, erase_live (hfind.trans hf) hx]
      exact ⟨rfl, rfl⟩
    | true =>
      rw [erase_expired hf hx, erase_expired (hfind.trans hf) hx]
      exact ⟨rfl, rfl⟩

theorem reclaim_recount (now : Time) (k : Bytes) :
    ((s.recount m n).reclaim now k).content = (s.reclaim now k).content := by
  show (if s.stale now k then (s.recount m n).expire k else s.recount m n).content
    = (if s.stale now k then s.expire k else s).content
  split <;> rfl

theorem find_content {s t : Lru} (h : s.content = t.content) (k : Bytes) : s.find k = t.find k :=
  congrArg (fun c : Option Nat × List Entry => Keyed.find Entry.key k c.2) h

theorem touch_content {s t : Lru} (h : s.content = t.content) (e : Entry) :
    (s.touch e).content = (t.touch e).content :=
  congrArg (fun c => (c.1, Keyed.front Entry.key e c.2)) h

theorem get_recount (now : Time) (k : Bytes) :
    ((s.recount m n).get now k).1.content = (s.get now k).1.content ∧
      ((s.recount m n).get now k).2 = (s.get now k).2 := by
  have hreclaim := reclaim_recount s m n now k
  unfold get
  rw [find_content hreclaim k]
  cases (s.reclaim now k).find k with
  | none => exact ⟨hreclaim, rfl⟩
  | some e => exact ⟨touch_content hreclaim e, rfl⟩

theorem ttl_recount (now : Time) (k : Bytes) :
    ((s.recount m n).ttl now k).1.content = (s.ttl now k).1.content ∧
      ((s.recount m n).ttl now k).2 = (s.ttl now k).2 := by
  have hreclaim := reclaim_recount s m n now k
  unfold ttl
  rw [find_content hreclaim k]
  cases (s.reclaim now k).find k with
  | none => exact ⟨hreclaim, rfl⟩
  | some e => exact ⟨hreclaim, rfl⟩

/-- What a call returns, and the content it leaves, depend on the content. -/
theorem step_content {s t : Lru} (h : s.content = t.content) (call : Time × Op) :
    (t.step call).1.content = (s.step call).1.content ∧ (t.step call).2 = (s.step call).2 := by
  rw [recount_of_content h]
  generalize t.evictions = m, t.expiredRemovals = n
  obtain ⟨now, op⟩ := call
  cases op with
  | set k v => exact ⟨rfl, rfl⟩
  | setTtl k v ttl =>
    refine ⟨?_, rfl⟩
    show (if ttl ≤ 0 then ((s.recount m n).erase now k).1 else _).content
      = (if ttl ≤ 0 then (s.erase now k).1 else _).content
    split
    · exact (erase_recount s m n now k).1
    · rfl
  | get k =>
    obtain ⟨hcontent, hreply⟩ := get_recount s m n now k
    exact ⟨hcontent, congrArg Reply.value hreply⟩
  | getInto k out =>
    obtain ⟨hcontent, hreply⟩ := get_recount s m n now k
    refine ⟨by rw [step_getInto, step_getInto, hcontent], ?_⟩
    simp only [step, hreply]
    split <;> rfl
  | ttl k =>
    obtain ⟨hcontent, hreply⟩ := ttl_recount s m n now k
    exact ⟨hcontent, congrArg Reply.ttl hreply⟩
  | erase k =>
    obtain ⟨hcontent, hreply⟩ := erase_recount s m n now k
    exact ⟨hcontent, congrArg Reply.bool hreply⟩
  | contains k => exact ⟨rfl, rfl⟩
  | clear => exact ⟨rfl, rfl⟩
  | exportEntries => exact ⟨rfl, rfl⟩

end Lru

/-- The recency lists of the shards, with their capacities. -/
def ShardedCache.content (sc : ShardedCache) : List (Option Nat × List Entry) :=
  sc.abs.map Lru.content

variable {stdHash : Bytes → UInt64}

namespace ShardedCache

variable {sc sc' : ShardedCache}

theorem length_of_content (h : sc.content = sc'.content) :
    sc.shards.length = sc'.shards.length := by
  have := congrArg List.length h
  rwa [content, content, List.length_map, List.length_map, length_abs, length_abs] at this

theorem lru_content (h : sc.content = sc'.content) (k : Bytes) :
    (sc.lru stdHash k).content = (sc'.lru stdHash k).content := by
  have hat : ∀ sc : ShardedCache, sc.content[sc.shardIndexFor stdHash k]?
      = some (sc.lru stdHash k).content := by
    intro sc
    rw [content, List.getElem?_map, sc.abs_shardIndexFor]
    rfl
  have hindex : sc.shardIndexFor stdHash k = sc'.shardIndexFor stdHash k :=
    shardIndexFor_of_length (length_of_content h) k
  have hsc := hat sc
  rw [h, hindex, hat sc'] at hsc
  exact (Option.some.inj hsc).symm

theorem exportEntries_content (h : sc.content = sc'.content) (clock : Nat → Time) :
    sc.exportEntries clock = sc'.exportEntries clock := by
  have hexport : ∀ sc : ShardedCache, sc.exportEntries clock = sc.content.zipIdx.flatMap
      fun p => p.1.2.filterMap (Cache.exportEntry (clock p.2)) := by
    intro sc
    rw [content, abs, List.map_map, List.zipIdx_map, List.flatMap_map]
    rfl
  rw [hexport, hexport, h]

/-- Two servers whose caches have the same content. -/
structure SameContent (stdHash : Bytes → UInt64) (sc sc' : ShardedCache) : Prop where
  left : sc.WF stdHash
  right : sc'.WF stdHash
  content : sc.content = sc'.content

theorem SameContent.step (h : SameContent stdHash sc sc') (call : Time × Op) :
    ∃ sc₁ sc₁' r, sc.step stdHash call = some (sc₁, r) ∧ sc'.step stdHash call = some (sc₁', r) ∧
      SameContent stdHash sc₁ sc₁' := by
  cases hk : call.2.key with
  | some k =>
    obtain ⟨sc₁, hstep, hwf, habs⟩ := step_spec h.left hk
    obtain ⟨sc₁', hstep', hwf', habs'⟩ := step_spec h.right hk
    obtain ⟨hcontent, hreply⟩ := Lru.step_content (lru_content h.content k) call
    rw [hreply] at hstep'
    refine ⟨sc₁, sc₁', _, hstep, hstep', hwf, hwf', ?_⟩
    have hindex : sc.shardIndexFor stdHash k = sc'.shardIndexFor stdHash k :=
      shardIndexFor_of_length (length_of_content h.content) k
    have hlists : sc.abs.map Lru.content = sc'.abs.map Lru.content := h.content
    rw [ShardedCache.content, ShardedCache.content, habs, habs', List.map_set, List.map_set,
      hcontent, hindex, hlists]
  | none =>
    obtain ⟨now, op⟩ := call
    cases op with
    | clear =>
      refine ⟨sc.clear, sc'.clear, .unit, rfl, rfl, sc.wf_clear, sc'.wf_clear, ?_⟩
      rw [ShardedCache.content, ShardedCache.content, abs_clear, abs_clear, List.map_map,
        List.map_map]
      have hcaps := congrArg (List.map fun c => (c.1, ([] : List Entry))) h.content
      rwa [ShardedCache.content, ShardedCache.content, List.map_map, List.map_map] at hcaps
    | exportEntries =>
      refine ⟨sc, sc', _, rfl, ?_, h⟩
      show some (sc', Reply.exported (sc'.exportEntries fun _ => now)) = _
      rw [exportEntries_content h.content]
    | _ => cases hk

/-- A record that is replayed on both sides. -/
theorem SameContent.replayRecord (h : SameContent stdHash sc sc') (res : LoadResult)
    (elapsed : Millis) (now : Time) (record : Record) :
    ∃ sc₁ sc₁' res₁, CacheX.replayRecord stdHash elapsed now record (sc, res) = some (sc₁, res₁) ∧
      CacheX.replayRecord stdHash elapsed now record (sc', res) = some (sc₁', res₁) ∧
      SameContent stdHash sc₁ sc₁' := by
  unfold CacheX.replayRecord
  split
  · obtain ⟨sc₁, sc₁', r, hs, hs', h₁⟩ := h.step (now, .set record.key record.value)
    obtain ⟨x, hx, heq⟩ := Option.map_eq_some_iff.mp hs
    obtain ⟨x', hx', heq'⟩ := Option.map_eq_some_iff.mp hs'
    cases heq
    cases heq'
    exact ⟨sc₁, sc₁', _, by rw [hx]; rfl, by rw [hx']; rfl, h₁⟩
  · by_cases hpos : 0 < record.ttlMs - elapsed
    · obtain ⟨sc₁, sc₁', r, hs, hs', h₁⟩ :=
        h.step (now, .setTtl record.key record.value (record.ttlMs - elapsed))
      obtain ⟨x, hx, heq⟩ := Option.map_eq_some_iff.mp hs
      obtain ⟨x', hx', heq'⟩ := Option.map_eq_some_iff.mp hs'
      cases heq
      cases heq'
      exact ⟨sc₁, sc₁', _, by rw [if_pos hpos, hx]; rfl, by rw [if_pos hpos, hx']; rfl, h₁⟩
    · exact ⟨sc, sc', _, if_neg hpos, if_neg hpos, h⟩

theorem SameContent.replay (h : SameContent stdHash sc sc') (res : LoadResult) (elapsed : Millis)
    (clock : Nat → Time) (records : List (Record × Nat)) :
    ∃ sc₁ sc₁' res₁,
      records.foldlM (fun st p => CacheX.replayRecord stdHash elapsed (clock p.2) p.1 st) (sc, res)
        = some (sc₁, res₁) ∧
      records.foldlM (fun st p => CacheX.replayRecord stdHash elapsed (clock p.2) p.1 st) (sc', res)
        = some (sc₁', res₁) ∧ SameContent stdHash sc₁ sc₁' := by
  induction records generalizing sc sc' res with
  | nil => exact ⟨sc, sc', res, rfl, rfl, h⟩
  | cons p records ih =>
    obtain ⟨sc₁, sc₁', res₁, hs, hs', h₁⟩ := h.replayRecord res elapsed (clock p.2) p.1
    obtain ⟨sc₂, sc₂', res₂, hrest, hrest', h₂⟩ := ih h₁ res₁
    refine ⟨sc₂, sc₂', res₂, ?_, ?_, h₂⟩
    · rw [List.foldlM_cons, hs]
      exact hrest
    · rw [List.foldlM_cons, hs']
      exact hrest'

/-- A load on both sides. -/
theorem SameContent.load (h : SameContent stdHash sc sc') (file : Option Bytes) (wall : Millis)
    (clock : Nat → Time) :
    ∃ sc₁ sc₁' res, CacheX.load stdHash sc file wall clock = some (sc₁, res) ∧
      CacheX.load stdHash sc' file wall clock = some (sc₁', res) ∧
      SameContent stdHash sc₁ sc₁' := by
  cases file with
  | none => exact ⟨sc, sc', _, rfl, rfl, h⟩
  | some bytes =>
    simp only [CacheX.load]
    cases parseSnapshot bytes with
    | error e => exact ⟨sc, sc', _, rfl, rfl, h⟩
    | ok p =>
      obtain ⟨sc₁, sc₁', res, hrun, hrun', h₁⟩ :=
        h.replay {} (elapsedMs wall p.savedAt) clock p.records.zipIdx.reverse
      refine ⟨sc₁, sc₁', { res with ok := true }, ?_, ?_, h₁⟩
      · rw [applyParsed, CacheX.replay, hrun]
        rfl
      · rw [applyParsed, CacheX.replay, hrun']
        rfl

end ShardedCache

/-! ## Commands -/

/-- Two servers that give the same replies: the caches have the same content and so do the files. -/
structure SameWorld (stdHash : Bytes → UInt64) (w w' : World) : Prop where
  cache : SameContent stdHash w.cache w'.cache
  file : w.file = w'.file

theorem execute_content {w w' : World} (h : SameWorld stdHash w w') (persistence : Bool)
    (x : Env × Command) :
    ∃ u u' reply, perform stdHash persistence w x = some (u, reply) ∧
      perform stdHash persistence w' x = some (u', reply) ∧ SameWorld stdHash u u' := by
  obtain ⟨env, command⟩ := x
  show ∃ u u' reply, execute stdHash persistence env w command = some (u, reply) ∧
    execute stdHash persistence env w' command = some (u', reply) ∧ _
  cases hop : command.op with
  | some op =>
    obtain ⟨sc₁, sc₁', r, hs, hs', h₁⟩ := h.cache.step (env.steady 0, op)
    refine ⟨{ w with cache := sc₁ }, { w' with cache := sc₁' }, r.line, ?_, ?_, ⟨h₁, h.file⟩⟩
    · rw [execute_op stdHash persistence env w hop, hs]
      rfl
    · rw [execute_op stdHash persistence env w' hop, hs']
      rfl
  | none =>
    obtain ⟨type, key, value, ttl⟩ := command
    cases type with
    | ping => exact ⟨w, w', _, rfl, rfl, h⟩
    | quit => exact ⟨w, w', _, rfl, rfl, h⟩
    | save =>
      cases persistence with
      | false => exact ⟨w, w', _, rfl, rfl, h⟩
      | true =>
        have hsave : save env w = save env w' := by
          rw [save, save, exportEntries_content h.cache.content, h.file]
        refine ⟨{ w with file := (save env w).1 }, { w' with file := (save env w').1 },
          replySave (save env w).2, rfl, ?_, ⟨h.cache, congrArg Prod.fst hsave⟩⟩
        rw [hsave]
        rfl
    | load =>
      cases persistence with
      | false => exact ⟨w, w', _, rfl, rfl, h⟩
      | true =>
        obtain ⟨sc₁, sc₁', res, hs, hs', h₁⟩ := h.cache.load w.file env.wall env.steady
        refine ⟨{ w with cache := sc₁ }, { w' with cache := sc₁' }, replyLoad res, ?_, ?_,
          ⟨h₁, h.file⟩⟩
        · show (load stdHash w.cache w.file env.wall env.steady).map _ = _
          rw [hs]
          rfl
        · show (load stdHash w'.cache w'.file env.wall env.steady).map _ = _
          rw [← h.file, hs']
          rfl
    | set => cases ttl <;> cases hop
    | _ => cases hop

/-- A sequence of commands on both sides. -/
theorem run_content {w w' : World} (h : SameWorld stdHash w w') (persistence : Bool)
    (xs : List (Env × Command)) :
    ∃ u u' replies, Machine.run (perform stdHash persistence) w xs = some (u, replies) ∧
      Machine.run (perform stdHash persistence) w' xs = some (u', replies) ∧
      SameWorld stdHash u u' := by
  obtain ⟨u, u', rs, qs, hrun, hrun', hsame, hall⟩ := Machine.run_coupled (Q := Eq)
    (fun w w' x hw => by
      obtain ⟨u, u', reply, hu, hu', hsame⟩ := execute_content hw persistence x
      exact ⟨u, u', reply, reply, hu, hu', hsame, rfl⟩) h xs
  rw [List.forall₂_eq_eq_eq] at hall
  exact ⟨u, u', rs, hrun, hall ▸ hrun', hsame⟩

/-! ## The restart -/

/-- No entry has a deadline. -/
def Persistent (sc : ShardedCache) : Prop :=
  ∀ c ∈ sc.shards, ∀ e ∈ c.entries.toList, e.expiresAt = none

/-- An entry without a deadline is its key and its value. -/
theorem map_persistent {l : List Entry} (h : ∀ e ∈ l, e.expiresAt = none) :
    (l.map fun e => (e.key, e.value)).map (fun p => (⟨p.1, p.2, none⟩ : Entry)) = l := by
  rw [List.map_map]
  refine (List.map_congr_left fun e he => ?_).trans (List.map_id l)
  obtain ⟨k, v, d⟩ := e
  cases h _ he
  rfl

theorem exportEntry_persistent {e : Entry} (h : e.expiresAt = none) (now : Time) :
    Cache.exportEntry now e = some ⟨e.key, e.value, none⟩ := by
  rw [Cache.exportEntry, h]

theorem restored_persistent (elapsed : Millis) (now : Time) (k v : Bytes) :
    restored elapsed now ⟨k, v, ttlMs ⟨k, v, none⟩⟩ = some ⟨k, v, none⟩ :=
  if_pos rfl

/-- All entries of a shard without deadlines are exported, and none runs out. -/
theorem export_persistent {l : List Entry} (h : ∀ e ∈ l, e.expiresAt = none) (now : Time)
    (elapsed : Millis) :
    ((l.filterMap (Cache.exportEntry now)).filter (timeLeft elapsed)).map
        (fun s => (s.key, s.value))
      = l.map fun e => (e.key, e.value) := by
  induction l with
  | nil => rfl
  | cons e l ih =>
    have htail := ih fun e he => h e (List.mem_cons_of_mem _ he)
    rw [List.filterMap_cons_some (exportEntry_persistent (h e List.mem_cons_self) now),
      List.filter_cons_of_pos rfl, List.map_cons, List.map_cons, htail]

/-- A load of what was saved without deadlines gives entries without deadlines. -/
theorem load_persistent {sc sc₀ sc₁ : ShardedCache} (hsc : Persistent sc) (h₀ : sc₀.WF stdHash)
    (hempty : ∀ c ∈ sc₀.shards, c.entries.toList = []) {savedAt : Millis} {now : Nat → Time}
    (hfits : SaveFits savedAt (sc.exportEntries now)) {wall : Millis} {clock : Nat → Time}
    {res : LoadResult}
    (hload : load stdHash sc₀ (some (saveBytes savedAt (sc.exportEntries now))) wall clock
      = some (sc₁, res)) : Persistent sc₁ := by
  have hparse := parse_exported hfits
  rcases load_cases h₀ (saveBytes savedAt (sc.exportEntries now)) wall clock with
    ⟨e, he, -⟩ | ⟨p, sc₂, res₂, hp, hload₂, -, -, -, hrestores⟩
  · cases hparse.symm.trans he
  cases hparse.symm.trans hp
  cases hload₂.symm.trans hload
  intro c hc e he
  rcases hrestores.mem hc he with hnew | ⟨-, c₀, hc₀, hold⟩
  · obtain ⟨q, hq, hres⟩ := List.mem_filterMap.mp ((Keyed.firsts_sublist _).subset hnew)
    obtain ⟨x, hx, hrecord⟩ := List.mem_map.mp (List.fst_mem_of_mem_zipIdx hq)
    obtain ⟨shard, hshard, hmem⟩ := List.mem_flatMap.mp hx
    obtain ⟨e₀, he₀, hexport⟩ := mem_exportEntries hmem
    cases (exportEntry_persistent (hsc _ (List.fst_mem_of_mem_zipIdx hshard) e₀ he₀) _).symm.trans
      hexport
    rw [← hrecord] at hres
    cases (restored_persistent _ _ e₀.key e₀.value).symm.trans hres
    rfl
  · rw [hempty c₀ hc₀] at hold
    cases hold

theorem load_content {sc sc₀ : ShardedCache} (hwf : sc.WF stdHash) (hsc : Persistent sc)
    (h₀ : EmptyLike stdHash sc₀ sc) {savedAt : Millis} {now : Nat → Time}
    (hfits : SaveFits savedAt (sc.exportEntries now)) (wall : Millis) (clock : Nat → Time) :
    ∃ sc₁ res, load stdHash sc₀ (some (saveBytes savedAt (sc.exportEntries now))) wall clock
        = some (sc₁, res) ∧ res.ok = true ∧ SameContent stdHash sc sc₁ := by
  obtain ⟨sc₁, res, hload, hok, hback⟩ := load_saved hwf h₀ hfits wall clock
  have hpersistent := load_persistent hsc h₀.reachable.wf h₀.empty hfits hload
  obtain ⟨sc₂, res₂, hload₂, hwf₁⟩ := load_wf h₀.reachable.wf
    (some (saveBytes savedAt (sc.exportEntries now))) wall clock
  cases hload₂.symm.trans hload
  refine ⟨sc₁, res, hload, hok, hwf, hwf₁, ?_⟩
  -- the capacities are those of the empty cache
  have hcaps : sc₁.abs.map Lru.capacity = sc.abs.map Lru.capacity := by
    rw [load_capacities h₀.reachable.wf hload]
    have hshape := h₀.shape
    simp only [ShardedCache.abs, List.map_map]
    exact hshape
  refine List.ext_getElem? fun j => ?_
  have hcap := congrArg (fun l => l[j]?) hcaps
  simp only [ShardedCache.content, ShardedCache.abs, List.map_map, List.getElem?_map] at hcap ⊢
  cases hj : sc.shards[j]? with
  | none =>
    rw [hj] at hcap
    rw [Option.map_eq_none_iff.mp hcap]
  | some c =>
    obtain ⟨c₁, hj₁, hpairs⟩ := hback j c hj
    have hc := hsc c (List.mem_of_getElem? hj)
    have hc₁ := hpersistent c₁ (List.mem_of_getElem? hj₁)
    rw [Cache.exportEntries, export_persistent hc] at hpairs
    have hitems : c₁.entries.toList = c.entries.toList := by
      rw [← map_persistent hc₁, hpairs, map_persistent hc]
    rw [hj, hj₁] at hcap
    rw [hj₁]
    exact congrArg some (Prod.ext (Option.some.inj hcap).symm hitems.symm)

/-- Commands keep the shards and their capacities. -/
theorem perform_after {sc : ShardedCache} {w : World} (h : After stdHash sc w.cache)
    (persistence : Bool) (x : Env × Command) :
    ∃ w' reply, perform stdHash persistence w x = some (w', reply) ∧
      After stdHash sc w'.cache := by
  obtain ⟨env, command⟩ := x
  obtain ⟨w', reply, hexec, hwf⟩ := execute_wf h.wf persistence env command
  refine ⟨w', reply, hexec, ?_⟩
  cases hop : command.op with
  | some op =>
    rw [execute_op stdHash persistence env w hop] at hexec
    obtain ⟨p, hstep, heq⟩ := Option.map_eq_some_iff.mp hexec
    cases heq
    exact h.of_step hstep
  | none =>
    by_cases hload : command.type = .load
    · cases persistence with
      | false =>
        simp only [execute, hload, Bool.false_eq_true, if_false] at hexec
        cases hexec
        exact h
      | true =>
        simp only [execute, hload, if_true] at hexec
        obtain ⟨p, hrun, heq⟩ := Option.map_eq_some_iff.mp hexec
        cases heq
        exact ⟨hwf, (load_capacities h.wf hrun).trans h.capacities⟩
    · rw [execute_cache hop hload hexec]
      exact h

theorem emptyLike_new {shardCount : Nat} {capacity : Option Nat} {sc : ShardedCache}
    (h : After stdHash (.new shardCount capacity) sc) :
    EmptyLike stdHash (.new shardCount capacity) sc where
  reachable := by
    cases capacity with
    | none => exact .unbounded shardCount
    | some total => exact .bounded shardCount total
  shape := by
    have hcaps := h.capacities
    rw [ShardedCache.abs, ShardedCache.abs, List.map_map, List.map_map] at hcaps
    exact hcaps.symm
  empty := fun _ hc => items_shardedNew (List.mem_map_of_mem hc)

/-- **An invisible restart.** A server with persistence has executed any commands since its start,
nothing in its cache has a deadline, and a `SAVE` succeeds whose numbers fit their types. A server
that is then started with the same configuration loads the snapshot, and gives to every later
sequence of commands, `SAVE`s and `LOAD`s among them, the replies that the old server would have
given. -/
theorem restart_invisible {shardCount : Nat} {capacity : Option Nat} {file : Option Bytes}
    {xs : List (Env × Command)} {w : World} {replies : List Bytes}
    (hrun : Machine.run (perform stdHash true) ⟨.new shardCount capacity, file⟩ xs
      = some (w, replies)) (hpersistent : Persistent w.cache) {env : Env}
    (hdone : env.outcome = .done) (hfits : SaveFits env.wall (w.cache.exportEntries env.steady))
    (wall : Millis) (clock : Nat → Time) :
    ∃ saved sc₁ res, execute stdHash true env w { type := .save }
        = some (saved, replyInteger (w.cache.exportEntries env.steady).length) ∧
      load stdHash (.new shardCount capacity) saved.file wall clock = some (sc₁, res) ∧
      res.ok = true ∧
      ∀ ys, ∃ u u' later, Machine.run (perform stdHash true) saved ys = some (u, later) ∧
        Machine.run (perform stdHash true) ⟨sc₁, saved.file⟩ ys = some (u', later) ∧
        u.file = u'.file := by
  have hafter : After stdHash (.new shardCount capacity) w.cache := by
    have hstart : After stdHash (.new shardCount capacity) (.new shardCount capacity) :=
      ⟨wf_shardedNew _ _, rfl⟩
    obtain ⟨w₁, replies₁, hrun₁, h₁⟩ := Machine.run_of_invariant
      (P := fun w : World => After stdHash (.new shardCount capacity) w.cache)
      (fun w x hw => perform_after hw true x) (s := ⟨.new shardCount capacity, file⟩) hstart xs
    cases hrun₁.symm.trans hrun
    exact h₁
  obtain ⟨sc₁, res, hload, hok, hsame⟩ :=
    load_content hafter.wf hpersistent (emptyLike_new hafter) hfits wall clock
  refine ⟨{ w with file := some (saveBytes env.wall (w.cache.exportEntries env.steady)) }, sc₁, res,
    ?_, hload, hok, fun ys => ?_⟩
  · simp only [execute, if_true, save, writeSnapshot, hdone, replySave]
  · have hworld : ∀ file, SameWorld stdHash ⟨w.cache, file⟩ ⟨sc₁, file⟩ := fun _ => ⟨hsame, rfl⟩
    obtain ⟨u, u', later, hu, hu', hend⟩ := run_content (hworld _) true ys
    exact ⟨u, u', later, hu, hu', hend.file⟩

/-- Three keys are set where there is room for two, one of the others is used, and the server is
saved and started again. -/
theorem restart_invisible_bounded :
    ∃ (saved : World) (sc₁ : ShardedCache), ∀ ys, ∃ u u' later,
      Machine.run (perform (fun _ => 0) true) saved ys = some (u, later) ∧
      Machine.run (perform (fun _ => 0) true) ⟨sc₁, saved.file⟩ ys = some (u', later) ∧
      u.file = u'.file := by
  have hrun : ∃ w replies, Machine.run (perform (fun _ => 0) true) ⟨.new 1 (some 2), none⟩
      ([{ type := .set, key := [97], value := [1] }, { type := .set, key := [98], value := [2] },
        { type := .get, key := [97] }, { type := .set, key := [99], value := [3] }].map
          fun command => (⟨fun _ => 0, 0, .done⟩, command)) = some (w, replies) ∧
      Persistent w.cache ∧ SaveFits 0 (w.cache.exportEntries fun _ => 0) := by
    refine ⟨_, _, rfl, ?_, ⟨by decide, by decide, by decide, by decide⟩⟩
    unfold Persistent
    decide
  obtain ⟨w, replies, hrun, hpersistent, hfits⟩ := hrun
  have hdone : (⟨fun _ => 0, 0, .done⟩ : Env).outcome = .done := rfl
  obtain ⟨saved, sc₁, res, -, -, -, hlater⟩ :=
    restart_invisible hrun hpersistent hdone hfits 0 fun _ => 0
  exact ⟨saved, sc₁, hlater⟩

end CacheX
