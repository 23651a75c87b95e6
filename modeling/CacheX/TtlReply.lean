import CacheX.Wire
import Mathlib.Logic.Relation

/-!
# The `TTL` command

`Cache::ttl` truncates the time left to milliseconds, and `execute` rounds these up to seconds. So
a time left that is less than a millisecond over whole seconds is rounded down, and a key in its
last millisecond gets a `:0` while `GET` still returns its value.

* `ttl_rounds_iff`: for which times left the reply is the time rounded up.
* `ttl_zero_readable`: a `:0` for a key that `GET` returns.
* `wire_ttl_antitone`: a time-to-live from the wire stays within `int64`, and what `TTL` replies
  never grows while the key is not written.
-/

namespace CacheX

open Decimal (ascii)
open ShardedCache SnapshotLemmas GrammarLemmas

/-- `n` seconds are `nanos` nanoseconds rounded up. -/
def RoundsUp (n nanos : Int) : Prop := (n - 1) * 1000000000 < nanos ∧ nanos ≤ n * 1000000000

/-- The seconds in the reply to `TTL` for a time left. -/
def shownSeconds (nanos : Int) : Int := (toMillis nanos + 999).tdiv 1000

/-- What is written of a key as long as it has a deadline or is gone. -/
def replySeconds : Option Int → Bytes
  | none => replyNil
  | some seconds => replyInteger seconds

namespace TtlReplyLemmas

variable {stdHash : Bytes → UInt64} {persistence : Bool}

theorem shownSeconds_eq {nanos : Int} (h : 0 ≤ nanos) :
    shownSeconds nanos = (nanos / 1000000 + 999) / 1000 := by
  have hmillis : toMillis nanos = nanos / 1000000 := Int.tdiv_eq_ediv_of_nonneg h
  have hpos : 0 ≤ nanos / 1000000 + 999 := by omega
  rw [shownSeconds, hmillis, Int.tdiv_eq_ediv_of_nonneg hpos]

theorem roundsUp_shown {nanos : Int} (h : 0 < nanos) :
    RoundsUp (shownSeconds nanos) nanos ↔
      nanos % 1000000000 = 0 ∨ 1000000 ≤ nanos % 1000000000 := by
  rw [shownSeconds_eq (Int.le_of_lt h), RoundsUp]
  omega

theorem shown_ne_zero {nanos : Int} (h : 0 < nanos) :
    shownSeconds nanos ≠ 0 ↔ 1000000 ≤ nanos := by
  rw [shownSeconds_eq (Int.le_of_lt h)]
  omega

/-- A later reading shows no more seconds. -/
theorem shown_antitone {d first second : Int} (h : first ≤ second) (hd : second < d) :
    shownSeconds (d - second) ≤ shownSeconds (d - first) := by
  rw [shownSeconds_eq (by omega), shownSeconds_eq (by omega)]
  omega

/-- A reading after a time-to-live of `s` seconds was set. -/
theorem shown_bounds {start now s : Int} (h : start ≤ now)
    (hd : now < start + s * 1000 * nanosPerMilli) :
    0 ≤ shownSeconds (start + s * 1000 * nanosPerMilli - now) ∧
      shownSeconds (start + s * 1000 * nanosPerMilli - now) ≤ s := by
  unfold nanosPerMilli at hd ⊢
  rw [shownSeconds_eq (by omega)]
  omega

/-- The times of a request with an accepted time-to-live. -/
theorem fits_ttl {start s : Int} (h1 : 1 ≤ s) (hle : s ≤ kMaxTtlSeconds) (h0 : 0 ≤ start)
    (hlt : start < 2 ^ 62) : Fits (s * 1000) ∧ Fits (s * 1000 * nanosPerMilli) ∧
      Fits (start + s * 1000 * nanosPerMilli) := by
  simp only [Fits, int64Min, int64Max, nanosPerMilli, kMaxTtlSeconds] at hle ⊢
  omega

/-- What `TTL` replies, from what the key looks like. -/
theorem execute_ttl {w : World} (hwf : w.cache.WF stdHash) (env : Env) (k : Bytes) :
    ∃ w₁, execute stdHash persistence env w { type := .ttl, key := k } = some (w₁,
      replyTtl (ttlInfo (env.steady 0) ((w.cache.lru stdHash k).view (env.steady 0) k))) := by
  have hop : ({ type := .ttl, key := k } : Command).op = some (.ttl k) := rfl
  obtain ⟨sc', hstep, -⟩ :=
    step_spec hwf (show (env.steady 0, Op.ttl k).2.key = some k from rfl)
  refine ⟨{ w with cache := sc' }, ?_⟩
  rw [execute_op stdHash persistence env w hop, hstep, Lru.step_reply _ rfl]
  rfl

theorem isExpired_of_lt {now d : Time} {e : Entry} (hd : e.expiresAt = some d) (h : now < d) :
    isExpired now e = false := by
  simp only [isExpired, hd, decide_eq_false_iff_not]
  exact Int.not_le.mpr h

/-- The reply for a live key with a deadline. -/
theorem replyTtl_live {s : Lru} {now d : Time} {k : Bytes} {e : Entry} (hf : s.find k = some e)
    (hd : e.expiresAt = some d) (h : now < d) :
    replyTtl (ttlInfo now (s.view now k)) = replyInteger (shownSeconds (d - now)) := by
  rw [Lru.view_live hf (isExpired_of_lt hd h), Entry.timed, hd]
  rfl

end TtlReplyLemmas

open TtlReplyLemmas

/-- **What `TTL` rounds.** For a resident entry with its deadline ahead, both `TTL` and `GET`
answer. The seconds are the time left rounded up exactly when the time left is in whole seconds or
at least a millisecond over, and they are zero in the last millisecond. -/
theorem ttl_rounds_iff {stdHash : Bytes → UInt64} (persistence : Bool) {w : World}
    (hreach : Reachable stdHash w.cache) {c : Cache} (hc : c ∈ w.cache.shards) {e : Entry}
    (he : e ∈ c.entries.toList) {d : Time} (hd : e.expiresAt = some d) {env : Env}
    (hlive : env.steady 0 < d) :
    ∃ w₁ w₂ n,
      execute stdHash persistence env w { type := .ttl, key := e.key }
        = some (w₁, replyInteger n) ∧
      execute stdHash persistence env w { type := .get, key := e.key }
        = some (w₂, replyValue e.value) ∧
      (RoundsUp n (d - env.steady 0) ↔
        (d - env.steady 0) % 1000000000 = 0 ∨ 1000000 ≤ (d - env.steady 0) % 1000000000) ∧
      (n ≠ 0 ↔ 1000000 ≤ d - env.steady 0) := by
  have hf := find_of_mem_shard hreach.wf hc he
  have hpos : 0 < d - env.steady 0 := Int.sub_pos_of_lt hlive
  obtain ⟨w₁, httl⟩ := @execute_ttl stdHash persistence w hreach.wf env e.key
  rw [replyTtl_live hf hd hlive] at httl
  obtain ⟨w₂, hget⟩ :=
    @execute_get stdHash persistence w hreach.wf e.key e env hf (isExpired_of_lt hd hlive)
  exact ⟨w₁, w₂, _, httl, hget, roundsUp_shown hpos, shown_ne_zero hpos⟩

/-- The steady clock at one reading, for a command that reads no other clock. -/
def Env.reading (now : Time) : Env := ⟨fun _ => now, 0, .done⟩

/-- `SET k v 1` at the reading 0, then `TTL k` and `GET k` with half a millisecond left. -/
theorem ttl_zero_readable :
    ∃ w, execute (fun _ => 0) false (.reading 0) ⟨.unbounded 1, none⟩
        { type := .set, key := ascii "k", value := ascii "v", ttl := some 1 } = some (w, replyOk) ∧
      (execute (fun _ => 0) false (.reading 999500000) w
        { type := .ttl, key := ascii "k" }).map Prod.snd = some (ascii ":0\n") ∧
      (execute (fun _ => 0) false (.reading 999500000) w
        { type := .get, key := ascii "k" }).map Prod.snd = some (ascii "=v\n") :=
  ⟨_, rfl, by decide, by decide⟩

/-- Two milliseconds before the deadline the reply is the time rounded up. -/
theorem ttl_rounds_iff_lastSecond :
    ∃ w w₁ n, execute (fun _ => 0) false (.reading 998000000) w { type := .ttl, key := [107] }
        = some (w₁, replyInteger n) ∧
      RoundsUp n 2000000 ∧ n ≠ 0 := by
  have hset : ∃ sc, (ShardedCache.unbounded 1).step (fun _ => 0) (0, .setTtl [107] [118] 1000)
        = some (sc, .unit) ∧
      ∃ c ∈ sc.shards, (⟨[107], [118], some 1000000000⟩ : Entry) ∈ c.entries.toList :=
    ⟨_, rfl, by decide⟩
  obtain ⟨sc, hstep, c, hc, he⟩ := hset
  obtain ⟨w₁, -, n, httl, -, hrounds, hzero⟩ := @ttl_rounds_iff (fun _ => 0) false ⟨sc, none⟩
    (.step (.unbounded 1) hstep) c hc _ he 1000000000 rfl (.reading 998000000) (by decide)
  exact ⟨_, w₁, n, httl, hrounds.mpr (by decide), hzero.mpr (by decide)⟩

/-! ## Two requests -/

/-- Some client's command that does not write `k`, as the cache sees it. The snapshot file is
whatever it is when the command is executed. -/
def Untouched (stdHash : Bytes → UInt64) (persistence : Bool) (k : Bytes)
    (sc sc' : ShardedCache) : Prop :=
  ∃ env w command w' reply, w.cache = sc ∧ w'.cache = sc' ∧
    ¬ Command.Writes persistence env w command k ∧
    execute stdHash persistence env w command = some (w', reply)

namespace TtlReplyLemmas

variable {stdHash : Bytes → UInt64} {persistence : Bool}

theorem untouched_keeps {k : Bytes} {sc sc' : ShardedCache} (hwf : sc.WF stdHash)
    (h : Relation.ReflTransGen (Untouched stdHash persistence k) sc sc') :
    sc'.WF stdHash ∧ ∀ e, (sc'.lru stdHash k).find k = some e →
      (sc.lru stdHash k).find k = some e := by
  induction h with
  | refl => exact ⟨hwf, fun e he => he⟩
  | tail _ hstep ih =>
    obtain ⟨env, w, command, w', reply, rfl, rfl, hspares, hexec⟩ := hstep
    obtain ⟨hwf', hkeeps⟩ := execute_keeps ih.1 hspares hexec
    exact ⟨hwf', fun e he => ih.2 e (hkeeps e he)⟩

/-- `TTL` for a key that was stored with a deadline and not written since. -/
theorem execute_ttl_kept {w : World} (hwf : w.cache.WF stdHash) {k v : Bytes} {d : Time}
    (h : ∀ e, (w.cache.lru stdHash k).find k = some e → e = ⟨k, v, some d⟩) (env : Env) :
    ∃ w₁ answer, execute stdHash persistence env w { type := .ttl, key := k }
        = some (w₁, replySeconds answer) ∧
      Untouched stdHash persistence k w.cache w₁.cache ∧
      (answer = none ∧ ((w.cache.lru stdHash k).find k = none ∨ d ≤ env.steady 0) ∨
        answer = some (shownSeconds (d - env.steady 0)) ∧
          (w.cache.lru stdHash k).find k = some ⟨k, v, some d⟩ ∧ env.steady 0 < d) := by
  obtain ⟨w₁, hexec⟩ := @execute_ttl stdHash persistence w hwf env k
  have huntouched : Untouched stdHash persistence k w.cache w₁.cache :=
    ⟨env, w, { type := .ttl, key := k }, w₁, _, rfl, rfl, not_false, hexec⟩
  cases hf : (w.cache.lru stdHash k).find k with
  | none =>
    rw [Lru.view_absent hf] at hexec
    exact ⟨w₁, none, hexec, huntouched, Or.inl ⟨rfl, Or.inl rfl⟩⟩
  | some e =>
    cases h e hf
    rcases Int.lt_or_le (env.steady 0) d with hlt | hle
    · rw [replyTtl_live hf rfl hlt] at hexec
      exact ⟨w₁, some _, hexec, huntouched, Or.inr ⟨rfl, rfl, hlt⟩⟩
    · rw [Lru.view_expired hf (decide_eq_true hle)] at hexec
      exact ⟨w₁, none, hexec, huntouched, Or.inl ⟨rfl, Or.inr hle⟩⟩

/-- `SET` with a ttl where there is room. -/
theorem execute_setTtl {w : World} (hwf : w.cache.WF stdHash)
    (hcap : ∀ c ∈ w.cache.shards, c.capacity ≠ some 0) (env : Env) (k v : Bytes) {s : Int}
    (hs : 1 ≤ s) :
    ∃ w₁, execute stdHash persistence env w
        { type := .set, key := k, value := v, ttl := some s } = some (w₁, replyOk) ∧
      w₁.cache.WF stdHash ∧ (w₁.cache.lru stdHash k).find k
        = some ⟨k, v, some (env.steady 0 + s * 1000 * nanosPerMilli)⟩ := by
  have hpos : 0 < s * 1000 := by omega
  obtain ⟨sc', hset, hwf', habs⟩ := ShardedCache.setTtl_spec hwf (env.steady 0) k v hpos
  refine ⟨{ w with cache := sc' }, ?_, hwf', ?_⟩
  · simp only [execute, hset, Option.map_some]
  · rw [lru_set habs k, if_pos rfl]
    exact Lru.find_store_self (hcap _ (w.cache.shardFor_mem k)) ⟨k, v, some _⟩

/-- The time-to-live of an accepted request is bounded. -/
theorem ttl_le_of_parse {line k v : Bytes} {s : Int}
    (h : parseCommand line = .ok { type := .set, key := k, value := v, ttl := some s }) :
    s ≤ kMaxTtlSeconds := by
  obtain ⟨tokens, -, hdenotes⟩ := denotes_of_parse h
  cases hdenotes with
  | setTtl _ _ _ hle => exact hle

end TtlReplyLemmas

/-- **Times-to-live from the wire.** A request is accepted as `SET k v s` with `s` at least one and
executed where every shard has room for an entry, at a reading of the steady clock below `2 ^ 62`.
The times it computes are in the range of `int64`. While `k` is not written, a `TTL` is answered
with nil or at most `s` seconds, and a later one with nil if the first was, or no more seconds. -/
theorem wire_ttl_antitone (stdHash : Bytes → UInt64) (persistence : Bool) {w : World}
    (hreach : Reachable stdHash w.cache) (hcap : ∀ c ∈ w.cache.shards, c.capacity ≠ some 0)
    {line k v : Bytes} {s : Int}
    (hparse : parseCommand line = .ok { type := .set, key := k, value := v, ttl := some s })
    (hs : 1 ≤ s) {env : Env} (hnow : 0 ≤ env.steady 0 ∧ env.steady 0 < 2 ^ 62) :
    Fits (s * 1000) ∧ Fits (s * 1000 * nanosPerMilli) ∧
      Fits (env.steady 0 + s * 1000 * nanosPerMilli) ∧
    ∃ w₁, execute stdHash persistence env w
        { type := .set, key := k, value := v, ttl := some s } = some (w₁, replyOk) ∧
      ∀ w₂ : World, Relation.ReflTransGen (Untouched stdHash persistence k) w₁.cache w₂.cache →
      ∀ env₁ : Env, env.steady 0 ≤ env₁.steady 0 →
      ∃ w₃ first, execute stdHash persistence env₁ w₂ { type := .ttl, key := k }
          = some (w₃, replySeconds first) ∧
        (∀ n, first = some n → 0 ≤ n ∧ n ≤ s) ∧
        ∀ w₄ : World, Relation.ReflTransGen (Untouched stdHash persistence k) w₃.cache w₄.cache →
        ∀ env₂ : Env, env₁.steady 0 ≤ env₂.steady 0 →
        ∃ w₅ second, execute stdHash persistence env₂ w₄ { type := .ttl, key := k }
            = some (w₅, replySeconds second) ∧
          (∀ n, second = some n → 0 ≤ n ∧ n ≤ s) ∧
          (first = none → second = none) ∧
          ∀ m n, first = some m → second = some n → n ≤ m := by
  obtain ⟨hmillis, hnanos, hdeadline⟩ := fits_ttl hs (ttl_le_of_parse hparse) hnow.1 hnow.2
  refine ⟨hmillis, hnanos, hdeadline, ?_⟩
  obtain ⟨w₁, hset, hwf₁, hfind⟩ :=
    @execute_setTtl stdHash persistence w hreach.wf hcap env k v s hs
  refine ⟨w₁, hset, fun w₂ hbetween env₁ htime₁ => ?_⟩
  obtain ⟨hwf₂, hkeeps₂⟩ := untouched_keeps hwf₁ hbetween
  have hentry₂ : ∀ e, (w₂.cache.lru stdHash k).find k = some e →
      e = ⟨k, v, some (env.steady 0 + s * 1000 * nanosPerMilli)⟩ := fun e he =>
    Option.some.inj ((hkeeps₂ e he).symm.trans hfind)
  obtain ⟨w₃, first, hexec₁, hstep, hfirst⟩ :=
    @execute_ttl_kept stdHash persistence w₂ hwf₂ k v _ hentry₂ env₁
  refine ⟨w₃, first, hexec₁, fun n hn => ?_, fun w₄ hbetween' env₂ htime₂ => ?_⟩
  · rcases hfirst with ⟨hnone, -⟩ | ⟨hsome, -, hlt⟩
    · cases hnone.symm.trans hn
    · cases hsome.symm.trans hn
      exact shown_bounds htime₁ hlt
  · obtain ⟨hwf₄, hkeeps₄⟩ := untouched_keeps hwf₂ (.head hstep hbetween')
    obtain ⟨w₅, second, hexec₂, -, hsecond⟩ := @execute_ttl_kept stdHash persistence w₄ hwf₄ k v _
      (fun e he => hentry₂ e (hkeeps₄ e he)) env₂
    refine ⟨w₅, second, hexec₂, ?_⟩
    rcases hsecond with ⟨rfl, -⟩ | ⟨rfl, hfound, hlt₂⟩
    · exact ⟨fun n hn => (by cases hn), fun _ => rfl, fun m n _ hn => (by cases hn)⟩
    · -- the entry was there at the first request, and its deadline was ahead
      have hlt₁ := Int.lt_of_le_of_lt htime₂ hlt₂
      rcases hfirst with ⟨-, hgone | hpast⟩ | ⟨rfl, -, -⟩
      · cases hgone.symm.trans (hkeeps₄ _ hfound)
      · exact absurd hpast (Int.not_le.mpr hlt₁)
      · refine ⟨fun n hn => ?_, fun hn => (by cases hn), fun m n hm hn => ?_⟩
        · cases hn
          exact shown_bounds (Int.le_trans htime₁ htime₂) hlt₂
        · cases hm
          cases hn
          exact shown_antitone htime₂ hlt₂

/-- `SET k v 5` at the reading 0, and `TTL k` one and three seconds later. -/
theorem wire_ttl_antitone_five :
    ∃ w₁ w₃ w₅ first second,
      execute (fun _ => 0) false (.reading 0) ⟨.bounded 1 2, none⟩
        { type := .set, key := ascii "k", value := ascii "v", ttl := some 5 }
          = some (w₁, replyOk) ∧
      execute (fun _ => 0) false (.reading 1000000000) w₁ { type := .ttl, key := ascii "k" }
        = some (w₃, replySeconds first) ∧
      execute (fun _ => 0) false (.reading 3000000000) w₃ { type := .ttl, key := ascii "k" }
        = some (w₅, replySeconds second) ∧
      (first = none → second = none) ∧ ∀ m n, first = some m → second = some n → n ≤ m := by
  obtain ⟨-, -, -, w₁, hset, hfirst⟩ := @wire_ttl_antitone (fun _ => 0) false ⟨.bounded 1 2, none⟩
    (.bounded 1 2) (by decide) (ascii "SET k v 5") (ascii "k") (ascii "v") 5 (by decide)
    (by decide) (.reading 0) (by decide)
  obtain ⟨w₃, first, hexec₁, -, hsecond⟩ := hfirst w₁ .refl (.reading 1000000000) (by decide)
  obtain ⟨w₅, second, hexec₂, -, hnone, hle⟩ := hsecond w₃ .refl (.reading 3000000000) (by decide)
  exact ⟨w₁, w₃, w₅, first, second, hset, hexec₁, hexec₂, hnone, hle⟩

end CacheX
