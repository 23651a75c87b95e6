import CacheX.Load
import CacheX.Protocol

/-!
# Executing a command

`execute` of `command_handler.cpp`, with `PersistenceManager::save` behind `SAVE`. What a command
reads from outside is an `Env`: the clocks, and how the file operations of a save end.
-/

namespace CacheX

open Decimal (ascii)

/-- How the file operations of a save end. -/
inductive SaveOutcome
  | done
  | cannotOpen (tempPath : Bytes)
  | writeFailed
  | cannotRename (reason : Bytes)
deriving DecidableEq, Repr

/-- What one command reads from outside: the steady clock, where reading `i` of a `SAVE` or `LOAD`
belongs to shard or record `i`; the wall clock; and how a save ends. -/
structure Env where
  steady : Nat → Time
  wall : Millis
  outcome : SaveOutcome

/-- What commands act on: the cache and the snapshot file. -/
structure World where
  cache : ShardedCache
  file : Option Bytes

/-- `PersistenceManager::SaveResult`. -/
structure SaveResult where
  ok : Bool := false
  entries : Nat := 0
  bytes : Nat := 0
  error : Bytes := []
deriving DecidableEq, Repr

/-- The file operations of `save` for the exported entries: the snapshot file afterwards, and the
result. -/
def writeSnapshot (outcome : SaveOutcome) (wall : Millis) (file : Option Bytes)
    (entries : List EntrySnapshot) : Option Bytes × SaveResult :=
  let bytes := saveBytes wall entries
  match outcome with
  | .done => (some bytes, { ok := true, entries := entries.length, bytes := bytes.length })
  | .cannotOpen tempPath =>
    (file, { error := ascii "cannot open '" ++ tempPath ++ ascii "' for writing" })
  | .writeFailed => (file, { error := ascii "write failed (disk full?)" })
  | .cannotRename reason =>
    (file, {
      bytes := bytes.length
      error := ascii "cannot rename snapshot into place: " ++ reason })

/-- `PersistenceManager::save`. -/
def save (env : Env) (w : World) : Option Bytes × SaveResult :=
  writeSnapshot env.outcome env.wall w.file (w.cache.exportEntries env.steady)

/-- The reply to `TTL`. Milliseconds are rounded up to seconds. -/
def replyTtl (info : TtlInfo) : Bytes :=
  match info.state with
  | .missing => replyNil
  | .persistent => replyNoExpiry
  | .expiring => replyInteger ((info.remaining + 999).tdiv 1000)

def replySave (saved : SaveResult) : Bytes :=
  if saved.ok then replyInteger saved.entries
  else replyError (ascii "save failed: " ++ saved.error)

def replyLoad (loaded : LoadResult) : Bytes :=
  if loaded.ok then replyInteger loaded.loaded
  else replyError (ascii "load failed: " ++ loaded.error)

def replyDisabled : Bytes := replyError (ascii "persistence is not enabled on this server")

/-- `execute`. Without persistence the server has no snapshot file. -/
def execute (stdHash : Bytes → UInt64) (persistence : Bool) (env : Env) (w : World)
    (command : Command) : Option (World × Bytes) :=
  let now := env.steady 0
  match command.type with
  | .set =>
    match command.ttl with
    | some seconds =>
      (w.cache.setTtl stdHash now command.key command.value (seconds * 1000)).map fun sc =>
        ({ w with cache := sc }, replyOk)
    | none =>
      (w.cache.set stdHash command.key command.value).map fun sc =>
        ({ w with cache := sc }, replyOk)
  | .get =>
    (w.cache.get stdHash now command.key).map fun p => ({ w with cache := p.1 },
      match p.2 with
      | some value => replyValue value
      | none => replyNil)
  | .delete =>
    (w.cache.erase stdHash now command.key).map fun p =>
      ({ w with cache := p.1 }, replyInteger (if p.2 then 1 else 0))
  | .exists_ =>
    (w.cache.contains stdHash now command.key).map fun b => (w, replyInteger (if b then 1 else 0))
  | .ttl =>
    (w.cache.ttl stdHash now command.key).map fun p => ({ w with cache := p.1 }, replyTtl p.2)
  | .ping => some (w, replyPong)
  | .save =>
    if persistence then
      let saved := save env w
      some ({ w with file := saved.1 }, replySave saved.2)
    else some (w, replyDisabled)
  | .load =>
    if persistence then
      (load stdHash w.cache w.file env.wall env.steady).map fun p =>
        ({ w with cache := p.1 }, replyLoad p.2)
    else some (w, replyDisabled)
  | .quit => some (w, replyBye)

/-! ## Commands that are one call on the cache -/

/-- The call a command makes, if it is a single one. -/
def Command.op (command : Command) : Option Op :=
  match command.type with
  | .set =>
    match command.ttl with
    | some seconds => some (.setTtl command.key command.value (seconds * 1000))
    | none => some (.set command.key command.value)
  | .get => some (.get command.key)
  | .delete => some (.erase command.key)
  | .exists_ => some (.contains command.key)
  | .ttl => some (.ttl command.key)
  | _ => none

/-- The reply line for what a call returned. -/
def Reply.line : Reply → Bytes
  | .value (some v) => replyValue v
  | .value none => replyNil
  | .ttl info => replyTtl info
  | .bool b => replyInteger (if b then 1 else 0)
  | _ => replyOk

theorem op_key {command : Command} {op : Op} (h : command.op = some op) :
    op.key = some command.key := by
  unfold Command.op at h
  split at h
  · split at h
    · cases h
      rfl
    · cases h
      rfl
  all_goals cases h
  all_goals rfl

theorem execute_op (stdHash : Bytes → UInt64) (persistence : Bool) (env : Env) (w : World)
    {command : Command} {op : Op} (h : command.op = some op) :
    execute stdHash persistence env w command
      = (w.cache.step stdHash (env.steady 0, op)).map fun p =>
          ({ w with cache := p.1 }, p.2.line) := by
  obtain ⟨type, key, value, ttl⟩ := command
  cases type with
  | set =>
    cases ttl with
    | none =>
      cases h
      simp only [execute, ShardedCache.step, Option.map_map]
      rfl
    | some seconds =>
      cases h
      simp only [execute, ShardedCache.step, Option.map_map]
      rfl
  | get =>
    cases h
    simp only [execute, ShardedCache.step, Option.map_map]
    congr 1
    funext p
    cases hp : p.2 with
    | none => simp only [Function.comp_apply, Reply.line, hp]
    | some v => simp only [Function.comp_apply, Reply.line, hp]
  | delete =>
    cases h
    simp only [execute, ShardedCache.step, Option.map_map]
    rfl
  | exists_ =>
    cases h
    simp only [execute, ShardedCache.step, Option.map_map]
    rfl
  | ttl =>
    cases h
    simp only [execute, ShardedCache.step, Option.map_map]
    rfl
  | _ => cases h

/-- Every command is defined on a well-formed cache and keeps it well formed. -/
theorem execute_wf {stdHash : Bytes → UInt64} {w : World} (h : w.cache.WF stdHash)
    (persistence : Bool) (env : Env) (command : Command) :
    ∃ w' reply, execute stdHash persistence env w command = some (w', reply) ∧
      w'.cache.WF stdHash := by
  cases hop : command.op with
  | some op =>
    obtain ⟨sc', r, hs, hwf, -⟩ := ShardedCache.wf_step h (env.steady 0, op)
    exact ⟨_, _, by rw [execute_op stdHash persistence env w hop, hs]; rfl, hwf⟩
  | none =>
    obtain ⟨type, key, value, ttl⟩ := command
    cases type with
    | ping => exact ⟨w, _, rfl, h⟩
    | quit => exact ⟨w, _, rfl, h⟩
    | save =>
      cases persistence with
      | false => exact ⟨w, _, rfl, h⟩
      | true => exact ⟨_, _, rfl, h⟩
    | load =>
      cases persistence with
      | false => exact ⟨w, _, rfl, h⟩
      | true =>
        obtain ⟨sc', res, hl, hwf⟩ := load_wf h w.file env.wall env.steady
        refine ⟨{ w with cache := sc' }, replyLoad res, ?_, hwf⟩
        show (load stdHash w.cache w.file env.wall env.steady).map _ = _
        rw [hl]
        rfl
    | set => cases ttl <;> cases hop
    | _ => cases hop

end CacheX
