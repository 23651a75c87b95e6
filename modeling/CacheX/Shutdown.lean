import CacheX.Restore
import CacheX.SaveFiles
import CacheX.Workers

/-!
# Shutting down

`main` of `server_main.cpp` from the start of the server to its end: the accept loop and the worker
threads (`Pool`), the commands on the connections, `PeriodicSaver::run` and `stop`, and the final
save. A save exports one shard after the other and then writes (`Act`), and a `LOAD` replays one
record after the other; all these steps interleave in any way.

* `execute_calls`: what a command does to the cache, as calls.
* `Worker.Step.ok`, `Worker.Step.run_calls`: every command makes its calls, step by step.
* `ServerMain.Inv.step`: the invariant. Once `main` is past the saver it is alone.
* `ServerMain.shutdown_loses_nothing`: what the snapshot has after the final save.
-/

namespace CacheX

open Decimal (ascii)

variable {stdHash : Bytes → UInt64} {persistence : Bool} {path : Bytes}

/-! ## The calls of a command -/

/-- The call that replays a record, with the steady clock at `now`. -/
def replayCall (elapsed : Millis) (now : Time) (record : Record) : Option (Time × Op) :=
  if record.ttlMs = kNoExpiry then some (now, .set record.key record.value)
  else
    let remaining := record.ttlMs - elapsed
    if 0 < remaining then some (now, .setTtl record.key record.value remaining) else none

def replayCalls (elapsed : Millis) (clock : Nat → Time) (records : List (Record × Nat)) :
    List (Time × Op) :=
  records.flatMap fun p => (replayCall elapsed (clock p.2) p.1).toList

/-- The calls of `load`. -/
def loadCalls (file : Option Bytes) (wall : Millis) (clock : Nat → Time) : List (Time × Op) :=
  match file.map parseSnapshot with
  | some (.ok p) => replayCalls (elapsedMs wall p.savedAt) clock p.records.zipIdx.reverse
  | _ => []

/-- The calls on the cache that a command makes. -/
def Command.calls (persistence : Bool) (env : Env) (file : Option Bytes) (command : Command) :
    List (Time × Op) :=
  match command.op with
  | some op => [(env.steady 0, op)]
  | none =>
    if command.type = .load ∧ persistence = true then loadCalls file env.wall env.steady else []

theorem run_one {sc sc' : ShardedCache} {call : Time × Op} {r : Reply}
    (h : sc.step stdHash call = some (sc', r)) : sc.run stdHash [call] = some (sc', [r]) :=
  Machine.run_cons_some h rfl

theorem replayRecord_calls {elapsed : Millis} {now : Time} {record : Record}
    {sc sc' : ShardedCache} {res res' : LoadResult}
    (h : replayRecord stdHash elapsed now record (sc, res) = some (sc', res')) :
    ∃ rs, sc.run stdHash (replayCall elapsed now record).toList = some (sc', rs) := by
  unfold replayRecord at h
  unfold replayCall
  split at h
  · next hkeep =>
    obtain ⟨sc₁, hset, he⟩ := Option.map_eq_some_iff.mp h
    cases he
    rw [if_pos hkeep]
    exact ⟨_, run_one (congrArg (Option.map fun sc => (sc, Reply.unit)) hset)⟩
  · next hkeep =>
    rw [if_neg hkeep]
    dsimp only at h ⊢
    split at h
    · next hpos =>
      obtain ⟨sc₁, hset, he⟩ := Option.map_eq_some_iff.mp h
      cases he
      rw [if_pos hpos]
      exact ⟨_, run_one (congrArg (Option.map fun sc => (sc, Reply.unit)) hset)⟩
    · next hpos =>
      cases h
      rw [if_neg hpos]
      exact ⟨_, rfl⟩

theorem replay_calls {elapsed : Millis} {clock : Nat → Time} {records : List (Record × Nat)}
    {st : ShardedCache × LoadResult} {sc' : ShardedCache} {res' : LoadResult}
    (h : records.foldlM (fun st p => replayRecord stdHash elapsed (clock p.2) p.1 st) st
      = some (sc', res')) :
    ∃ rs, st.1.run stdHash (replayCalls elapsed clock records) = some (sc', rs) := by
  induction records generalizing st with
  | nil =>
    cases h
    exact ⟨[], rfl⟩
  | cons p records ih =>
    rw [List.foldlM_cons] at h
    obtain ⟨st₁, hp, hrest⟩ := Option.bind_eq_some_iff.mp h
    obtain ⟨sc, res⟩ := st
    obtain ⟨rs, hrun⟩ := replayRecord_calls hp
    obtain ⟨rs', hrun'⟩ := ih hrest
    exact ⟨rs ++ rs', Machine.run_append hrun hrun'⟩

theorem load_calls {sc sc' : ShardedCache} {file : Option Bytes} {wall : Millis}
    {clock : Nat → Time} {res : LoadResult}
    (h : load stdHash sc file wall clock = some (sc', res)) :
    ∃ rs, sc.run stdHash (loadCalls file wall clock) = some (sc', rs) := by
  cases file with
  | none =>
    cases h
    exact ⟨[], rfl⟩
  | some bytes =>
    simp only [load] at h
    simp only [loadCalls, Option.map_some]
    generalize parseSnapshot bytes = out at h ⊢
    cases out with
    | error e =>
      cases h
      exact ⟨[], rfl⟩
    | ok p =>
      obtain ⟨st, hreplay, he⟩ := Option.map_eq_some_iff.mp h
      cases he
      exact replay_calls hreplay

/-- A command does to the cache what its calls do. -/
theorem execute_calls {env : Env} {w w' : World} {command : Command} {reply : Bytes}
    (h : execute stdHash persistence env w command = some (w', reply)) :
    ∃ rs, w.cache.run stdHash (command.calls persistence env w.file) = some (w'.cache, rs) := by
  unfold Command.calls
  cases hop : command.op with
  | some op =>
    rw [execute_op stdHash persistence env w hop] at h
    obtain ⟨p, hstep, he⟩ := Option.map_eq_some_iff.mp h
    cases he
    exact ⟨_, run_one hstep⟩
  | none =>
    obtain ⟨type, key, value, ttl⟩ := command
    cases type with
    | load =>
      cases persistence with
      | false =>
        cases h
        exact ⟨[], rfl⟩
      | true =>
        obtain ⟨p, hload, he⟩ := Option.map_eq_some_iff.mp h
        cases he
        exact load_calls hload
    | save =>
      cases persistence with
      | false =>
        cases h
        exact ⟨[], rfl⟩
      | true =>
        cases h
        exact ⟨[], rfl⟩
    | ping | quit =>
      cases h
      exact ⟨[], rfl⟩
    | set => cases ttl <;> cases hop
    | _ => cases hop

/-! ## The threads -/

/-- A call of `PersistenceManager::save`: it exports one shard after the other and then writes. -/
inductive SaveCall
  | exporting (env : Env) (parts : List (List EntrySnapshot))
  | writing (save : Save)

/-- One step of a call of `save`, in a process that nothing kills. -/
inductive SaveCall.Step (path : Bytes) (cache : ShardedCache) (proc : Proc) (fs : Fs) :
    SaveCall → Proc → SaveCall → Fs → Prop
  | exportShard {env : Env} {parts : List (List EntrySnapshot)} {c : Cache} :
    cache.shards[parts.length]? = some c →
    Step path cache proc fs (.exporting env parts) proc
      (.exporting env (parts ++ [c.exportEntries (env.steady parts.length)])) fs
  | write {env : Env} {parts : List (List EntrySnapshot)} :
    parts.length = cache.shards.length →
    Step path cache proc fs (.exporting env parts) proc
      (.writing { proc := 0, wall := env.wall, entries := parts.flatten }) fs
  | act {save save' : Save} {proc' : Proc} {fs' : Fs} : Act path proc save fs proc' save' fs' →
    save'.stage ≠ .crashed → Step path cache proc fs (.writing save) proc' (.writing save') fs'

/-- Where the thread of a connection is in a command. -/
inductive Work
  /-- `load` has parsed the file, and these records are to be replayed. -/
  | loading (elapsed : Millis) (todo : List (Record × Nat)) (result : LoadResult)
  | saving (call : SaveCall)
  /-- `execute` has returned. -/
  | replying (reply : Bytes)

/-- `load` up to the replay of the records. -/
def Work.ofLoad (file : Option Bytes) (wall : Millis) : Work :=
  match file.map parseSnapshot with
  | none => .replying (replyLoad { ok := true })
  | some (.error e) => .replying (replyLoad { error := e.text })
  | some (.ok p) => .loading (elapsedMs wall p.savedAt) p.records.zipIdx.reverse {}

/-- A command on a connection: what it reads from outside, the snapshot file as it was when the
command began, the calls it has made so far, and whether its whole reply has been sent. -/
structure Execution where
  command : Command
  env : Env
  file : Option Bytes
  calls : List (Time × Op) := []
  acknowledged : Bool := false

/-- A connection between its start and the return of `serve`. `closed` is a connection on which
`handle_line` has returned `false`, and `served` is the history of its commands. -/
structure Worker where
  closed : Bool := false
  running : Option (Execution × Work) := none
  served : List Execution := []

/-- One step of the thread of a connection, with the calls it makes. -/
inductive Worker.Step (stdHash : Bytes → UInt64) (persistence : Bool) (path : Bytes)
    (cache : ShardedCache) (proc : Proc) (fs : Fs) (worker : Worker) :
    List (Time × Op) → Worker → ShardedCache → Proc → Fs → Prop
  | execute (command : Command) (env : Env) {w : World} {reply : Bytes} :
    worker.closed = false → worker.running = none →
    (command.type = .save ∨ command.type = .load → persistence = false) →
    execute stdHash persistence env ⟨cache, fs.read path⟩ command = some (w, reply) →
    Step stdHash persistence path cache proc fs worker
      (command.calls persistence env (fs.read path))
      { worker with
        running := some ({
          command := command
          env := env
          file := fs.read path
          calls := command.calls persistence env (fs.read path) }, .replying reply) }
      w.cache proc fs
  | save {command : Command} (env : Env) : worker.closed = false → worker.running = none →
    command.type = .save → persistence = true →
    Step stdHash persistence path cache proc fs worker []
      { worker with
        running := some ({ command := command, env := env, file := fs.read path },
          .saving (.exporting env [])) }
      cache proc fs
  | saveStep {x : Execution} {call call' : SaveCall} {proc' : Proc} {fs' : Fs} :
    worker.running = some (x, .saving call) → call.Step path cache proc fs proc' call' fs' →
    Step stdHash persistence path cache proc fs worker []
      { worker with running := some (x, .saving call') } cache proc' fs'
  | saved {x : Execution} {save : Save} {result : SaveResult} :
    worker.running = some (x, .saving (.writing save)) → save.stage = .returned result →
    Step stdHash persistence path cache proc fs worker []
      { worker with running := some (x, .replying (replySave result)) } cache proc fs
  | load {command : Command} (env : Env) : worker.closed = false → worker.running = none →
    command.type = .load → persistence = true →
    Step stdHash persistence path cache proc fs worker []
      { worker with
        running := some ({ command := command, env := env, file := fs.read path },
          .ofLoad (fs.read path) env.wall) }
      cache proc fs
  | replay {x : Execution} {elapsed : Millis} {p : Record × Nat} {todo : List (Record × Nat)}
    {result result' : LoadResult} {cache' : ShardedCache} :
    worker.running = some (x, .loading elapsed (p :: todo) result) →
    replayRecord stdHash elapsed (x.env.steady p.2) p.1 (cache, result)
      = some (cache', result') →
    Step stdHash persistence path cache proc fs worker
      (replayCall elapsed (x.env.steady p.2) p.1).toList
      { worker with
        running := some ({ x with
          calls := x.calls ++ (replayCall elapsed (x.env.steady p.2) p.1).toList },
          .loading elapsed todo result') }
      cache' proc fs
  | loaded {x : Execution} {elapsed : Millis} {result : LoadResult} :
    worker.running = some (x, .loading elapsed [] result) →
    Step stdHash persistence path cache proc fs worker []
      { worker with running := some (x, .replying (replyLoad { result with ok := true })) }
      cache proc fs
  | reply {x : Execution} {reply : Bytes} (sent : Bool) :
    worker.running = some (x, .replying reply) →
    Step stdHash persistence path cache proc fs worker []
      { closed := !(sent && x.command.type != .quit)
        running := none
        served := worker.served ++ [{ x with acknowledged := sent }] }
      cache proc fs

/-- Where `PeriodicSaver::run` is. -/
inductive Saver
  | waiting
  | saving (call : SaveCall)
  | exited

/-- One step of `PeriodicSaver::run`. -/
inductive Saver.Step (path : Bytes) (cache : ShardedCache) (proc : Proc) (fs : Fs)
    (stopping : Bool) : Saver → Proc → Saver → Fs → Prop
  | due (env : Env) : stopping = false →
    Step path cache proc fs stopping .waiting proc (.saving (.exporting env [])) fs
  | told : stopping = true → Step path cache proc fs stopping .waiting proc .exited fs
  | saveStep {call call' : SaveCall} {proc' : Proc} {fs' : Fs} :
    call.Step path cache proc fs proc' call' fs' →
    Step path cache proc fs stopping (.saving call) proc' (.saving call') fs'
  | saved {save : Save} {result : SaveResult} : save.stage = .returned result →
    Step path cache proc fs stopping (.saving (.writing save)) proc .waiting fs

/-- Where `main` is. -/
inductive Main
  /-- In `server.run()`. -/
  | running
  /-- In `saver->stop()`, before `stopping_` is set. -/
  | stopSaver
  | joinSaver
  /-- The saver is stopped, or there is none. -/
  | stopped
  /-- The final save. -/
  | saving (call : SaveCall)
  /-- `main` is about to return, with the final save if there was one. -/
  | done (last : Option Save)

namespace Main

/-- Workers and saver are joined. -/
def alone : Main → Bool
  | stopped => true
  | saving _ => true
  | done _ => true
  | _ => false

/-- The final save. -/
def call : Main → Option SaveCall
  | saving call => some call
  | done (some save) => some (.writing save)
  | _ => none

end Main

/-- The process: `main`, the server with its connections, the saver, the cache and the files. The
log is the history of the calls on the cache, with the connection that made each. -/
structure ServerMain where
  main : Main := .running
  pool : Pool := {}
  workers : Nat → Worker := fun _ => {}
  saver : Option Saver := none
  stopping : Bool := false
  cache : ShardedCache
  proc : Proc
  fs : Fs
  log : List (Nat × (Time × Op)) := []

namespace ServerMain

/-- `main` up to `server.run()`. A `capacity` of zero is an unbounded cache, and a snapshot that
`load` refuses is ignored. -/
def startup (stdHash : Bytes → UInt64) (persistence : Bool) (path : Bytes)
    (capacity shards saveInterval pid : Nat) (fs : Fs) (env : Env) : Option ServerMain :=
  let cache := ShardedCache.new shards (if 0 < capacity then some capacity else none)
  let restored :=
    if persistence then (load stdHash cache (fs.read path) env.wall env.steady).map Prod.fst
    else some cache
  restored.map fun cache => {
    saver := if persistence = true ∧ 0 < saveInterval then some .waiting else none
    cache := cache
    proc := { pid := pid }
    fs := fs }

/-- One step of any thread. A worker leaves `serve` between two commands. -/
inductive Step (stdHash : Bytes → UInt64) (persistence : Bool) (maxConnections : UInt64)
    (path : Bytes) (s : ServerMain) : ServerMain → Prop
  | pool {pool' : Pool} : s.pool.Step maxConnections pool' →
    (∀ id, s.pool.stages[id]? = some .serving → pool'.stages[id]? ≠ some .serving →
      (s.workers id).running = none) →
    Step stdHash persistence maxConnections path s { s with pool := pool' }
  | worker (id : Nat) {calls : List (Time × Op)} {worker' : Worker} {cache' : ShardedCache}
    {proc' : Proc} {fs' : Fs} : s.pool.stages[id]? = some .serving →
    (s.workers id).Step stdHash persistence path s.cache s.proc s.fs calls worker' cache' proc'
      fs' →
    Step stdHash persistence maxConnections path s { s with
      workers := Function.update s.workers id worker'
      cache := cache'
      proc := proc'
      fs := fs'
      log := s.log ++ calls.map fun call => (id, call) }
  | saver {saver saver' : Saver} {proc' : Proc} {fs' : Fs} : s.saver = some saver →
    saver.Step path s.cache s.proc s.fs s.stopping proc' saver' fs' →
    Step stdHash persistence maxConnections path s { s with
      saver := some saver'
      proc := proc'
      fs := fs' }
  | ran : s.main = .running → s.pool.loop = .returned →
    Step stdHash persistence maxConnections path s { s with
      main := if s.saver.isSome then .stopSaver else .stopped }
  | stopSaver : s.main = .stopSaver →
    Step stdHash persistence maxConnections path s { s with main := .joinSaver, stopping := true }
  | joined : s.main = .joinSaver → s.saver = some .exited →
    Step stdHash persistence maxConnections path s { s with main := .stopped }
  | finalSave (env : Env) : s.main = .stopped → persistence = true →
    Step stdHash persistence maxConnections path s { s with main := .saving (.exporting env []) }
  | noSave : s.main = .stopped → persistence = false →
    Step stdHash persistence maxConnections path s { s with main := .done none }
  | saveStep {call call' : SaveCall} {proc' : Proc} {fs' : Fs} : s.main = .saving call →
    call.Step path s.cache s.proc s.fs proc' call' fs' →
    Step stdHash persistence maxConnections path s { s with
      main := .saving call'
      proc := proc'
      fs := fs' }
  | saved {save : Save} {result : SaveResult} : s.main = .saving (.writing save) →
    save.stage = .returned result →
    Step stdHash persistence maxConnections path s { s with main := .done (some save) }

/-- Any number of steps. -/
def Reaches (stdHash : Bytes → UInt64) (persistence : Bool) (maxConnections : UInt64)
    (path : Bytes) : ServerMain → ServerMain → Prop :=
  Relation.ReflTransGen (Step stdHash persistence maxConnections path)

/-- The calls that connection `id` has made. -/
def callsOf (s : ServerMain) (id : Nat) : List (Time × Op) :=
  (s.log.filter fun p => p.1 = id).map Prod.snd

end ServerMain

/-! ## Connections -/

/-- The calls that are left of a command. -/
def Work.rest (env : Env) : Work → List (Time × Op)
  | .loading elapsed todo _ => replayCalls elapsed env.steady todo
  | _ => []

/-- The calls of a connection so far. -/
def Worker.calls (worker : Worker) : List (Time × Op) :=
  worker.served.flatMap Execution.calls ++ worker.running.toList.flatMap fun p => p.1.calls

/-- Every command makes its calls. -/
structure Worker.Ok (persistence : Bool) (worker : Worker) : Prop where
  running : ∀ x work, worker.running = some (x, work) →
    x.calls ++ work.rest x.env = x.command.calls persistence x.env x.file
  served : ∀ x ∈ worker.served, x.calls = x.command.calls persistence x.env x.file

theorem Work.rest_ofLoad (file : Option Bytes) (env : Env) :
    (Work.ofLoad file env.wall).rest env = loadCalls file env.wall env.steady := by
  unfold Work.ofLoad loadCalls
  generalize file.map parseSnapshot = out
  match out with
  | none => rfl
  | some (.error _) => rfl
  | some (.ok _) => rfl

namespace Command

theorem calls_of_save {command : Command} (h : command.type = .save) (env : Env)
    (file : Option Bytes) : command.calls persistence env file = [] := by
  have hop : command.op = none := by rw [op, h]
  rw [calls, hop, h]
  rfl

theorem calls_of_load {command : Command} (h : command.type = .load) (env : Env)
    (file : Option Bytes) :
    command.calls true env file = loadCalls file env.wall env.steady := by
  have hop : command.op = none := by rw [op, h]
  rw [calls, hop, h]
  rfl

end Command

namespace Worker

variable {cache cache' : ShardedCache} {proc proc' : Proc} {fs fs' : Fs} {worker worker' : Worker}
  {calls : List (Time × Op)}

/-- The command that runs goes on. -/
theorem Ok.go_on (hok : worker.Ok persistence) {x : Execution} {work : Work}
    (h : x.calls ++ work.rest x.env = x.command.calls persistence x.env x.file) :
    Ok persistence { worker with running := some (x, work) } :=
  ⟨fun y work' hy => by cases hy; exact h, hok.served⟩

theorem Step.ok
    (h : worker.Step stdHash persistence path cache proc fs calls worker' cache' proc' fs')
    (hok : worker.Ok persistence) : worker'.Ok persistence := by
  cases h with
  | execute => exact hok.go_on (List.append_nil _)
  | save env _ _ hsave => exact hok.go_on (Command.calls_of_save hsave _ _).symm
  | saveStep hrun | saved hrun | loaded hrun =>
    have hx := hok.running _ _ hrun
    exact hok.go_on hx
  | load env _ _ hload hpers =>
    subst hpers
    exact hok.go_on ((Work.rest_ofLoad _ env).trans (Command.calls_of_load hload _ _).symm)
  | replay hrun =>
    have hx := hok.running _ _ hrun
    exact hok.go_on ((List.append_assoc ..).trans hx)
  | @reply x _ sent hrun =>
    refine ⟨fun _ _ hy => (nomatch hy), fun y hy => ?_⟩
    rcases List.mem_append.mp hy with hy | hy
    · exact hok.served y hy
    · rw [List.mem_singleton.mp hy]
      have hx := hok.running _ _ hrun
      exact (List.append_nil x.calls).symm.trans hx

theorem calls_of_running {x : Execution} {work : Work} (h : worker.running = some (x, work)) :
    worker.calls = worker.served.flatMap Execution.calls ++ x.calls := by
  rw [calls, h, Option.toList_some, List.flatMap_singleton]

theorem calls_of_idle (h : worker.running = none) :
    worker.calls = worker.served.flatMap Execution.calls := by
  rw [calls, h, Option.toList_none, List.flatMap_nil, List.append_nil]

theorem Step.calls_append
    (h : worker.Step stdHash persistence path cache proc fs calls worker' cache' proc' fs') :
    worker'.calls = worker.calls ++ calls := by
  cases h with
  | execute _ _ _ hidle | save _ _ hidle | load _ _ hidle =>
    rw [calls_of_idle hidle, calls_of_running rfl]
  | saveStep hrun | saved hrun | loaded hrun =>
    rw [calls_of_running hrun, calls_of_running rfl, List.append_nil]
  | replay hrun => rw [calls_of_running hrun, calls_of_running rfl, List.append_assoc]
  | reply sent hrun =>
    rw [calls_of_running hrun, calls_of_idle rfl, List.flatMap_append, List.flatMap_singleton,
      List.append_nil]

/-- The cache after a step is the cache after its calls. -/
theorem Step.run_calls
    (h : worker.Step stdHash persistence path cache proc fs calls worker' cache' proc' fs') :
    ∃ rs, cache.run stdHash calls = some (cache', rs) := by
  cases h with
  | execute _ _ _ _ _ hexec => exact execute_calls hexec
  | replay _ hreplay => exact replayRecord_calls hreplay
  | _ => exact ⟨[], rfl⟩

end Worker

/-! ## The final save -/

/-- The export of the first shards of the cache. -/
def Exported (cache : ShardedCache) (env : Env) (parts : List (List EntrySnapshot)) : Prop :=
  parts = (cache.shards.zipIdx.take parts.length).map fun p =>
    p.1.exportEntries (env.steady p.2)

/-- What holds of a save while nothing else touches the cache and the files. -/
def SaveCall.Ok (path : Bytes) (cache : ShardedCache) (proc : Proc) (fs : Fs) : SaveCall → Prop
  | .exporting env parts => Exported cache env parts
  | .writing save =>
    (∃ env : Env, save.wall = env.wall ∧ save.entries = cache.exportEntries env.steady) ∧
      StageOk path proc fs save ∧
      ∀ r, save.stage = .finishing r ∨ save.stage = .returned r → r.ok = true →
        fs.read path = some save.output

namespace SaveCall

variable {cache : ShardedCache} {proc proc' : Proc} {fs fs' : Fs}

theorem exported_snoc {env : Env} {parts : List (List EntrySnapshot)} {c : Cache}
    (h : Exported cache env parts) (hc : cache.shards[parts.length]? = some c) :
    Exported cache env (parts ++ [c.exportEntries (env.steady parts.length)]) := by
  have hzip : cache.shards.zipIdx[parts.length]? = some (c, parts.length) := by
    rw [List.getElem?_zipIdx, hc, Nat.zero_add]
    rfl
  unfold Exported at h ⊢
  rw [List.length_append, List.length_singleton, List.take_add_one, hzip, Option.toList_some,
    List.map_append, ← h]
  rfl

theorem exported_all {env : Env} {parts : List (List EntrySnapshot)} (h : Exported cache env parts)
    (hlen : parts.length = cache.shards.length) :
    parts.flatten = cache.exportEntries env.steady := by
  unfold Exported at h
  rw [List.take_of_length_le (by rw [List.length_zipIdx, hlen])] at h
  rw [h, ShardedCache.exportEntries, List.flatMap_def]

theorem Step.ok {call call' : SaveCall} (h : call.Step path cache proc fs proc' call' fs')
    (hok : call.Ok path cache proc fs) : call'.Ok path cache proc' fs' := by
  cases h with
  | exportShard hc => exact exported_snoc hok hc
  | write hlen =>
    refine ⟨⟨_, rfl, exported_all hok hlen⟩, rfl, fun r hst => ?_⟩
    rcases hst with h | h <;> cases h
  | @act save save' _ _ hact =>
    obtain ⟨⟨env, hwall, hentries⟩, hstage, hread⟩ := hok
    refine ⟨⟨env, hact.content.1.trans hwall, hact.content.2.trans hentries⟩, hact.stageOk hstage,
      fun r hst hr => ?_⟩
    rw [hact.output]
    rcases hact.lookup_path hstage with ⟨hsame, hnot⟩ | ⟨hnew, -⟩
    · rw [FileSystem.read, hsame]
      rcases hact.succeeds hstage hst hr with hfin | ⟨hflushed, hfin⟩
      · exact hread r (Or.inl hfin) hr
      · exact absurd ⟨hflushed, r, hfin⟩ hnot
    · exact hnew

end SaveCall

/-! ## The invariant -/

namespace Pool

variable {maxConnections : UInt64} {s s' : Pool}

theorem returned_next (hstep : Step maxConnections s s') (h : s.loop = .returned) :
    s'.loop = .returned := by
  cases hstep with
  | stop | release | finish | exit => exact h
  | polled _ hl => cases h.symm.trans hl
  | _ hl => cases h.symm.trans hl

/-- Once `run` has returned, nothing is served. -/
theorem Inv.not_serving (h : Inv maxConnections s) (hreturned : s.loop = .returned) (id : Nat) :
    s.stages[id]? ≠ some .serving := by
  intro hserving
  have hstarted : s.started id = true := by
    rw [started, hserving]
    rfl
  cases hserving.symm.trans (h.joined id (h.joined_of_returned hreturned hstarted))

end Pool

namespace ServerMain

/-- What holds in every state of a run that starts with the cache `sc`. -/
structure Inv (stdHash : Bytes → UInt64) (persistence : Bool) (maxConnections : UInt64)
    (path : Bytes) (sc : ShardedCache) (s : ServerMain) : Prop where
  pool : s.pool.Inv maxConnections
  running : ∀ id, (s.workers id).running ≠ none → s.pool.stages[id]? = some .serving
  returned : s.main ≠ .running → s.pool.loop = .returned
  saver : s.main.alone = true → s.saver = none ∨ s.saver = some .exited
  workers : ∀ id, (s.workers id).Ok persistence
  log : ∀ id, s.callsOf id = (s.workers id).calls
  cache : ∃ rs, sc.run stdHash (s.log.map Prod.snd) = some (s.cache, rs)
  final : ∀ call, s.main.call = some call → call.Ok path s.cache s.proc s.fs

variable {maxConnections : UInt64} {sc : ShardedCache} {s s' : ServerMain}

theorem alone_of_call {main : Main} {call : SaveCall} (h : main.call = some call) :
    main.alone = true := by
  cases main with
  | saving => rfl
  | done => rfl
  | _ => cases h

theorem not_running_of_alone {main : Main} (h : main.alone = true) : main ≠ .running := by
  rintro rfl
  cases h

theorem Inv.running_of_serving (h : Inv stdHash persistence maxConnections path sc s) {id : Nat}
    (hid : s.pool.stages[id]? = some .serving) : s.main = .running := by
  by_contra hne
  exact h.pool.not_serving (h.returned hne) id hid

theorem callsOf_append (s : ServerMain) (id : Nat) (calls : List (Time × Op)) (j : Nat) :
    ((s.log ++ calls.map fun call => (id, call)).filter fun p => p.1 = j).map Prod.snd
      = s.callsOf j ++ if id = j then calls else [] := by
  rw [List.filter_append, List.map_append, callsOf, List.filter_map, List.map_map]
  congr 1
  by_cases hid : id = j
  · simp [hid, Function.comp_def]
  · simp [hid, Function.comp_def]

theorem Inv.worker_step (h : Inv stdHash persistence maxConnections path sc s) {id : Nat}
    {calls : List (Time × Op)} {worker' : Worker} {cache' : ShardedCache} {proc' : Proc} {fs' : Fs}
    (hid : s.pool.stages[id]? = some .serving)
    (hstep : (s.workers id).Step stdHash persistence path s.cache s.proc s.fs calls worker' cache'
      proc' fs') :
    Inv stdHash persistence maxConnections path sc { s with
      workers := Function.update s.workers id worker'
      cache := cache'
      proc := proc'
      fs := fs'
      log := s.log ++ calls.map fun call => (id, call) } := by
  have hmain := h.running_of_serving hid
  have hupdate : ∀ {P : Nat → Worker → Prop}, P id worker' → (∀ j, j ≠ id → P j (s.workers j)) →
      ∀ j, P j (Function.update s.workers id worker' j) := by
    intro P hself hother j
    rcases eq_or_ne j id with rfl | hne
    · rw [Function.update_self]
      exact hself
    · rw [Function.update_of_ne hne]
      exact hother j hne
  obtain ⟨rs, hrun⟩ := h.cache
  obtain ⟨rs', hrun'⟩ := hstep.run_calls
  exact {
    pool := h.pool
    running := hupdate (P := fun j worker => worker.running ≠ none →
      s.pool.stages[j]? = some .serving) (fun _ => hid) fun j _ => h.running j
    returned := h.returned
    saver := fun halone => absurd hmain (not_running_of_alone halone)
    workers := hupdate (P := fun _ worker => worker.Ok persistence) (hstep.ok (h.workers id))
      fun j _ => h.workers j
    log := hupdate (P := fun j worker => ServerMain.callsOf _ j = worker.calls)
      ((callsOf_append s id calls id).trans (by rw [if_pos rfl, h.log, hstep.calls_append]))
      fun j hj => (callsOf_append s id calls j).trans
        (by rw [if_neg hj.symm, List.append_nil, h.log])
    cache := ⟨rs ++ rs', by
      rw [List.map_append, List.map_map]
      exact Machine.run_append hrun (by rwa [Function.comp_def, List.map_id'])⟩
    final := fun call hcall => absurd hmain (not_running_of_alone (alone_of_call hcall)) }

/-- `main` goes on, and nothing else changes. -/
theorem Inv.main_step (h : Inv stdHash persistence maxConnections path sc s) {main' : Main}
    {stopping' : Bool} (hreturned : s.pool.loop = .returned)
    (hsaver : main'.alone = true → s.saver = none ∨ s.saver = some .exited)
    (hfinal : ∀ call, main'.call = some call → call.Ok path s.cache s.proc s.fs) :
    Inv stdHash persistence maxConnections path sc
      { s with main := main', stopping := stopping' } where
  pool := h.pool
  running := h.running
  returned _ := hreturned
  saver := hsaver
  workers := h.workers
  log := h.log
  cache := h.cache
  final := hfinal

/-- The saver has no step left when `main` is alone. -/
theorem Inv.not_alone (h : Inv stdHash persistence maxConnections path sc s) {saver saver' : Saver}
    {proc' : Proc} {fs' : Fs} (hsaver : s.saver = some saver)
    (hstep : saver.Step path s.cache s.proc s.fs s.stopping proc' saver' fs') :
    s.main.alone = false := by
  rw [← Bool.not_eq_true]
  intro halone
  rcases h.saver halone with hnone | hexited
  · cases hsaver.symm.trans hnone
  · cases hsaver.symm.trans hexited
    cases hstep

theorem Inv.step (h : Inv stdHash persistence maxConnections path sc s)
    (hstep : Step stdHash persistence maxConnections path s s') :
    Inv stdHash persistence maxConnections path sc s' := by
  have hreturned : ∀ {main : Main}, s.main = main → main ≠ .running → s.pool.loop = .returned :=
    fun hmain hne => h.returned (hmain ▸ hne)
  cases hstep with
  | pool hpool hleave =>
    exact {
      pool := h.pool.step hpool
      running := fun id hrun => by
        by_contra hnot
        exact hrun (hleave id (h.running id hrun) hnot)
      returned := fun hne => Pool.returned_next hpool (h.returned hne)
      saver := h.saver
      workers := h.workers
      log := h.log
      cache := h.cache
      final := h.final }
  | worker _ hid hworker => exact h.worker_step hid hworker
  | saver hsaver hstep =>
    have hbusy := h.not_alone hsaver hstep
    exact {
      pool := h.pool
      running := h.running
      returned := h.returned
      saver := fun halone => by cases hbusy.symm.trans halone
      workers := h.workers
      log := h.log
      cache := h.cache
      final := fun call hcall => by cases hbusy.symm.trans (alone_of_call hcall) }
  | ran hmain hloop =>
    refine h.main_step hloop (fun halone => ?_) fun call hcall => ?_
    · cases hsaver : s.saver with
      | none => exact Or.inl rfl
      | some saver =>
        rw [hsaver] at halone
        cases halone
    · cases hsaver : s.saver with
      | none =>
        rw [hsaver] at hcall
        cases hcall
      | some saver =>
        rw [hsaver] at hcall
        cases hcall
  | stopSaver hmain =>
    exact h.main_step (hreturned hmain Main.noConfusion) (fun halone => nomatch halone)
      fun call hcall => nomatch hcall
  | joined hmain hexited =>
    exact h.main_step (hreturned hmain Main.noConfusion) (fun _ => Or.inr hexited)
      fun call hcall => nomatch hcall
  | finalSave env hmain =>
    refine h.main_step (hreturned hmain Main.noConfusion) (fun _ => h.saver (hmain ▸ rfl)) ?_
    intro call hcall
    cases hcall
    rfl
  | noSave hmain =>
    exact h.main_step (hreturned hmain Main.noConfusion) (fun _ => h.saver (hmain ▸ rfl))
      fun call hcall => nomatch hcall
  | saveStep hmain hcall =>
    have hok := h.final _ (congrArg Main.call hmain)
    exact {
      pool := h.pool
      running := h.running
      returned := fun _ => hreturned hmain Main.noConfusion
      saver := fun _ => h.saver (hmain ▸ rfl)
      workers := h.workers
      log := h.log
      cache := h.cache
      final := fun call' hcall' => by
        cases hcall'
        exact hcall.ok hok }
  | saved hmain hst =>
    refine h.main_step (hreturned hmain Main.noConfusion) (fun _ => h.saver (hmain ▸ rfl)) ?_
    intro call hcall
    cases hcall
    exact h.final _ (hmain ▸ rfl)

theorem Inv.reaches (h : Inv stdHash persistence maxConnections path sc s)
    (hreach : Reaches stdHash persistence maxConnections path s s') :
    Inv stdHash persistence maxConnections path sc s' := by
  induction hreach with
  | refl => exact h
  | tail _ hstep ih => exact ih.step hstep

theorem Inv.start {capacity shards saveInterval pid : Nat} {fs : Fs} {env : Env}
    (h : startup stdHash persistence path capacity shards saveInterval pid fs env = some s) :
    Inv stdHash persistence maxConnections path s.cache s := by
  obtain ⟨cache, -, rfl⟩ := Option.map_eq_some_iff.mp h
  exact {
    pool := .start maxConnections
    running := fun _ hrun => absurd rfl hrun
    returned := fun hne => absurd rfl hne
    saver := fun halone => nomatch halone
    workers := fun _ => ⟨fun _ _ hrun => (nomatch hrun), fun _ hx => (nomatch hx)⟩
    log := fun _ => rfl
    cache := ⟨[], rfl⟩
    final := fun _ hcall => nomatch hcall }

/-! ## After the final save -/

/-- A save that is told its result does nothing to the files any more. -/
theorem act_finished {proc proc' : Proc} {save save' : Save} {fs fs' : Fs} {r : SaveResult}
    (h : Act path proc save fs proc' save' fs') (hcrash : save'.stage ≠ .crashed)
    (hst : save.stage = .finishing r ∨ save.stage = .returned r) :
    fs' = fs ∧ save'.stage = .returned r := by
  have hnot : ∀ {stage : Stage}, save.stage = stage → (∀ r, stage ≠ .finishing r) →
      (∀ r, stage ≠ .returned r) → False := by
    rintro stage rfl hfin hret
    rcases hst with h | h
    · exact hfin r h
    · exact hret r h
  cases h with
  | ret hst' =>
    rcases hst with h | h <;> cases hst'.symm.trans h
    exact ⟨rfl, rfl⟩
  | crash => exact absurd rfl hcrash
  | write _ hst' | renameFailed _ hst' =>
    exact (hnot hst' (fun _ => Stage.noConfusion) fun _ => Stage.noConfusion).elim
  | _ hst' => exact (hnot hst' (fun _ => Stage.noConfusion) fun _ => Stage.noConfusion).elim

/-- After the final save has got its result, nothing happens to the files and to the cache. -/
theorem Inv.settled_step (h : Inv stdHash persistence maxConnections path sc s) {final : Save}
    {r : SaveResult} (hcall : s.main.call = some (.writing final))
    (hst : final.stage = .finishing r ∨ final.stage = .returned r)
    (hstep : Step stdHash persistence maxConnections path s s') :
    s'.fs = s.fs ∧ s'.cache = s.cache ∧ s'.log = s.log ∧
      ∃ final', s'.main.call = some (.writing final') ∧
        (final'.stage = .finishing r ∨ final'.stage = .returned r) := by
  have halone := alone_of_call hcall
  cases hstep with
  | pool => exact ⟨rfl, rfl, rfl, final, hcall, hst⟩
  | worker _ hid =>
    exact absurd (h.running_of_serving hid) (not_running_of_alone halone)
  | saver hsaver hstep => cases halone.symm.trans (h.not_alone hsaver hstep)
  | saveStep hmain hstep =>
    rw [hmain] at hcall
    cases hcall
    cases hstep with
    | act hact hcrash =>
      obtain ⟨hfs, hret⟩ := act_finished hact hcrash hst
      exact ⟨hfs, rfl, rfl, _, rfl, Or.inr hret⟩
  | saved hmain =>
    rw [hmain] at hcall
    cases hcall
    exact ⟨rfl, rfl, rfl, final, rfl, hst⟩
  | finalSave _ hmain =>
    rw [hmain] at hcall
    cases hcall
  | _ hmain =>
    rw [hmain] at hcall
    cases hcall

theorem Inv.settled (h : Inv stdHash persistence maxConnections path sc s) {final : Save}
    {r : SaveResult} (hcall : s.main.call = some (.writing final))
    (hst : final.stage = .finishing r ∨ final.stage = .returned r)
    (hlater : Reaches stdHash persistence maxConnections path s s') :
    s'.fs = s.fs ∧ s'.cache = s.cache ∧ s'.log = s.log ∧
      ∃ final', s'.main.call = some (.writing final') ∧
        (final'.stage = .finishing r ∨ final'.stage = .returned r) := by
  induction hlater with
  | refl => exact ⟨rfl, rfl, rfl, final, hcall, hst⟩
  | tail hsteps hstep ih =>
    obtain ⟨hfs, hcache, hlog, final', hcall', hst'⟩ := ih
    obtain ⟨hfs', hcache', hlog', hfinal⟩ := (h.reaches hsteps).settled_step hcall' hst' hstep
    exact ⟨hfs'.trans hfs, hcache'.trans hcache, hlog'.trans hlog, hfinal⟩

/-- An entry that has not expired is in the export of its shard. -/
theorem mem_export {cache : ShardedCache} {clock : Nat → Time} {i : Nat} {c : Cache} {e : Entry}
    (hc : cache.shards[i]? = some c) (he : e ∈ c.entries.toList)
    (hlive : isExpired (clock i) e = false) :
    ∃ x ∈ cache.exportEntries clock, Cache.exportEntry (clock i) e = some x := by
  obtain ⟨x, hx⟩ := RestoreLemmas.exportEntry_of_live hlive
  refine ⟨x, List.mem_flatMap.mpr ⟨(c, i), ?_, List.mem_filterMap.mpr ⟨e, he, hx⟩⟩, hx⟩
  exact List.mem_zipIdx_iff_getElem?.mpr hc

/-- **A clean shutdown loses nothing.** The final save of `main` has succeeded. Then `run` has
returned, and the snapshot is the output of that save, and nothing happens to it later, nor to the
cache. It has every entry of the cache that had not expired when the save read the clock for the
shard of the entry. The cache is what the logged calls make of the cache at the start. No command is
running, and the calls of a connection in the log are those of the commands it has executed, in
order, whether they have been acknowledged or not. -/
theorem shutdown_loses_nothing {capacity shards saveInterval pid : Nat} {fs : Fs} {env : Env}
    {s₀ s : ServerMain}
    (hstart : startup stdHash persistence path capacity shards saveInterval pid fs env = some s₀)
    (hreach : Reaches stdHash persistence maxConnections path s₀ s) {final : Save} {r : SaveResult}
    (hfinal : s.main.call = some (.writing final))
    (hst : final.stage = .finishing r ∨ final.stage = .returned r) (hok : r.ok = true) :
    s.pool.loop = .returned ∧ s.fs.read path = some final.output ∧
    (∀ s', Reaches stdHash persistence maxConnections path s s' →
      s'.fs = s.fs ∧ s'.cache = s.cache ∧ s'.log = s.log) ∧
    (∃ clock, final.entries = s.cache.exportEntries clock ∧
      ∀ (i : Nat) (c : Cache) (e : Entry), s.cache.shards[i]? = some c → e ∈ c.entries.toList →
        isExpired (clock i) e = false →
        ∃ x ∈ final.entries, Cache.exportEntry (clock i) e = some x) ∧
    (∃ rs, s₀.cache.run stdHash (s.log.map Prod.snd) = some (s.cache, rs)) ∧
    ∀ id, (s.workers id).running = none ∧
      s.callsOf id = (s.workers id).served.flatMap Execution.calls ∧
      ∀ x ∈ (s.workers id).served, x.calls = x.command.calls persistence x.env x.file := by
  have h : Inv stdHash persistence maxConnections path s₀.cache s :=
    (Inv.start hstart).reaches hreach
  have hreturned := h.returned (not_running_of_alone (alone_of_call hfinal))
  obtain ⟨⟨env', -, hentries⟩, -, hread⟩ := h.final _ hfinal
  have hidle : ∀ id, (s.workers id).running = none := by
    intro id
    by_contra hrun
    exact h.pool.not_serving hreturned id (h.running id hrun)
  refine ⟨hreturned, hread r hst hok, fun s' hlater => ?_, ⟨env'.steady, hentries, ?_⟩, h.cache,
    fun id => ⟨hidle id, ?_, (h.workers id).served⟩⟩
  · obtain ⟨hfs, hcache, hlog, -⟩ := h.settled hfinal hst hlater
    exact ⟨hfs, hcache, hlog⟩
  · intro i c e hc he hlive
    rw [hentries]
    exact mem_export hc he hlive
  · rw [h.log, Worker.calls_of_idle (hidle id)]

/-- The clocks at zero. -/
def atZero : Env := ⟨fun _ => 0, 0, .done⟩

/-- `SET k v`. -/
def setCommand : Command := { type := .set, key := [107], value := [118] }

/-- A client sets a key while the periodic saver is in the middle of a save. The server is stopped,
the saver goes on to the end of its save, and then `main` saves. -/
theorem shutdown_loses_nothing_set :
    ∃ s₀ s final, startup (fun _ => 0) true (ascii "db") 0 1 60 7 .empty atZero = some s₀ ∧
      Reaches (fun _ => 0) true 4 (ascii "db") s₀ s ∧ s.main = .done (some final) ∧
      (s.workers 0).served.map Execution.acknowledged = [true] ∧
      s.fs.read (ascii "db") = some final.output ∧
      (⟨[107], [118], none⟩ : EntrySnapshot) ∈ final.entries := by
  have hrun : ∃ s₀ s final,
      startup (fun _ => 0) true (ascii "db") 0 1 60 7 .empty atZero = some s₀ ∧
      Reaches (fun _ => 0) true 4 (ascii "db") s₀ s ∧ s.main = .done (some final) ∧
      final.stage = .returned ⟨true, 1, 32, []⟩ ∧
      (s.workers 0).served.map Execution.acknowledged = [true] ∧
      s.cache.shards[0]?.any (fun c => c.entries.toList = [⟨[107], [118], none⟩]) = true := by
    have hstay : ∀ {s : ServerMain} {pool' : Pool}, pool'.stages = s.pool.stages → ∀ id,
        s.pool.stages[id]? = some .serving → pool'.stages[id]? ≠ some .serving →
        (s.workers id).running = none := fun heq id h hn => absurd (heq ▸ h) hn
    refine ⟨_, ?s, ?final, rfl, ?_, ?_, ?_, ?_, ?_⟩
    rotate_left 2
    · -- the saver exports the empty cache
      refine .head (.saver rfl (.due atZero rfl)) ?_
      refine .head (.saver rfl (.saveStep (.exportShard rfl))) ?_
      refine .head (.saver rfl (.saveStep (.write rfl))) ?_
      -- a connection comes and sets the key
      refine .head (.pool (.again rfl rfl) (hstay rfl)) ?_
      refine .head (.pool (.polled true rfl) (hstay rfl)) ?_
      refine .head (.pool (.reapDone rfl (by decide)) (hstay rfl)) ?_
      refine .head (.pool (.accept rfl) fun _ _ _ => rfl) ?_
      refine .head (.pool (.free rfl (by decide)) (hstay rfl)) ?_
      refine .head (.pool (.number rfl) (hstay rfl)) ?_
      refine .head (.pool (.count rfl) fun _ _ _ => rfl) ?_
      refine .head (.pool (.create rfl) fun _ _ _ => rfl) ?_
      refine .head (.pool (.push rfl) (hstay rfl)) ?_
      refine .head (.worker 0 rfl (.execute setCommand atZero rfl rfl (by decide) rfl)) ?_
      refine .head (.worker 0 rfl (.reply true rfl)) ?_
      -- the server is stopped, and the connection ends
      refine .head (.pool .stop (hstay rfl)) ?_
      refine .head (.pool (.over rfl rfl) (hstay rfl)) ?_
      refine .head (.pool (.swap rfl) (hstay rfl)) ?_
      refine .head (.pool (@Pool.Step.release 4 _ 0 rfl) fun id h _ => ?_) ?_
      · cases id with
        | zero => rfl
        | succ => cases h
      refine .head (.pool (@Pool.Step.finish 4 _ 0 rfl) fun _ h _ => ?_) ?_
      · exact absurd (List.mem_of_getElem? h) (by decide)
      refine .head (.pool (@Pool.Step.exit 4 _ 0 rfl) fun _ h _ => ?_) ?_
      · exact absurd (List.mem_of_getElem? h) (by decide)
      refine .head (.pool (.join rfl rfl (by decide) rfl) (hstay rfl)) ?_
      refine .head (.pool (.done rfl rfl) (hstay rfl)) ?_
      refine .head (.ran rfl rfl) ?_
      refine .head (.stopSaver rfl) ?_
      -- the saver writes what it exported
      refine .head (.saver rfl (.saveStep (.act (.fetchAdd rfl) (by decide)))) ?_
      refine .head (.saver rfl (.saveStep (.act (.openTemp rfl rfl) (by decide)))) ?_
      refine .head (.saver rfl (.saveStep (.act (.write 22 rfl rfl (by decide)) (by decide)))) ?_
      refine .head (.saver rfl (.saveStep (.act (.flush rfl) (by decide)))) ?_
      refine .head (.saver rfl (.saveStep (.act (.rename rfl rfl) (by decide)))) ?_
      refine .head (.saver rfl (.saveStep (.act (.ret rfl) (by decide)))) ?_
      refine .head (.saver rfl (.saved rfl)) ?_
      refine .head (.saver rfl (.told rfl)) ?_
      refine .head (.joined rfl rfl) ?_
      -- the final save
      refine .head (.finalSave atZero rfl rfl) ?_
      refine .head (.saveStep rfl (.exportShard rfl)) ?_
      refine .head (.saveStep rfl (.write rfl)) ?_
      refine .head (.saveStep rfl (.act (.fetchAdd rfl) (by decide))) ?_
      refine .head (.saveStep rfl (.act (.openTemp rfl rfl) (by decide))) ?_
      refine .head (.saveStep rfl (.act (.write 32 rfl rfl (by decide)) (by decide))) ?_
      refine .head (.saveStep rfl (.act (.flush rfl) (by decide))) ?_
      refine .head (.saveStep rfl (.act (.rename rfl rfl) (by decide))) ?_
      refine .head (.saveStep rfl (.act (.ret rfl) (by decide))) ?_
      refine .head (.saved rfl rfl) ?_
      exact .refl
    · rfl
    · rfl
    · rfl
    · decide
  obtain ⟨s₀, s, final, hstart, hreach, hmain, hst, hacked, hthere⟩ := hrun
  obtain ⟨c, hc, he⟩ := (Option.any_eq_true _ _).mp hthere
  obtain ⟨-, hread, -, ⟨clock, -, hall⟩, -⟩ :=
    shutdown_loses_nothing hstart hreach (congrArg Main.call hmain) (Or.inr hst) rfl
  obtain ⟨x, hx, hexport⟩ := hall 0 c ⟨[107], [118], none⟩ hc
    (of_decide_eq_true he ▸ List.mem_singleton.mpr rfl) rfl
  cases hexport
  exact ⟨s₀, s, final, hstart, hreach, hmain, hacked, hread, hx⟩

end ServerMain

end CacheX
