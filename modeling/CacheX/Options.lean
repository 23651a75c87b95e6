import CacheX.Scan
import CacheX.Shutdown

/-!
# Command lines

The arguments of `server_main.cpp` and `client_main.cpp`. A count is written in digits and nothing
else: no sign, no space, nothing after it.

* `fromChars_iff`: the texts that are a number from their beginning to their end.
* `server_arguments`: the command lines that the server takes, and what it is set to by each.
* `clientSettings_iff`: the command lines that the client takes.
-/

namespace CacheX.Options

open Decimal (ascii isDigit value)

/-! ## Numbers -/

/-- `std::from_chars` for 64 bits without a sign: the number at the beginning of a text and what
comes after it. It is an error if there is no digit, or if the number does not fit. -/
def fromChars (text : Bytes) : Option (Nat × Bytes) :=
  let digits := text.takeWhile isDigit
  if digits = [] ∨ 2 ^ 64 ≤ value digits then none else some (value digits, text.dropWhile isDigit)

/-- `parse_port`. -/
def parsePort (text : Bytes) : Option UInt16 :=
  match fromChars text with
  | some (value, []) => if 65535 < value then none else some (UInt16.ofNat value)
  | _ => none

/-- `parse_count`. -/
def parseCount (text : Bytes) : Option UInt64 :=
  match fromChars text with
  | some (value, []) => some (UInt64.ofNat value)
  | _ => none

/-- Digits, with the number they stand for. -/
def IsNumeral (text : Bytes) (n : Nat) : Prop :=
  text ≠ [] ∧ (∀ d ∈ text, isDigit d = true) ∧ value text = n

theorem fromChars_iff {text : Bytes} {n : Nat} :
    fromChars text = some (n, []) ↔ IsNumeral text n ∧ n < 2 ^ 64 := by
  rw [fromChars]
  constructor
  · intro h
    split at h
    · cases h
    · rename_i hok
      obtain ⟨hvalue, hrest⟩ := Prod.mk.inj (Option.some.inj h)
      have hall := List.dropWhile_eq_nil_iff.mp hrest
      rw [List.takeWhile_eq_self_iff.mpr hall] at hok hvalue
      obtain ⟨hne, hlt⟩ := not_or.mp hok
      exact ⟨⟨hne, hall, hvalue⟩, hvalue ▸ Nat.not_le.mp hlt⟩
  · rintro ⟨⟨hne, hall, rfl⟩, hlt⟩
    rw [List.takeWhile_eq_self_iff.mpr hall, List.dropWhile_eq_nil_iff.mpr hall,
      if_neg (not_or.mpr ⟨hne, Nat.not_le.mpr hlt⟩)]

theorem parseCount_iff {text : Bytes} {n : UInt64} :
    parseCount text = some n ↔ IsNumeral text n.toNat := by
  rw [parseCount]
  constructor
  · intro h
    split at h
    · rename_i v hchars
      cases h
      obtain ⟨hnumeral, hlt⟩ := fromChars_iff.mp hchars
      rwa [UInt64.toNat_ofNat_of_lt' hlt]
    · cases h
  · intro h
    rw [fromChars_iff.mpr ⟨h, n.toNat_lt⟩]
    exact congrArg some (UInt64.ofNat_toNat ..)

theorem parsePort_iff {text : Bytes} {port : UInt16} :
    parsePort text = some port ↔ IsNumeral text port.toNat := by
  rw [parsePort]
  constructor
  · intro h
    split at h
    · rename_i v hchars
      split at h
      · cases h
      · rename_i hsmall
        cases h
        obtain ⟨hnumeral, -⟩ := fromChars_iff.mp hchars
        rwa [UInt16.toNat_ofNat_of_lt' (Nat.lt_succ_of_le (Nat.not_lt.mp hsmall))]
    · cases h
  · intro h
    have hlt := port.toNat_lt
    rw [fromChars_iff.mpr ⟨h, hlt.trans (by decide)⟩]
    simp only [if_neg (Nat.not_lt.mpr (Nat.le_of_lt_succ hlt))]
    exact congrArg some (UInt16.ofNat_toNat ..)

/-! ## The server -/

structure Settings where
  port : UInt16 := 6379
  capacity : UInt64 := 0
  shards : UInt64 := 8
  snapshotPath : Bytes := []
  saveInterval : UInt64 := 0
deriving DecidableEq, Repr

/-- An argument that may be left out. -/
def optional {α : Type} (arg : Option Bytes) (default : α) (parse : Bytes → Option α) : Option α :=
  match arg with
  | none => some default
  | some text => parse text

/-- The arguments of the server, without the name of the program. `none` is `usage` and exit code
2. -/
def settings (args : List Bytes) : Option Settings :=
  if 5 < args.length then none
  else
    (optional args[0]? 6379 parsePort).bind fun port =>
      (optional args[1]? 0 parseCount).bind fun capacity =>
        (optional args[2]? 8 parseCount).bind fun shards =>
          (optional args[4]? 0 parseCount).map fun saveInterval =>
            { port, capacity, shards, snapshotPath := args[3]?.getD [], saveInterval }

/-- `static_cast<long long>(save_interval)`, in seconds. -/
def Settings.interval (o : Settings) : Int := o.saveInterval.toInt64.toInt

theorem Settings.interval_eq (o : Settings) : o.interval =
    if 2 * o.saveInterval.toNat < 2 ^ 64 then (o.saveInterval.toNat : Int)
    else o.saveInterval.toNat - 2 ^ 64 :=
  BitVec.toInt_eq_toNat_cond o.saveInterval.toBitVec

/-- `main` up to `server.run()`, for these settings. -/
def Settings.startup (stdHash : Bytes → UInt64) (o : Settings) (pid : Nat) (fs : Fs) (env : Env) :
    Option ServerMain :=
  ServerMain.startup stdHash (decide (o.snapshotPath ≠ [])) o.snapshotPath o.capacity.toNat
    o.shards.toNat o.saveInterval.toNat pid fs env

/-- What an argument stands for, or its default. -/
def Stands (arg : Option Bytes) (default n : Nat) : Prop :=
  match arg with
  | none => n = default
  | some text => IsNumeral text n

theorem optional_iff {α : Type} {toNat : α → Nat} (hinj : Function.Injective toNat)
    {parse : Bytes → Option α} (hparse : ∀ text v, parse text = some v ↔ IsNumeral text (toNat v))
    (arg : Option Bytes) (default v : α) :
    optional arg default parse = some v ↔ Stands arg (toNat default) (toNat v) := by
  cases arg with
  | none =>
    exact ⟨fun h => congrArg toNat (Option.some.inj h).symm, fun h => congrArg some (hinj h.symm)⟩
  | some text => exact hparse text v

/-- The command lines that the server takes: at most five arguments, a port, a capacity, a number of
shards, a path and an interval, of which those at the end may be left out. -/
structure Accepted (args : List Bytes) (o : Settings) : Prop where
  count : args.length ≤ 5
  port : Stands args[0]? 6379 o.port.toNat
  capacity : Stands args[1]? 0 o.capacity.toNat
  shards : Stands args[2]? 8 o.shards.toNat
  snapshotPath : o.snapshotPath = args[3]?.getD []
  saveInterval : Stands args[4]? 0 o.saveInterval.toNat

theorem settings_iff {args : List Bytes} {o : Settings} :
    settings args = some o ↔ Accepted args o := by
  have hport (v : UInt16) := optional_iff (fun _ _ => UInt16.toNat.inj) (fun _ _ => parsePort_iff)
    args[0]? 6379 v
  have hcount (arg : Option Bytes) (d v : UInt64) :=
    optional_iff (fun _ _ => UInt64.toNat.inj) (fun _ _ => parseCount_iff) arg d v
  rw [settings]
  constructor
  · intro h
    split at h
    · cases h
    · rename_i hlen
      obtain ⟨port, hp, h⟩ := Option.bind_eq_some_iff.mp h
      obtain ⟨capacity, hc, h⟩ := Option.bind_eq_some_iff.mp h
      obtain ⟨shards, hs, h⟩ := Option.bind_eq_some_iff.mp h
      obtain ⟨saveInterval, hi, rfl⟩ := Option.map_eq_some_iff.mp h
      exact ⟨Nat.not_lt.mp hlen, (hport _).mp hp, (hcount _ _ _).mp hc, (hcount _ _ _).mp hs, rfl,
        (hcount _ _ _).mp hi⟩
  · rintro ⟨hlen, hp, hc, hs, hpath, hi⟩
    rw [if_neg (Nat.not_lt.mpr hlen), (hport _).mpr hp, Option.bind_some,
      (hcount _ 0 _).mpr hc, Option.bind_some, (hcount _ 8 _).mpr hs, Option.bind_some,
      (hcount _ 0 _).mpr hi, Option.map_some, ← hpath]

/-- The capacity of a cache is that of its shards. -/
theorem capacity_congr {sc sc' : ShardedCache}
    (h : sc'.abs.map Lru.capacity = sc.abs.map Lru.capacity) :
    sc'.capacity = sc.capacity ∧ sc'.shards.length = sc.shards.length := by
  have hshards : sc'.shards.map Cache.capacity = sc.shards.map Cache.capacity := by
    rw [ShardedCache.abs, ShardedCache.abs, List.map_map, List.map_map] at h
    exact h
  have hhead : (sc'.shards.head (List.ne_nil_of_length_pos sc'.nonempty)).capacity
      = (sc.shards.head (List.ne_nil_of_length_pos sc.nonempty)).capacity := by
    have hfirst := congrArg List.head? hshards
    rw [List.head?_map, List.head?_map,
      List.head?_eq_some_head (List.ne_nil_of_length_pos sc'.nonempty),
      List.head?_eq_some_head (List.ne_nil_of_length_pos sc.nonempty)] at hfirst
    exact Option.some.inj hfirst
  have hshares : sc'.shards.map (fun c => c.capacity.getD 0)
      = sc.shards.map fun c => c.capacity.getD 0 := by
    have hmapped := congrArg (List.map fun o => o.getD 0) hshards
    rw [List.map_map, List.map_map] at hmapped
    exact hmapped
  have hlength := congrArg List.length hshards
  rw [List.length_map, List.length_map] at hlength
  refine ⟨?_, hlength⟩
  rw [ShardedCache.capacity, ShardedCache.capacity, hhead, hshares]

/-- The cache that `main` makes. -/
theorem new_shape (shards capacity : Nat) :
    let sc := ShardedCache.new shards (if 0 < capacity then some capacity else none)
    sc.capacity = (if capacity = 0 then none else some capacity) ∧
      sc.shards.length
        = (if capacity = 0 then max 1 shards else min capacity (max 1 shards)) := by
  have hsane : saneShardCount shards = max 1 shards := by
    unfold saneShardCount
    split <;> omega
  rcases Nat.eq_zero_or_pos capacity with rfl | hpos
  · refine ⟨?_, ?_⟩
    · show (ShardedCache.unbounded shards).capacity = none
      rw [ShardedCache.capacity]
      simp only [ShardedCache.unbounded, List.head_replicate, Cache.new]
    · show (ShardedCache.unbounded shards).shards.length = max 1 shards
      rw [ShardedCache.unbounded, List.length_replicate, hsane]
  · have hne := Nat.ne_of_gt hpos
    simp only [if_pos hpos, if_neg hne]
    refine ⟨ShardedCache.capacity_bounded shards capacity, ?_⟩
    show (ShardedCache.bounded shards capacity).shards.length = _
    rw [ShardedCache.length_bounded]
    simp only [ShardedCache.boundedCount, hsane]
    split <;> omega

theorem startup_shape (stdHash : Bytes → UInt64) (persistence : Bool) (path : Bytes)
    (capacity shards saveInterval pid : Nat) (fs : Fs) (env : Env) :
    ∃ s, ServerMain.startup stdHash persistence path capacity shards saveInterval pid fs env
        = some s ∧
      s.cache.capacity = (if capacity = 0 then none else some capacity) ∧
      s.cache.shards.length
        = (if capacity = 0 then max 1 shards else min capacity (max 1 shards)) ∧
      (s.saver.isSome ↔ persistence = true ∧ 0 < saveInterval) := by
  obtain ⟨hcapacity, hlength⟩ := new_shape shards capacity
  have hsaver : (if persistence = true ∧ 0 < saveInterval then some Saver.waiting else none).isSome
      ↔ persistence = true ∧ 0 < saveInterval := by
    split <;> simp [*]
  rw [ServerMain.startup]
  cases persistence with
  | false => exact ⟨_, rfl, hcapacity, hlength, hsaver⟩
  | true =>
    have hwf := @ShardedCache.wf_shardedNew stdHash shards
      (if 0 < capacity then some capacity else none)
    obtain ⟨sc', res, hload, -⟩ := load_wf hwf (fs.read path) env.wall env.steady
    obtain ⟨hcapacity', hlength'⟩ := capacity_congr (ScanLemmas.load_capacities hwf hload)
    rw [if_pos rfl, hload, Option.map_some, Option.map_some]
    exact ⟨_, rfl, hcapacity'.trans hcapacity, hlength'.trans hlength, hsaver⟩

/-- **Command lines of the server.** The server takes a command line iff it has at most five
arguments and those that are numbers are written in digits only and fit: a port below 65536, counts
below 2^64. The cache then has the capacity that was asked for, none for 0, whatever a snapshot file
has in it, and as many shards as were asked for, one for 0, and not more than entries. There is a
periodic saver iff there is a path and the interval is not 0; it is given that interval if it is
below 2^63 and a negative one otherwise. -/
theorem server_arguments (stdHash : Bytes → UInt64) (args : List Bytes) (o : Settings) (pid : Nat)
    (fs : Fs) (env : Env) :
    (settings args = some o ↔ Accepted args o) ∧
    (∃ s, o.startup stdHash pid fs env = some s ∧
      s.cache.capacity = (if o.capacity = 0 then none else some o.capacity.toNat) ∧
      s.cache.shards.length = (if o.capacity = 0 then max 1 o.shards.toNat
        else min o.capacity.toNat (max 1 o.shards.toNat)) ∧
      (s.saver.isSome ↔ o.snapshotPath ≠ [] ∧ o.saveInterval ≠ 0)) ∧
    (o.saveInterval.toNat < 2 ^ 63 → o.interval = o.saveInterval.toNat) ∧
    (2 ^ 63 ≤ o.saveInterval.toNat → o.interval < 0) := by
  have hcapacity : o.capacity.toNat = 0 ↔ o.capacity = 0 :=
    ⟨fun h => UInt64.toNat.inj h, fun h => congrArg UInt64.toNat h⟩
  have hinterval : 0 < o.saveInterval.toNat ↔ o.saveInterval ≠ 0 := by
    rw [Nat.pos_iff_ne_zero]
    exact not_congr ⟨fun h => UInt64.toNat.inj h, fun h => congrArg UInt64.toNat h⟩
  refine ⟨settings_iff, ?_, fun hlt => ?_, fun hle => ?_⟩
  · obtain ⟨s, hstart, hcap, hlen, hsaver⟩ := startup_shape stdHash
      (decide (o.snapshotPath ≠ [])) o.snapshotPath o.capacity.toNat o.shards.toNat
      o.saveInterval.toNat pid fs env
    simp only [hcapacity] at hcap hlen
    rw [decide_eq_true_eq, hinterval] at hsaver
    exact ⟨s, hstart, hcap, hlen, hsaver⟩
  · rw [Settings.interval_eq, if_pos (by omega)]
  · rw [Settings.interval_eq, if_neg (by omega)]
    have hbound := o.saveInterval.toNat_lt
    omega

/-! ## The client -/

/-- The arguments of the client: where it connects to, or exit code 2. -/
def clientSettings (args : List Bytes) : Option (Bytes × UInt16) :=
  if 2 < args.length then none
  else
    (optional args[1]? 6379 fun text => (parsePort text).filter (· ≠ 0)).map fun port =>
      (args[0]?.getD (ascii "127.0.0.1"), port)

/-- The client does not take port 0, which the server does. -/
theorem clientSettings_iff {args : List Bytes} {host : Bytes} {port : UInt16} :
    clientSettings args = some (host, port) ↔
      args.length ≤ 2 ∧ host = args[0]?.getD (ascii "127.0.0.1") ∧
      Stands args[1]? 6379 port.toNat ∧ port ≠ 0 := by
  have hport : optional args[1]? 6379 (fun text => (parsePort text).filter (· ≠ 0)) = some port ↔
      Stands args[1]? 6379 port.toNat ∧ port ≠ 0 := by
    cases args[1]? with
    | none =>
      refine ⟨fun h => ?_, fun h => congrArg some (UInt16.toNat.inj h.1.symm)⟩
      cases h
      exact ⟨rfl, by decide⟩
    | some text =>
      show (parsePort text).filter (· ≠ 0) = some port ↔ IsNumeral text port.toNat ∧ port ≠ 0
      rw [Option.filter_eq_some_iff, parsePort_iff, decide_eq_true_eq]
  rw [clientSettings]
  constructor
  · intro h
    split at h
    · cases h
    · rename_i hlen
      obtain ⟨port', hp, heq⟩ := Option.map_eq_some_iff.mp h
      obtain ⟨rfl, rfl⟩ := Prod.mk.inj heq
      exact ⟨Nat.not_lt.mp hlen, rfl, hport.mp hp⟩
  · rintro ⟨hlen, rfl, hp⟩
    rw [if_neg (Nat.not_lt.mpr hlen), hport.mpr hp]
    rfl

end CacheX.Options
