import CacheX.Restore

/-!
# Deadlines across a save and a load

`save` writes what is left of a deadline when its shard is exported, and stamps the file with the
wall clock later, when the header is written. `load` subtracts the wall-clock time since the stamp,
and counts what is left from the moment a record is replayed. So two stretches of time are not
accounted for: from the export of the shard to the header, and from the reading of the wall clock in
`load` to the replay of the record.

* `restored_deadline`: the deadline of a restored entry, as a sum of the stretches.
* `lifetime_iff`: a restored entry lives at most a millisecond longer exactly when the two stretches
  fit into a millisecond, up to what the truncations to milliseconds cut off.
* `lifetime_grows`: an entry that comes back with ten seconds more than it had.
-/

namespace CacheX

open ShardedCache RestoreLemmas SnapshotLemmas

variable {stdHash : Bytes → UInt64}

/-- The record of a saved entry. -/
def EntrySnapshot.record (s : EntrySnapshot) : Record := ⟨s.key, s.value, ttlMs s⟩

/-- When the steps of a save and of a later load happen, in nanoseconds on a common time line. The
wall clock, the steady clock of the saving process and that of the loading process run along with
it, each with an offset of its own. -/
structure Timing where
  /-- the export of shard `j` -/
  exported : Nat → Int
  /-- `save` reads the wall clock for the header -/
  stamped : Int
  /-- `load` reads the wall clock -/
  measured : Int
  /-- the replay of record `i`, from the last record to the first -/
  replayed : Nat → Int
  wallOffset : Int
  saverOffset : Int
  loaderOffset : Int
  exported_mono : ∀ i j, i ≤ j → exported i ≤ exported j
  exported_le : ∀ j, exported j ≤ stamped
  stamped_le : stamped ≤ measured
  measured_le : ∀ i, measured ≤ replayed i
  replayed_anti : ∀ i j, i ≤ j → replayed j ≤ replayed i

namespace Timing

variable (t : Timing)

/-- The steady clock of the saving process when shard `j` is exported. -/
def exportClock (j : Nat) : Int := t.exported j + t.saverOffset

/-- The steady clock of the loading process when record `i` is replayed. -/
def replayClock (i : Nat) : Int := t.replayed i + t.loaderOffset

/-- `wall_clock_ms()` in `save`. -/
def savedAt : Int := toMillis (t.stamped + t.wallOffset)

/-- `wall_clock_ms()` in `load`. -/
def loadedAt : Int := toMillis (t.measured + t.wallOffset)

/-- What `save` writes. -/
def file (sc : ShardedCache) : Bytes := saveBytes t.savedAt (sc.exportEntries t.exportClock)

/-- The numbers that `save` writes are the values of 64-bit variables. -/
structure Writes (sc : ShardedCache) : Prop where
  savedAt : Fits t.savedAt
  ttl : ∀ s ∈ sc.exportEntries t.exportClock, Fits (ttlMs s)
  size : ((t.file sc).length : Int) ≤ int64Max

/-- The time that `load` does not take off a deadline `d`: from the export of shard `j` to the
stamp, and from the measurement to the replay of record `i`. It may exceed a millisecond by what the
truncations cut off the stamp and the remaining time, less what is cut off the measurement. -/
def Tight (j i : Nat) (d : Int) : Prop :=
  (t.stamped - t.exported j) + (t.replayed i - t.measured)
      + (t.measured + t.wallOffset).tmod nanosPerMilli
    ≤ nanosPerMilli + (t.stamped + t.wallOffset).tmod nanosPerMilli
      + (d - t.exportClock j).tmod nanosPerMilli

theorem elapsedMs_eq : elapsedMs t.loadedAt t.savedAt = t.loadedAt - t.savedAt := by
  have hle : t.savedAt ≤ t.loadedAt :=
    Int.tdiv_le_tdiv (by decide) (Int.add_le_add_right t.stamped_le _)
  exact max_eq_right (Int.sub_nonneg.mpr hle)

/-- A truncated duration in nanoseconds. -/
theorem toMillis_mul (n : Int) : toMillis n * nanosPerMilli = n - n.tmod nanosPerMilli := by
  have h := Int.tdiv_mul_add_tmod n nanosPerMilli
  exact eq_sub_of_add_eq h

/-- The new deadline against the old one, both on the common time line. -/
theorem restored_deadline (j i : Nat) (d : Int) :
    t.replayClock i + (toMillis (d - t.exportClock j) - elapsedMs t.loadedAt t.savedAt)
        * nanosPerMilli - t.loaderOffset
      = d - t.saverOffset + (t.stamped - t.exported j) + (t.replayed i - t.measured)
        + (t.measured + t.wallOffset).tmod nanosPerMilli
        - (t.stamped + t.wallOffset).tmod nanosPerMilli
        - (d - t.exportClock j).tmod nanosPerMilli := by
  rw [elapsedMs_eq, Int.sub_mul, Int.sub_mul, toMillis_mul, loadedAt, savedAt, toMillis_mul,
    toMillis_mul, replayClock, exportClock]
  omega

theorem deadline_le_iff (j i : Nat) (d : Int) :
    t.replayClock i + (toMillis (d - t.exportClock j) - elapsedMs t.loadedAt t.savedAt)
        * nanosPerMilli - t.loaderOffset ≤ d - t.saverOffset + nanosPerMilli ↔ t.Tight j i d := by
  rw [restored_deadline, Tight]
  omega

theorem parse_file {sc : ShardedCache} (h : t.Writes sc) :
    parseSnapshot (t.file sc)
      = .ok ⟨t.savedAt, (sc.exportEntries t.exportClock).length,
          (sc.exportEntries t.exportClock).map EntrySnapshot.record⟩ :=
  parseSnapshot_saveBytes h.savedAt h.ttl h.size

end Timing

/-! ## The record of an entry -/

/-- An export has at most one entry for a key. -/
theorem nodupBy_exportEntries {sc : ShardedCache} (h : sc.WF stdHash) (clock : Nat → Time) :
    Keyed.NodupBy EntrySnapshot.key (sc.exportEntries clock) := by
  have hindex : Keyed.NodupBy Prod.snd sc.shards.zipIdx := by
    rw [Keyed.NodupBy, List.zipIdx_map_snd]
    exact List.nodup_range'
  refine Keyed.nodupBy_flatMap (sc.shardIndexFor stdHash) hindex (fun p hp => ?_)
    fun p hp s hs => exported_placed h hp hs
  exact nodupBy_export (h.shard p.1 (List.fst_mem_of_mem_zipIdx hp)) _

/-- The exported entry with the key of a resident entry is the export of that entry. -/
theorem exportEntry_of_key {sc : ShardedCache} (h : sc.WF stdHash) {clock : Nat → Time} {j : Nat}
    {c : Cache} (hj : sc.shards[j]? = some c) {e : Entry} (he : e ∈ c.entries.toList)
    {s : EntrySnapshot} (hs : s ∈ sc.exportEntries clock) (hk : s.key = e.key) :
    Cache.exportEntry (clock j) e = some s := by
  have howned : s ∈ (sc.exportEntries clock).filter
      fun s => decide (sc.shardIndexFor stdHash s.key = j) :=
    List.mem_filter.mpr ⟨hs, decide_eq_true (hk ▸ h.owner hj he)⟩
  rw [exportEntries_owned h clock hj] at howned
  obtain ⟨e', he', hes⟩ := mem_exportEntries howned
  have hkey : e'.key = e.key := (exportEntry_key hes).symm.trans hk
  have hnodup := (abs_wf (h.shard c (List.mem_of_getElem? hj))).nodup
  have hfound := (Keyed.find_of_mem hnodup he').symm
  rw [hkey, Keyed.find_of_mem hnodup he] at hfound
  cases hfound
  exact hes

theorem exportEntry_deadline {now : Time} {e : Entry} {d : Time} {s : EntrySnapshot}
    (hd : e.expiresAt = some d) (h : Cache.exportEntry now e = some s) :
    s.remainingTtl = some (toMillis (d - now)) := by
  rw [Cache.exportEntry, hd] at h
  dsimp only at h
  split at h
  · cases h
  · cases h
    rfl

/-! ## The restored entry -/

/-- What is restored from an export has distinct keys. -/
theorem nodupBy_restored {sc : ShardedCache} (h : sc.WF stdHash) (elapsed : Millis)
    (now clock : Nat → Time) :
    Keyed.NodupBy Entry.key
      (restoredAll elapsed clock ((sc.exportEntries now).map EntrySnapshot.record).zipIdx) := by
  have hkeys : ((sc.exportEntries now).map EntrySnapshot.record).zipIdx.map (Record.key ∘ Prod.fst)
      = (sc.exportEntries now).map EntrySnapshot.key := by
    rw [← List.map_map, List.zipIdx_map_fst, List.map_map]
    rfl
  refine List.Nodup.sublist (Keyed.keys_filterMap (fun _ _ hp => restored_key hp) _) ?_
  show (List.map (Record.key ∘ Prod.fst) _).Nodup
  rw [hkeys]
  exact nodupBy_exportEntries h now

/-- A record with time left is restored with that time from its replay on. -/
theorem restored_timeLeft {elapsed : Millis} {s : EntrySnapshot} {t : Millis}
    (ht : s.remainingTtl = some t) (h0 : 0 ≤ t) (hleft : timeLeft elapsed s = true) (now : Time) :
    restored elapsed now s.record
      = some ⟨s.key, s.value, some (now + (t - elapsed) * nanosPerMilli)⟩ := by
  have hrec : s.record = ⟨s.key, s.value, t⟩ := by
    simp only [EntrySnapshot.record, ttlMs, ht, Option.getD_some]
  have hne : ¬ t = kNoExpiry := fun he => absurd h0 (by rw [he]; decide)
  have hpos : 0 < t - elapsed := by simpa only [timeLeft, ht, Option.all_some, decide_eq_true_eq]
    using hleft
  rw [hrec]
  exact (if_neg hne).trans (if_pos hpos)

/-- After a load that restores the entry `e`, the entry with its key is `e`. -/
theorem Restores.find_survivor {sc sc' : ShardedCache} {R : List Entry}
    (h : Restores stdHash sc sc' R) (hR : Keyed.NodupBy Entry.key R) {e e' : Entry} (he : e ∈ R)
    {c : Cache} (hc : c ∈ sc'.shards) (he' : e' ∈ c.entries.toList) (hk : e'.key = e.key) :
    e' = e := by
  rcases h.mem hc he' with hnew | ⟨hnot, -⟩
  · have hfound := Keyed.find_of_mem hR hnew
    rw [hk, Keyed.find_of_mem hR he] at hfound
    exact (Option.some.inj hfound).symm
  · exact absurd (hk ▸ List.mem_map_of_mem he) hnot

/-- **Lifetimes across a restart.** Whatever a reachable cache saves, any reachable cache loads. Let
`e` be an entry of shard `j` with the deadline `d`, whose record `i` has time left when the file is
loaded. The entry that the load leaves under its key has a deadline, and on the common time line
that is at most a millisecond later than `d` exactly when the timing is tight. -/
theorem lifetime_iff {sc sc₀ : ShardedCache} (h : Reachable stdHash sc)
    (h₀ : Reachable stdHash sc₀) (t : Timing) (hw : t.Writes sc) :
    ∃ sc₁ res, load stdHash sc₀ (some (t.file sc)) t.loadedAt t.replayClock = some (sc₁, res) ∧
      res.ok = true ∧
      ∀ j c e d i s, sc.shards[j]? = some c → e ∈ c.entries.toList → e.expiresAt = some d →
        (sc.exportEntries t.exportClock)[i]? = some s → s.key = e.key →
        timeLeft (elapsedMs t.loadedAt t.savedAt) s = true →
        ∀ c₁ ∈ sc₁.shards, ∀ e' ∈ c₁.entries.toList, e'.key = e.key →
          ∃ d', e'.expiresAt = some d' ∧
            (d' - t.loaderOffset ≤ d - t.saverOffset + nanosPerMilli ↔ t.Tight j i d) := by
  have hparse := t.parse_file hw
  rcases load_cases h₀.wf (t.file sc) t.loadedAt t.replayClock with
    ⟨err, herr, -⟩ | ⟨p, sc₁, res, hp, hload, hok, -, -, hrest⟩
  · rw [hparse] at herr
    cases herr
  rw [hparse] at hp
  cases hp
  have hnodup := nodupBy_restored h.wf (elapsedMs t.loadedAt t.savedAt) t.exportClock t.replayClock
  dsimp only at hrest
  rw [survivors, Keyed.firsts_eq_self hnodup] at hrest
  refine ⟨sc₁, res, hload, hok, ?_⟩
  intro j c e d i s hj he hd hi hk hleft c₁ hc₁ e' he' hk'
  have hexp := exportEntry_of_key h.wf hj he (List.mem_of_getElem? hi) hk
  have httl := exportEntry_deadline hd hexp
  have hres := restored_timeLeft httl (exportEntry_ttl hexp httl) hleft (t.replayClock i)
  have hrec : (s.record, i)
      ∈ ((sc.exportEntries t.exportClock).map EntrySnapshot.record).zipIdx := by
    rw [List.mk_mem_zipIdx_iff_getElem?, List.getElem?_map, hi, Option.map_some]
  have heq := hrest.find_survivor hnodup (List.mem_filterMap.mpr ⟨_, hrec, hres⟩) hc₁ he'
    (hk'.trans hk.symm)
  subst heq
  exact ⟨_, rfl, t.deadline_le_iff j i d⟩

/-! ## A slow save -/

/-- One key with a deadline at 20 s. -/
def oneKey : ShardedCache :=
  (((ShardedCache.unbounded 1).step (fun _ => 0) (0, .setTtl [107] [118] 20000)).map Prod.fst).getD
    (.unbounded 1)

/-- The clocks agree, the export is at 0 s, the stamp at `stamped`, and the load at 10 s. -/
def Timing.stampedAt (stamped : Int) (h0 : 0 ≤ stamped) (h1 : stamped ≤ 10000000000) : Timing where
  exported := fun _ => 0
  stamped := stamped
  measured := 10000000000
  replayed := fun _ => 10000000000
  wallOffset := 0
  saverOffset := 0
  loaderOffset := 0
  exported_mono := fun _ _ _ => Int.le_refl _
  exported_le := fun _ => h0
  stamped_le := h1
  measured_le := fun _ => Int.le_refl _
  replayed_anti := fun _ _ _ => Int.le_refl _

def promptSave : Timing := .stampedAt 0 (by decide) (by decide)

def slowSave : Timing := .stampedAt 10000000000 (by decide) (by decide)

theorem reachable_oneKey : Reachable (fun _ => 0) oneKey := by
  have hstep : (ShardedCache.unbounded 1).step (fun _ => 0) (0, .setTtl [107] [118] 20000)
      = some (oneKey, .unit) := rfl
  exact Reachable.step (.unbounded 1) hstep

/-- The header is written right after the export: the deadline at 20 s stays. -/
theorem lifetime_iff_prompt :
    ∃ sc₁ res, load (fun _ => 0) (.unbounded 1) (some (promptSave.file oneKey))
        promptSave.loadedAt promptSave.replayClock = some (sc₁, res) ∧ res.ok = true ∧
      ∀ c₁ ∈ sc₁.shards, ∀ e' ∈ c₁.entries.toList, e'.key = [107] →
        ∃ d', e'.expiresAt = some d' ∧ d' - 0 ≤ 20000000000 - 0 + nanosPerMilli := by
  have hwrites : promptSave.Writes oneKey :=
    ⟨⟨by decide, by decide⟩, by unfold Fits; decide, by decide⟩
  obtain ⟨sc₁, res, hload, hok, hlife⟩ :=
    lifetime_iff reachable_oneKey (.unbounded 1) promptSave hwrites
  refine ⟨sc₁, res, hload, hok, fun c₁ hc₁ e' he' hk => ?_⟩
  obtain ⟨d', hd', hiff⟩ := hlife 0 _ ⟨[107], [118], some 20000000000⟩ 20000000000 0
    ⟨[107], [118], some 20000⟩ rfl (by decide) rfl (by decide) rfl (by decide) c₁ hc₁ e' he' hk
  exact ⟨d', hd', hiff.mpr (by unfold Timing.Tight; decide)⟩

/-- The header is written ten seconds after the export: the entry comes back with a deadline at
30 s. -/
theorem lifetime_grows :
    (oneKey.shards.map fun c => c.entries.toList) = [[⟨[107], [118], some 20000000000⟩]] ∧
    (load (fun _ => 0) (.unbounded 1) (some (slowSave.file oneKey)) slowSave.loadedAt
        slowSave.replayClock).map (fun p => (p.2.ok, p.1.shards.map fun c => c.entries.toList))
      = some (true, [[⟨[107], [118], some 30000000000⟩]]) ∧
    slowSave.saverOffset = 0 ∧ slowSave.loaderOffset = 0 := by
  decide

end CacheX
