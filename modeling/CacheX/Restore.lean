import CacheX.Load

/-!
# Saving and loading

What a snapshot of a cache brings back. `exportEntries_owned`: the part of an export that a shard
owns is the export of that shard. `restoredAll_saved`: the records of a saved cache that have not
run out are the exported entries, in order. `load_restores` puts them together with the closed form
of the replay: loading any file into any reachable cache, saving a cache and loading it into an
empty one, and loading a file twice.
-/

namespace CacheX

open ShardedCache

variable {stdHash : Bytes → UInt64}

/-- The caches that calls and loads can lead to. -/
inductive Reachable (stdHash : Bytes → UInt64) : ShardedCache → Prop
  | unbounded (shardCount : Nat) : Reachable stdHash (.unbounded shardCount)
  | bounded (shardCount totalCapacity : Nat) :
    Reachable stdHash (.bounded shardCount totalCapacity)
  | step {sc sc' : ShardedCache} {call : Time × Op} {r : Reply} :
    Reachable stdHash sc → sc.step stdHash call = some (sc', r) → Reachable stdHash sc'
  | load {sc sc' : ShardedCache} {file : Option Bytes} {wall : Millis} {clock : Nat → Time}
    {res : LoadResult} :
    Reachable stdHash sc → load stdHash sc file wall clock = some (sc', res) →
      Reachable stdHash sc'

theorem Reachable.wf {sc : ShardedCache} (h : Reachable stdHash sc) : sc.WF stdHash := by
  induction h with
  | unbounded n => exact wf_unbounded n
  | bounded n cap => exact wf_bounded n cap
  | step _ hs ih =>
    obtain ⟨sc₁, r₁, hs₁, hwf, -⟩ := wf_step ih _
    rw [hs] at hs₁
    cases hs₁
    exact hwf
  | load _ hl ih =>
    obtain ⟨sc₁, res₁, hl₁, hwf⟩ := load_wf ih _ _ _
    rw [hl] at hl₁
    cases hl₁
    exact hwf

/-! ## Exports -/

namespace RestoreLemmas

/-- The pieces of an indexed concatenation that carry the index `j`. -/
theorem filter_flatMap_zipIdx {α β : Type} {f : α × Nat → List β} {index : β → Nat}
    {l : List α} {n : Nat} (hf : ∀ p ∈ l.zipIdx n, ∀ b ∈ f p, index b = p.2) {j : Nat} {a : α}
    (hj : l[j]? = some a) :
    ((l.zipIdx n).flatMap f).filter (fun b => decide (index b = n + j)) = f (a, n + j) := by
  induction l generalizing n j with
  | nil => cases hj
  | cons x l ih =>
    rw [List.zipIdx_cons] at hf
    have hhead : ∀ b ∈ f (x, n), index b = n := hf (x, n) List.mem_cons_self
    have htail : ∀ p ∈ l.zipIdx (n + 1), ∀ b ∈ f p, index b = p.2 := fun p hp =>
      hf p (List.mem_cons_of_mem _ hp)
    rw [List.zipIdx_cons, List.flatMap_cons, List.filter_append]
    cases j with
    | zero =>
      cases hj
      rw [Nat.add_zero, List.filter_eq_self.mpr fun b hb => decide_eq_true (hhead b hb),
        List.filter_eq_nil_iff.mpr, List.append_nil]
      intro b hb
      obtain ⟨p, hp, hbp⟩ := List.mem_flatMap.mp hb
      have hge := (List.mem_zipIdx hp).1
      simp only [htail p hp b hbp, decide_eq_true_eq]
      omega
    | succ j =>
      have htl := ih htail (show l[j]? = some a by simpa using hj)
      rw [Nat.add_right_comm, Nat.add_assoc] at htl
      rw [htl, List.filter_eq_nil_iff.mpr, List.nil_append]
      intro b hb
      simp only [hhead b hb, decide_eq_true_eq]
      omega

theorem exportEntry_key {now : Time} {e : Entry} {s : EntrySnapshot}
    (h : Cache.exportEntry now e = some s) : s.key = e.key := by
  unfold Cache.exportEntry at h
  split at h
  · cases h
    rfl
  · split at h
    · cases h
    · cases h
      rfl

theorem exportEntry_ttl {now : Time} {e : Entry} {s : EntrySnapshot}
    (h : Cache.exportEntry now e = some s) {t : Millis} (ht : s.remainingTtl = some t) :
    0 ≤ t := by
  unfold Cache.exportEntry at h
  split at h
  · cases h
    cases ht
  · split at h
    · cases h
    · next hlive =>
      cases h
      cases ht
      exact Int.tdiv_nonneg (Int.sub_nonneg.mpr (Int.le_of_lt (Int.not_le.mp hlive))) (by decide)

/-- What is exported is live. -/
theorem live_of_exportEntry {now : Time} {e : Entry} {s : EntrySnapshot}
    (h : Cache.exportEntry now e = some s) : isExpired now e = false ∧ s.value = e.value := by
  unfold Cache.exportEntry at h
  unfold isExpired
  split at h
  · cases h
    exact ⟨rfl, rfl⟩
  · split at h
    · cases h
    · next hlive =>
      cases h
      exact ⟨decide_eq_false hlive, rfl⟩

/-- What is live is exported. -/
theorem exportEntry_of_live {now : Time} {e : Entry} (h : isExpired now e = false) :
    ∃ s, Cache.exportEntry now e = some s := by
  unfold isExpired at h
  unfold Cache.exportEntry
  split at h
  · exact ⟨_, rfl⟩
  · exact ⟨_, if_neg (of_decide_eq_false h)⟩

theorem mem_exportEntries {c : Cache} {now : Time} {s : EntrySnapshot}
    (h : s ∈ c.exportEntries now) :
    ∃ e ∈ c.abs.items, Cache.exportEntry now e = some s := by
  obtain ⟨e, he, hs⟩ := List.mem_filterMap.mp h
  exact ⟨e, he, hs⟩

/-- The keys of an export are keys of the recency list, in its order. -/
theorem keys_exportEntries (now : Time) (l : List Entry) :
    ((l.filterMap (Cache.exportEntry now)).map EntrySnapshot.key).Sublist (l.map Entry.key) :=
  Keyed.keys_filterMap (fun _ _ h => exportEntry_key h) l

theorem nodupBy_export {c : Cache} (h : c.WF) (now : Time) :
    Keyed.NodupBy EntrySnapshot.key (c.exportEntries now) :=
  List.Nodup.sublist (keys_exportEntries _ _) (abs_wf h).nodup

end RestoreLemmas

open RestoreLemmas

/-- What a shard exports is owned by it. -/
theorem exported_placed {sc : ShardedCache} (h : sc.WF stdHash) {now : Time} {p : Cache × Nat}
    (hp : p ∈ sc.shards.zipIdx) {s : EntrySnapshot} (hs : s ∈ p.1.exportEntries now) :
    sc.shardIndexFor stdHash s.key = p.2 := by
  obtain ⟨e, he, hes⟩ := mem_exportEntries hs
  rw [exportEntry_key hes]
  exact h.owner (List.mk_mem_zipIdx_iff_getElem?.mp hp) he

/-- What a shard owns of the export of all shards is its own export. -/
theorem exportEntries_owned {sc : ShardedCache} (h : sc.WF stdHash) (clock : Nat → Time) {j : Nat}
    {c : Cache} (hj : sc.shards[j]? = some c) :
    (sc.exportEntries clock).filter (fun s => decide (sc.shardIndexFor stdHash s.key = j))
      = c.exportEntries (clock j) := by
  have hf : ∀ p ∈ sc.shards.zipIdx, ∀ s ∈ p.1.exportEntries (clock p.2),
      sc.shardIndexFor stdHash s.key = p.2 := fun _ hp _ hs => exported_placed h hp hs
  have := filter_flatMap_zipIdx hf hj
  rwa [Nat.zero_add] at this

/-! ## The records of a saved cache -/

/-- Whether a saved entry has time left after `elapsed` more milliseconds. -/
def timeLeft (elapsed : Millis) (s : EntrySnapshot) : Bool :=
  s.remainingTtl.all fun t => decide (0 < t - elapsed)

/-- What `save` wrote is what `load` restores, in order, unless it ran out. -/
theorem restoredAll_saved (elapsed : Millis) (clock : Nat → Time) (n : Nat)
    {entries : List EntrySnapshot} (httl : ∀ s ∈ entries, ∀ t, s.remainingTtl = some t → 0 ≤ t) :
    (restoredAll elapsed clock ((entries.map fun s => ⟨s.key, s.value, ttlMs s⟩).zipIdx n)).map
        (fun e => (e.key, e.value))
      = (entries.filter (timeLeft elapsed)).map fun s => (s.key, s.value) := by
  induction entries generalizing n with
  | nil => rfl
  | cons s entries ih =>
    have htail := ih (n + 1) fun s hs => httl s (List.mem_cons_of_mem _ hs)
    rw [List.map_cons, List.zipIdx_cons]
    cases ht : s.remainingTtl with
    | none =>
      have hres : restored elapsed (clock n) ⟨s.key, s.value, ttlMs s⟩
          = some ⟨s.key, s.value, none⟩ := if_pos (by simp only [ttlMs, ht, Option.getD_none])
      rw [restoredAll_cons_some hres, List.filter_cons_of_pos (by simp [timeLeft, ht]),
        List.map_cons, List.map_cons]
      exact congrArg _ htail
    | some t =>
      have hne : ¬ t = kNoExpiry := fun he =>
        absurd (httl s List.mem_cons_self t ht) (by rw [he]; decide)
      have hrec : ttlMs s = t := by simp only [ttlMs, ht, Option.getD_some]
      have hfilter : timeLeft elapsed s = decide (0 < t - elapsed) := by
        simp only [timeLeft, ht, Option.all_some]
      rw [hrec]
      by_cases hleft : 0 < t - elapsed
      · have hres : restored elapsed (clock n) ⟨s.key, s.value, t⟩
            = some ⟨s.key, s.value, some (clock n + (t - elapsed) * nanosPerMilli)⟩ :=
          (if_neg hne).trans (if_pos hleft)
        rw [restoredAll_cons_some hres,
          List.filter_cons_of_pos (by rw [hfilter]; exact decide_eq_true hleft), List.map_cons,
          List.map_cons]
        exact congrArg _ htail
      · have hres : restored elapsed (clock n) ⟨s.key, s.value, t⟩ = none :=
          (if_neg hne).trans (if_neg hleft)
        rw [restoredAll_cons_none hres,
          List.filter_cons_of_neg (by rw [hfilter, decide_eq_true_eq]; exact hleft)]
        exact htail

theorem ofShard_map (sc : ShardedCache) (j : Nat) (l : List Entry) :
    (ofShard stdHash sc j l).map (fun e => (e.key, e.value))
      = (l.map fun e => (e.key, e.value)).filter fun p =>
          decide (sc.shardIndexFor stdHash p.1 = j) := by
  rw [List.filter_map]
  rfl

theorem exportEntries_ttl {sc : ShardedCache} {now : Nat → Time} {s : EntrySnapshot}
    (hs : s ∈ sc.exportEntries now) {t : Millis} (ht : s.remainingTtl = some t) : 0 ≤ t := by
  obtain ⟨p, -, hsp⟩ := List.mem_flatMap.mp hs
  obtain ⟨e, -, hes⟩ := mem_exportEntries hsp
  exact exportEntry_ttl hes ht

/-- The restored entries of a saved cache that a shard owns are its saved entries that have time
left. -/
theorem restoredAll_owned {sc : ShardedCache} (h : sc.WF stdHash) (now clock : Nat → Time)
    (elapsed : Millis) {j : Nat} {c : Cache} (hj : sc.shards[j]? = some c) :
    (ofShard stdHash sc j (restoredAll elapsed clock
        ((sc.exportEntries now).map fun s => ⟨s.key, s.value, ttlMs s⟩).zipIdx)).map
        (fun e => (e.key, e.value))
      = ((c.exportEntries (now j)).filter (timeLeft elapsed)).map fun s => (s.key, s.value) := by
  have hsaved := restoredAll_saved elapsed clock 0
    fun s (hs : s ∈ sc.exportEntries now) t ht => exportEntries_ttl hs ht
  rw [ofShard_map, hsaved, ← exportEntries_owned h now hj, List.filter_map, List.filter_comm]
  rfl

theorem survivors_owned {sc : ShardedCache} (h : sc.WF stdHash) (now clock : Nat → Time)
    (elapsed : Millis) {j : Nat} {c : Cache} (hj : sc.shards[j]? = some c) :
    (ofShard stdHash sc j (survivors elapsed clock
        ((sc.exportEntries now).map fun s => ⟨s.key, s.value, ttlMs s⟩))).map
        (fun e => (e.key, e.value))
      = ((c.exportEntries (now j)).filter (timeLeft elapsed)).map fun s => (s.key, s.value) := by
  have howned := restoredAll_owned h now clock elapsed hj
  rw [survivors, ← firsts_ofShard, Keyed.firsts_eq_self, howned]
  -- the keys are keys of one recency list
  have hkeys := congrArg (List.map Prod.fst) howned
  rw [List.map_map, List.map_map] at hkeys
  show (List.map (Prod.fst ∘ fun e : Entry => (e.key, e.value)) _).Nodup
  rw [hkeys]
  refine List.Nodup.sublist ((List.filter_sublist.map _).trans (keys_exportEntries _ _)) ?_
  exact (abs_wf (h.shard c (List.mem_of_getElem? hj))).nodup

/-- An empty cache with the shards of `sc`. -/
structure EmptyLike (stdHash : Bytes → UInt64) (sc₀ sc : ShardedCache) : Prop where
  reachable : Reachable stdHash sc₀
  shape : sc₀.shards.map Cache.capacity = sc.shards.map Cache.capacity
  empty : ∀ c ∈ sc₀.shards, c.entries.toList = []

/-- Every shard of `sc₁` holds what that shard of `sc` exported and still has time left, in its
order. -/
def BringsBack (sc sc₁ : ShardedCache) (now : Nat → Time) (elapsed : Millis) : Prop :=
  ∀ (j : Nat) (c : Cache), sc.shards[j]? = some c → ∃ c₁ : Cache, sc₁.shards[j]? = some c₁ ∧
    c₁.entries.toList.map (fun e => (e.key, e.value))
      = ((c.exportEntries (now j)).filter (timeLeft elapsed)).map fun s => (s.key, s.value)

/-- The numbers a save writes fit their types. -/
structure SaveFits (savedAt : Millis) (entries : List EntrySnapshot) : Prop where
  savedAt_nonneg : 0 ≤ savedAt
  savedAt_le : savedAt ≤ int64Max
  ttl_le : ∀ s ∈ entries, ∀ t, s.remainingTtl = some t → t ≤ int64Max
  size : ((saveBytes savedAt entries).length : Int) ≤ int64Max

theorem parse_exported {sc : ShardedCache} {now : Nat → Time} {savedAt : Millis}
    (hfits : SaveFits savedAt (sc.exportEntries now)) :
    parseSnapshot (saveBytes savedAt (sc.exportEntries now))
      = .ok ⟨savedAt, (sc.exportEntries now).length,
          (sc.exportEntries now).map fun s => ⟨s.key, s.value, ttlMs s⟩⟩ := by
  refine parseSnapshot_saveBytes
    ⟨Int.le_trans (by decide) hfits.savedAt_nonneg, hfits.savedAt_le⟩ (fun s hs => ?_) hfits.size
  cases ht : s.remainingTtl with
  | none =>
    simp only [ttlMs, ht]
    exact ⟨by decide, by decide⟩
  | some t =>
    simp only [ttlMs, ht, Option.getD_some]
    exact ⟨Int.le_trans (by decide) (exportEntries_ttl hs ht), hfits.ttl_le s hs t ht⟩

/-- Saving a cache and loading the file into an empty cache of the same shape. -/
theorem load_saved {sc sc₀ : ShardedCache} (h : sc.WF stdHash) (h₀ : EmptyLike stdHash sc₀ sc)
    {savedAt : Millis} {now : Nat → Time} (hfits : SaveFits savedAt (sc.exportEntries now))
    (wall : Millis) (clock : Nat → Time) :
    ∃ sc₁ res,
      load stdHash sc₀ (some (saveBytes savedAt (sc.exportEntries now))) wall clock
        = some (sc₁, res) ∧ res.ok = true ∧ BringsBack sc sc₁ now (elapsedMs wall savedAt) := by
  have hparse := parse_exported hfits
  rcases load_cases h₀.reachable.wf (saveBytes savedAt (sc.exportEntries now)) wall clock with
    ⟨e, he, -⟩ | ⟨p, sc₁, res, hp, hload, hok, -, -, hrest⟩
  · rw [hparse] at he
    cases he
  · rw [hparse] at hp
    cases hp
    refine ⟨sc₁, res, hload, hok, fun j c hj => ?_⟩
    have hlen : sc₀.abs.length = sc.abs.length := by
      have := congrArg List.length h₀.shape
      rwa [List.length_map, List.length_map, ← length_abs, ← length_abs] at this
    have hcaps := congrArg (fun l => l[j]?) h₀.shape
    simp only [List.getElem?_map, hj, Option.map_some] at hcaps
    obtain ⟨c₀, hj₀, hcap⟩ := Option.map_eq_some_iff.mp hcaps
    obtain ⟨c₁, hj₁, -, hc₁⟩ := hrest.2 j c₀ hj₀
    have howner : ∀ l, ofShard stdHash sc₀ j l = ofShard stdHash sc j l := fun l => by
      unfold ofShard
      simp only [shardIndexFor_congr hlen]
    have howned := survivors_owned h now clock (elapsedMs wall savedAt) hj
    refine ⟨c₁, hj₁, ?_⟩
    rw [hc₁, h₀.empty c₀ (List.mem_of_getElem? hj₀), List.filter_nil, List.append_nil, howner,
      Keyed.atMost_eq_self, howned]
    -- the saved entries of a shard fit into its capacity
    intro n hn
    have hbound := (abs_wf (h.shard c (List.mem_of_getElem? hj))).bounded n
      (show n ∈ c.capacity from hcap ▸ hn)
    have hcount := congrArg List.length howned
    rw [List.length_map, List.length_map] at hcount
    have hle : ((c.exportEntries (now j)).filter (timeLeft (elapsedMs wall savedAt))).length
        ≤ c.abs.items.length :=
      Nat.le_trans (List.length_filter_le _ _) (List.length_filterMap_le _ _)
    exact hcount ▸ Nat.le_trans hle hbound

/-- **What LOAD restores.** A load of any file into any reachable cache is defined. If it accepts
the file, every shard holds the surviving records that it owns, in file order, then its old
entries whose key is not among them, up to its capacity; and loading the file again changes no
recency list. A file that was saved from the cache brings the saved entries that have time left
back into an empty cache of the same shape, each shard in its order. -/
theorem load_restores {sc : ShardedCache} (hr : Reachable stdHash sc) (wall : Millis)
    (clock : Nat → Time) :
    (∀ file, ∃ sc' res, load stdHash sc (some file) wall clock = some (sc', res) ∧
      (res.ok = true →
        (∃ p, parseSnapshot file = .ok p ∧
          Restores stdHash sc sc' (survivors (elapsedMs wall p.savedAt) clock p.records)) ∧
        ∃ sc'' res', load stdHash sc' (some file) wall clock = some (sc'', res') ∧
          sc''.shards.map (fun c => c.entries.toList)
            = sc'.shards.map fun c => c.entries.toList)) ∧
    ∀ sc₀ savedAt now, EmptyLike stdHash sc₀ sc → SaveFits savedAt (sc.exportEntries now) →
      ∃ sc₁ res,
        load stdHash sc₀ (some (saveBytes savedAt (sc.exportEntries now))) wall clock
          = some (sc₁, res) ∧ res.ok = true ∧ BringsBack sc sc₁ now (elapsedMs wall savedAt) := by
  refine ⟨fun file => ?_, fun sc₀ savedAt now h₀ hfits => load_saved hr.wf h₀ hfits wall clock⟩
  rcases load_cases hr.wf file wall clock with
    ⟨e, -, hload⟩ | ⟨p, sc', res, hp, hload, hok, hwf, -, hrest⟩
  · exact ⟨sc, { error := e.text }, hload, fun hok => absurd hok Bool.false_ne_true⟩
  · refine ⟨sc', res, hload, fun _ => ⟨⟨p, hp, hrest⟩, ?_⟩⟩
    rcases load_cases hwf file wall clock with
      ⟨e, he, -⟩ | ⟨p', sc'', res', hp', hload', -, -, -, hrest'⟩
    · rw [hp] at he
      cases he
    · rw [hp] at hp'
      cases hp'
      exact ⟨sc'', res', hload', hrest.again hrest'⟩

/-- A file with one live record and one that ran out, loaded into a new cache; and two entries that
are saved, one of them with a deadline, and brought back a millisecond later. -/
theorem load_restores_bounded :
    (∃ sc' res, load (fun _ => 0) (.bounded 2 3)
        (some (saveBytes 5 [⟨[97], [98], none⟩, ⟨[99], [100], some 4⟩])) 9 (fun _ => 7)
          = some (sc', res) ∧ res.ok = true ∧
      Restores (fun _ => 0) (.bounded 2 3) sc' [⟨[97], [98], none⟩]) ∧
    ∃ sc sc₁ res, sc.exportEntries (fun _ => 7) = [⟨[99], [100], some 4⟩, ⟨[97], [98], none⟩] ∧
      load (fun _ => 0) (.bounded 2 3) (some (saveBytes 5 (sc.exportEntries fun _ => 7))) 6
        (fun _ => 8) = some (sc₁, res) ∧ res.ok = true ∧
      BringsBack sc sc₁ (fun _ => 7) (elapsedMs 6 5) := by
  constructor
  · obtain ⟨sc', res, hload, hok⟩ := (load_restores (Reachable.bounded 2 3) 9 fun _ => 7).1
      (saveBytes 5 [⟨[97], [98], none⟩, ⟨[99], [100], some 4⟩])
    have hres : res.ok = true := by
      have h : (load (fun _ => 0) (.bounded 2 3)
          (some (saveBytes 5 [⟨[97], [98], none⟩, ⟨[99], [100], some 4⟩])) 9 (fun _ => 7)).map
            (fun p => p.2.ok) = some true := by decide
      rw [hload] at h
      exact Option.some.inj h
    obtain ⟨⟨p, hp, hrest⟩, -⟩ := hok hres
    have hparse : parseSnapshot (saveBytes 5 [⟨[97], [98], none⟩, ⟨[99], [100], some 4⟩])
        = .ok ⟨5, 2, [⟨[97], [98], -1⟩, ⟨[99], [100], 4⟩]⟩ := by decide
    rw [hparse] at hp
    cases hp
    exact ⟨sc', res, hload, hres, hrest⟩
  · have hsteps : ∃ sc, Reachable (fun _ => 0) sc ∧
        sc.exportEntries (fun _ => 7) = [⟨[99], [100], some 4⟩, ⟨[97], [98], none⟩] ∧
        sc.shards.map Cache.capacity = [some 2, some 1] :=
      ⟨_, .step (.step (.bounded 2 3)
        (show ShardedCache.step _ _ (7, .set [97] [98]) = some (_, .unit) from rfl))
        (show ShardedCache.step _ _ (7, .setTtl [99] [100] 4) = some (_, .unit) from rfl), rfl, rfl⟩
    obtain ⟨sc, hreach, hexport, hshape⟩ := hsteps
    have hlike : EmptyLike (fun _ => 0) (.bounded 2 3) sc :=
      ⟨.bounded 2 3, hshape.symm, by decide⟩
    have hfits : SaveFits 5 (sc.exportEntries fun _ => 7) := by
      rw [hexport]
      exact ⟨by decide, by decide, by decide, by decide⟩
    obtain ⟨sc₁, res, hload, hok, hback⟩ :=
      (load_restores hreach 6 fun _ => 8).2 (.bounded 2 3) 5 (fun _ => 7) hlike hfits
    exact ⟨sc, sc₁, res, hexport, hload, hok, hback⟩

end CacheX
