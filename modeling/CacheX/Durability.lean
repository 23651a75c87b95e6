import CacheX.SaveFiles
import CacheX.Scan

/-!
# What an acknowledged save leaves on disk

A server with one cache: calls on keys, and any number of saves on one path, the clients' `SAVE`s
and the periodic saver's. A save exports one shard after the other, then writes its temp file and
renames it (`Saves`); all these steps interleave in any way. Nothing orders the renames of two saves
like their exports.

* `Recorded`: what the server has recorded of its exports and renames is true.
* `save_durable`: after a save has returned the snapshot is its output or the output of a save that
  renamed later.
* `save_overtaken`: that later one can have exported earlier.
-/

namespace CacheX

open Decimal (ascii)
open ShardedCache RestoreLemmas SavesLemmas ScanLemmas

/-- What a save has exported from one shard, and when. -/
structure ShardExport where
  moment : Nat
  entries : List EntrySnapshot
deriving DecidableEq, Repr

/-- The cache, what the saves have exported that are not done with it, and the saves that write. The
other fields are a record of the run: the cache at each moment so far, the exports of the saves that
write, and the saves that have renamed, in order. -/
structure Server where
  cache : ShardedCache
  exporting : List (List ShardExport)
  files : Saves
  past : List ShardedCache
  exported : List (List ShardExport)
  renamed : List Nat

/-- Whether save `i` renames its temp file in a step. -/
def Saves.renames (s s' : Saves) (i : Nat) : Bool :=
  match s.saves[i]?.map Save.stage, s'.saves[i]?.map Save.stage with
  | some .flushed, some (.finishing _) => true
  | _, _ => false

namespace Server

/-- A server that has just been started, with the process id `pid`. -/
def start (sc : ShardedCache) (pid : Nat) (fs : Fs) : Server :=
  ⟨sc, [], ⟨[{ pid := pid }], [], fs⟩, [], [], []⟩

/-- The moment is over. -/
def tick (s : Server) : Server := { s with past := s.past ++ [s.cache] }

/-- One step: a call on a key, a save that is called, exports its next shard or starts to write, or
a step of a save that writes. -/
inductive Step (stdHash : Bytes → UInt64) (path : Bytes) (s : Server) : Server → Prop
  | call {sc' : ShardedCache} {r : Reply} (now : Time) (op : KeyOp) :
    s.cache.step stdHash (now, op.1) = some (sc', r) →
    Step stdHash path s { s.tick with cache := sc' }
  | save : Step stdHash path s { s.tick with exporting := s.exporting ++ [[]] }
  | exportShard {i : Nat} {parts : List ShardExport} {c : Cache} (now : Time) :
    s.exporting[i]? = some parts → s.cache.shards[parts.length]? = some c →
    Step stdHash path s { s.tick with
      exporting := s.exporting.set i (parts ++ [⟨s.past.length, c.exportEntries now⟩]) }
  | write {i : Nat} {parts : List ShardExport} {proc : Proc} (wall : Millis) :
    s.exporting[i]? = some parts → parts.length = s.cache.shards.length →
    s.files.procs[0]? = some proc → proc.died = none →
    Step stdHash path s { s.tick with
      exporting := s.exporting.eraseIdx i
      exported := s.exported ++ [parts]
      files := { s.files with
        saves := s.files.saves
          ++ [{ proc := 0, wall := wall, entries := parts.flatMap ShardExport.entries }] } }
  | act {i : Nat} {files' : Saves} : s.files.Step path (some i) files' →
    Step stdHash path s { s.tick with
      files := files'
      renamed := if s.files.renames files' i then s.renamed ++ [i] else s.renamed }

/-- Any number of steps. -/
def Reaches (stdHash : Bytes → UInt64) (path : Bytes) : Server → Server → Prop :=
  Relation.ReflTransGen (Step stdHash path)

/-- When save `i` exported shard `j`. -/
def exportedAt (s : Server) (i j : Nat) : Option Nat :=
  (s.exported[i]?.bind fun parts => parts[j]?).map ShardExport.moment

end Server

/-- A part is the export of shard `j` as it was at that moment. -/
def Shows (past : List ShardedCache) (j : Nat) (part : ShardExport) : Prop :=
  ∃ sc c now, past[part.moment]? = some sc ∧ sc.shards[j]? = some c ∧
    part.entries = c.exportEntries now

variable {stdHash : Bytes → UInt64} {path : Bytes}

/-- The record of a run is true. -/
structure Recorded (stdHash : Bytes → UInt64) (path : Bytes) (sc : ShardedCache) (fs : Fs)
    (s : Server) : Prop where
  cache : After stdHash sc s.cache
  past : ∀ sc' ∈ s.past, After stdHash sc sc'
  exporting : ∀ parts ∈ s.exporting, ∀ j part, parts[j]? = some part → Shows s.past j part
  exported : ∀ parts ∈ s.exported, ∀ j part, parts[j]? = some part → Shows s.past j part
  files : Saves.Reaches path ⟨[], [], fs⟩ s.files
  length : s.exported.length = s.files.saves.length
  saves : ∀ (i : Nat) (save : Save), s.files.saves[i]? = some save →
    ∃ parts, s.exported[i]? = some parts ∧ parts.length = sc.shards.length ∧
      save.entries = parts.flatMap ShardExport.entries
  snapshot : ∀ b, s.renamed.getLast? = some b →
    ∃ save, s.files.saves[b]? = some save ∧ s.files.fs.read path = some save.output
  acknowledged : ∀ a save r, s.files.saves[a]? = some save →
    save.stage = .finishing r ∨ save.stage = .returned r → r.ok = true → a ∈ s.renamed

namespace DurabilityLemmas

theorem shows_snoc {past : List ShardedCache} {j : Nat} {part : ShardExport}
    (h : Shows past j part) (sc : ShardedCache) : Shows (past ++ [sc]) j part := by
  obtain ⟨sc', c, now, hpast, hc, hentries⟩ := h
  have hlt := (List.getElem?_eq_some_iff.mp hpast).1
  exact ⟨sc', c, now, (List.getElem?_append_left hlt).trans hpast, hc, hentries⟩

theorem renames_set {s : Saves} {procs : List Proc} {i : Nat} {save save' : Save} {fs' : Fs}
    (hi : s.saves[i]? = some save) :
    s.renames ⟨procs, s.saves.set i save', fs'⟩ i = true ↔
      save.stage = .flushed ∧ ∃ r, save'.stage = .finishing r := by
  have hset : (s.saves.set i save')[i]? = some save' :=
    List.getElem?_set_self (List.getElem?_eq_some_iff.mp hi).1
  simp only [Saves.renames, hi, hset, Option.map_some]
  split
  · next h₁ h₂ => exact iff_of_true rfl ⟨Option.some.inj h₁, _, Option.some.inj h₂⟩
  · next hnot =>
    refine iff_of_false Bool.false_ne_true ?_
    rintro ⟨h₁, r, h₂⟩
    exact hnot r (by rw [h₁]) (by rw [h₂])

/-- What was exported stays true when the moment is over. -/
theorem shows_tick {past : List ShardedCache} {now : ShardedCache}
    {exports : List (List ShardExport)}
    (h : ∀ parts ∈ exports, ∀ j part, parts[j]? = some part → Shows past j part) :
    ∀ parts ∈ exports, ∀ j part, parts[j]? = some part → Shows (past ++ [now]) j part :=
  fun parts hp j part hj => shows_snoc (h parts hp j part hj) now

variable {sc : ShardedCache} {fs : Fs} {s : Server}

theorem past_tick (h : Recorded stdHash path sc fs s) :
    ∀ sc' ∈ s.tick.past, After stdHash sc sc' := by
  intro sc' hsc'
  rcases List.mem_append.mp hsc' with hsc' | hsc'
  · exact h.past sc' hsc'
  · rw [List.mem_singleton.mp hsc']
    exact h.cache

section Act

variable {i : Nat} {save save' : Save} {P P' : Proc} {procs : List Proc} {fs' : Fs}

/-- The last rename still tells what the snapshot is. -/
theorem snapshot_act (h : Recorded stdHash path sc fs s) (hi : s.files.saves[i]? = some save)
    (hok : StageOk path P s.files.fs save) (hact : Act path P save s.files.fs P' save' fs')
    {b : Nat} (hb : (if s.files.renames ⟨procs, s.files.saves.set i save', fs'⟩ i
      then s.renamed ++ [i] else s.renamed).getLast? = some b) :
    ∃ x, (s.files.saves.set i save')[b]? = some x ∧ fs'.read path = some x.output := by
  have hself : (s.files.saves.set i save')[i]? = some save' :=
    List.getElem?_set_self (List.getElem?_eq_some_iff.mp hi).1
  rcases hact.lookup_path hok with ⟨hsame, hnot⟩ | ⟨hnew, hflushed, hfin⟩
  · rw [if_neg (mt (renames_set hi).mp hnot)] at hb
    obtain ⟨x, hx, hread⟩ := h.snapshot b hb
    rw [FileSystem.read, hsame]
    rcases eq_or_ne i b with rfl | hib
    · cases hi.symm.trans hx
      exact ⟨save', hself, hact.output ▸ hread⟩
    · exact ⟨x, (List.getElem?_set_ne hib).trans hx, hread⟩
  · rw [if_pos ((renames_set hi).mpr ⟨hflushed, _, hfin⟩), List.getLast?_concat] at hb
    cases hb
    exact ⟨save', hself, hact.output.symm ▸ hnew⟩

/-- A save that succeeds has renamed. -/
theorem acknowledged_act (h : Recorded stdHash path sc fs s) (hi : s.files.saves[i]? = some save)
    (hok : StageOk path P s.files.fs save) (hact : Act path P save s.files.fs P' save' fs')
    {a : Nat} {x : Save} {r : SaveResult} (hx : (s.files.saves.set i save')[a]? = some x)
    (hst : x.stage = .finishing r ∨ x.stage = .returned r) (hr : r.ok = true) :
    a ∈ if s.files.renames ⟨procs, s.files.saves.set i save', fs'⟩ i then s.renamed ++ [i]
      else s.renamed := by
  have hkeep : a ∈ s.renamed →
      a ∈ if s.files.renames ⟨procs, s.files.saves.set i save', fs'⟩ i then s.renamed ++ [i]
        else s.renamed := by
    intro ha
    split
    · exact List.mem_append_left _ ha
    · exact ha
  rcases set_cases hx with ⟨rfl, rfl⟩ | ⟨-, hx⟩
  · rcases hact.succeeds hok hst hr with hfin | ⟨hflushed, hfin⟩
    · exact hkeep (h.acknowledged a save r hi (Or.inl hfin) hr)
    · rw [if_pos ((renames_set hi).mpr ⟨hflushed, _, hfin⟩)]
      exact List.mem_append_right _ (List.mem_singleton.mpr rfl)
  · exact hkeep (h.acknowledged a x r hx hst hr)

end Act

/-- A step of a save that writes. -/
theorem recorded_act (h : Recorded stdHash path sc fs s) (hfew : s.files.saves.length < 2 ^ 64)
    {i : Nat} {files' : Saves} (hs : s.files.Step path (some i) files') :
    Recorded stdHash path sc fs { s.tick with
      files := files'
      renamed := if s.files.renames files' i then s.renamed ++ [i] else s.renamed } := by
  obtain ⟨-, hfiles⟩ := invariant_of_reaches h.files hfew
  have hreach := h.files.tail ⟨_, hs⟩
  cases hs with
  | act hi hP hd hact =>
    have hok := hfiles.stage hi hP
    refine ⟨h.cache, past_tick h, shows_tick h.exporting, shows_tick h.exported, hreach, ?_,
      fun k x hk => ?_, fun b hb => snapshot_act h hi hok hact hb,
      fun a x r hx hst hr => acknowledged_act h hi hok hact hx hst hr⟩
    · rw [List.length_set]
      exact h.length
    · rcases set_cases hk with ⟨rfl, rfl⟩ | ⟨-, hk⟩
      · rw [hact.content.2]
        exact h.saves k _ hi
      · exact h.saves k x hk

/-- A save that has exported all shards starts to write. -/
theorem recorded_write (h : Recorded stdHash path sc fs s) {i : Nat} {parts : List ShardExport}
    {proc : Proc} (wall : Millis) (hi : s.exporting[i]? = some parts)
    (hall : parts.length = s.cache.shards.length) (hP : s.files.procs[0]? = some proc)
    (hd : proc.died = none) :
    Recorded stdHash path sc fs { s.tick with
      exporting := s.exporting.eraseIdx i
      exported := s.exported ++ [parts]
      files := { s.files with
        saves := s.files.saves
          ++ [{ proc := 0, wall := wall, entries := parts.flatMap ShardExport.entries }] } } := by
  have hreach := h.files.tail ⟨none, .call wall (parts.flatMap ShardExport.entries) hP hd⟩
  refine ⟨h.cache, past_tick h, fun parts' hp => ?_, fun parts' hp => ?_, hreach, ?_,
    fun k x hk => ?_, fun b hb => ?_, fun a x r hx hst hr => ?_⟩
  · exact shows_tick h.exporting parts' (List.mem_of_mem_eraseIdx hp)
  · rcases List.mem_append.mp hp with hp | hp
    · exact shows_tick h.exported parts' hp
    · rw [List.mem_singleton.mp hp]
      exact shows_tick h.exporting parts (List.mem_of_getElem? hi)
  · rw [List.length_append, List.length_append, h.length]
    rfl
  · rcases snoc_cases hk with hk | ⟨rfl, rfl⟩
    · obtain ⟨parts', hparts, hrest⟩ := h.saves k x hk
      have hlt := (List.getElem?_eq_some_iff.mp hparts).1
      exact ⟨parts', (List.getElem?_append_left hlt).trans hparts, hrest⟩
    · refine ⟨parts, ?_, hall.trans h.cache.length, rfl⟩
      rw [← h.length]
      exact List.getElem?_concat_length
  · obtain ⟨x, hx, hread⟩ := h.snapshot b hb
    have hlt := (List.getElem?_eq_some_iff.mp hx).1
    exact ⟨x, (List.getElem?_append_left hlt).trans hx, hread⟩
  · rcases snoc_cases hx with hx | ⟨-, rfl⟩
    · exact h.acknowledged a x r hx hst hr
    · rcases hst with hst | hst <;> cases hst

/-- A save exports its next shard. -/
theorem recorded_export (h : Recorded stdHash path sc fs s) {i : Nat} {parts : List ShardExport}
    {c : Cache} (now : Time) (hi : s.exporting[i]? = some parts)
    (hc : s.cache.shards[parts.length]? = some c) :
    Recorded stdHash path sc fs { s.tick with
      exporting := s.exporting.set i (parts ++ [⟨s.past.length, c.exportEntries now⟩]) } := by
  refine ⟨h.cache, past_tick h, fun parts' hp j part hj => ?_, shows_tick h.exported, h.files,
    h.length, h.saves, h.snapshot, h.acknowledged⟩
  rcases List.mem_or_eq_of_mem_set hp with hp | rfl
  · exact shows_tick h.exporting parts' hp j part hj
  · rcases snoc_cases hj with hj | ⟨rfl, rfl⟩
    · exact shows_tick h.exporting parts (List.mem_of_getElem? hi) j part hj
    · exact ⟨s.cache, c, now, List.getElem?_concat_length, hc, rfl⟩

theorem recorded_step {s' : Server} (h : Recorded stdHash path sc fs s)
    (hfew : s.files.saves.length < 2 ^ 64) (hs : s.Step stdHash path s') :
    Recorded stdHash path sc fs s' := by
  cases hs with
  | call now op hcall =>
    exact ⟨h.cache.of_step hcall, past_tick h, shows_tick h.exporting, shows_tick h.exported,
      h.files, h.length, h.saves, h.snapshot, h.acknowledged⟩
  | save =>
    refine ⟨h.cache, past_tick h, fun parts hp j part hj => ?_, shows_tick h.exported, h.files,
      h.length, h.saves, h.snapshot, h.acknowledged⟩
    rcases List.mem_append.mp hp with hp | hp
    · exact shows_tick h.exporting parts hp j part hj
    · rw [List.mem_singleton.mp hp] at hj
      cases hj
  | exportShard now hi hc => exact recorded_export h now hi hc
  | write wall hi hall hP hd => exact recorded_write h wall hi hall hP hd
  | act hs => exact recorded_act h hfew hs

/-- What a run has recorded stays. -/
theorem record_grows {s' : Server} (h : s.Reaches stdHash path s') :
    s.renamed <+: s'.renamed ∧ s.files.saves.length ≤ s'.files.saves.length := by
  induction h with
  | refl => exact ⟨List.prefix_refl _, Nat.le_refl _⟩
  | tail _ hs ih =>
    refine ⟨ih.1.trans ?_, ih.2.trans ?_⟩
    · cases hs with
      | act =>
        dsimp only
        split
        · exact List.prefix_append _ _
        · exact List.prefix_refl _
      | _ => exact List.prefix_refl _
    · cases hs with
      | write =>
        rw [List.length_append]
        exact Nat.le_add_right _ _
      | act hs => exact length_le_of_step hs
      | _ => exact Nat.le_refl _

theorem recorded_start (h : sc.WF stdHash) (pid : Nat) (fs : Fs) :
    Recorded stdHash path sc fs (.start sc pid fs) where
  cache := ⟨h, rfl⟩
  past := fun _ hsc => absurd hsc List.not_mem_nil
  exporting := fun _ hp => absurd hp List.not_mem_nil
  exported := fun _ hp => absurd hp List.not_mem_nil
  files := .single ⟨none, .spawn pid fun _ hp => absurd hp List.not_mem_nil⟩
  length := rfl
  saves := fun i save hi => by cases hi
  snapshot := fun b hb => by cases hb
  acknowledged := fun a save r ha => by cases ha

theorem recorded_of_reaches (hsc : sc.WF stdHash) {pid : Nat}
    (h : (Server.start sc pid fs).Reaches stdHash path s)
    (hfew : s.files.saves.length < 2 ^ 64) : Recorded stdHash path sc fs s := by
  induction h with
  | refl => exact recorded_start hsc pid fs
  | tail _ hs ih =>
    have hle := (record_grows (.single hs)).2
    exact recorded_step (ih (hle.trans_lt hfew)) (hle.trans_lt hfew) hs

/-- The part of shard `j` in an export of all shards. -/
theorem part_of_lt {parts : List ShardExport} {j : Nat} (h : j < parts.length) {i : Nat}
    (hi : s.exported[i]? = some parts) :
    ∃ part, parts[j]? = some part ∧ s.exportedAt i j = some part.moment := by
  refine ⟨_, List.getElem?_eq_getElem h, ?_⟩
  rw [Server.exportedAt, hi, Option.bind_some, List.getElem?_eq_getElem h]
  rfl

end DurabilityLemmas

open DurabilityLemmas

/-- **Durability.** A save has returned a success. At every later moment the snapshot is the
complete output of the save that renamed last, which is that save or one that renamed after it, and
it has every shard as that save found it. If all saves that renamed after it exported a shard no
earlier, the snapshot has an export of the shard that is no older than its own. An entry without a
deadline that is there from some moment on is in the snapshot if they all exported its shard after
that moment. -/
theorem save_durable {sc : ShardedCache} (hsc : Reachable stdHash sc) {pid : Nat} {fs : Fs}
    {s s' : Server} (hreach : (Server.start sc pid fs).Reaches stdHash path s)
    (hlater : s.Reaches stdHash path s') (hfew : s'.files.saves.length < 2 ^ 64) {a : Nat}
    {save : Save} {r : SaveResult} (ha : s.files.saves[a]? = some save)
    (hst : save.stage = .returned r) (hok : r.ok = true) :
    a ∈ s'.renamed ∧ ∃ b last parts, s'.renamed.getLast? = some b ∧
      s'.files.saves[b]? = some last ∧ s'.files.fs.read path = some last.output ∧
      s'.exported[b]? = some parts ∧ parts.length = sc.shards.length ∧
      last.entries = parts.flatMap ShardExport.entries ∧
      (∀ j part, parts[j]? = some part → Shows s'.past j part) ∧
      ∀ pre post, s'.renamed = pre ++ a :: post →
        (∀ j ta tb, s'.exportedAt a j = some ta → s'.exportedAt b j = some tb →
          (∀ x ∈ post, ∀ tx, s'.exportedAt x j = some tx → ta ≤ tx) → ta ≤ tb) ∧
        ∀ k v u, (∀ t sc', u ≤ t → s'.past[t]? = some sc' →
            (⟨k, v, none⟩ : Entry) ∈ (sc'.shardFor stdHash k).entries.toList) →
          (∀ x ∈ a :: post, ∀ tx, s'.exportedAt x (sc.shardIndexFor stdHash k) = some tx →
            u ≤ tx) →
          (⟨k, v, none⟩ : EntrySnapshot) ∈ last.entries := by
  obtain ⟨hgrows, hle⟩ := record_grows hlater
  have hs := recorded_of_reaches hsc.wf hreach (hle.trans_lt hfew)
  have hs' := recorded_of_reaches hsc.wf (hreach.trans hlater) hfew
  have hmem : a ∈ s'.renamed := hgrows.subset (hs.acknowledged a save r ha (Or.inr hst) hok)
  obtain ⟨b, hb⟩ : ∃ b, s'.renamed.getLast? = some b :=
    ⟨_, List.getLast?_eq_some_getLast (List.ne_nil_of_mem hmem)⟩
  obtain ⟨last, hlast, hread⟩ := hs'.snapshot b hb
  obtain ⟨parts, hparts, hlen, hentries⟩ := hs'.saves b last hlast
  have hshows := hs'.exported parts (List.mem_of_getElem? hparts)
  refine ⟨hmem, b, last, parts, hb, hlast, hread, hparts, hlen, hentries, hshows,
    fun pre post hsplit => ?_⟩
  have hbpost : b ∈ a :: post := by
    rw [hsplit, List.getLast?_append_of_ne_nil _ (List.cons_ne_nil a post)] at hb
    exact List.mem_of_getLast? hb
  refine ⟨fun j ta tb hta htb hpost => ?_, fun k v u hthere hpost => ?_⟩
  · rcases List.mem_cons.mp hbpost with rfl | hbpost
    · exact Nat.le_of_eq (Option.some.inj (hta.symm.trans htb))
    · exact hpost b hbpost tb htb
  · obtain ⟨part, hpart, hat⟩ := part_of_lt
      (hlen.symm ▸ sc.shardIndexFor_lt stdHash k) hparts
    obtain ⟨sc', c, now, hpast, hc, hexport⟩ := hshows _ _ hpart
    have hthere' := hthere _ sc' (hpost b hbpost _ hat) hpast
    have hafter := hs'.past sc' (List.mem_of_getElem? hpast)
    rw [← shardIndexFor_of_length hafter.length, sc'.shardFor_eq] at hc
    cases hc
    rw [hentries]
    refine List.mem_flatMap.mpr ⟨part, List.mem_of_getElem? hpart, ?_⟩
    rw [hexport]
    exact List.mem_filterMap.mpr ⟨_, hthere', rfl⟩

/-- A server with one shard and no snapshot. -/
def oneShard : Server := .start (.unbounded 1) 7 .empty

/-- A save has returned, and later the snapshot has no entry: the save that renamed last exported
the shard earlier. The entry was set before the first save exported and is there ever since. -/
theorem save_overtaken :
    ∃ s s' : Server, oneShard.Reaches (fun _ => 0) (ascii "db") s ∧
      s.Reaches (fun _ => 0) (ascii "db") s' ∧
      (∃ save, s.files.saves[0]? = some save ∧ save.stage = .returned ⟨true, 1, 32, []⟩) ∧
      s'.files.fs.read (ascii "db") = some (saveBytes 0 []) ∧
      (∃ ta tb, s'.exportedAt 0 0 = some ta ∧ s'.exportedAt 1 0 = some tb ∧ tb < 3 ∧ 3 < ta) ∧
      ∀ sc ∈ s'.past.drop 3 ++ [s'.cache], (⟨[107], [118], none⟩ : Entry) ∈
        (sc.shardFor (fun _ => 0) [107]).entries.toList := by
  -- the periodic saver exports at moment 1, the client sets the key at 2 and its save exports at 4
  refine ⟨_, _, .tail (.tail (.tail (.tail (.tail (.tail (.tail (.tail (.tail (.tail (.tail (.tail
    .refl
    .save)
    (.exportShard (i := 0) 0 rfl rfl))
    (.call 0 ⟨.set [107] [118], rfl⟩ rfl))
    .save)
    (.exportShard (i := 1) 0 rfl rfl))
    (.write (i := 1) 0 rfl rfl rfl rfl))
    (.act (.act (i := 0) rfl rfl rfl (.fetchAdd rfl))))
    (.act (.act (i := 0) rfl rfl rfl (.openTemp rfl rfl))))
    (.act (.act (i := 0) rfl rfl rfl (.write 32 rfl rfl (by decide)))))
    (.act (.act (i := 0) rfl rfl rfl (.flush rfl))))
    (.act (.act (i := 0) rfl rfl rfl (.rename rfl rfl))))
    (.act (.act (i := 0) rfl rfl rfl (.ret rfl))),
    .tail (.tail (.tail (.tail (.tail (.tail
    .refl
    (.write (i := 0) 0 rfl rfl rfl rfl))
    (.act (.act (i := 1) rfl rfl rfl (.fetchAdd rfl))))
    (.act (.act (i := 1) rfl rfl rfl (.openTemp rfl rfl))))
    (.act (.act (i := 1) rfl rfl rfl (.write 22 rfl rfl (by decide)))))
    (.act (.act (i := 1) rfl rfl rfl (.flush rfl))))
    (.act (.act (i := 1) rfl rfl rfl (.rename rfl rfl))),
    ⟨_, rfl, rfl⟩, ?_, ⟨4, 1, rfl, rfl, by decide, by decide⟩, ?_⟩
  · decide
  · decide

/-- A client sets a key. Two saves export it, the first renames and returns, and then the second one
renames. -/
theorem replaced :
    ∃ s s' : Server, oneShard.Reaches (fun _ => 0) (ascii "db") s ∧
      s.Reaches (fun _ => 0) (ascii "db") s' ∧
      (∃ save, s.files.saves[0]? = some save ∧ save.stage = .returned ⟨true, 1, 32, []⟩) ∧
      s.renamed = [0] ∧ s'.renamed = [0, 1] ∧ s'.files.saves.length = 2 ∧
      s'.exportedAt 0 0 = some 3 ∧ s'.exportedAt 1 0 = some 4 ∧
      ∀ sc ∈ s'.past.drop 1, (⟨[107], [118], none⟩ : Entry) ∈
        (sc.shardFor (fun _ => 0) [107]).entries.toList := by
  refine ⟨_, _, .tail (.tail (.tail (.tail (.tail (.tail (.tail (.tail (.tail (.tail (.tail (.tail
    .refl
    (.call 0 ⟨.set [107] [118], rfl⟩ rfl))
    .save)
    .save)
    (.exportShard (i := 0) 0 rfl rfl))
    (.exportShard (i := 1) 0 rfl rfl))
    (.write (i := 0) 0 rfl rfl rfl rfl))
    (.act (.act (i := 0) rfl rfl rfl (.fetchAdd rfl))))
    (.act (.act (i := 0) rfl rfl rfl (.openTemp rfl rfl))))
    (.act (.act (i := 0) rfl rfl rfl (.write 32 rfl rfl (by decide)))))
    (.act (.act (i := 0) rfl rfl rfl (.flush rfl))))
    (.act (.act (i := 0) rfl rfl rfl (.rename rfl rfl))))
    (.act (.act (i := 0) rfl rfl rfl (.ret rfl))),
    .tail (.tail (.tail (.tail (.tail (.tail
    .refl
    (.write (i := 0) 0 rfl rfl rfl rfl))
    (.act (.act (i := 1) rfl rfl rfl (.fetchAdd rfl))))
    (.act (.act (i := 1) rfl rfl rfl (.openTemp rfl rfl))))
    (.act (.act (i := 1) rfl rfl rfl (.write 32 rfl rfl (by decide)))))
    (.act (.act (i := 1) rfl rfl rfl (.flush rfl))))
    (.act (.act (i := 1) rfl rfl rfl (.rename rfl rfl))),
    ⟨_, rfl, rfl⟩, rfl, rfl, rfl, rfl, rfl, ?_⟩
  decide

/-- The first save has returned and the second one has renamed after it: the snapshot has the
entry. -/
theorem save_durable_returned :
    ∃ (s s' : Server) (last : Save), oneShard.Reaches (fun _ => 0) (ascii "db") s ∧
      s.Reaches (fun _ => 0) (ascii "db") s' ∧ s.renamed = [0] ∧ s'.renamed = [0, 1] ∧
      s'.files.fs.read (ascii "db") = some last.output ∧
      (⟨[107], [118], none⟩ : EntrySnapshot) ∈ last.entries := by
  obtain ⟨s, s', hs, hs', ⟨save, hsave, hst⟩, hfirst, hrenamed, hlen, hta, htb, hthere⟩ := replaced
  have hfew : s'.files.saves.length < 2 ^ 64 := by rw [hlen]; decide
  obtain ⟨-, b, last, -, -, -, hread, -, -, -, -, hall⟩ :=
    save_durable (.unbounded 1) hs hs' hfew hsave hst rfl
  refine ⟨s, s', last, hs, hs', hfirst, hrenamed, hread,
    (hall [] [1] hrenamed).2 [107] [118] 1 (fun t sc ht hsc => ?_) ?_⟩
  · have hdrop : (s'.past.drop 1)[t - 1]? = some sc := by
      rw [List.getElem?_drop, Nat.add_sub_cancel' ht, hsc]
    exact hthere sc (List.mem_of_getElem? hdrop)
  · intro x hx tx htx
    rcases List.mem_pair.mp hx with rfl | rfl
    · cases hta.symm.trans htx
      decide
    · cases htb.symm.trans htx
      decide

end CacheX
