import CacheX.Restore
import CacheX.View

/-!
# What is visible

Six functions of `cache.cpp` decide on their own whether a key is visible at a clock reading:
`contains`, `get`, `get_into`, `ttl` and `erase` through the index, `export_entries` by going over
the list. Each one has its own comparison with the deadline.

* `readings_spec`: what each of them returns is a function of the view of the key.
* `readers_agree`: after any calls on a cache they agree, whether or not the key is visible.
-/

namespace CacheX

open InvariantLemmas RestoreLemmas

/-- What the six return for a key when each is called on the same cache, with the caches that the
four of them leave that can change it. `exported` is what is exported under the key. -/
structure Readings where
  contains : Bool
  get : Cache × Option Bytes
  getInto : Cache × Bool × Bytes
  ttl : Cache × TtlInfo
  erase : Cache × Bool
  exported : List EntrySnapshot

/-- Each of the six, at the clock reading `now`. `out` is the buffer of the caller of `get_into`. -/
def Cache.readings (c : Cache) (now : Time) (key out : Bytes) : Option Readings := do
  let contains ← c.contains now key
  let get ← c.get now key
  let getInto ← c.getInto now key out
  let ttl ← c.ttl now key
  let erase ← c.erase now key
  some ⟨contains, get, getInto, ttl, erase,
    (c.exportEntries now).filter fun s => decide (s.key = key)⟩

/-- The entries of the other keys, in order. -/
def Cache.others (c : Cache) (key : Bytes) : List Entry :=
  Keyed.without Entry.key key c.entries.toList

/-- The readings agree with one another, and the entries of other keys are left as they are. -/
structure Readings.Agree (c : Cache) (key out : Bytes) (r : Readings) : Prop where
  get : r.get.2.isSome = r.contains
  getInto : r.getInto.2.1 = r.contains
  ttl : r.ttl.2.state ≠ .missing ↔ r.contains = true
  erase : r.erase.2 = r.contains
  exported : r.exported ≠ [] ↔ r.contains = true
  visible : r.contains = true → ∃ s, r.exported = [s] ∧ r.get.2 = some s.value ∧
    r.getInto.2.2 = s.value ∧ (r.ttl.2.state = .persistent ↔ s.remainingTtl = none) ∧
    ∀ t, s.remainingTtl = some t → r.ttl.2 = ⟨.expiring, t⟩ ∧ 0 ≤ t
  invisible : r.contains = false → r.getInto.2.2 = out
  others : ∀ c' ∈ [r.get.1, r.getInto.1, r.ttl.1, r.erase.1], c'.others key = c.others key

namespace ReadersLemmas

theorem without_forgets {s s' : Lru} {k : Bytes} (h : Lru.Forgets s s' k) :
    Keyed.without Entry.key k s'.items = Keyed.without Entry.key k s.items := by
  rcases h.1 with he | he
  · rw [he]
  · rw [he]
    exact Keyed.without_eq_self fun e hmem => (Keyed.mem_without.mp hmem).2

theorem without_get (s : Lru) (now : Time) (k : Bytes) :
    Keyed.without Entry.key k (s.get now k).1.items = Keyed.without Entry.key k s.items := by
  rcases s.view_cases now k with ⟨hf, -⟩ | ⟨e, hf, hx, -⟩ | ⟨e, hf, hx, -⟩
  · rw [Lru.get_absent hf]
  · rw [Lru.get_expired hf hx]
    exact without_forgets ⟨Or.inr rfl, rfl⟩
  · obtain ⟨-, rfl⟩ := Keyed.find_some hf
    rw [Lru.get_live hf hx]
    show (e :: Keyed.without Entry.key e.key s.items).filter _ = _
    rw [List.filter_cons, if_neg (by simp)]
    exact Keyed.without_eq_self fun a ha => (Keyed.mem_without.mp ha).2

theorem exportEntry_of_expired {now : Time} {e : Entry} (h : isExpired now e = true) :
    Cache.exportEntry now e = none := by
  refine Option.eq_none_iff_forall_not_mem.mpr fun s hs => ?_
  rw [(live_of_exportEntry hs).1] at h
  cases h

/-- What is exported under a key. -/
theorem exported_filter {c : Cache} (h : c.WF) (now : Time) (k : Bytes) :
    (c.exportEntries now).filter (fun s => decide (s.key = k))
      = ((c.abs.find k).bind (Cache.exportEntry now)).toList := by
  cases hf : c.abs.find k with
  | none =>
    refine List.filter_eq_nil_iff.mpr fun s hs => ?_
    obtain ⟨e, he, hes⟩ := mem_exportEntries hs
    rw [exportEntry_key hes, decide_eq_true_eq]
    exact Keyed.find_none.mp hf e he
  | some e =>
    obtain ⟨he, rfl⟩ := Keyed.find_some hf
    rw [Option.bind_some]
    cases hs : Cache.exportEntry now e with
    | none =>
      refine List.filter_eq_nil_iff.mpr fun s hmem => ?_
      obtain ⟨e', he', hes⟩ := mem_exportEntries hmem
      rw [exportEntry_key hes, decide_eq_true_eq]
      intro hkey
      have := Keyed.find_of_mem (abs_wf h).nodup he'
      rw [hkey] at this
      cases hf.symm.trans this
      cases hs.symm.trans hes
    | some s =>
      have hmem : s ∈ c.exportEntries now := List.mem_filterMap.mpr ⟨e, he, hs⟩
      rw [← exportEntry_key hs]
      exact Keyed.filter_key (nodupBy_export h now) hmem

/-- The snapshot of an entry that is visible. -/
theorem exportEntry_ttlInfo {now : Time} {e : Entry} {s : EntrySnapshot}
    (h : Cache.exportEntry now e = some s) :
    ((ttlInfo now (some e.timed)).state = .persistent ↔ s.remainingTtl = none) ∧
      ∀ t, s.remainingTtl = some t → ttlInfo now (some e.timed) = ⟨.expiring, t⟩ ∧ 0 ≤ t := by
  refine ⟨?_, fun t ht => ⟨?_, exportEntry_ttl h ht⟩⟩
  all_goals
    unfold Cache.exportEntry at h
    unfold Entry.timed
    split at h
  · next hd =>
    cases h
    rw [hd]
    exact iff_of_true rfl rfl
  · next deadline hd =>
    split at h
    · cases h
    · cases h
      rw [hd]
      exact iff_of_false (fun h => by cases h) fun h => by cases h
  · cases h
    cases ht
  · next deadline hd =>
    split at h
    · cases h
    · cases h
      cases ht
      rw [hd]
      rfl

theorem getInto_spec {c : Cache} (h : c.WF) (now : Time) (k out : Bytes) :
    ∃ c', c.getInto now k out
        = some (c', (c.abs.view now k).isSome, ((c.abs.view now k).map Prod.fst).getD out) ∧
      c'.abs = (c.abs.get now k).1 := by
  obtain ⟨c', hget, -, habs⟩ := get_spec h now k
  refine ⟨c', ?_, habs⟩
  rw [Lru.get_reply] at hget
  have huse : c.use now k = some (c', (c.abs.view now k).map Prod.fst) := hget
  rw [Cache.getInto, huse]
  cases c.abs.view now k with
  | none => rfl
  | some p => rfl

/-- Every reading is what the view of the key says. -/
structure ReadsView (c : Cache) (now : Time) (k out : Bytes) (r : Readings) : Prop where
  contains : r.contains = (c.abs.view now k).isSome
  get : r.get.2 = (c.abs.view now k).map Prod.fst
  getInto : r.getInto.2 = ((c.abs.view now k).isSome, ((c.abs.view now k).map Prod.fst).getD out)
  ttl : r.ttl.2 = ttlInfo now (c.abs.view now k)
  erase : r.erase.2 = (c.abs.view now k).isSome
  exported : r.exported = ((c.abs.find k).bind (Cache.exportEntry now)).toList
  others : ∀ c' ∈ [r.get.1, r.getInto.1, r.ttl.1, r.erase.1], c'.others k = c.others k

theorem readings_spec {c : Cache} (h : c.WF) (now : Time) (k out : Bytes) :
    ∃ r, c.readings now k out = some r ∧ ReadsView c now k out r := by
  obtain ⟨cg, hget, -, hg⟩ := get_spec h now k
  obtain ⟨ci, hinto, hi⟩ := getInto_spec h now k out
  obtain ⟨ct, httl, -, ht⟩ := ttl_spec h now k
  obtain ⟨ce, herase, -, he⟩ := erase_spec h now k
  have hcontains := contains_spec h now k
  refine ⟨⟨_, _, _, _, _, _⟩, by rw [Cache.readings, hcontains, hget, hinto, httl, herase]; rfl,
    Lru.contains_reply _ now k, Lru.get_reply _ now k, rfl, Lru.ttl_reply _ now k,
    Lru.erase_reply _ now k, exported_filter h now k, ?_⟩
  have hothers : ∀ {c' : Cache} {s' : Lru}, c'.abs = s' →
      Keyed.without Entry.key k s'.items = Keyed.without Entry.key k c.abs.items →
      c'.others k = c.others k := by
    rintro c' _ rfl hsame
    exact hsame
  intro c' hc'
  simp only [List.mem_cons, List.not_mem_nil, or_false] at hc'
  rcases hc' with rfl | rfl | rfl | rfl
  · exact hothers hg (without_get _ now k)
  · exact hothers hi (without_get _ now k)
  · exact hothers ht (without_forgets (Lru.ttl_forgets _ now k))
  · exact hothers he (without_forgets (Lru.erase_forgets _ now k))

variable {c : Cache} {now : Time} {k out : Bytes} {r : Readings}

/-- A key that is bound to nothing. -/
theorem agree_of_invisible (h : ReadsView c now k out r) (hv : c.abs.view now k = none)
    (hexported : r.exported = []) : r.Agree c k out := by
  have hc := h.contains
  have hinto := h.getInto
  rw [hv] at hc hinto
  have hnot : ¬ r.contains = true := by
    rw [hc]
    exact Bool.false_ne_true
  exact {
    get := by rw [h.get, hv, hc]; rfl
    getInto := by rw [hinto, hc]
    ttl := iff_of_false (fun hm => hm (by rw [h.ttl, hv]; rfl)) hnot
    erase := by rw [h.erase, hv, hc]
    exported := iff_of_false (fun hne => hne hexported) hnot
    visible := fun htrue => absurd htrue hnot
    invisible := fun _ => by rw [hinto]; rfl
    others := h.others }

/-- A key that is bound to an entry. -/
theorem agree_of_visible (h : ReadsView c now k out r) {e : Entry}
    (hf : c.abs.find k = some e) (hx : isExpired now e = false)
    (hv : c.abs.view now k = some e.timed) : r.Agree c k out := by
  have hc := h.contains
  have hinto := h.getInto
  have hexported := h.exported
  obtain ⟨s, hs⟩ := exportEntry_of_live hx
  rw [hv] at hc hinto
  rw [hf, Option.bind_some, hs] at hexported
  have hvalue := (live_of_exportEntry hs).2
  have httl := exportEntry_ttlInfo hs
  rw [← hv, ← h.ttl] at httl
  have hstate : r.ttl.2.state ≠ .missing := by
    rw [h.ttl, hv, ttlInfo.eq_def, Entry.timed]
    cases e.expiresAt with
    | none => exact fun hm => by cases hm
    | some d => exact fun hm => by cases hm
  exact {
    get := by rw [h.get, hv, hc]; rfl
    getInto := by rw [hinto, hc]
    ttl := iff_of_true hstate hc
    erase := by rw [h.erase, hv, hc]
    exported := iff_of_true (by rw [hexported]; exact List.cons_ne_nil _ _) hc
    visible := fun _ => ⟨s, hexported, by rw [h.get, hv, hvalue]; rfl,
      by rw [hinto, hvalue]; rfl, httl⟩
    invisible := fun hfalse => by rw [hc] at hfalse; cases hfalse
    others := h.others }

end ReadersLemmas

open ReadersLemmas

/-- **Visibility.** After any calls on a cache of any capacity, the six readers of a key agree at
every clock reading. -/
theorem readers_agree (capacity : Option Nat) (calls : List (Time × Op)) :
    ∃ c rs, (Cache.new capacity).run calls = some (c, rs) ∧
      ∀ (key : Bytes) (now : Time) (out : Bytes),
        ∃ r, c.readings now key out = some r ∧ r.Agree c key out := by
  obtain ⟨c, hrun, hwf, -⟩ := run_refines (wf_new capacity) calls
  refine ⟨c, _, hrun, fun key now out => ?_⟩
  obtain ⟨r, hr, hreads⟩ := readings_spec hwf now key out
  refine ⟨r, hr, ?_⟩
  have hexported := hreads.exported
  rcases c.abs.view_cases now key with ⟨hf, hv⟩ | ⟨e, hf, hx, hv⟩ | ⟨e, hf, hx, hv⟩
  · rw [hf] at hexported
    exact agree_of_invisible hreads hv hexported
  · rw [hf, Option.bind_some, exportEntry_of_expired hx] at hexported
    exact agree_of_invisible hreads hv hexported
  · exact agree_of_visible hreads hf hx hv

end CacheX
