import CacheX.Saves

/-!
# The files of concurrent saves

What the steps of `Saves` do to the files, over whole runs.

* `Act.lookup_ne`, `Act.names`: what a step of a save does to the files of others.
* `Files`: what the files of a save hold, at every stage.
* `together_of_running`: what concurrent saves have in common.
* `saves_atomic`: the snapshot file is replaced as a whole or not at all.
-/

namespace CacheX

open Decimal (ascii)
open SavesLemmas

/-! ## The files of a save -/

theorem tempPath_ne {path t : Bytes} {P : Proc} {save : Save}
    (h : save.tempPath path P = some t) : t ≠ path := by
  obtain ⟨c, -, rfl⟩ := Option.map_eq_some_iff.mp h
  exact uniqueTempPath_ne path P.pid c

/-- The temp file of a save holds `bytes`. -/
def Save.Holds (path : Bytes) (P : Proc) (fs : Fs) (save : Save) (bytes : Bytes) : Prop :=
  ∃ t f, save.tempPath path P = some t ∧ save.file = some f ∧ fs.lookup t = some (f, bytes)

/-- The file that a save opened is not there any more, unless as the snapshot. -/
def Save.Clean (path : Bytes) (fs : Fs) (save : Save) : Prop :=
  ∀ f ∈ save.file, ∀ t, fs.names t = some f → t = path

/-- What holds of the files of a save, at each stage. -/
def StageOk (path : Bytes) (P : Proc) (fs : Fs) (save : Save) : Prop :=
  match save.stage with
  | .called => save.file = none
  | .named => save.file = none
  | .writing n => save.Holds path P fs (save.output.take n)
  | .flushed => save.Holds path P fs save.output
  | .removing r => r.ok = false ∧ ∃ bytes, save.Holds path P fs bytes
  | .finishing _ => save.Clean path fs
  | .returned _ => save.Clean path fs
  | .crashed => True

theorem StageOk.writing {path : Bytes} {P : Proc} {fs : Fs} {save : Save} {n f : Nat}
    (h : StageOk path P fs save) (hst : save.stage = .writing n) (hf : save.file = some f) :
    ∃ t, save.tempPath path P = some t ∧ fs.lookup t = some (f, save.output.take n) := by
  rw [StageOk, hst] at h
  obtain ⟨t, g, ht, hg, hlook⟩ := h
  cases hf.symm.trans hg
  exact ⟨t, ht, hlook⟩

theorem StageOk.flushed {path t : Bytes} {P : Proc} {fs : Fs} {save : Save}
    (h : StageOk path P fs save) (hst : save.stage = .flushed)
    (ht : save.tempPath path P = some t) :
    ∃ f, save.file = some f ∧ fs.lookup t = some (f, save.output) := by
  rw [StageOk, hst] at h
  obtain ⟨t', f, ht', hf, hlook⟩ := h
  cases ht.symm.trans ht'
  exact ⟨f, hf, hlook⟩

namespace Act

variable {path : Bytes} {P P' : Proc} {save save' : Save} {fs fs' : Fs}

theorem next_le (h : Act path P save fs P' save' fs') : fs.next ≤ fs'.next := by
  cases h with
  | openTemp => exact FileSystem.next_le_create
  | rename => exact Nat.le_of_eq FileSystem.next_rename.symm
  | _ => exact Nat.le_refl _

/-- A file that was there before has the name it had, or is the snapshot now. -/
theorem names (h : Act path P save fs P' save' fs') {t : Bytes} {f : Nat} (hf : f < fs.next)
    (ht : fs'.names t = some f) : fs.names t = some f ∨ t = path := by
  cases h with
  | openTemp =>
    rcases FileSystem.names_create ht with h | h
    · exact Or.inl h
    · exact absurd h (Nat.ne_of_lt hf)
  | rename => exact FileSystem.names_rename ht
  | remove => exact Or.inl (FileSystem.names_of_remove ht)
  | _ => exact Or.inl ht

/-- A step of a save touches no name but its own temp name and the snapshot. -/
theorem lookup_ne (h : Act path P save fs P' save' fs') (hok : StageOk path P fs save) {u : Bytes}
    (hu : u ≠ path) (hne : ∀ t, save.tempPath path P = some t → u ≠ t) :
    fs'.lookup u = fs.lookup u := by
  cases h with
  | openTemp _ ht => exact FileSystem.lookup_create_ne (hne _ ht)
  | write n hst hf =>
    obtain ⟨t, ht, hlook⟩ := hok.writing hst hf
    exact FileSystem.lookup_write_ne 0 hlook (hne t ht) _ _
  | rename hst ht =>
    obtain ⟨g, hg, hlook⟩ := hok.flushed hst ht
    exact FileSystem.lookup_rename_ne hlook (hne _ ht) hu
  | remove _ ht => exact FileSystem.lookup_remove_ne (hne _ ht)
  | _ => rfl

/-- The save renames and puts its complete output there, or the snapshot stays as it is. -/
theorem lookup_path (h : Act path P save fs P' save' fs') (hok : StageOk path P fs save) :
    (fs'.lookup path = fs.lookup path ∧
      ¬ (save.stage = .flushed ∧ ∃ r, save'.stage = .finishing r)) ∨
    (fs'.read path = some save.output ∧ save.stage = .flushed ∧
      save'.stage = .finishing (save.result .done)) := by
  cases h with
  | openTemp hst ht =>
    exact Or.inl ⟨FileSystem.lookup_create_ne (tempPath_ne ht).symm, fun ⟨_, _, h⟩ => by cases h⟩
  | write n hst hf =>
    obtain ⟨t, ht, hlook⟩ := hok.writing hst hf
    exact Or.inl ⟨FileSystem.lookup_write_ne 0 hlook (tempPath_ne ht).symm _ _,
      fun ⟨_, _, h⟩ => by cases h⟩
  | rename hst ht =>
    obtain ⟨g, hg, hlook⟩ := hok.flushed hst ht
    refine Or.inr ⟨?_, hst, rfl⟩
    rw [FileSystem.read, FileSystem.lookup_rename hlook]
    rfl
  | remove hst ht =>
    exact Or.inl ⟨FileSystem.lookup_remove_ne (tempPath_ne ht).symm,
      fun h => by cases hst.symm.trans h.1⟩
  | openFailed hst => exact Or.inl ⟨rfl, fun h => by cases hst.symm.trans h.1⟩
  | _ => exact Or.inl ⟨rfl, fun ⟨_, _, h⟩ => by cases h⟩

/-- A save is told that it has succeeded when it renames. -/
theorem succeeds (h : Act path P save fs P' save' fs') (hok : StageOk path P fs save)
    {r : SaveResult} (hst' : save'.stage = .finishing r ∨ save'.stage = .returned r)
    (hr : r.ok = true) :
    save.stage = .finishing r ∨ save.stage = .flushed ∧ save'.stage = .finishing r := by
  cases h with
  | openFailed =>
    rcases hst' with h | h <;> cases h
    cases hr
  | rename hst =>
    rcases hst' with h | h <;> cases h
    exact Or.inr ⟨hst, rfl⟩
  | remove hst =>
    rw [StageOk, hst] at hok
    rcases hst' with h | h <;> cases h
    cases hok.1.symm.trans hr
  | ret hst =>
    rcases hst' with h | h <;> cases h
    exact Or.inl hst
  | _ => rcases hst' with h | h <;> cases h

theorem file_lt (h : Act path P save fs P' save' fs') (hlt : ∀ f ∈ save.file, f < fs.next) :
    ∀ f ∈ save'.file, f < fs'.next := by
  cases h with
  | openTemp =>
    intro f hf
    cases hf
    exact FileSystem.lt_next_create
  | rename => exact fun f hf => (hlt f hf).trans_eq FileSystem.next_rename.symm
  | _ => exact hlt

/-- What a save has to write stays. -/
theorem content (h : Act path P save fs P' save' fs') :
    save'.wall = save.wall ∧ save'.entries = save.entries := by
  cases h <;> exact ⟨rfl, rfl⟩

theorem output (h : Act path P save fs P' save' fs') : save'.output = save.output := by
  rw [Save.output, h.content.1, h.content.2, Save.output]

theorem stageOk (h : Act path P save fs P' save' fs') (hok : StageOk path P fs save) :
    StageOk path P' fs' save' := by
  cases h with
  | fetchAdd hst =>
    rw [StageOk, hst] at hok
    exact hok
  | openTemp hst ht => exact ⟨_, _, ht, rfl, FileSystem.lookup_create⟩
  | openFailed hst ht =>
    rw [StageOk, hst] at hok
    intro f hf
    rw [hok] at hf
    cases hf
  | @write written f n hst hf hle =>
    obtain ⟨t, ht, hlook⟩ := hok.writing hst hf
    refine ⟨t, _, ht, hf, (FileSystem.lookup_write 0 hlook _ _).trans ?_⟩
    -- the offset is where the written bytes end
    have hend := FileSystem.writeAt_end 0 (save.output.take written)
      ((save.output.drop written).take n)
    rw [List.length_take, Nat.min_eq_left (by omega), ← List.take_add] at hend
    rw [hend]
    rfl
  | flush hst =>
    rw [StageOk, hst] at hok
    have hholds : save.Holds path P fs (save.output.take save.output.length) := hok
    rw [List.take_length] at hholds
    exact hholds
  | flushFailed hst =>
    rw [StageOk, hst] at hok
    exact ⟨rfl, _, hok⟩
  | rename hst ht =>
    obtain ⟨g, hg, hlook⟩ := hok.flushed hst ht
    intro f hf t hname
    cases hg.symm.trans hf
    exact FileSystem.unique _ hname
      (FileSystem.lookup_eq_some.mp (FileSystem.lookup_rename hlook)).1
  | renameFailed reason hst =>
    rw [StageOk, hst] at hok
    exact ⟨rfl, _, hok⟩
  | remove hst ht =>
    rw [StageOk, hst] at hok
    obtain ⟨-, bytes, t', g, ht', hg, hlook⟩ := hok
    cases ht.symm.trans ht'
    intro f hf t hname
    cases hg.symm.trans hf
    exact absurd hname (FileSystem.names_remove_ne (FileSystem.lookup_eq_some.mp hlook).1 t)
  | ret hst =>
    rw [StageOk, hst] at hok
    exact hok
  | crash => trivial

end Act

theorem Save.Holds.frame {path bytes : Bytes} {Q Q' : Proc} {fs fs' : Fs} {x : Save}
    (h : x.Holds path Q fs bytes) (hpid : Q'.pid = Q.pid)
    (hlook : ∀ u, x.tempPath path Q = some u → fs'.lookup u = fs.lookup u) :
    x.Holds path Q' fs' bytes := by
  obtain ⟨t, f, ht, hf, hl⟩ := h
  refine ⟨t, f, ?_, hf, (hlook t ht).trans hl⟩
  rw [Save.tempPath, hpid]
  exact ht

/-- The stage of a save stands on its temp file, while the save is not over, and on where the file
it opened can be found. -/
theorem StageOk.frame {path : Bytes} {Q Q' : Proc} {fs fs' : Fs} {x : Save}
    (h : StageOk path Q fs x) (hpid : Q'.pid = Q.pid) (hlt : ∀ f ∈ x.file, f < fs.next)
    (hnames : ∀ t f, f < fs.next → fs'.names t = some f → fs.names t = some f ∨ t = path)
    (hlook : x.stage.over = false → ∀ u, x.tempPath path Q = some u → fs'.lookup u = fs.lookup u) :
    StageOk path Q' fs' x := by
  have hclean : x.Clean path fs → x.Clean path fs' := fun hc f hf t ht =>
    (hnames t f (hlt f hf) ht).elim (hc f hf t) id
  unfold StageOk at h ⊢
  cases hst : x.stage with
  | called | named =>
    rw [hst] at h
    exact h
  | writing | flushed =>
    rw [hst] at h hlook
    exact h.frame hpid (hlook rfl)
  | removing =>
    rw [hst] at h hlook
    exact ⟨h.1, h.2.imp fun _ hb => hb.frame hpid (hlook rfl)⟩
  | finishing | returned =>
    rw [hst] at h
    exact hclean h
  | crashed => trivial

/-- What the files hold. The snapshot is the one from the start or the complete output of a save. -/
structure Files (path : Bytes) (initial : Option Bytes) (s : Saves) : Prop where
  file : ∀ {i : Nat} {save : Save}, s.saves[i]? = some save → ∀ f ∈ save.file, f < s.fs.next
  stage : ∀ {i : Nat} {save : Save} {P : Proc}, s.saves[i]? = some save →
    s.procs[save.proc]? = some P → StageOk path P s.fs save
  snapshot : s.fs.read path = initial ∨ ∃ save ∈ s.saves, s.fs.read path = some save.output

namespace Files

variable {path : Bytes} {initial : Option Bytes} {s s' : Saves}

theorem act (h : Files path initial s) (hids : Ids s) (hfew : s.saves.length < 2 ^ 64) {i : Nat}
    {save save' : Save} {P P' : Proc} {fs' : Fs} (hi : s.saves[i]? = some save)
    (hP : s.procs[save.proc]? = some P) (hd : P.died = none)
    (hact : Act path P save s.fs P' save' fs') :
    Files path initial ⟨s.procs.set save.proc P', s.saves.set i save', fs'⟩ := by
  obtain ⟨hpid, -, hproc', -⟩ := hact.ids
  have hok := h.stage hi hP
  have hmem : save' ∈ s.saves.set i save' :=
    List.mem_of_getElem? (List.getElem?_set_self (List.getElem?_eq_some_iff.mp hi).1)
  refine ⟨fun hj => ?_, fun {j x Q} hj hQ => ?_, ?_⟩
  · rcases set_cases hj with ⟨rfl, rfl⟩ | ⟨-, hj⟩
    · exact hact.file_lt (h.file hi)
    · exact fun f hf => (h.file hj f hf).trans_le hact.next_le
  · rcases set_cases hj with ⟨rfl, rfl⟩ | ⟨hji, hj⟩
    · rcases set_cases hQ with ⟨-, rfl⟩ | ⟨hne, -⟩
      · exact hact.stageOk hok
      · exact absurd hproc' hne
    · obtain ⟨Q₀, hQ₀, hpid₀⟩ : ∃ Q₀, s.procs[x.proc]? = some Q₀ ∧ Q.pid = Q₀.pid := by
        rcases set_cases hQ with ⟨heq, rfl⟩ | ⟨-, hQ⟩
        · exact ⟨P, heq ▸ hP, hpid⟩
        · exact ⟨Q, hQ, rfl⟩
      refine (h.stage hj hQ₀).frame hpid₀ (h.file hj) (fun t f => hact.names) fun hover u hu => ?_
      -- both processes are alive, so the temp names differ
      have hd₀ := hids.living hj hQ₀ hover
      refine hact.lookup_ne hok (tempPath_ne hu) fun t ht => ?_
      exact hids.temp_ne hfew hj hi hQ₀ hP (by simp [AliveTogether, hd, hd₀]) hu ht hji
  · rcases hact.lookup_path hok with ⟨hsame, -⟩ | ⟨hnew, -⟩
    · rw [FileSystem.read, hsame]
      refine h.snapshot.imp id fun ⟨x, hx, hread⟩ => ?_
      obtain ⟨j, hj⟩ := List.mem_iff_getElem?.mp hx
      rcases eq_or_ne i j with rfl | hij
      · cases hi.symm.trans hj
        exact ⟨save', hmem, hact.output ▸ hread⟩
      · exact ⟨x, List.mem_of_getElem? ((List.getElem?_set_ne hij).trans hj), hread⟩
    · exact Or.inr ⟨save', hmem, hact.output.symm ▸ hnew⟩

theorem step (h : Files path initial s) (hids : Ids s) (hfew : s.saves.length < 2 ^ 64)
    {label : Option Nat} (hs : s.Step path label s') : Files path initial s' := by
  cases hs with
  | spawn pid hpid =>
    refine ⟨h.file, fun hi hP => ?_, h.snapshot⟩
    exact h.stage hi (hids.proc_of_snoc hi hP)
  | @die p proc hp hd =>
    refine ⟨fun hi => ?_, fun hi hP => ?_, h.snapshot.imp id fun ⟨x, hx, hread⟩ => ?_⟩
    · obtain ⟨x₀, stage, hi₀, rfl, -⟩ := stopIn_cases hi
      exact fun f hf => h.file hi₀ f hf
    · obtain ⟨x₀, stage, hi₀, rfl, rfl | ⟨rfl, -⟩⟩ := stopIn_cases hi
      · trivial
      · rcases set_cases hP with ⟨heq, rfl⟩ | ⟨-, hP⟩
        · have hp' : s.procs[x₀.proc]? = some proc := heq ▸ hp
          exact (h.stage hi₀ hp').frame rfl (h.file hi₀) (fun _ _ _ => Or.inl) fun _ _ _ => rfl
        · exact h.stage hi₀ hP
    · refine ⟨_, List.mem_map_of_mem hx, ?_⟩
      rw [(x.stopIn_eq p).1]
      exact hread
  | call wall entries hp hd =>
    refine ⟨fun hi => ?_, fun hi hP => ?_, h.snapshot.imp id fun ⟨x, hx, hread⟩ => ?_⟩
    · rcases snoc_cases hi with hi | ⟨-, rfl⟩
      · exact h.file hi
      · exact fun f hf => by cases hf
    · rcases snoc_cases hi with hi | ⟨-, rfl⟩
      · exact h.stage hi hP
      · rfl
    · exact ⟨x, List.mem_append_left _ hx, hread⟩
  | act hi hP hd hact => exact h.act hids hfew hi hP hd hact

end Files

/-! ## Runs -/

theorem length_le_of_step {path : Bytes} {s s' : Saves} {label : Option Nat}
    (hs : s.Step path label s') : s.saves.length ≤ s'.saves.length := by
  cases hs with
  | spawn => exact Nat.le_refl _
  | die => exact Nat.le_of_eq (List.length_map _).symm
  | call =>
    rw [List.length_append]
    exact Nat.le_add_right _ _
  | act => exact Nat.le_of_eq (List.length_set ..).symm

theorem invariant_of_reaches {path : Bytes} {fs : Fs} {s : Saves}
    (h : Saves.Reaches path ⟨[], [], fs⟩ s) (hfew : s.saves.length < 2 ^ 64) :
    Ids s ∧ Files path (fs.read path) s := by
  induction h with
  | refl =>
    refine ⟨⟨?_, ?_, ?_, ?_, ?_, ?_, ?_, ?_⟩, ⟨?_, ?_, Or.inl rfl⟩⟩
    all_goals
      intros
      simp_all
  | tail _ hstep ih =>
    obtain ⟨label, hs⟩ := hstep
    obtain ⟨hids, hfiles⟩ := ih ((length_le_of_step hs).trans_lt hfew)
    exact ⟨hids.step hs, hfiles.step hids ((length_le_of_step hs).trans_lt hfew) hs⟩

/-- The stages of a save that has put its output in place. -/
def Stage.Succeeded : Stage → Prop
  | .finishing result => result.ok = true
  | .returned result => result.ok = true
  | .crashed => True
  | _ => False

theorem Act.succeeded {path : Bytes} {P P' : Proc} {save save' : Save} {fs fs' : Fs}
    (h : Act path P save fs P' save' fs') (hs : save.stage.Succeeded) : save'.stage.Succeeded := by
  cases h with
  | ret hst =>
    rw [hst] at hs
    exact hs
  | crash => trivial
  | write _ hst | renameFailed _ hst => exact absurd hs (by rw [hst]; exact id)
  | _ hst => exact absurd hs (by rw [hst]; exact id)

namespace SavesLemmas

variable {path : Bytes} {s s' : Saves} {label : Option Nat}

/-- A save stays in its process, and one that has put its output in place never fails later. -/
theorem save_of_step (hs : s.Step path label s') {i : Nat} {x : Save}
    (hi : s.saves[i]? = some x) :
    ∃ x', s'.saves[i]? = some x' ∧ x'.proc = x.proc ∧
      (x.stage.Succeeded → x'.stage.Succeeded) := by
  have hlt : i < s.saves.length := (List.getElem?_eq_some_iff.mp hi).1
  cases hs with
  | spawn => exact ⟨x, hi, rfl, id⟩
  | @die p =>
    obtain ⟨heq, hstage⟩ := x.stopIn_eq p
    refine ⟨x.stopIn p, by rw [List.getElem?_map, hi]; rfl, by rw [heq], fun hx => ?_⟩
    rcases hstage with hstage | ⟨hstage, -⟩
    · rw [hstage]
      trivial
    · rw [hstage]
      exact hx
  | call => exact ⟨x, (List.getElem?_append_left hlt).trans hi, rfl, id⟩
  | @act j save save' _ _ _ hj _ _ hact =>
    rcases eq_or_ne j i with rfl | hji
    · cases hi.symm.trans hj
      exact ⟨save', List.getElem?_set_self hlt, hact.ids.2.2.1, hact.succeeded⟩
    · exact ⟨x, (List.getElem?_set_ne hji).trans hi, rfl, id⟩

/-- Process `p` has not ended before `n` processes were started. -/
def Outlives (s : Saves) (n p : Nat) : Prop :=
  n ≤ s.procs.length ∧ ∃ P, s.procs[p]? = some P ∧ ∀ m ∈ P.died, n ≤ m

theorem outlives_of_step (hs : s.Step path label s') {n p : Nat} (h : Outlives s n p) :
    Outlives s' n p := by
  obtain ⟨hn, P, hP, hdied⟩ := h
  have hlt : p < s.procs.length := (List.getElem?_eq_some_iff.mp hP).1
  have hP' := List.getElem?_eq_getElem (hlt.trans_le (length_procs_le hs))
  refine ⟨hn.trans (length_procs_le hs), _, hP', fun m hm => ?_⟩
  rcases proc_cases hs hP' with ⟨P₀, hP₀, -, -, hsame | ⟨-, hnew⟩⟩ | ⟨hlen, -⟩
  · cases hP.symm.trans hP₀
    exact hdied m (hsame.symm.trans hm)
  · cases hnew.symm.trans hm
    exact hn
  · exact absurd hlen (Nat.ne_of_lt hlt)

end SavesLemmas

theorem succeeded_of_reaches {path : Bytes} {s u : Saves} {i : Nat} (hr : s.Reaches path u)
    (h : ∃ x, s.saves[i]? = some x ∧ x.stage.Succeeded) :
    ∃ x, u.saves[i]? = some x ∧ x.stage.Succeeded := by
  induction hr with
  | refl => exact h
  | tail _ hstep ih =>
    obtain ⟨label, hs⟩ := hstep
    obtain ⟨x, hx, hdone⟩ := ih
    obtain ⟨x', hx', -, hstays⟩ := save_of_step hs hx
    exact ⟨x', hx', hstays hdone⟩

/-- The temp name of save `j`, once it has one. -/
def Saves.tempOf (path : Bytes) (s : Saves) (j : Nat) : Option Bytes :=
  s.saves[j]?.bind fun save => s.procs[save.proc]?.bind fun proc => save.tempPath path proc

/-- The processes of saves `i` and `j` were alive at the same time at some moment. -/
def Saves.Together (s : Saves) (i j : Nat) : Prop :=
  ∀ a b P Q, s.saves[i]? = some a → s.saves[j]? = some b → s.procs[a.proc]? = some P →
    s.procs[b.proc]? = some Q → AliveTogether a.proc P b.proc Q

/-- Saves that were running at the same moment are `Together` from then on. -/
theorem together_of_running {path : Bytes} {s₀ s : Saves} (hids : Ids s₀) {i j : Nat} {a b : Save}
    (hi : s₀.saves[i]? = some a) (hj : s₀.saves[j]? = some b) (ha : a.stage.over = false)
    (hb : b.stage.over = false) (hreach : s₀.Reaches path s) : s.Together i j := by
  have hstart : ∀ {k : Nat} {x : Save}, s₀.saves[k]? = some x → x.stage.over = false →
      x.proc < s₀.procs.length ∧ Outlives s₀ s₀.procs.length x.proc := by
    intro k x hk hx
    obtain ⟨P, hP⟩ := hids.proc hk
    refine ⟨(List.getElem?_eq_some_iff.mp hP).1, Nat.le_refl _, P, hP, fun m hm => ?_⟩
    cases (hids.living hk hP hx).symm.trans hm
  have hlater : ∀ {k : Nat} {x : Save}, s₀.saves[k]? = some x → x.stage.over = false →
      (∃ x', s.saves[k]? = some x' ∧ x'.proc = x.proc) ∧ Outlives s s₀.procs.length x.proc := by
    intro k x hk hx
    induction hreach with
    | refl => exact ⟨⟨x, hk, rfl⟩, (hstart hk hx).2⟩
    | tail _ hstep ih =>
      obtain ⟨label, hs⟩ := hstep
      obtain ⟨⟨x', hx', hproc⟩, hout⟩ := ih
      obtain ⟨x'', hx'', hproc', -⟩ := save_of_step hs hx'
      exact ⟨⟨x'', hx'', hproc'.trans hproc⟩, outlives_of_step hs hout⟩
  intro a' b' P Q hi' hj' hP hQ
  obtain ⟨⟨_, hia, hproca⟩, -, P₀, hP₀, hPdied⟩ := hlater hi ha
  obtain ⟨⟨_, hjb, hprocb⟩, -, Q₀, hQ₀, hQdied⟩ := hlater hj hb
  cases hi'.symm.trans hia
  cases hj'.symm.trans hjb
  rw [hproca] at hP ⊢
  rw [hprocb] at hQ ⊢
  cases hP.symm.trans hP₀
  cases hQ.symm.trans hQ₀
  exact ⟨fun n hn => (hstart hj hb).1.trans_le (hPdied n hn),
    fun n hn => (hstart hi ha).1.trans_le (hQdied n hn)⟩

/-- At every moment of every interleaving the snapshot is as it was at the start or the complete
output of one save. No step touches the temp file of a concurrent save. A save that has changed the
snapshot never returns a failure, and the file of a save that has returned is nowhere but at the
snapshot's name.

Without `Together`, a process started later can have the pid of a dead one, and then it reuses the
temp file that a crashed save of the dead one left. -/
theorem saves_atomic {path : Bytes} {fs : Fs} {s : Saves}
    (hreach : Saves.Reaches path ⟨[], [], fs⟩ s) (hfew : s.saves.length < 2 ^ 64) :
    (s.fs.read path = fs.read path ∨ ∃ save ∈ s.saves, s.fs.read path = some save.output) ∧
    (∀ i s', s.Step path (some i) s' →
      (∀ j, j ≠ i → s.Together i j → ∀ t, s.tempOf path j = some t →
        s'.fs.lookup t = s.fs.lookup t) ∧
      (s'.fs.read path ≠ s.fs.read path → ∀ u x r, s'.Reaches path u → u.saves[i]? = some x →
        x.stage = .returned r → r.ok = true)) ∧
    ∀ save ∈ s.saves, ∀ r, save.stage = .returned r → save.Clean path s.fs := by
  obtain ⟨hids, hfiles⟩ := invariant_of_reaches hreach hfew
  refine ⟨hfiles.snapshot, fun i s' hs => ?_, fun save hsave r hr => ?_⟩
  · cases hs with
    | @act _ save save' P P' fs' hi hP hd hact =>
      have hok := hfiles.stage hi hP
      refine ⟨fun j hji htogether t ht => ?_, fun hread u x r hu hx hr => ?_⟩
      · obtain ⟨b, hj, hb⟩ := Option.bind_eq_some_iff.mp ht
        obtain ⟨Q, hQ, hbt⟩ := Option.bind_eq_some_iff.mp hb
        refine hact.lookup_ne hok (tempPath_ne hbt) fun t' ht' heq => ?_
        exact hids.temp_ne hfew hi hj hP hQ (htogether _ _ _ _ hi hj hP hQ) ht' hbt hji.symm
          heq.symm
      · rcases hact.lookup_path hok with ⟨hsame, -⟩ | ⟨-, -, hst⟩
        · exact absurd (by rw [FileSystem.read, hsame]; rfl) hread
        · have hdone : ∃ x, (s.saves.set i save')[i]? = some x ∧ x.stage.Succeeded :=
            ⟨save', List.getElem?_set_self (List.getElem?_eq_some_iff.mp hi).1, by rw [hst]; rfl⟩
          obtain ⟨y, hy, hyst⟩ := succeeded_of_reaches hu hdone
          cases hx.symm.trans hy
          rw [hr] at hyst
          exact hyst
  · obtain ⟨i, hi⟩ := List.mem_iff_getElem?.mp hsave
    obtain ⟨P, hP⟩ := hids.proc hi
    have hok := hfiles.stage hi hP
    rw [StageOk, hr] at hok
    exact hok

/-- Two saves of one process: one crashes with its temp file open, the other one gets through. -/
theorem saves_atomic_crash :
    ∃ s : Saves, s.saves.length = 2 ∧ s.fs.read (ascii "db") ≠ none ∧
      ∃ save ∈ s.saves, s.fs.read (ascii "db") = some save.output := by
  have hrun : ∃ s, Saves.Reaches (ascii "db") ⟨[], [], .empty⟩ s ∧ s.saves.length = 2 ∧
      s.fs.read (ascii "db") ≠ none := by
    refine ⟨_, .tail (.tail (.tail (.tail (.tail (.tail (.tail (.tail (.tail (.tail (.tail (.tail
      .refl
      ⟨none, .spawn 7 (fun _ h => nomatch h)⟩)
      ⟨none, .call (p := 0) 0 [] rfl rfl⟩)
      ⟨none, .call (p := 0) 5 [] rfl rfl⟩)
      ⟨some 0, .act rfl rfl rfl (.fetchAdd rfl)⟩)
      ⟨some 1, .act rfl rfl rfl (.fetchAdd rfl)⟩)
      ⟨some 0, .act rfl rfl rfl (.openTemp rfl rfl)⟩)
      ⟨some 1, .act rfl rfl rfl (.openTemp rfl rfl)⟩)
      ⟨some 0, .act rfl rfl rfl (.write 3 rfl rfl (by decide))⟩)
      ⟨some 1, .act rfl rfl rfl (.crash rfl)⟩)
      ⟨some 0, .act rfl rfl rfl (.write 19 rfl rfl (by decide))⟩)
      ⟨some 0, .act rfl rfl rfl (.flush rfl)⟩)
      ⟨some 0, .act rfl rfl rfl (.rename rfl rfl)⟩, rfl, ?_⟩
    decide
  obtain ⟨s, hreach, hlen, hread⟩ := hrun
  refine ⟨s, hlen, hread, ?_⟩
  exact (saves_atomic hreach (by rw [hlen]; decide)).1.resolve_left hread

end CacheX
