import Mathlib.Logic.Relation
import CacheX.Command
import CacheX.Lib.FileSystem

/-!
# Concurrent saves

`PersistenceManager::save` one file operation at a time, for any number of saves in any number of
processes: the clients' `SAVE`s, the periodic saver, several managers of one path. Their steps are
interleaved in any way, and any save and any process can stop for good between two steps.

* `Saves.Step`: the steps of the whole.
* `uniqueTempPath_injective`: temp names differ when the pid or the counter differs.
* `SavesLemmas.proc_cases`, `SavesLemmas.save_cases`: where a process and a save come from.
* `Ids.step`, `Ids.temp_ne`: no two saves of processes that were alive together have the same temp
  name.
-/

namespace CacheX

open Decimal (ascii)

/-! ## The steps of a save -/

/-- Where a save is. -/
inductive Stage
  /-- Before the counter. -/
  | called
  /-- Has its temp name. -/
  | named
  /-- The temp file is open, and this many bytes have been written. -/
  | writing (written : Nat)
  /-- Everything is written and flushed. -/
  | flushed
  /-- The save has failed and the temp file is about to be removed. -/
  | removing (result : SaveResult)
  /-- No file operation is left. -/
  | finishing (result : SaveResult)
  | returned (result : SaveResult)
  | crashed
deriving DecidableEq, Repr

/-- A save takes no more steps once it has returned or crashed. -/
def Stage.over : Stage → Bool
  | .returned _ => true
  | .crashed => true
  | _ => false

/-- A call of `save`: the process it is in and what it has to write. `ticket` is the value it took
from the counter and `file` is the file it opened. -/
structure Save where
  proc : Nat
  wall : Millis
  entries : List EntrySnapshot
  ticket : Option Nat := none
  file : Option Nat := none
  stage : Stage := .called

/-- A process, with the static counter of `unique_temp_path`. `died` tells how many processes had
been started when it ended. -/
structure Proc where
  pid : Nat
  counter : Nat := 0
  died : Option Nat := none

abbrev Fs := FileSystem Bytes UInt8

/-- `unique_temp_path`. The counter has 64 bits. -/
def uniqueTempPath (path : Bytes) (pid counter : Nat) : Bytes :=
  path ++ ascii ".tmp." ++ Decimal.ofNat pid ++ ascii "." ++ Decimal.ofNat (counter % 2 ^ 64)

namespace Save

/-- The complete output. -/
def output (save : Save) : Bytes := saveBytes save.wall save.entries

def result (save : Save) (outcome : SaveOutcome) : SaveResult :=
  (writeSnapshot outcome save.wall none save.entries).2

def tempPath (path : Bytes) (proc : Proc) (save : Save) : Option Bytes :=
  save.ticket.map (uniqueTempPath path proc.pid)

/-- What the end of process `p` does to a save. -/
def stopIn (p : Nat) (save : Save) : Save :=
  if save.proc = p ∧ save.stage.over = false then { save with stage := .crashed } else save

end Save

/-- One step of a save, on its process and on the files. -/
inductive Act (path : Bytes) (proc : Proc) (save : Save) (fs : Fs) : Proc → Save → Fs → Prop
  | fetchAdd : save.stage = .called →
    Act path proc save fs { proc with counter := proc.counter + 1 }
      { save with ticket := some proc.counter, stage := .named } fs
  | openTemp {temp : Bytes} : save.stage = .named → save.tempPath path proc = some temp →
    Act path proc save fs proc
      { save with file := some (fs.create temp).2, stage := .writing 0 } (fs.create temp).1
  | openFailed {temp : Bytes} : save.stage = .named → save.tempPath path proc = some temp →
    Act path proc save fs proc
      { save with stage := .finishing (save.result (.cannotOpen temp)) } fs
  | write {written f : Nat} (n : Nat) : save.stage = .writing written → save.file = some f →
    written + n ≤ save.output.length →
    Act path proc save fs proc { save with stage := .writing (written + n) }
      (fs.write 0 f written ((save.output.drop written).take n))
  | flush : save.stage = .writing save.output.length →
    Act path proc save fs proc { save with stage := .flushed } fs
  | flushFailed {written : Nat} : save.stage = .writing written →
    Act path proc save fs proc { save with stage := .removing (save.result .writeFailed) } fs
  | rename {temp : Bytes} : save.stage = .flushed → save.tempPath path proc = some temp →
    Act path proc save fs proc { save with stage := .finishing (save.result .done) }
      (fs.rename temp path)
  | renameFailed (reason : Bytes) : save.stage = .flushed →
    Act path proc save fs proc
      { save with stage := .removing (save.result (.cannotRename reason)) } fs
  | remove {temp : Bytes} {result : SaveResult} : save.stage = .removing result →
    save.tempPath path proc = some temp →
    Act path proc save fs proc { save with stage := .finishing result } (fs.remove temp)
  | ret {result : SaveResult} : save.stage = .finishing result →
    Act path proc save fs proc { save with stage := .returned result } fs
  | crash : save.stage.over = false → Act path proc save fs proc { save with stage := .crashed } fs

/-- All processes and saves so far, and the files. -/
structure Saves where
  procs : List Proc
  saves : List Save
  fs : Fs

/-- One step of the whole, labelled with the save that takes it. A process starts with a pid that no
living process has. When a process dies, its saves stop where they are. -/
inductive Saves.Step (path : Bytes) (s : Saves) : Option Nat → Saves → Prop
  | spawn (pid : Nat) : (∀ proc ∈ s.procs, proc.died = none → proc.pid ≠ pid) →
    Step path s none { s with procs := s.procs ++ [{ pid := pid }] }
  | die {p : Nat} {proc : Proc} : s.procs[p]? = some proc → proc.died = none →
    Step path s none { s with
      procs := s.procs.set p { proc with died := some s.procs.length }
      saves := s.saves.map (Save.stopIn p) }
  | call {p : Nat} {proc : Proc} (wall : Millis) (entries : List EntrySnapshot) :
    s.procs[p]? = some proc → proc.died = none →
    Step path s none { s with
      saves := s.saves ++ [{ proc := p, wall := wall, entries := entries }] }
  | act {i : Nat} {save save' : Save} {proc proc' : Proc} {fs' : Fs} : s.saves[i]? = some save →
    s.procs[save.proc]? = some proc → proc.died = none →
    Act path proc save s.fs proc' save' fs' →
    Step path s (some i) ⟨s.procs.set save.proc proc', s.saves.set i save', fs'⟩

/-- Any number of steps. -/
def Saves.Reaches (path : Bytes) : Saves → Saves → Prop :=
  Relation.ReflTransGen fun s s' => ∃ label, Saves.Step path s label s'

/-- Both processes were alive at some moment: neither had ended when the other one started. -/
def AliveTogether (p : Nat) (P : Proc) (q : Nat) (Q : Proc) : Prop :=
  (∀ n ∈ P.died, q < n) ∧ ∀ n ∈ Q.died, p < n

/-! ## Temp names -/

theorem uniqueTempPath_ne (path : Bytes) (pid counter : Nat) :
    uniqueTempPath path pid counter ≠ path := by
  intro h
  have hlen := congrArg List.length h
  simp only [uniqueTempPath, List.length_append, ascii, List.length_map] at hlen
  have hdot : (".tmp.".toList.length) = 5 := rfl
  omega

theorem uniqueTempPath_injective {path : Bytes} {p q c d : Nat}
    (h : uniqueTempPath path p c = uniqueTempPath path q d) :
    p = q ∧ c % 2 ^ 64 = d % 2 ^ 64 := by
  have hdot : ∀ n : Nat, (46 : UInt8) ∉ Decimal.ofNat n := fun n hn =>
    absurd (Decimal.isDigit_of_mem_ofNat hn) (by decide)
  simp only [uniqueTempPath, List.append_assoc, List.append_cancel_left_eq] at h
  obtain ⟨hpid, -, hcounter⟩ := (List.append_cons_inj_of_notMem (hdot p) (hdot _)).mp h
  exact ⟨Decimal.ofNat_injective hpid, Decimal.ofNat_injective hcounter⟩

namespace SavesLemmas

theorem set_cases {α : Type} {l : List α} {i j : Nat} {a b : α} (h : (l.set i a)[j]? = some b) :
    (j = i ∧ b = a) ∨ (j ≠ i ∧ l[j]? = some b) := by
  rcases eq_or_ne i j with rfl | hij
  · rw [List.getElem?_set_self'] at h
    obtain ⟨-, -, rfl⟩ := Option.map_eq_some_iff.mp h
    exact Or.inl ⟨rfl, rfl⟩
  · rw [List.getElem?_set_ne hij] at h
    exact Or.inr ⟨hij.symm, h⟩

theorem snoc_cases {α : Type} {l : List α} {j : Nat} {a b : α} (h : (l ++ [a])[j]? = some b) :
    (l[j]? = some b) ∨ (j = l.length ∧ b = a) := by
  rw [List.getElem?_append] at h
  split at h
  · exact Or.inl h
  · rw [List.getElem?_singleton] at h
    split at h
    · cases h
      exact Or.inr ⟨by omega, rfl⟩
    · cases h

end SavesLemmas

open SavesLemmas

/-! ## Processes and tickets -/

/-- Who is who: pids differ among processes that were alive together, tickets differ within a
process, and a save that is not over is in a living process. -/
structure Ids (s : Saves) : Prop where
  proc : ∀ {i : Nat} {save : Save}, s.saves[i]? = some save → ∃ P, s.procs[save.proc]? = some P
  died : ∀ {p n : Nat} {P : Proc}, s.procs[p]? = some P → P.died = some n →
    p < n ∧ n ≤ s.procs.length
  pids : ∀ {p q : Nat} {P Q : Proc}, s.procs[p]? = some P → s.procs[q]? = some Q →
    AliveTogether p P q Q → P.pid = Q.pid → p = q
  fresh : ∀ {i : Nat} {save : Save}, s.saves[i]? = some save → save.stage = .called →
    save.ticket = none
  ticket : ∀ {i c : Nat} {save : Save} {P : Proc}, s.saves[i]? = some save →
    s.procs[save.proc]? = some P → save.ticket = some c → c < P.counter
  tickets : ∀ {i j c : Nat} {a b : Save}, s.saves[i]? = some a → s.saves[j]? = some b →
    a.proc = b.proc → a.ticket = some c → b.ticket = some c → i = j
  counter : ∀ {p : Nat} {P : Proc}, s.procs[p]? = some P →
    P.counter ≤ s.saves.countP fun save => save.ticket.isSome
  living : ∀ {i : Nat} {save : Save} {P : Proc}, s.saves[i]? = some save →
    s.procs[save.proc]? = some P → save.stage.over = false → P.died = none

/-- What a step of a save does to the ids. -/
theorem Act.ids {path : Bytes} {P P' : Proc} {save save' : Save} {fs fs' : Fs}
    (h : Act path P save fs P' save' fs') :
    P'.pid = P.pid ∧ P'.died = P.died ∧ save'.proc = save.proc ∧ save'.stage ≠ .called ∧
      ((P'.counter = P.counter ∧ save'.ticket = save.ticket) ∨
        (save.stage = .called ∧ P'.counter = P.counter + 1 ∧ save'.ticket = some P.counter)) := by
  cases h with
  | fetchAdd hs => exact ⟨rfl, rfl, rfl, (fun h => by cases h), Or.inr ⟨hs, rfl, rfl⟩⟩
  | _ => exact ⟨rfl, rfl, rfl, (fun h => by cases h), Or.inl ⟨rfl, rfl⟩⟩

theorem Save.stopIn_eq (p : Nat) (save : Save) :
    save.stopIn p = { save with stage := (save.stopIn p).stage } ∧
      ((save.stopIn p).stage = .crashed ∨
        ((save.stopIn p).stage = save.stage ∧ (save.proc = p → save.stage.over = true))) := by
  unfold Save.stopIn
  split
  · exact ⟨rfl, Or.inl rfl⟩
  · next h =>
    refine ⟨rfl, Or.inr ⟨rfl, fun hp => ?_⟩⟩
    rw [← Bool.not_eq_false]
    exact fun hover => h ⟨hp, hover⟩

namespace SavesLemmas

variable {path : Bytes} {s s' : Saves} {label : Option Nat}

theorem stopIn_cases {l : List Save} {p i : Nat} {x : Save}
    (hi : (l.map (Save.stopIn p))[i]? = some x) :
    ∃ x₀ stage, l[i]? = some x₀ ∧ x = { x₀ with stage := stage } ∧
      (stage = .crashed ∨ (stage = x₀.stage ∧ (x₀.proc = p → x₀.stage.over = true))) := by
  rw [List.getElem?_map] at hi
  obtain ⟨x₀, hi₀, rfl⟩ := Option.map_eq_some_iff.mp hi
  obtain ⟨heq, hstage⟩ := x₀.stopIn_eq p
  exact ⟨x₀, _, hi₀, heq, hstage⟩

/-- A process after a step is an old one, or new with a pid that no living process has. -/
theorem proc_cases (hs : s.Step path label s') {p : Nat} {P : Proc} (hP : s'.procs[p]? = some P) :
    (∃ P₀, s.procs[p]? = some P₀ ∧ P.pid = P₀.pid ∧ P₀.counter ≤ P.counter ∧
      (P.died = P₀.died ∨ P₀.died = none ∧ P.died = some s.procs.length)) ∨
    (p = s.procs.length ∧ P.died = none ∧ P.counter = 0 ∧
      ∀ Q ∈ s.procs, Q.died = none → Q.pid ≠ P.pid) := by
  cases hs with
  | spawn pid hpid =>
    rcases snoc_cases hP with hP | ⟨rfl, rfl⟩
    · exact Or.inl ⟨P, hP, rfl, Nat.le_refl _, Or.inl rfl⟩
    · exact Or.inr ⟨rfl, rfl, rfl, hpid⟩
  | die hp hd =>
    rcases set_cases hP with ⟨rfl, rfl⟩ | ⟨-, hP⟩
    · exact Or.inl ⟨_, hp, rfl, Nat.le_refl _, Or.inr ⟨hd, rfl⟩⟩
    · exact Or.inl ⟨P, hP, rfl, Nat.le_refl _, Or.inl rfl⟩
  | call => exact Or.inl ⟨P, hP, rfl, Nat.le_refl _, Or.inl rfl⟩
  | act hi hQ hd hact =>
    rcases set_cases hP with ⟨rfl, rfl⟩ | ⟨-, hP⟩
    · obtain ⟨hpid, hdied, -, -, hticket⟩ := hact.ids
      refine Or.inl ⟨_, hQ, hpid, ?_, Or.inl hdied⟩
      rcases hticket with ⟨hc, -⟩ | ⟨-, hc, -⟩
      · exact Nat.le_of_eq hc.symm
      · exact hc ▸ Nat.le_succ _
    · exact Or.inl ⟨P, hP, rfl, Nat.le_refl _, Or.inl rfl⟩

/-- A save after a step is an old one, in its process and with its ticket unless it takes one in
this step, or new and without a ticket. -/
theorem save_cases (hs : s.Step path label s') {i : Nat} {x : Save} (hi : s'.saves[i]? = some x) :
    (∃ x₀, s.saves[i]? = some x₀ ∧ x.proc = x₀.proc ∧ (x.stage = .called → x = x₀) ∧
      (x.ticket = x₀.ticket ∨ label = some i ∧ ∃ P P', s.procs[x₀.proc]? = some P ∧
        s'.procs[x₀.proc]? = some P' ∧ x.ticket = some P.counter ∧ P'.counter = P.counter + 1)) ∨
    (x.ticket = none ∧ ∃ P, s'.procs[x.proc]? = some P) := by
  cases hs with
  | spawn => exact Or.inl ⟨x, hi, rfl, fun _ => rfl, Or.inl rfl⟩
  | die =>
    obtain ⟨x₀, stage, hi₀, rfl, hstage⟩ := stopIn_cases hi
    refine Or.inl ⟨x₀, hi₀, rfl, fun hcalled => ?_, Or.inl rfl⟩
    rcases hstage with rfl | ⟨rfl, -⟩
    · cases hcalled
    · rfl
  | call wall entries hp =>
    rcases snoc_cases hi with hi | ⟨-, rfl⟩
    · exact Or.inl ⟨x, hi, rfl, fun _ => rfl, Or.inl rfl⟩
    · exact Or.inr ⟨rfl, _, hp⟩
  | act hj hP hd hact =>
    rcases set_cases hi with ⟨rfl, rfl⟩ | ⟨-, hi⟩
    · obtain ⟨-, -, hproc, hcalled, hticket⟩ := hact.ids
      refine Or.inl ⟨_, hj, hproc, fun h => absurd h hcalled, ?_⟩
      rcases hticket with ⟨-, hsame⟩ | ⟨-, hc, ht⟩
      · exact Or.inl hsame
      · exact Or.inr ⟨rfl, _, _, hP,
          List.getElem?_set_self (List.getElem?_eq_some_iff.mp hP).1, ht, hc⟩
    · exact Or.inl ⟨x, hi, rfl, fun _ => rfl, Or.inl rfl⟩

theorem length_procs_le (hs : s.Step path label s') : s.procs.length ≤ s'.procs.length := by
  cases hs with
  | spawn =>
    rw [List.length_append]
    exact Nat.le_add_right _ _
  | die => exact Nat.le_of_eq (List.length_set ..).symm
  | call => exact Nat.le_refl _
  | act => exact Nat.le_of_eq (List.length_set ..).symm

end SavesLemmas

namespace Ids

variable {path : Bytes} {s s' : Saves} {label : Option Nat}

/-- A new process is not the process of an old save. -/
theorem proc_of_snoc (h : Ids s) {i : Nat} {save : Save} {P new : Proc}
    (hi : s.saves[i]? = some save) (hP : (s.procs ++ [new])[save.proc]? = some P) :
    s.procs[save.proc]? = some P := by
  obtain ⟨Q, hQ⟩ := h.proc hi
  rcases snoc_cases hP with hP | ⟨hlen, -⟩
  · exact hP
  · rw [hlen, List.getElem?_eq_none (Nat.le_refl _)] at hQ
    cases hQ

theorem step_proc (h : Ids s) (hs : s.Step path label s') {i : Nat} {x : Save}
    (hi : s'.saves[i]? = some x) : ∃ P, s'.procs[x.proc]? = some P := by
  rcases save_cases hs hi with ⟨x₀, hi₀, hproc, -⟩ | ⟨-, hP⟩
  · obtain ⟨P₀, hP₀⟩ := h.proc hi₀
    have hlt := (List.getElem?_eq_some_iff.mp hP₀).1.trans_le (length_procs_le hs)
    rw [hproc]
    exact ⟨_, List.getElem?_eq_getElem hlt⟩
  · exact hP

theorem step_died (h : Ids s) (hs : s.Step path label s') {p n : Nat} {P : Proc}
    (hP : s'.procs[p]? = some P) (hn : P.died = some n) : p < n ∧ n ≤ s'.procs.length := by
  rcases proc_cases hs hP with ⟨P₀, hP₀, -, -, hsame | ⟨-, hnew⟩⟩ | ⟨-, hnone, -⟩
  · obtain ⟨hlt, hle⟩ := h.died hP₀ (hsame.symm.trans hn)
    exact ⟨hlt, hle.trans (length_procs_le hs)⟩
  · cases hnew.symm.trans hn
    exact ⟨(List.getElem?_eq_some_iff.mp hP₀).1, length_procs_le hs⟩
  · cases hnone.symm.trans hn

/-- A process that ended before another one started was not alive together with it. -/
theorem pid_ne_new (h : Ids s) {p : Nat} {P₀ P Q : Proc} (hP₀ : s.procs[p]? = some P₀)
    (hdied : P.died = P₀.died ∨ P₀.died = none ∧ P.died = some s.procs.length)
    (hlater : ∀ n ∈ P.died, s.procs.length < n)
    (hnew : ∀ R ∈ s.procs, R.died = none → R.pid ≠ Q.pid) : P₀.pid ≠ Q.pid := by
  refine hnew P₀ (List.mem_of_getElem? hP₀) ?_
  rcases hdied with hsame | ⟨hnone, -⟩
  · cases hd : P₀.died with
    | none => rfl
    | some n =>
      exact absurd (hlater n (hsame.trans hd)) (Nat.not_lt.mpr (h.died hP₀ hd).2)
  · exact hnone

theorem step_pids (h : Ids s) (hs : s.Step path label s') {p q : Nat} {P Q : Proc}
    (hP : s'.procs[p]? = some P) (hQ : s'.procs[q]? = some Q) (ht : AliveTogether p P q Q)
    (hpid : P.pid = Q.pid) : p = q := by
  have hold : ∀ {R₀ R : Proc} {m : Nat}, (R.died = R₀.died ∨
      R₀.died = none ∧ R.died = some s.procs.length) → (∀ n ∈ R.died, m < n) →
      ∀ n ∈ R₀.died, m < n := by
    rintro R₀ R m (hsame | ⟨hnone, -⟩) hlt n hn
    · exact hlt n (hsame.trans hn)
    · cases hnone.symm.trans hn
  rcases proc_cases hs hP with ⟨P₀, hP₀, hpid₀, -, hdied⟩ | ⟨rfl, -, -, hnew⟩
  · rcases proc_cases hs hQ with ⟨Q₀, hQ₀, hpid₁, -, hdied'⟩ | ⟨rfl, -, -, hnew⟩
    · exact h.pids hP₀ hQ₀ ⟨hold hdied ht.1, hold hdied' ht.2⟩ (hpid₀ ▸ hpid₁ ▸ hpid)
    · exact absurd (hpid₀.symm.trans hpid) (h.pid_ne_new hP₀ hdied ht.1 hnew)
  · rcases proc_cases hs hQ with ⟨Q₀, hQ₀, hpid₁, -, hdied'⟩ | ⟨rfl, -⟩
    · exact absurd (hpid₁.symm.trans hpid.symm) (h.pid_ne_new hQ₀ hdied' ht.2 hnew)
    · rfl

theorem step_fresh (h : Ids s) (hs : s.Step path label s') {i : Nat} {x : Save}
    (hi : s'.saves[i]? = some x) (hst : x.stage = .called) : x.ticket = none := by
  rcases save_cases hs hi with ⟨x₀, hi₀, -, hsame, -⟩ | ⟨hnone, -⟩
  · have hx := hsame hst
    subst hx
    exact h.fresh hi₀ hst
  · exact hnone

theorem step_ticket (h : Ids s) (hs : s.Step path label s') {i c : Nat} {x : Save} {P : Proc}
    (hi : s'.saves[i]? = some x) (hP : s'.procs[x.proc]? = some P) (hc : x.ticket = some c) :
    c < P.counter := by
  rcases save_cases hs hi with
    ⟨x₀, hi₀, hproc, -, hsame | ⟨-, Q, Q', hQ, hQ', ht, hnext⟩⟩ | ⟨hnone, -⟩
  · obtain ⟨Q, hQ⟩ := h.proc hi₀
    rcases proc_cases hs hP with ⟨P₀, hP₀, -, hle, -⟩ | ⟨hlen, -⟩
    · exact (h.ticket hi₀ (hproc ▸ hP₀) (hsame.symm.trans hc)).trans_le hle
    · rw [← hproc, hlen, List.getElem?_eq_none (Nat.le_refl _)] at hQ
      cases hQ
  · rw [hproc, hQ'] at hP
    cases hP
    cases ht.symm.trans hc
    omega
  · cases hnone.symm.trans hc

theorem step_tickets (h : Ids s) (hs : s.Step path label s') {i j c : Nat} {x y : Save}
    (hi : s'.saves[i]? = some x) (hj : s'.saves[j]? = some y) (hproc : x.proc = y.proc)
    (hx : x.ticket = some c) (hy : y.ticket = some c) : i = j := by
  rcases save_cases hs hi with ⟨x₀, hi₀, hpx, -, hsx⟩ | ⟨hnone, -⟩
  · rcases save_cases hs hj with ⟨y₀, hj₀, hpy, -, hsy⟩ | ⟨hnone, -⟩
    · have hproc₀ : x₀.proc = y₀.proc := hpx.symm.trans (hproc.trans hpy)
      -- a ticket taken now is the counter, and all others of the process are below it
      rcases hsx with hsx | ⟨hlx, P, -, hP, -, htx, -⟩
      · rcases hsy with hsy | ⟨-, Q, -, hQ, -, hty, -⟩
        · exact h.tickets hi₀ hj₀ hproc₀ (hsx.symm.trans hx) (hsy.symm.trans hy)
        · cases hty.symm.trans hy
          exact absurd (h.ticket hi₀ (hproc₀ ▸ hQ) (hsx.symm.trans hx)) (Nat.lt_irrefl _)
      · rcases hsy with hsy | ⟨hly, -⟩
        · cases htx.symm.trans hx
          exact absurd (h.ticket hj₀ (hproc₀ ▸ hP) (hsy.symm.trans hy)) (Nat.lt_irrefl _)
        · exact Option.some.inj (hlx.symm.trans hly)
    · cases hnone.symm.trans hy
  · cases hnone.symm.trans hx

/-- A save that takes a ticket had none, so the count of tickets grows with the counter. -/
theorem count_of_act (h : Ids s) {i : Nat} {x x' : Save} {P P' : Proc} {fs' : Fs}
    (hi : s.saves[i]? = some x) (hact : Act path P x s.fs P' x' fs') :
    s.saves.countP (fun save => save.ticket.isSome) + P'.counter
      = (s.saves.set i x').countP (fun save => save.ticket.isSome) + P.counter := by
  obtain ⟨hlt, hget⟩ := List.getElem?_eq_some_iff.mp hi
  rw [List.countP_set hlt, hget]
  obtain ⟨-, -, -, -, ⟨hc, ht⟩ | ⟨hst, hc, ht⟩⟩ := hact.ids
  · have hpos : x.ticket.isSome = true → 0 < s.saves.countP fun save => save.ticket.isSome :=
      fun hsome => List.countP_pos_iff.mpr ⟨x, List.mem_of_getElem? hi, hsome⟩
    rw [ht, hc]
    split
    · next hsome =>
      have := hpos hsome
      omega
    · omega
  · rw [h.fresh hi hst, ht, hc]
    simp only [Option.isSome_none, Option.isSome_some, Bool.false_eq_true, if_false, if_true]
    omega

theorem step_counter (h : Ids s) (hs : s.Step path label s') {p : Nat} {P : Proc}
    (hP : s'.procs[p]? = some P) :
    P.counter ≤ s'.saves.countP fun save => save.ticket.isSome := by
  cases hs with
  | spawn =>
    rcases snoc_cases hP with hP | ⟨-, rfl⟩
    · exact h.counter hP
    · exact Nat.zero_le _
  | @die q proc hq =>
    have hsome : ((fun save : Save => save.ticket.isSome) ∘ Save.stopIn q)
        = fun save => save.ticket.isSome := by
      funext save
      rw [Function.comp_apply, (save.stopIn_eq q).1]
    rw [List.countP_map, hsome]
    rcases set_cases hP with ⟨rfl, rfl⟩ | ⟨-, hP⟩
    · exact (h.counter hq :)
    · exact h.counter hP
  | call =>
    rw [List.countP_append]
    exact (h.counter hP).trans (Nat.le_add_right _ _)
  | act hi hQ hd hact =>
    have hcount := h.count_of_act hi hact
    dsimp only
    rcases set_cases hP with ⟨-, rfl⟩ | ⟨-, hP⟩
    · have := h.counter hQ
      omega
    · have hle := h.counter hP
      obtain ⟨-, -, -, -, ⟨hc, -⟩ | ⟨-, hc, -⟩⟩ := hact.ids <;> omega

theorem step_living (h : Ids s) (hs : s.Step path label s') {i : Nat} {x : Save} {P : Proc}
    (hi : s'.saves[i]? = some x) (hP : s'.procs[x.proc]? = some P)
    (hover : x.stage.over = false) : P.died = none := by
  cases hs with
  | spawn => exact h.living hi (h.proc_of_snoc hi hP) hover
  | die =>
    obtain ⟨x₀, stage, hi₀, rfl, rfl | ⟨rfl, hstopped⟩⟩ := stopIn_cases hi
    · cases hover
    · rcases set_cases hP with ⟨hp, -⟩ | ⟨-, hP⟩
      · cases hover.symm.trans (hstopped hp)
      · exact h.living hi₀ hP hover
  | call wall entries hp hd =>
    rcases snoc_cases hi with hi | ⟨-, rfl⟩
    · exact h.living hi hP hover
    · cases hp.symm.trans hP
      exact hd
  | act hj hQ hd hact =>
    obtain ⟨-, hdied, hproc, -⟩ := hact.ids
    rcases set_cases hP with ⟨-, rfl⟩ | ⟨hne, hP⟩
    · exact hdied.trans hd
    · rcases set_cases hi with ⟨-, rfl⟩ | ⟨-, hi⟩
      · exact absurd hproc hne
      · exact h.living hi hP hover

theorem step (h : Ids s) (hs : s.Step path label s') : Ids s' :=
  ⟨h.step_proc hs, h.step_died hs, h.step_pids hs, h.step_fresh hs, h.step_ticket hs,
    h.step_tickets hs, h.step_counter hs, h.step_living hs⟩

/-- Two saves of processes that were alive together have different temp names. -/
theorem temp_ne {path : Bytes} {s : Saves} (h : Ids s) (hfew : s.saves.length < 2 ^ 64)
    {i j : Nat} {a b : Save} {P Q : Proc} {t u : Bytes} (hi : s.saves[i]? = some a)
    (hj : s.saves[j]? = some b) (hP : s.procs[a.proc]? = some P) (hQ : s.procs[b.proc]? = some Q)
    (htogether : AliveTogether a.proc P b.proc Q) (ht : a.tempPath path P = some t)
    (hu : b.tempPath path Q = some u) (hne : i ≠ j) : t ≠ u := by
  obtain ⟨c, hc, rfl⟩ := Option.map_eq_some_iff.mp ht
  obtain ⟨d, hd, rfl⟩ := Option.map_eq_some_iff.mp hu
  have hsmall : ∀ {k e : Nat} {x : Save} {R : Proc}, s.saves[k]? = some x →
      s.procs[x.proc]? = some R → x.ticket = some e → e % 2 ^ 64 = e := fun hk hR he =>
    Nat.mod_eq_of_lt ((h.ticket hk hR he).trans_le
      (((h.counter hR).trans List.countP_le_length).trans hfew.le))
  intro heq
  obtain ⟨hpid, hcount⟩ := uniqueTempPath_injective heq
  rw [hsmall hi hP hc, hsmall hj hQ hd] at hcount
  subst hcount
  exact hne (h.tickets hi hj (h.pids hP hQ htogether hpid) hc hd)

end Ids

end CacheX
