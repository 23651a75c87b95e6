import CacheX.Lib.Decimal
import CacheX.Lib.Ownership
import CacheX.RecencyList
import Mathlib.Data.Finset.Card
import Mathlib.Logic.Function.Basic
import Mathlib.Logic.Relation

/-!
# Descriptors

A `Socket` owns a descriptor and closes it when it goes. A descriptor is only a number, and the
system gives the number of a closed one to whatever is opened next: to close it twice would close
somebody else's file.

The member functions are run here statement by statement, by any number of threads, while the rest
of the process opens and closes files at any moment. A thread uses an object that no other thread is
using; the objects of the server are local to a thread or are handed to it.

* `Inv.exec_spec`: one statement of one thread keeps the owners in order.
* `descriptors_owned`: whatever the threads do, every open socket has exactly one owner, and no
  statement closes anything else.
* `connect_to_first`: which address `connect_to` is connected to, and that it leaves no other socket
  open.
* `Listening.starts`: the same for any number of calls of `Server::start`.
-/

namespace CacheX

/-! ## The member functions -/

/-- The descriptors of the process that are in use, by sockets and by everything else. -/
structure Fds where
  sockets : Finset Int
  files : Finset Int

/-- `::close`. Only the number says what is closed. -/
def Fds.close (k : Fds) (fd : Int) : Fds := ⟨k.sockets.erase fd, k.files.erase fd⟩

/-- A number that the system may give to something new. -/
def Fds.Unused (k : Fds) (fd : Int) : Prop := 0 ≤ fd ∧ fd ∉ k.sockets ∧ fd ∉ k.files

structure Socket where
  fd : Int
deriving DecidableEq, Repr

def Socket.kInvalid : Int := -1

theorem Fds.Unused.ne_invalid {k : Fds} {fd : Int} (h : k.Unused fd) : fd ≠ Socket.kInvalid := by
  rintro rfl
  exact absurd h.1 (by decide)

namespace Socket

/-- `Socket::close`. -/
def close (s : Socket) (k : Fds) : Socket × Fds :=
  if s.fd ≠ kInvalid then (⟨kInvalid⟩, k.close s.fd) else (s, k)

/-- `Socket::operator=` for another object, which comes second. -/
def moveAssign (s other : Socket) (k : Fds) : Socket × Socket × Fds :=
  (⟨other.fd⟩, ⟨kInvalid⟩, (s.close k).2)

/-! ## Statement by statement -/

/-- The statements of the member functions, for objects that are given by a number. -/
inductive Stmt
  /-- A new object, with `kInvalid` in it. -/
  | make (x : Nat)
  /-- `::close(fd_)`, unless that is `kInvalid`. -/
  | shut (x : Nat)
  /-- `fd_ = kInvalid`. -/
  | reset (x : Nat)
  /-- `fd_ = other.fd_`. -/
  | take (x other : Nat)
  /-- The object is gone. -/
  | free (x : Nat)
deriving DecidableEq, Repr

inductive Call
  | default (x : Nat)
  | moveConstruct (x other : Nat)
  | moveAssign (x other : Nat)
  | close (x : Nat)
  | destroy (x : Nat)
deriving DecidableEq, Repr

def Call.body : Call → List Stmt
  | .default x => [.make x]
  | .moveConstruct x other => [.make x, .take x other, .reset other]
  | .moveAssign x other =>
    if x ≠ other then [.shut x, .reset x, .take x other, .reset other] else []
  | .close x => [.shut x, .reset x]
  | .destroy x => [.shut x, .reset x, .free x]

/-- The objects that are alive, with their descriptors. -/
abbrev Objects := Nat → Option Int

/-- One statement. The use of an object that is not alive is undefined. -/
def Stmt.exec (o : Objects) (k : Fds) : Stmt → Option (Objects × Fds)
  | .make x => if o x = none then some (Function.update o x (some kInvalid), k) else none
  | .shut x => (o x).map fun fd => (o, if fd ≠ kInvalid then k.close fd else k)
  | .reset x => (o x).map fun _ => (Function.update o x (some kInvalid), k)
  | .take x other =>
    (o x).bind fun _ => (o other).map fun fd => (Function.update o x (some fd), k)
  | .free x => (o x).map fun _ => (Function.update o x none, k)

def execAll (o : Objects) (k : Fds) (body : List Stmt) : Option (Objects × Fds) :=
  body.foldlM (fun st stmt => stmt.exec st.1 st.2) (o, k)

/-- The statements of `close`, run without interruption. -/
theorem execAll_close {o : Objects} {x : Nat} {s : Socket} (hx : o x = some s.fd) (k : Fds) :
    execAll o k (Call.close x).body
      = some (Function.update o x (some (s.close k).1.fd), (s.close k).2) := by
  simp only [execAll, Call.body, List.foldlM_cons, List.foldlM_nil, Stmt.exec, hx, Option.map_some,
    Option.bind_eq_bind, Option.bind_some, Option.pure_def, close]
  split
  · rfl
  · rename_i hinvalid
    rw [not_not.mp hinvalid]

/-- The statements of `operator=`, run without interruption. -/
theorem execAll_moveAssign {o : Objects} {x y : Nat} {s other : Socket} (hx : o x = some s.fd)
    (hy : o y = some other.fd) (hne : x ≠ y) (k : Fds) :
    execAll o k (Call.moveAssign x y).body
      = some (Function.update (Function.update o x (some (s.moveAssign other k).1.fd)) y
          (some (s.moveAssign other k).2.1.fd), (s.moveAssign other k).2.2) := by
  have hy' (v : Option Int) : Function.update o x v y = some other.fd := by
    rw [Function.update_of_ne hne.symm, hy]
  rw [execAll, Call.body, if_pos hne]
  simp only [List.foldlM_cons, List.foldlM_nil, Stmt.exec, hx, hy', Function.update_self,
    Function.update_idem, Option.map_some, Option.bind_eq_bind, Option.bind_some, Option.pure_def,
    moveAssign, close]
  split <;> rfl

/-! ## Threads -/

def Stmt.names : Stmt → List Nat
  | .make x => [x]
  | .shut x => [x]
  | .reset x => [x]
  | .take x other => [x, other]
  | .free x => [x]

/-- The objects that the rest of a member function uses. -/
def names (body : List Stmt) : List Nat := body.flatMap Stmt.names

/-- The objects that a member function finds. -/
def Call.Ready (o : Objects) : Call → Prop
  | .default x => o x = none
  | .moveConstruct x other => o x = none ∧ (o other).isSome
  | .moveAssign x other => (o x).isSome ∧ (o other).isSome
  | .close x => (o x).isSome
  | .destroy x => (o x).isSome

structure Process where
  objects : Objects
  fds : Fds
  /-- What is left of the member function that a thread is in. -/
  pending : Nat → List Stmt

def Process.start (files : Finset Int) : Process := ⟨fun _ => none, ⟨∅, files⟩, fun _ => []⟩

inductive Step : Process → Process → Prop
  /-- A thread calls a member function, for objects that no other thread uses. -/
  | call {s : Process} {t : Nat} {c : Call} (hidle : s.pending t = [])
    (hready : c.Ready s.objects) (hfree : ∀ u, ∀ x ∈ names c.body, x ∉ names (s.pending u)) :
    Step s { s with pending := Function.update s.pending t c.body }
  | exec {s : Process} {t : Nat} {stmt : Stmt} {rest : List Stmt} {o : Objects} {k : Fds}
    (hpending : s.pending t = stmt :: rest) (hexec : stmt.exec s.objects s.fds = some (o, k)) :
    Step s ⟨o, k, Function.update s.pending t rest⟩
  /-- `Socket(::socket(..))` and `Socket(::accept(..))`. -/
  | opened {s : Process} {x : Nat} {fd : Int} (hnew : s.objects x = none)
    (hfree : ∀ u, x ∉ names (s.pending u)) (hfd : s.fds.Unused fd) :
    Step s { s with
      objects := Function.update s.objects x (some fd)
      fds := { s.fds with sockets := insert fd s.fds.sockets } }
  /-- The same, when the system gives no descriptor. -/
  | failed {s : Process} {x : Nat} (hnew : s.objects x = none)
    (hfree : ∀ u, x ∉ names (s.pending u)) :
    Step s { s with objects := Function.update s.objects x (some kInvalid) }
  | openFile {s : Process} {fd : Int} (hfd : s.fds.Unused fd) :
    Step s { s with fds := { s.fds with files := insert fd s.fds.files } }
  | closeFile {s : Process} {fd : Int} (hfd : fd ∈ s.fds.files) :
    Step s { s with fds := { s.fds with files := s.fds.files.erase fd } }

/-! ## Owners -/

/-- The object whose descriptor is not its own any more: it has been closed or taken, and the next
statement forgets it. -/
def staleOf : List Stmt → Option Nat
  | .reset x :: _ => some x
  | _ => none

def Stale (pending : Nat → List Stmt) (x : Nat) : Prop := ∃ t, staleOf (pending t) = some x

def Process.Owns (s : Process) (x : Nat) (fd : Int) : Prop :=
  s.objects x = some fd ∧ fd ≠ kInvalid ∧ ¬ Stale s.pending x

/-- What the rest of a member function needs, given the object that is stale. A descriptor that is
about to be forgotten has been closed or taken just before. -/
def Sound : Objects → Option Nat → List Stmt → Prop
  | _, none, [] => True
  | o, none, .make x :: rest => o x = none ∧ Sound (Function.update o x (some kInvalid)) none rest
  | o, none, .shut x :: rest => (o x).isSome ∧ Sound o (some x) rest
  | o, some z, .reset x :: rest =>
    z = x ∧ (o x).isSome ∧ Sound (Function.update o x (some kInvalid)) none rest
  | o, none, .take x y :: rest =>
    o x = some kInvalid ∧ (o y).isSome ∧ x ≠ y ∧ Sound (Function.update o x (o y)) (some y) rest
  | o, none, .free x :: rest => o x = some kInvalid ∧ Sound (Function.update o x none) none rest
  | _, _, _ => False

theorem Call.sound_body {o : Objects} {c : Call} (h : c.Ready o) : Sound o none c.body := by
  cases c with
  | default x => exact ⟨h, trivial⟩
  | moveConstruct x y =>
    obtain ⟨hx, hy⟩ := h
    have hne : y ≠ x := by
      rintro rfl
      rw [hx] at hy
      cases hy
    have hkept (v w : Option Int) : Function.update (Function.update o x v) x w y = o y := by
      rw [Function.update_of_ne hne, Function.update_of_ne hne]
    refine ⟨hx, Function.update_self .., ?_, hne.symm, rfl, ?_, trivial⟩
    · rwa [Function.update_of_ne hne]
    · rwa [hkept]
  | moveAssign x y =>
    obtain ⟨hx, hy⟩ := h
    rw [body]
    split
    · rename_i hne
      have hkept (v w : Option Int) : Function.update (Function.update o x v) x w y = o y := by
        rw [Function.update_of_ne (Ne.symm hne), Function.update_of_ne (Ne.symm hne)]
      refine ⟨hx, rfl, hx, Function.update_self .., ?_, hne, rfl, ?_, trivial⟩
      · rwa [Function.update_of_ne (Ne.symm hne)]
      · rwa [hkept]
    · trivial
  | close x => exact ⟨h, rfl, h, trivial⟩
  | destroy x => exact ⟨h, rfl, h, Function.update_self .., trivial⟩

theorem Sound.staleOf_eq {o : Objects} {z : Option Nat} {body : List Stmt} (h : Sound o z body) :
    staleOf body = z := by
  cases body with
  | nil =>
    cases z with
    | none => rfl
    | some z => exact h.elim
  | cons stmt rest =>
    cases stmt <;> cases z <;> first | exact h.elim | rfl | exact congrArg some h.1.symm

/-- Other objects may change. -/
theorem Sound.frame {o o' : Objects} {z : Option Nat} {body : List Stmt} (h : Sound o z body)
    (hsame : ∀ x ∈ names body, o' x = o x) : Sound o' z body := by
  induction body generalizing o o' z with
  | nil =>
    cases z with
    | none => trivial
    | some z => exact h.elim
  | cons stmt rest ih =>
    have hrest (x : Nat) (v : Option Int) :
        ∀ y ∈ names rest, Function.update o' x v y = Function.update o x v y := by
      intro y hy
      have hy' := hsame y (List.mem_append_right _ hy)
      simp only [Function.update_apply, hy']
    cases stmt with
    | make x =>
      have hx := hsame x (List.mem_append_left _ List.mem_cons_self)
      cases z with
      | none => exact ⟨hx.trans h.1, ih h.2 (hrest x _)⟩
      | some z => exact h.elim
    | shut x =>
      have hx := hsame x (List.mem_append_left _ List.mem_cons_self)
      cases z with
      | none => exact ⟨hx ▸ h.1, ih h.2 fun y hy => hsame y (List.mem_append_right _ hy)⟩
      | some z => exact h.elim
    | reset x =>
      have hx := hsame x (List.mem_append_left _ List.mem_cons_self)
      cases z with
      | none => exact h.elim
      | some z => exact ⟨h.1, hx ▸ h.2.1, ih h.2.2 (hrest x _)⟩
    | take x y =>
      have hx := hsame x (List.mem_append_left _ List.mem_cons_self)
      have hy := hsame y (List.mem_append_left _ (List.mem_cons_of_mem _ List.mem_cons_self))
      cases z with
      | none =>
        obtain ⟨hinvalid, hlive, hne, hbody⟩ := h
        refine ⟨hx.trans hinvalid, hy ▸ hlive, hne, ?_⟩
        rw [hy]
        exact ih hbody (hrest x _)
      | some z => exact h.elim
    | free x =>
      have hx := hsame x (List.mem_append_left _ List.mem_cons_self)
      cases z with
      | none => exact ⟨hx.trans h.1, ih h.2 (hrest x _)⟩
      | some z => exact h.elim

/-- A statement changes the objects that it names. -/
theorem Stmt.exec_frame {stmt : Stmt} {o o' : Objects} {k k' : Fds}
    (h : stmt.exec o k = some (o', k')) {y : Nat} (hy : y ∉ stmt.names) : o' y = o y := by
  have hupdate {x : Nat} (hx : x ∈ stmt.names) (v : Option Int) :
      Function.update o x v y = o y := by
    refine Function.update_of_ne ?_ _ _
    rintro rfl
    exact hy hx
  cases stmt with
  | make x =>
    rw [exec] at h
    split at h
    · cases h
      exact hupdate List.mem_cons_self _
    · cases h
  | shut x =>
    obtain ⟨fd, -, heq⟩ := Option.map_eq_some_iff.mp h
    cases heq
    rfl
  | reset x =>
    obtain ⟨fd, -, heq⟩ := Option.map_eq_some_iff.mp h
    cases heq
    exact hupdate List.mem_cons_self _
  | take x z =>
    obtain ⟨fd, -, hz⟩ := Option.bind_eq_some_iff.mp h
    obtain ⟨fd, -, heq⟩ := Option.map_eq_some_iff.mp hz
    cases heq
    exact hupdate List.mem_cons_self _
  | free x =>
    obtain ⟨fd, -, heq⟩ := Option.map_eq_some_iff.mp h
    cases heq
    exact hupdate List.mem_cons_self _

/-! ## The invariant -/

structure Inv (s : Process) : Prop where
  sound : ∀ t, Sound s.objects (staleOf (s.pending t)) (s.pending t)
  apart : ∀ t u x, x ∈ names (s.pending t) → x ∈ names (s.pending u) → t = u
  owned : Owned s.Owns s.fds.sockets
  files : ∀ fd ∈ s.fds.sockets, fd ∉ s.fds.files

theorem mem_names_of_staleOf {body : List Stmt} {x : Nat} (h : staleOf body = some x) :
    x ∈ names body := by
  cases body with
  | nil => cases h
  | cons stmt rest =>
    cases stmt <;> cases h
    exact List.mem_cons_self

theorem inv_start (files : Finset Int) : Inv (.start files) := by
  refine ⟨fun _ => trivial, nofun, ⟨?_, fun fd => ?_⟩, nofun⟩
  · rintro x y fd ⟨hx, -⟩
    cases hx
  · refine iff_of_false (Finset.notMem_empty fd) ?_
    rintro ⟨x, hx, -⟩
    cases hx

section

variable {s : Process} {t : Nat}

/-- The stale objects after a step of one thread. -/
theorem Inv.stale_update (h : Inv s) {rest : List Stmt} {z z' : Option Nat}
    (hz : staleOf (s.pending t) = z) (hz' : staleOf rest = z') (x : Nat) :
    Stale (Function.update s.pending t rest) x ↔
      z' = some x ∨ Stale s.pending x ∧ z ≠ some x := by
  subst hz hz'
  constructor
  · rintro ⟨u, hu⟩
    by_cases htu : u = t
    · subst htu
      rw [Function.update_self] at hu
      exact .inl hu
    · rw [Function.update_of_ne htu] at hu
      refine .inr ⟨⟨u, hu⟩, fun ht => htu ?_⟩
      exact h.apart u t x (mem_names_of_staleOf hu) (mem_names_of_staleOf ht)
  · rintro (hrest | ⟨⟨u, hu⟩, ht⟩)
    · exact ⟨t, by rwa [Function.update_self]⟩
    · refine ⟨u, ?_⟩
      rwa [Function.update_of_ne]
      rintro rfl
      exact ht hu

/-- An object in use by a thread is made stale by no other one. -/
theorem Inv.not_stale (h : Inv s) {x : Nat} (hx : x ∈ names (s.pending t))
    (ht : staleOf (s.pending t) ≠ some x) : ¬ Stale s.pending x := by
  rintro ⟨u, hu⟩
  have htu := h.apart u t x (mem_names_of_staleOf hu) hx
  subst htu
  exact ht hu

/-- An object that no thread uses. -/
theorem not_stale_of_free {pending : Nat → List Stmt} {x : Nat}
    (hfree : ∀ u, x ∉ names (pending u)) : ¬ Stale pending x := by
  rintro ⟨u, hu⟩
  exact hfree u (mem_names_of_staleOf hu)

variable {stmt : Stmt} {rest : List Stmt} {o : Objects} {k : Fds}

/-- What holds of the other threads after a statement of one. -/
theorem Inv.exec_threads (h : Inv s) (hpending : s.pending t = stmt :: rest)
    (hexec : stmt.exec s.objects s.fds = some (o, k)) (hrest : Sound o (staleOf rest) rest) :
    (∀ u, Sound o (staleOf (Function.update s.pending t rest u))
      (Function.update s.pending t rest u)) ∧
    ∀ u v x, x ∈ names (Function.update s.pending t rest u) →
      x ∈ names (Function.update s.pending t rest v) → u = v := by
  have hsub (u : Nat) {x : Nat} (hx : x ∈ names (Function.update s.pending t rest u)) :
      x ∈ names (s.pending u) := by
    by_cases htu : u = t
    · subst htu
      rw [Function.update_self] at hx
      rw [hpending]
      exact List.mem_append_right _ hx
    · rwa [Function.update_of_ne htu] at hx
  refine ⟨fun u => ?_, fun u v x hu hv => h.apart u v x (hsub u hu) (hsub v hv)⟩
  by_cases htu : u = t
  · subst htu
    rwa [Function.update_self]
  · rw [Function.update_of_ne htu]
    refine (h.sound u).frame fun x hx => Stmt.exec_frame hexec fun hmem => htu ?_
    refine h.apart u t x hx ?_
    rw [hpending]
    exact List.mem_append_left _ hmem

/-- A statement on an object that owns nothing, before and after. -/
theorem Inv.owned_of_idle (h : Inv s) {x : Nat} {v : Option Int}
    (hbefore : ∀ fd, ¬ s.Owns x fd) (hafter : ∀ fd, v = some fd → fd = kInvalid)
    (hstale : ∀ y, y ≠ x → (Stale (Function.update s.pending t rest) y ↔ Stale s.pending y)) :
    Owned (Process.Owns ⟨Function.update s.objects x v, k, Function.update s.pending t rest⟩)
      s.fds.sockets := by
  refine h.owned.congr fun y fd => ?_
  by_cases hyx : y = x
  · subst hyx
    refine iff_of_false ?_ (hbefore fd)
    rintro ⟨hy, hvalid, -⟩
    simp only [Function.update_self] at hy
    exact hvalid (hafter fd hy)
  · simp only [Process.Owns, Function.update_of_ne hyx, hstale y hyx]

/-- The owners without one of them. -/
theorem Inv.owns_without (h : Inv s) {x : Nat} {fd : Int} (hx : s.Owns x fd) (y : Nat) (r : Int) :
    (s.objects y = some r ∧ r ≠ kInvalid ∧ ¬ (x = y ∨ Stale s.pending y)) ↔
      s.Owns y r ∧ r ≠ fd := by
  constructor
  · rintro ⟨hy, hvalid, hnot⟩
    have howns : s.Owns y r := ⟨hy, hvalid, fun hstale => hnot (.inr hstale)⟩
    refine ⟨howns, ?_⟩
    rintro rfl
    exact hnot (.inl (h.owned.unique x y r hx howns))
  · rintro ⟨⟨hy, hvalid, hstale⟩, hne⟩
    refine ⟨hy, hvalid, ?_⟩
    rintro (rfl | hstale')
    · exact hne (Option.some.inj (hy.symm.trans hx.1))
    · exact hstale hstale'

theorem owns_without_invalid {x : Nat} (hx : s.objects x = some kInvalid) (y : Nat) (r : Int) :
    (s.objects y = some r ∧ r ≠ kInvalid ∧ ¬ (x = y ∨ Stale s.pending y)) ↔ s.Owns y r := by
  refine and_congr_right fun hy => and_congr_right fun hr => not_congr (or_iff_right ?_)
  rintro rfl
  exact hr (Option.some.inj (hy.symm.trans hx))

/-- One statement: it is defined, it keeps the owners, and it closes no file. -/
theorem Inv.exec_spec (h : Inv s) (hpending : s.pending t = stmt :: rest) :
    ∃ o k, stmt.exec s.objects s.fds = some (o, k) ∧ Sound o (staleOf rest) rest ∧
      k.files = s.fds.files ∧ k.sockets ⊆ s.fds.sockets ∧
      Owned (Process.Owns ⟨o, k, Function.update s.pending t rest⟩) k.sockets := by
  have hsound := h.sound t
  rw [hpending] at hsound
  have hstart : staleOf (s.pending t) = staleOf (stmt :: rest) := congrArg staleOf hpending
  have hmem {x : Nat} (hx : x ∈ stmt.names) : x ∈ names (s.pending t) := by
    rw [hpending]
    exact List.mem_append_left _ hx
  cases stmt with
  | make x =>
    obtain ⟨hx, hrest⟩ := hsound
    have hstale := hrest.staleOf_eq
    refine ⟨_, _, if_pos hx, hstale ▸ hrest, rfl, Finset.Subset.refl _, ?_⟩
    refine h.owned_of_idle (fun fd hown => ?_) (fun fd hfd => (Option.some.inj hfd).symm) ?_
    · cases hx.symm.trans hown.1
    · intro y _
      simp [h.stale_update hstart hstale, staleOf]
  | shut x =>
    obtain ⟨hlive, hrest⟩ := hsound
    have hstale := hrest.staleOf_eq
    obtain ⟨fd, hfd⟩ := Option.isSome_iff_exists.mp hlive
    have hfree : ¬ Stale s.pending x := h.not_stale (hmem List.mem_cons_self) (hstart ▸ nofun)
    have hafter (y : Nat) :
        Stale (Function.update s.pending t rest) y ↔ x = y ∨ Stale s.pending y := by
      simp [h.stale_update hstart hstale, staleOf]
    by_cases hvalid : fd ≠ kInvalid
    · have hown : s.Owns x fd := ⟨hfd, hvalid, hfree⟩
      have hopen : fd ∈ s.fds.sockets := (h.owned.mem_iff fd).mpr ⟨x, hown⟩
      refine ⟨s.objects, s.fds.close fd, ?_, hstale ▸ hrest, ?_, Finset.erase_subset _ _, ?_⟩
      · rw [Stmt.exec, hfd, Option.map_some, if_pos hvalid]
      · exact Finset.erase_eq_of_notMem (h.files fd hopen)
      · refine h.owned.release fun y r => ?_
        rw [← h.owns_without hown]
        simp only [Process.Owns, hafter]
    · refine ⟨s.objects, s.fds, ?_, hstale ▸ hrest, rfl, Finset.Subset.refl _, ?_⟩
      · rw [Stmt.exec, hfd, Option.map_some, if_neg hvalid]
      · refine h.owned.congr fun y r => ?_
        rw [not_not.mp hvalid] at hfd
        rw [← owns_without_invalid hfd]
        simp only [Process.Owns, hafter]
  | reset x =>
    obtain ⟨-, hlive, hrest⟩ := hsound
    have hstale := hrest.staleOf_eq
    obtain ⟨fd, hfd⟩ := Option.isSome_iff_exists.mp hlive
    refine ⟨_, s.fds, by rw [Stmt.exec, hfd, Option.map_some], hstale ▸ hrest, rfl,
      Finset.Subset.refl _, ?_⟩
    refine h.owned_of_idle (fun r hown => ?_) (fun r hr => (Option.some.inj hr).symm) ?_
    · exact hown.2.2 ⟨t, hstart⟩
    · intro y hy
      simp [h.stale_update hstart hstale, staleOf, Ne.symm hy]
  | take x y =>
    obtain ⟨hx, hlive, hne, hrest⟩ := hsound
    have hstale := hrest.staleOf_eq
    obtain ⟨fd, hfd⟩ := Option.isSome_iff_exists.mp hlive
    rw [hfd] at hrest
    have hfreeX : ¬ Stale s.pending x := h.not_stale (hmem List.mem_cons_self) (hstart ▸ nofun)
    have hfreeY : ¬ Stale s.pending y :=
      h.not_stale (hmem (List.mem_cons_of_mem _ List.mem_cons_self)) (hstart ▸ nofun)
    have hafter (z : Nat) :
        Stale (Function.update s.pending t rest) z ↔ y = z ∨ Stale s.pending z := by
      simp [h.stale_update hstart hstale, staleOf]
    refine ⟨Function.update s.objects x (some fd), s.fds, ?_, hstale ▸ hrest, rfl,
      Finset.Subset.refl _, ?_⟩
    · rw [Stmt.exec, hx, Option.bind_some, hfd, Option.map_some]
    by_cases hvalid : fd ≠ kInvalid
    · have hown : s.Owns y fd := ⟨hfd, hvalid, hfreeY⟩
      refine h.owned.move ((h.owned.mem_iff fd).mpr ⟨y, hown⟩) (x := x) fun z r => ?_
      rw [← h.owns_without hown]
      by_cases hzx : z = x
      · subst hzx
        simp only [Process.Owns, hafter, Function.update_self]
        constructor
        · rintro ⟨hr, -⟩
          exact .inr ⟨trivial, (Option.some.inj hr).symm⟩
        · rintro (⟨hr, hrvalid, -⟩ | ⟨-, rfl⟩)
          · exact absurd (Option.some.inj (hr.symm.trans hx)) hrvalid
          · exact ⟨rfl, hvalid, not_or.mpr ⟨hne.symm, hfreeX⟩⟩
      · simp only [Process.Owns, hafter, Function.update_of_ne hzx, hzx, false_and, or_false]
    · rw [not_not.mp hvalid] at hfd ⊢
      refine h.owned.congr fun z r => ?_
      rw [← owns_without_invalid hfd]
      simp only [Process.Owns, hafter]
      by_cases hzx : z = x
      · rw [hzx, Function.update_self, hx]
      · rw [Function.update_of_ne hzx]
  | free x =>
    obtain ⟨hx, hrest⟩ := hsound
    have hstale := hrest.staleOf_eq
    refine ⟨_, s.fds, by rw [Stmt.exec, hx, Option.map_some], hstale ▸ hrest, rfl,
      Finset.Subset.refl _, ?_⟩
    refine h.owned_of_idle (fun r hown => ?_) nofun ?_
    · exact hown.2.1 (Option.some.inj (hown.1.symm.trans hx))
    · intro y _
      simp [h.stale_update hstart hstale, staleOf]

/-- One statement of one thread. -/
theorem Inv.exec (h : Inv s) (hpending : s.pending t = stmt :: rest)
    (hexec : stmt.exec s.objects s.fds = some (o, k)) :
    Inv ⟨o, k, Function.update s.pending t rest⟩ := by
  obtain ⟨o', k', hexec', hrest, hfiles, hsub, howned⟩ := h.exec_spec hpending
  cases hexec.symm.trans hexec'
  obtain ⟨hsound, hapart⟩ := h.exec_threads hpending hexec hrest
  refine ⟨hsound, hapart, howned, fun fd hfd => ?_⟩
  rw [hfiles]
  exact h.files fd (hsub hfd)

/-- A thread enters a member function. -/
theorem Inv.call (h : Inv s) {c : Call} (hidle : s.pending t = []) (hready : c.Ready s.objects)
    (hfree : ∀ u, ∀ x ∈ names c.body, x ∉ names (s.pending u)) :
    Inv { s with pending := Function.update s.pending t c.body } := by
  have hbody := Call.sound_body hready
  have hstale (x : Nat) : Stale (Function.update s.pending t c.body) x ↔ Stale s.pending x := by
    simp [h.stale_update (congrArg staleOf hidle) hbody.staleOf_eq, staleOf]
  have hself : Function.update s.pending t c.body t = c.body := Function.update_self ..
  have hother {u : Nat} (hu : u ≠ t) : Function.update s.pending t c.body u = s.pending u :=
    Function.update_of_ne hu _ _
  refine ⟨fun u => ?_, fun u v x hu hv => ?_, ?_, h.files⟩
  · by_cases htu : u = t
    · simp only [htu, hself, hbody.staleOf_eq]
      exact hbody
    · simp only [hother htu]
      exact h.sound u
  · by_cases htu : u = t <;> by_cases htv : v = t
    · rw [htu, htv]
    · simp only [htu, hself, hother htv] at hu hv
      exact absurd hv (hfree v x hu)
    · simp only [htv, hself, hother htu] at hu hv
      exact absurd hu (hfree u x hv)
    · simp only [hother htu, hother htv] at hu hv
      exact h.apart u v x hu hv
  · refine h.owned.congr fun x fd => ?_
    simp only [Process.Owns, hstale]

/-- A new object that no thread uses yet. -/
theorem Inv.sound_new (h : Inv s) {x : Nat} (hfree : ∀ u, x ∉ names (s.pending u))
    (v : Option Int) (u : Nat) :
    Sound (Function.update s.objects x v) (staleOf (s.pending u)) (s.pending u) := by
  refine (h.sound u).frame fun y hy => Function.update_of_ne ?_ _ _
  rintro rfl
  exact hfree u hy

theorem Inv.step {s' : Process} (h : Inv s) (hstep : Step s s') : Inv s' := by
  cases hstep with
  | call hidle hready hfree => exact h.call hidle hready hfree
  | exec hpending hexec => exact h.exec hpending hexec
  | @opened x fd hnew hfree hfd =>
    refine ⟨h.sound_new hfree _, h.apart, ?_, fun r hr => ?_⟩
    · refine h.owned.acquire hfd.2.1 (x := x) fun y r => ?_
      by_cases hyx : y = x
      · subst hyx
        simp only [Process.Owns, Function.update_self, hnew, Option.some.injEq, reduceCtorEq,
          false_and, false_or, true_and]
        constructor
        · rintro ⟨rfl, -⟩
          rfl
        · rintro rfl
          exact ⟨rfl, hfd.ne_invalid, not_stale_of_free hfree⟩
      · simp only [Process.Owns, Function.update_of_ne hyx, hyx, false_and, or_false]
    · rcases Finset.mem_insert.mp hr with rfl | hr
      · exact hfd.2.2
      · exact h.files r hr
  | @failed x hnew hfree =>
    refine ⟨h.sound_new hfree _, h.apart, ?_, h.files⟩
    refine h.owned.congr fun y r => ?_
    by_cases hyx : y = x
    · subst hyx
      simp only [Process.Owns, Function.update_self, hnew, reduceCtorEq, false_and, iff_false]
      rintro ⟨hr, hvalid, -⟩
      exact hvalid (Option.some.inj hr).symm
    · simp only [Process.Owns, Function.update_of_ne hyx]
  | @openFile fd hfd =>
    refine ⟨h.sound, h.apart, h.owned, fun r hr hmem => ?_⟩
    rcases Finset.mem_insert.mp hmem with rfl | hmem
    · exact hfd.2.1 hr
    · exact h.files r hr hmem
  | closeFile hfd =>
    exact ⟨h.sound, h.apart, h.owned, fun r hr hmem => h.files r hr (Finset.mem_of_mem_erase hmem)⟩

end

theorem inv_of_reaches {files : Finset Int} {s : Process}
    (h : Relation.ReflTransGen Step (.start files) s) : Inv s := by
  induction h with
  | refl => exact inv_start files
  | tail _ hstep ih => exact ih.step hstep

/-- **One owner for every descriptor.** Threads make, move, assign, close and destroy sockets in any
order and are interleaved between any two statements, each object being used by one thread at a
time, while the rest of the process opens and closes files, which may get any number that is free at
the moment. At every point, an open socket belongs to exactly one object, and an object that holds a
descriptor has it open. The next statement of a thread is defined, leaves all the files alone, and
what it closes is a socket that is open. Once the objects are gone, no socket is open. -/
theorem descriptors_owned {files : Finset Int} {s : Process}
    (h : Relation.ReflTransGen Step (.start files) s) :
    (∀ fd ∈ s.fds.sockets, ∃! x, s.Owns x fd) ∧
    (∀ x fd, s.Owns x fd → fd ∈ s.fds.sockets) ∧
    (∀ t stmt rest, s.pending t = stmt :: rest → ∃ o k, stmt.exec s.objects s.fds = some (o, k) ∧
      k.files = s.fds.files ∧
      ∀ x fd, stmt = .shut x → s.objects x = some fd → fd ≠ kInvalid → fd ∈ s.fds.sockets) ∧
    ((∀ x, s.objects x = none) → s.fds.sockets = ∅) := by
  have hinv := inv_of_reaches h
  refine ⟨fun fd hfd => ?_, fun x fd hown => (hinv.owned.mem_iff fd).mpr ⟨x, hown⟩,
    fun t stmt rest hpending => ?_, fun hnone => ?_⟩
  · obtain ⟨x, hx⟩ := (hinv.owned.mem_iff fd).mp hfd
    exact ⟨x, hx, fun y hy => hinv.owned.unique y x fd hy hx⟩
  · obtain ⟨o, k, hexec, -, hfiles, -, -⟩ := hinv.exec_spec hpending
    refine ⟨o, k, hexec, hfiles, ?_⟩
    rintro x fd rfl hfd hvalid
    refine (hinv.owned.mem_iff fd).mpr ⟨x, hfd, hvalid, hinv.not_stale (t := t) ?_ ?_⟩
    · rw [hpending]
      exact List.mem_cons_self
    · rw [hpending]
      nofun
  · refine Finset.eq_empty_of_forall_notMem fun fd hfd => ?_
    obtain ⟨x, hx, -⟩ := (hinv.owned.mem_iff fd).mp hfd
    cases (hnone x).symm.trans hx

/-- A socket is closed and its number is given to a file, before the object has forgotten it. -/
theorem descriptors_owned_reused : ∃ s : Process, s.objects 0 = some 3 ∧ 3 ∈ s.fds.files ∧
    (∀ fd ∈ s.fds.sockets, ∃! x, s.Owns x fd) ∧
    (∀ x fd, s.Owns x fd → fd ∈ s.fds.sockets) ∧
    (∀ t stmt rest, s.pending t = stmt :: rest → ∃ o k, stmt.exec s.objects s.fds = some (o, k) ∧
      k.files = s.fds.files ∧
      ∀ x fd, stmt = .shut x → s.objects x = some fd → fd ≠ kInvalid → fd ∈ s.fds.sockets) ∧
    ((∀ x, s.objects x = none) → s.fds.sockets = ∅) := by
  have hopened := Relation.ReflTransGen.single (@Step.opened (.start ∅) 0 3
    rfl nofun ⟨by decide, nofun, nofun⟩)
  have hcalled := hopened.tail (.call (t := 0) (c := .close 0) rfl rfl nofun)
  have hshut := hcalled.tail (.exec (t := 0) rfl rfl)
  have hreused := hshut.tail (@Step.openFile _ 3 ⟨by decide, by decide, by decide⟩)
  exact ⟨_, rfl, by decide, descriptors_owned hreused⟩

end Socket

/-! ## Connecting -/

open Decimal (ascii)
open Socket (kInvalid)

/-- How the system numbers a new descriptor. -/
structure Numbering where
  pick : Fds → Int
  unused : ∀ k : Fds, k.Unused (pick k)

namespace Numbering

/-- The first numbers, one more than are in use. -/
def firstNumbers (k : Fds) : List Int :=
  (List.range (k.sockets.card + k.files.card + 1)).map Int.ofNat

theorem exists_unused (k : Fds) : ∃ fd ∈ firstNumbers k, fd ∉ k.sockets ∪ k.files := by
  have hcard : (k.sockets ∪ k.files).card < (firstNumbers k).toFinset.card := by
    have hnodup : (firstNumbers k).Nodup := List.nodup_range.map fun _ _ h => Int.ofNat.inj h
    rw [List.toFinset_card_of_nodup hnodup, firstNumbers, List.length_map, List.length_range]
    exact Nat.lt_succ_of_le (Finset.card_union_le _ _)
  obtain ⟨fd, hmem, hunused⟩ := Finset.exists_mem_notMem_of_card_lt_card hcard
  exact ⟨fd, List.mem_toFinset.mp hmem, hunused⟩

/-- The smallest number that is not in use. -/
def lowest : Numbering where
  pick k := ((firstNumbers k).find? fun fd => decide (fd ∉ k.sockets ∪ k.files)).getD 0
  unused k := by
    obtain ⟨fd, hmem, hunused⟩ := exists_unused k
    obtain ⟨fd', hfind⟩ : ∃ fd',
        (firstNumbers k).find? (fun fd => decide (fd ∉ k.sockets ∪ k.files)) = some fd' :=
      Option.isSome_iff_exists.mp (List.find?_isSome.mpr ⟨fd, hmem, decide_eq_true hunused⟩)
    rw [hfind, Option.getD_some]
    obtain ⟨m, -, rfl⟩ := List.mem_map.mp (List.mem_of_find?_eq_some hfind)
    have hfound := List.find?_some hfind
    have hfree : Int.ofNat m ∉ k.sockets ∪ k.files := of_decide_eq_true hfound
    rw [Finset.mem_union, not_or] at hfree
    exact ⟨Int.natCast_nonneg m, hfree⟩

/-- `Socket(::socket(..))`, when the system has one. -/
def socket (numbering : Numbering) (k : Fds) : Socket × Fds :=
  (⟨numbering.pick k⟩, { k with sockets := insert (numbering.pick k) k.sockets })

/-- A socket that is closed again. -/
theorem close_socket (numbering : Numbering) (k : Fds) :
    (numbering.socket k).1.close (numbering.socket k).2 = (⟨kInvalid⟩, k) := by
  obtain ⟨-, hsockets, hfiles⟩ := numbering.unused k
  have hvalid : (numbering.socket k).1.fd ≠ kInvalid := (numbering.unused k).ne_invalid
  rw [Socket.close, if_pos hvalid]
  simp only [socket, Fds.close, Finset.erase_insert hsockets, Finset.erase_eq_of_notMem hfiles]

end Numbering

/-- The descriptors, and the address that a socket is connected to. -/
@[ext]
structure Net where
  fds : Fds
  peer : Int → Option Bytes
  /-- Only an open socket is connected. -/
  unconnected : ∀ fd, fd ∉ fds.sockets → peer fd = none

namespace Net

/-- `Socket(::socket(..))`, which is connected to nothing. -/
def socket (numbering : Numbering) (net : Net) : Socket × Net :=
  ((numbering.socket net.fds).1,
    ⟨(numbering.socket net.fds).2, net.peer, fun fd hfd =>
      net.unconnected fd fun hmem => hfd (Finset.mem_insert_of_mem hmem)⟩)

/-- `::connect` that succeeds. -/
def connect (net : Net) (fd : Int) (address : Bytes) : Net :=
  if hopen : fd ∈ net.fds.sockets then
    { net with
      peer := Function.update net.peer fd (some address)
      unconnected := fun fd' hfd' => by
        have hne : fd' ≠ fd := fun heq => hfd' (heq ▸ hopen)
        rw [Function.update_of_ne hne]
        exact net.unconnected fd' hfd' }
  else net

/-- The destructor of a socket. -/
def close (net : Net) (s : Socket) : Net where
  fds := (s.close net.fds).2
  peer := Function.update net.peer s.fd none
  unconnected := fun fd hfd => by
    by_cases heq : fd = s.fd
    · rw [heq, Function.update_self]
    · rw [Function.update_of_ne heq]
      refine net.unconnected fd fun hmem => hfd ?_
      rw [Socket.close]
      split
      · exact Finset.mem_erase.mpr ⟨heq, hmem⟩
      · exact hmem

theorem close_socket (numbering : Numbering) (net : Net) :
    (net.socket numbering).2.close (net.socket numbering).1 = net := by
  refine Net.ext (congrArg Prod.snd (numbering.close_socket net.fds)) (funext fun fd => ?_)
  show Function.update net.peer (numbering.pick net.fds) none fd = net.peer fd
  rw [Function.update_apply]
  split
  · next heq => rw [heq, net.unconnected _ (numbering.unused net.fds).2.1]
  · rfl

/-- A new socket that is connected. -/
theorem connect_socket (numbering : Numbering) (net : Net) (address : Bytes) :
    ((net.socket numbering).2.connect (numbering.pick net.fds) address).fds
      = { net.fds with sockets := insert (numbering.pick net.fds) net.fds.sockets } ∧
    ((net.socket numbering).2.connect (numbering.pick net.fds) address).peer
      = Function.update net.peer (numbering.pick net.fds) (some address) := by
  have hopen : numbering.pick net.fds ∈ (net.socket numbering).2.fds.sockets :=
    Finset.mem_insert_self _ _
  rw [connect, dif_pos hopen]
  exact ⟨rfl, rfl⟩

end Net

/-- One of the addresses and what the system answers for it: whether there is a socket, and why it
does not connect, if it does not. -/
structure Candidate where
  address : Bytes
  socket : Bool
  refused : Option Bytes
deriving DecidableEq, Repr

/-- The loop of `connect_to`. -/
def connectLoop (numbering : Numbering) : List Candidate → Bytes → Net → Socket × Bytes × Net
  | [], error, net => (⟨kInvalid⟩, if error.isEmpty then ascii "no usable address" else error, net)
  | candidate :: results, error, net =>
    if !candidate.socket then connectLoop numbering results error net
    else
      let (socket, net) := net.socket numbering
      match candidate.refused with
      | none => (socket, error, net.connect socket.fd candidate.address)
      -- the destructor of `socket`
      | some text => connectLoop numbering results text (net.close socket)

/-- `connect_to`. `resolved` is the answer of `getaddrinfo`. -/
def connectTo (numbering : Numbering) (host : Bytes) (resolved : Except Bytes (List Candidate))
    (error : Bytes) (net : Net) : Socket × Bytes × Net :=
  match resolved with
  | .error text => (⟨kInvalid⟩, ascii "cannot resolve '" ++ host ++ ascii "': " ++ text, net)
  | .ok results => connectLoop numbering results error net

def Candidate.connects (c : Candidate) : Bool := c.socket && c.refused.isNone

/-- The reasons for which addresses have been given up, in order. -/
def refusals (results : List Candidate) : List Bytes :=
  (results.takeWhile fun c => !c.connects).filterMap fun c => if c.socket then c.refused else none

theorem refusals_skip {c : Candidate} (h : c.socket = false) (results : List Candidate) :
    refusals (c :: results) = refusals results := by
  have hno : c.connects = false := by rw [Candidate.connects, h, Bool.false_and]
  rw [refusals, List.takeWhile_cons_of_pos (by rw [hno]; rfl), List.filterMap_cons_none]
  · rfl
  · rw [h]
    rfl

theorem refusals_refused {c : Candidate} (h : c.socket = true) {text : Bytes}
    (hrefused : c.refused = some text) (results : List Candidate) :
    refusals (c :: results) = text :: refusals results := by
  have hno : c.connects = false := by rw [Candidate.connects, h, hrefused]; rfl
  rw [refusals, List.takeWhile_cons_of_pos (by rw [hno]; rfl), List.filterMap_cons_some]
  · rfl
  · rw [h]
    exact hrefused

theorem connectLoop_eq (numbering : Numbering) (results : List Candidate) (error : Bytes)
    (net : Net) :
    connectLoop numbering results error net =
      match results.find? Candidate.connects with
      | some c => (⟨numbering.pick net.fds⟩, (refusals results).getLastD error,
          (net.socket numbering).2.connect (numbering.pick net.fds) c.address)
      | none => (⟨kInvalid⟩, if ((refusals results).getLastD error).isEmpty
          then ascii "no usable address" else (refusals results).getLastD error, net) := by
  induction results generalizing error with
  | nil => rfl
  | cons c results ih =>
    rw [connectLoop, List.find?_cons]
    cases hsocket : c.socket with
    | false =>
      have hno : c.connects = false := by rw [Candidate.connects, hsocket, Bool.false_and]
      rw [hno, refusals_skip hsocket]
      exact ih error
    | true =>
      cases hrefused : c.refused with
      | none =>
        have hyes : c.connects = true := by rw [Candidate.connects, hsocket, hrefused]; rfl
        rw [hyes, refusals, List.takeWhile_cons_of_neg (by rw [hyes]; decide)]
        rfl
      | some text =>
        have hno : c.connects = false := by rw [Candidate.connects, hsocket, hrefused]; rfl
        rw [hno, refusals_refused hsocket hrefused, List.getLastD_cons]
        simp only [Bool.not_true, Bool.false_eq_true, if_false, net.close_socket numbering]
        exact ih text

/-- **Connecting.** Of all the addresses of a host, `connect_to` returns a socket that is connected
to the first that connects. Its number was not in use, it is the only socket that is opened, and
what the others are connected to does not change; the error is then the reason for which the last
address before it was given up, or what the caller had there. If none connects, the descriptors are
as before, and the error is the reason for which the last address with a socket was given up; if
there was no such address, it is what the caller had there, or `no usable address`. -/
theorem connect_to_first (numbering : Numbering) (host : Bytes) (results : List Candidate)
    (error : Bytes) (net : Net) :
    (∀ c, results.find? Candidate.connects = some c →
      ∃ fd net', connectTo numbering host (.ok results) error net
          = (⟨fd⟩, (refusals results).getLastD error, net') ∧
        net.fds.Unused fd ∧
        net'.fds = { net.fds with sockets := insert fd net.fds.sockets } ∧
        net'.peer fd = some c.address ∧ ∀ fd', fd' ≠ fd → net'.peer fd' = net.peer fd') ∧
    (results.find? Candidate.connects = none →
      connectTo numbering host (.ok results) error net
        = (⟨kInvalid⟩, if ((refusals results).getLastD error).isEmpty
            then ascii "no usable address" else (refusals results).getLastD error, net)) := by
  constructor
  · intro c hc
    obtain ⟨hfds, hpeer⟩ := net.connect_socket numbering c.address
    refine ⟨numbering.pick net.fds, _, ?_, numbering.unused net.fds, hfds, ?_, fun fd' hne => ?_⟩
    · rw [connectTo, connectLoop_eq, hc]
    · rw [hpeer, Function.update_self]
    · rw [hpeer, Function.update_of_ne hne]
  · intro hnone
    rw [connectTo, connectLoop_eq, hnone]

/-- The first address has no socket, the second refuses, and the last is not tried. -/
theorem connect_to_first_third :
    ∃ net', connectTo .lowest (ascii "localhost")
        (.ok [⟨ascii "::1", false, none⟩,
          ⟨ascii "10.0.0.1", true, some (ascii "Connection refused")⟩,
          ⟨ascii "127.0.0.1", true, none⟩, ⟨ascii "127.0.0.2", true, none⟩]) []
        ⟨⟨{3}, {0, 1, 2}⟩, fun _ => none, fun _ _ => rfl⟩
          = (⟨4⟩, ascii "Connection refused", net') ∧
      net'.fds.sockets = {4, 3} ∧ net'.peer 4 = some (ascii "127.0.0.1") := by
  obtain ⟨fd, net', hresult, -, hfds, hpeer, -⟩ := (connect_to_first .lowest
    (ascii "localhost") [⟨ascii "::1", false, none⟩,
      ⟨ascii "10.0.0.1", true, some (ascii "Connection refused")⟩,
      ⟨ascii "127.0.0.1", true, none⟩, ⟨ascii "127.0.0.2", true, none⟩] []
    ⟨⟨{3}, {0, 1, 2}⟩, fun _ => none, fun _ _ => rfl⟩).1 _ rfl
  have hfd : (⟨4⟩ : Socket) = ⟨fd⟩ := Eq.trans (by decide) (congrArg Prod.fst hresult)
  cases hfd
  exact ⟨net', hresult, congrArg Fds.sockets hfds, hpeer⟩

/-! ## Listening -/

/-- What the system answers to the calls of `Server::start`. -/
structure StartAnswers where
  /-- Why there is no socket, if there is none. -/
  socket : Option Bytes
  /-- Whether `inet_pton` takes the host. -/
  address : Bool
  /-- Why the address cannot be bound, and whether that is `EADDRINUSE`. -/
  bind : Option (Bytes × Bool)
  listen : Option Bytes
  /-- The port that `getsockname` tells. -/
  name : Option UInt16

/-- The part of a `Server` that `start` sets. -/
structure Listener where
  socket : Socket := ⟨kInvalid⟩
  boundPort : UInt16 := 0

def bindError (host : Bytes) (port : UInt16) (text : Bytes) (inUse : Bool) : Bytes :=
  ascii "bind() failed: " ++ text ++
    if inUse then
      ascii "\n  Another process already holds " ++ host ++ ascii ":" ++ Decimal.ofNat port.toNat
        ++ ascii (". Note that 6379 is also Redis's default port -- check with\n"
          ++ "  `lsof -nP -iTCP:")
        ++ Decimal.ofNat port.toNat
        ++ ascii " -sTCP:LISTEN`, or start CacheX on a different port."
    else []

/-- `Server::start`. -/
def Listener.start (numbering : Numbering) (host : Bytes) (port : UInt16) (answers : StartAnswers)
    (l : Listener) (k : Fds) : Except Bytes Unit × Listener × Fds :=
  let (made, k) := if answers.socket.isNone then numbering.socket k else (⟨kInvalid⟩, k)
  -- the new descriptor is open before the old one is closed
  let (listener, _, k) := l.socket.moveAssign made k
  let failed (error : Bytes) := (.error error, { l with socket := listener }, k)
  match answers.socket, answers.address, answers.bind, answers.listen with
  | some text, _, _, _ => failed (ascii "socket() failed: " ++ text)
  | none, false, _, _ => failed (ascii "invalid bind address '" ++ host ++ ascii "'")
  | none, true, some (text, inUse), _ => failed (bindError host port text inUse)
  | none, true, none, some text => failed (ascii "listen() failed: " ++ text)
  | none, true, none, none => (.ok (), ⟨listener, answers.name.getD port⟩, k)

/-- Beside the descriptors `k₀`, only that of the listener is open. -/
inductive Listening (k₀ : Fds) : Listener → Fds → Prop
  | idle {l : Listener} : l.socket.fd = kInvalid → Listening k₀ l k₀
  | bound {l : Listener} : k₀.Unused l.socket.fd →
    Listening k₀ l { k₀ with sockets := insert l.socket.fd k₀.sockets }

theorem Listener.start_socket (numbering : Numbering) (host : Bytes) (port : UInt16)
    (answers : StartAnswers) (l : Listener) (k : Fds) :
    ∃ made k',
      (made, k') = (if answers.socket.isNone then numbering.socket k else (⟨kInvalid⟩, k)) ∧
      (l.start numbering host port answers k).2.1.socket = made ∧
      (l.start numbering host port answers k).2.2 = (l.socket.close k').2 := by
  refine ⟨_, _, rfl, ?_⟩
  obtain ⟨_ | text, _ | _, _ | ⟨text', inUse⟩, _ | text'', name⟩ := answers <;> exact ⟨rfl, rfl⟩

namespace Listening

variable {k₀ k : Fds} {l : Listener}

/-- The destructor of the listener. -/
theorem close (h : Listening k₀ l k) : (l.socket.close k).2 = k₀ := by
  cases h with
  | idle hinvalid => rw [Socket.close, if_neg (not_not_intro hinvalid)]
  | bound hunused =>
    rw [Socket.close, if_pos hunused.ne_invalid]
    simp only [Fds.close, Finset.erase_insert hunused.2.1, Finset.erase_eq_of_notMem hunused.2.2]

/-- The old listener is closed when there is a new one already. -/
theorem close_insert (h : Listening k₀ l k) {fd : Int} (hfd : k.Unused fd) :
    (l.socket.close { k with sockets := insert fd k.sockets }).2
      = { k₀ with sockets := insert fd k₀.sockets } ∧ k₀.Unused fd := by
  cases h with
  | idle hinvalid =>
    rw [Socket.close, if_neg (not_not_intro hinvalid)]
    exact ⟨rfl, hfd⟩
  | bound hunused =>
    obtain ⟨hnonneg, hsockets, hfiles⟩ := hfd
    have hne : fd ≠ l.socket.fd := fun heq => hsockets (heq ▸ Finset.mem_insert_self _ _)
    refine ⟨?_, hnonneg, fun hmem => hsockets (Finset.mem_insert_of_mem hmem), hfiles⟩
    rw [Socket.close, if_pos hunused.ne_invalid]
    simp only [Fds.close, Finset.erase_insert_of_ne hne, Finset.erase_insert hunused.2.1,
      Finset.erase_eq_of_notMem hunused.2.2]

/-- One call of `start`, whether it succeeds or fails. -/
theorem start (h : Listening k₀ l k) (numbering : Numbering) (host : Bytes) (port : UInt16)
    (answers : StartAnswers) :
    Listening k₀ (l.start numbering host port answers k).2.1
      (l.start numbering host port answers k).2.2 := by
  obtain ⟨made, k', hmade, hsocket, hk⟩ := l.start_socket numbering host port answers k
  generalize l.start numbering host port answers k = result at hsocket hk
  rw [hk]
  split at hmade
  · cases hmade
    obtain ⟨hclosed, hunused⟩ := h.close_insert (numbering.unused k)
    have hfd : numbering.pick k = result.2.1.socket.fd := congrArg Socket.fd hsocket.symm
    rw [hfd] at hclosed hunused
    have hbound := Listening.bound hunused
    rw [← hclosed, ← hfd] at hbound
    exact hbound
  · cases hmade
    rw [h.close]
    exact .idle (congrArg Socket.fd hsocket)

/-- Any number of calls of `start`. -/
theorem starts (numbering : Numbering) (host : Bytes) (port : UInt16) (k₀ : Fds)
    (answers : List StartAnswers) :
    let result := answers.foldl (fun st a => (st.1.start numbering host port a st.2).2)
      (({} : Listener), k₀)
    Listening k₀ result.1 result.2 := by
  have hrun (l : Listener) (k : Fds) (h : Listening k₀ l k) :
      Listening k₀ (answers.foldl (fun st a => (st.1.start numbering host port a st.2).2) (l, k)).1
        (answers.foldl (fun st a => (st.1.start numbering host port a st.2).2) (l, k)).2 := by
    induction answers generalizing l k with
    | nil => exact h
    | cons a answers ih => exact ih _ _ (h.start numbering host port a)
  exact hrun {} k₀ (.idle rfl)

end Listening

end CacheX
