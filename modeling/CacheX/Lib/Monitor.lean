import CacheX.Lib.Machine
import Mathlib.Data.List.Nodup
import Mathlib.Logic.Function.Basic
import Mathlib.Logic.Relation
import Mathlib.Order.Basic

/-!
# Objects behind mutexes

Threads call operations of objects, and every object has a mutex of its own. A call waits for the
mutex, runs a critical section over the object, one access after the other, and returns. Threads
are interleaved between any two accesses, the clock moves on at any moment, and a critical section
reads it at most once: that is how `Body` is built.

A call takes effect when it reads the clock, or, if it never does, when it releases the mutex.
`State.order` has the calls in the order of these moments. It is a ghost: no step looks at it.

* `linearizable`: if every critical section run alone does what the sequential object does, then
  the calls of any history take effect one by one, each between its invocation and its return, with
  clock readings that do not go back, and with the replies of the sequential objects.
* `exclusive`: no two threads are inside one object.
* `progress`: as long as a call is under way, some call can advance.
-/

namespace CacheX.Monitor

/-! ## Critical sections -/

/-- Code that does not read the clock any more. `none` is undefined behaviour. -/
inductive Tail (σ ρ : Type) : Type 1
  | done (result : ρ)
  | act {α : Type} (f : σ → Option (σ × α)) (next : α → Tail σ ρ)

/-- Code that reads the clock once or never. -/
inductive Body (σ τ ρ : Type) : Type 1
  | tail (t : Tail σ ρ)
  | act {α : Type} (f : σ → Option (σ × α)) (next : α → Body σ τ ρ)
  | read (next : τ → Tail σ ρ)

variable {κ σ τ ι ρ α β : Type}

namespace Tail

/-- The code run without interruption. -/
def exec : Tail σ ρ → σ → Option (σ × ρ)
  | .done r, s => some (s, r)
  | .act f next, s => (f s).bind fun p => (next p.2).exec p.1

def bind : Tail σ α → (α → Tail σ β) → Tail σ β
  | .done a, k => k a
  | .act f next, k => .act f fun a => (next a).bind k

/-- The code with another result. -/
def map (f : α → β) (t : Tail σ α) : Tail σ β := t.bind fun a => .done (f a)

/-- One access. -/
def once (f : σ → Option (σ × α)) : Tail σ α := .act f .done

/-- One access that gives nothing back. -/
def change (f : σ → Option σ) : Tail σ Unit := once fun s => (f s).map fun s' => (s', ())

@[simp]
theorem exec_done (r : ρ) (s : σ) : (Tail.done r).exec s = some (s, r) := rfl

@[simp]
theorem exec_bind (t : Tail σ α) (k : α → Tail σ β) (s : σ) :
    (t.bind k).exec s = (t.exec s).bind fun p => (k p.2).exec p.1 := by
  induction t generalizing s with
  | done a => rfl
  | act f next ih =>
    simp only [bind, exec, Option.bind_assoc]
    exact congrArg (Option.bind (f s)) (funext fun p => ih p.2 p.1)

@[simp]
theorem exec_map (f : α → β) (t : Tail σ α) (s : σ) :
    (t.map f).exec s = (t.exec s).map fun p => (p.1, f p.2) := by
  rw [map, exec_bind]
  cases t.exec s with
  | none => rfl
  | some p => rfl

@[simp]
theorem exec_once (f : σ → Option (σ × α)) (s : σ) : (once f).exec s = f s :=
  Option.bind_fun_some (f s)

@[simp]
theorem exec_change (f : σ → Option σ) (s : σ) :
    (change f).exec s = (f s).map fun s' => (s', ()) :=
  exec_once _ s

end Tail

namespace Body

/-- The code run without interruption, at the clock reading `now`. -/
def exec (now : τ) : Body σ τ ρ → σ → Option (σ × ρ)
  | .tail t, s => t.exec s
  | .act f next, s => (f s).bind fun p => (next p.2).exec now p.1
  | .read next, s => (next now).exec s

def bind : Body σ τ α → (α → Tail σ β) → Body σ τ β
  | .tail t, k => .tail (t.bind k)
  | .act f next, k => .act f fun a => (next a).bind k
  | .read next, k => .read fun now => (next now).bind k

/-- The code with another result. -/
def map (f : α → β) (b : Body σ τ α) : Body σ τ β := b.bind fun a => .done (f a)

@[simp]
theorem exec_tail (now : τ) (t : Tail σ ρ) (s : σ) : (Body.tail t).exec now s = t.exec s := rfl

@[simp]
theorem exec_act (now : τ) (f : σ → Option (σ × α)) (next : α → Body σ τ ρ) (s : σ) :
    (Body.act f next).exec now s = (f s).bind fun p => (next p.2).exec now p.1 := rfl

@[simp]
theorem exec_read (now : τ) (next : τ → Tail σ ρ) (s : σ) :
    (Body.read next).exec now s = (next now).exec s := rfl

@[simp]
theorem exec_bind (now : τ) (b : Body σ τ α) (k : α → Tail σ β) (s : σ) :
    (b.bind k).exec now s = (b.exec now s).bind fun p => (k p.2).exec p.1 := by
  induction b generalizing s with
  | tail t => exact t.exec_bind k s
  | act f next ih =>
    simp only [bind, exec, Option.bind_assoc]
    exact congrArg (Option.bind (f s)) (funext fun p => ih p.2 p.1)
  | read next => exact (next now).exec_bind k s

@[simp]
theorem exec_map (now : τ) (f : α → β) (b : Body σ τ α) (s : σ) :
    (b.map f).exec now s = (b.exec now s).map fun p => (p.1, f p.2) := by
  rw [map, exec_bind]
  cases b.exec now s with
  | none => rfl
  | some p => rfl

end Body

/-! ## Threads and histories -/

/-- Where a thread is in a call. In `before` the call has not taken effect yet, in `after` it
has. -/
inductive Stage (κ σ τ ι ρ : Type) : Type 1
  | idle
  | waiting (id : Nat) (obj : κ) (op : ι)
  | before (id : Nat) (obj : κ) (op : ι) (body : Body σ τ ρ)
  | after (id : Nat) (obj : κ) (tail : Tail σ ρ)
  | returning (id : Nat) (result : ρ)

/-- What the callers see, with the time at which they see it. -/
inductive Event (κ τ ι ρ : Type)
  | invoked (now : τ) (id : Nat) (obj : κ) (op : ι)
  | returned (now : τ) (id : Nat) (result : ρ)

/-- A call that has taken effect. -/
structure Effect (κ τ ι : Type) where
  id : Nat
  obj : κ
  now : τ
  op : ι

namespace Stage

/-- The object whose mutex the thread holds. -/
def inside : Stage κ σ τ ι ρ → Option κ
  | .before _ obj _ _ => some obj
  | .after _ obj _ => some obj
  | _ => none

/-- The call the thread is in. -/
def call : Stage κ σ τ ι ρ → Option Nat
  | .idle => none
  | .waiting id _ _ => some id
  | .before id _ _ _ => some id
  | .after id _ _ => some id
  | .returning id _ => some id

end Stage

structure State (κ σ τ ι ρ : Type) where
  clock : τ
  objects : κ → σ
  holder : κ → Option Nat
  threads : Nat → Stage κ σ τ ι ρ
  issued : Nat
  history : List (Event κ τ ι ρ)
  order : List (Effect κ τ ι)

/-- What one call on one of the objects is in the sequential world. -/
def Effect.input (e : Effect κ τ ι) : κ × τ × ι := (e.obj, e.now, e.op)

/-- The sequential objects side by side. -/
def stepAt [DecidableEq κ] (spec : σ → τ × ι → Option (σ × ρ)) (objects : κ → σ) (x : κ × τ × ι) :
    Option ((κ → σ) × ρ) :=
  (spec (objects x.1) x.2).map fun p => (Function.update objects x.1 p.1, p.2)

/-- The calls of `order` explain a history: run one by one on a sequential system they give the
replies the callers saw; each took effect once, between its invocation and its return; a call that
returned before another was invoked took effect before it; and the clock did not go back. -/
structure Linearization {S : Type} [LE τ] (step : S → κ × τ × ι → Option (S × ρ)) (init : S)
    (history : List (Event κ τ ι ρ)) (order : List (Effect κ τ ι)) : Prop where
  legal : ∃ final replies, Machine.run step init (order.map Effect.input) = some (final, replies) ∧
    ∀ now id r, .returned now id r ∈ history →
      ∃ e, (e, r) ∈ order.zip replies ∧ e.id = id ∧ e.now ≤ now
  once : (order.map Effect.id).Nodup
  began : ∀ e ∈ order, ∃ now, .invoked now e.id e.obj e.op ∈ history ∧ now ≤ e.now
  realTime : ∀ t t' a b r obj op,
    [Event.returned t a r, .invoked t' b obj op].Sublist history → b ∈ order.map Effect.id →
    [a, b].Sublist (order.map Effect.id)
  clock : order.Pairwise fun e e' => e.now ≤ e'.now

/-- Another sequential system that gives the same replies explains the history as well. -/
theorem Linearization.transfer {S S' : Type} [LE τ] {step : S → κ × τ × ι → Option (S × ρ)}
    {step' : S' → κ × τ × ι → Option (S' × ρ)} {init : S} {init' : S'}
    {history : List (Event κ τ ι ρ)} {order : List (Effect κ τ ι)}
    (h : Linearization step init history order)
    (hrun : ∀ final replies,
      Machine.run step init (order.map Effect.input) = some (final, replies) →
      ∃ final', Machine.run step' init' (order.map Effect.input) = some (final', replies)) :
    Linearization step' init' history order := by
  obtain ⟨final, replies, hlegal, hret⟩ := h.legal
  obtain ⟨final', hlegal'⟩ := hrun final replies hlegal
  exact { h with legal := ⟨final', replies, hlegal', hret⟩ }

/-! ## Changes of the state -/

section System

variable {s s' : State κ σ τ ι ρ} {t : Nat} {st : Stage κ σ τ ι ρ}

/-- No call has been made yet. -/
def start (clock : τ) (objects : κ → σ) : State κ σ τ ι ρ :=
  ⟨clock, objects, fun _ => none, fun _ => .idle, 0, [], []⟩

namespace State

def setThread (s : State κ σ τ ι ρ) (t : Nat) (st : Stage κ σ τ ι ρ) : State κ σ τ ι ρ :=
  { s with threads := Function.update s.threads t st }

/-- The call takes effect now. -/
def takeEffect (s : State κ σ τ ι ρ) (id : Nat) (obj : κ) (op : ι) : State κ σ τ ι ρ :=
  { s with order := s.order ++ [⟨id, obj, s.clock, op⟩] }

@[simp]
theorem threads_setThread (t' : Nat) :
    (s.setThread t st).threads t' = if t' = t then st else s.threads t' :=
  Function.update_apply ..

end State

/-- No two threads are in the same call, and ids are not used again. -/
structure Calls (s : State κ σ τ ι ρ) : Prop where
  distinct : ∀ t t' id, (s.threads t).call = some id → (s.threads t').call = some id → t = t'
  issued : ∀ t id, (s.threads t).call = some id → id < s.issued
  effects : ∀ e ∈ s.order, e.id < s.issued

theorem Calls.keep (h : Calls s) (hst : ∀ id, st.call = some id → (s.threads t).call = some id) :
    Calls (s.setThread t st) := by
  have hcall : ∀ t' id, ((s.setThread t st).threads t').call = some id →
      (s.threads t').call = some id := by
    intro t' id hid
    by_cases ht : t' = t
    · subst ht
      rw [State.threads_setThread, if_pos rfl] at hid
      exact hst id hid
    · rwa [State.threads_setThread, if_neg ht] at hid
  exact ⟨fun t₁ t₂ id h₁ h₂ => h.distinct t₁ t₂ id (hcall t₁ id h₁) (hcall t₂ id h₂),
    fun t' id hid => h.issued t' id (hcall t' id hid), h.effects⟩

theorem Calls.takeEffect (h : Calls s) {id : Nat} (hid : (s.threads t).call = some id) (obj : κ)
    (op : ι) : Calls (s.takeEffect id obj op) := by
  refine ⟨h.distinct, h.issued, fun e he => ?_⟩
  rcases List.mem_append.mp he with he | he
  · exact h.effects e he
  · cases List.mem_singleton.mp he
    exact h.issued t id hid

/-- A thread holds exactly the mutex of the object it is inside of. -/
def Locks (s : State κ σ τ ι ρ) : Prop :=
  ∀ t i, s.holder i = some t ↔ (s.threads t).inside = some i

theorem Locks.keep (h : Locks s) (hst : st.inside = (s.threads t).inside) :
    Locks (s.setThread t st) := by
  intro t' i
  rw [State.threads_setThread]
  split
  · next ht =>
    rw [hst, ← ht]
    exact h t' i
  · exact h t' i

variable [DecidableEq κ]

namespace State

def setObject (s : State κ σ τ ι ρ) (obj : κ) (o : σ) : State κ σ τ ι ρ :=
  { s with objects := Function.update s.objects obj o }

def setHolder (s : State κ σ τ ι ρ) (obj : κ) (t : Option Nat) : State κ σ τ ι ρ :=
  { s with holder := Function.update s.holder obj t }

@[simp]
theorem holder_setHolder (obj i : κ) (h : Option Nat) :
    (s.setHolder obj h).holder i = if i = obj then h else s.holder i :=
  Function.update_apply ..

@[simp]
theorem objects_setObject (obj i : κ) (o : σ) :
    (s.setObject obj o).objects i = if i = obj then o else s.objects i :=
  Function.update_apply ..

end State

theorem Locks.acquire {obj : κ} (h : Locks s) (hfree : s.holder obj = none)
    (hout : (s.threads t).inside = none) (hst : st.inside = some obj) :
    Locks ((s.setHolder obj (some t)).setThread t st) := by
  intro t' i
  show (s.setHolder obj (some t)).holder i = some t' ↔ _
  rw [State.threads_setThread, State.holder_setHolder]
  by_cases hi : i = obj
  · rw [if_pos hi, hi]
    by_cases ht : t' = t
    · rw [if_pos ht, hst, ht]
      exact iff_of_true rfl rfl
    · rw [if_neg ht]
      refine iff_of_false (fun he => ht (Option.some.inj he).symm) fun hin => ?_
      have hheld := (h t' obj).mpr hin
      rw [hfree] at hheld
      cases hheld
  · rw [if_neg hi, h t' i]
    by_cases ht : t' = t
    · rw [if_pos ht, hst, ht, hout]
      exact iff_of_false nofun fun he => hi (Option.some.inj he).symm
    · rw [if_neg ht]
      rfl

theorem Locks.release {obj : κ} (h : Locks s) (hin : (s.threads t).inside = some obj)
    (hst : st.inside = none) : Locks ((s.setHolder obj none).setThread t st) := by
  intro t' i
  have hheld := (h t obj).mpr hin
  show (s.setHolder obj none).holder i = some t' ↔ _
  rw [State.threads_setThread, State.holder_setHolder]
  by_cases ht : t' = t
  · rw [if_pos ht, hst]
    refine iff_of_false (fun he => ?_) (Option.some_ne_none i).symm
    split at he
    · cases he
    · next hne =>
      have hin' := (h t' i).mp he
      rw [ht, hin] at hin'
      exact hne (Option.some.inj hin').symm
  · rw [if_neg ht]
    split
    · next hi =>
      rw [hi]
      refine iff_of_false (Option.some_ne_none t').symm fun hin' => ?_
      have hheld' := (h t' obj).mpr hin'
      rw [hheld] at hheld'
      exact ht (Option.some.inj hheld').symm
    · exact h t' i

/-! ## The system -/

/-- Thread `t` takes one step in the call it is in. -/
inductive Advance (body : ι → Body σ τ ρ) (t : Nat) (s : State κ σ τ ι ρ) :
    State κ σ τ ι ρ → Prop
  | acquire {id obj op} (hst : s.threads t = .waiting id obj op) (hfree : s.holder obj = none) :
      Advance body t s ((s.setHolder obj (some t)).setThread t (.before id obj op (body op)))
  | act {α id obj op} {f : σ → Option (σ × α)} {next p}
      (hst : s.threads t = .before id obj op (.act f next)) (hf : f (s.objects obj) = some p) :
      Advance body t s ((s.setObject obj p.1).setThread t (.before id obj op (next p.2)))
  | actUnread {α id obj op} {f : σ → Option (σ × α)} {next p}
      (hst : s.threads t = .before id obj op (.tail (.act f next)))
      (hf : f (s.objects obj) = some p) :
      Advance body t s ((s.setObject obj p.1).setThread t (.before id obj op (.tail (next p.2))))
  | read {id obj op next} (hst : s.threads t = .before id obj op (.read next)) :
      Advance body t s ((s.takeEffect id obj op).setThread t (.after id obj (next s.clock)))
  | actRead {α id obj} {f : σ → Option (σ × α)} {next p}
      (hst : s.threads t = .after id obj (.act f next)) (hf : f (s.objects obj) = some p) :
      Advance body t s ((s.setObject obj p.1).setThread t (.after id obj (next p.2)))
  | releaseUnread {id obj op r} (hst : s.threads t = .before id obj op (.tail (.done r))) :
      Advance body t s
        (((s.takeEffect id obj op).setHolder obj none).setThread t (.returning id r))
  | release {id obj r} (hst : s.threads t = .after id obj (.done r)) :
      Advance body t s ((s.setHolder obj none).setThread t (.returning id r))
  | respond {id r} (hst : s.threads t = .returning id r) :
      Advance body t s
        ({ s with history := s.history ++ [Event.returned s.clock id r] }.setThread t .idle)

variable [Preorder τ]

/-- Time passes, an idle thread makes a call, or a call advances. -/
inductive Step (body : ι → Body σ τ ρ) (allowed : κ → ι → Prop) (s : State κ σ τ ι ρ) :
    State κ σ τ ι ρ → Prop
  | tick {now} (hnow : s.clock ≤ now) : Step body allowed s { s with clock := now }
  | invoke (t : Nat) (obj op) (hst : s.threads t = .idle) (hop : allowed obj op) :
      Step body allowed s
        ({ s with
            issued := s.issued + 1
            history := s.history ++ [Event.invoked s.clock s.issued obj op] }.setThread t
          (.waiting s.issued obj op))
  | advance {t : Nat} {next} (h : Advance body t s next) : Step body allowed s next

abbrev Reaches (body : ι → Body σ τ ρ) (allowed : κ → ι → Prop) :
    State κ σ τ ι ρ → State κ σ τ ι ρ → Prop :=
  Relation.ReflTransGen (Step body allowed)

/-- Run alone on a good object, the critical section of an allowed call does what the sequential
object does, which is defined and leaves the object good. -/
structure Correct (spec : σ → τ × ι → Option (σ × ρ)) (body : ι → Body σ τ ρ)
    (allowed : κ → ι → Prop) (P : κ → σ → Prop) : Prop where
  body_spec : ∀ i s now op, P i s → allowed i op → (body op).exec now s = spec s (now, op)
  defined : ∀ i s now op, P i s → allowed i op → ∃ s' r, spec s (now, op) = some (s', r) ∧ P i s'

/-! ## The invariant -/

/-- Call `id` has taken effect and its reply is `r`. -/
def Answered (order : List (Effect κ τ ι)) (replies : List ρ) (id : Nat) (r : ρ) : Prop :=
  ∃ e, (e, r) ∈ order.zip replies ∧ e.id = id

/-- What is known about a thread in a call, where `abs` are the objects after the effects so far. A
call that has not taken effect yet will do to the object what the sequential object would do to
`abs`; a call that has will turn the object into `abs`. -/
def StageOk (spec : σ → τ × ι → Option (σ × ρ)) (allowed : κ → ι → Prop) (s : State κ σ τ ι ρ)
    (abs : κ → σ) (replies : List ρ) : Stage κ σ τ ι ρ → Prop
  | .idle => True
  | .waiting id obj op =>
    allowed obj op ∧ id ∉ s.order.map Effect.id ∧
      ∃ now, .invoked now id obj op ∈ s.history ∧ now ≤ s.clock
  | .before id obj op body =>
    (allowed obj op ∧ id ∉ s.order.map Effect.id ∧
      ∃ now, .invoked now id obj op ∈ s.history ∧ now ≤ s.clock) ∧
      ∀ now, body.exec now (s.objects obj) = spec (abs obj) (now, op)
  | .after id obj tail =>
    ∃ r, tail.exec (s.objects obj) = some (abs obj, r) ∧ Answered s.order replies id r
  | .returning id r => Answered s.order replies id r

/-- The effects so far, run one by one from `init`, give `abs` and `replies`. -/
structure Effects (spec : σ → τ × ι → Option (σ × ρ)) (allowed : κ → ι → Prop)
    (P : κ → σ → Prop) (init : κ → σ) (clock : τ) (history : List (Event κ τ ι ρ))
    (order : List (Effect κ τ ι)) (abs : κ → σ) (replies : List ρ) : Prop where
  legal : Machine.run (stepAt spec) init (order.map Effect.input) = some (abs, replies)
  good : ∀ i, P i (abs i)
  allowed : ∀ e ∈ order, allowed e.obj e.op
  once : (order.map Effect.id).Nodup
  began : ∀ e ∈ order, ∃ now, .invoked now e.id e.obj e.op ∈ history ∧ now ≤ e.now
  answered : ∀ now id r, .returned now id r ∈ history →
    ∃ e, (e, r) ∈ order.zip replies ∧ e.id = id ∧ e.now ≤ now
  realTime : ∀ t t' a b r obj op,
    [Event.returned t a r, .invoked t' b obj op].Sublist history → b ∈ order.map Effect.id →
    [a, b].Sublist (order.map Effect.id)
  monotone : order.Pairwise fun e e' => e.now ≤ e'.now
  past : ∀ e ∈ order, e.now ≤ clock

structure Inv (spec : σ → τ × ι → Option (σ × ρ)) (allowed : κ → ι → Prop) (P : κ → σ → Prop)
    (init : κ → σ) (s : State κ σ τ ι ρ) (abs : κ → σ) (replies : List ρ) : Prop where
  locks : Locks s
  calls : Calls s
  effects : Effects spec allowed P init s.clock s.history s.order abs replies
  free : ∀ i, s.holder i = none → s.objects i = abs i
  stage : ∀ t, StageOk spec allowed s abs replies (s.threads t)

variable {spec : σ → τ × ι → Option (σ × ρ)} {body : ι → Body σ τ ρ} {allowed : κ → ι → Prop}
  {P : κ → σ → Prop} {init : κ → σ} {abs abs' : κ → σ}
  {replies replies' : List ρ}

theorem inv_start (hinit : ∀ i, P i (init i)) (clock : τ) :
    Inv spec allowed P init (start clock init) init [] where
  locks := fun _ _ => ⟨nofun, nofun⟩
  calls := ⟨nofun, nofun, nofun⟩
  effects := ⟨rfl, hinit, nofun, List.nodup_nil, nofun, nofun, nofun, List.Pairwise.nil, nofun⟩
  free := fun _ _ => rfl
  stage := fun _ => trivial

/-! ## What a step keeps -/

theorem sublist_of_snoc {γ : Type} {a b x : γ} {l : List γ} (h : [a, b].Sublist (l ++ [x]))
    (hne : b ≠ x) : [a, b].Sublist l := by
  have hrev := h.reverse
  rw [List.reverse_append] at hrev
  cases hrev with
  | cons _ hrev => exact List.reverse_sublist.mp hrev
  | cons_cons _ _ => exact absurd rfl hne

namespace Effects

variable {clock : τ} {history : List (Event κ τ ι ρ)} {order : List (Effect κ τ ι)}

theorem zip_snoc (h : Effects spec allowed P init clock history order abs replies)
    (e : Effect κ τ ι) (r : ρ) :
    (order ++ [e]).zip (replies ++ [r]) = order.zip replies ++ [(e, r)] := by
  have hlen := Machine.run_length h.legal
  rw [List.length_map] at hlen
  exact List.zip_append hlen.symm

theorem tick (h : Effects spec allowed P init clock history order abs replies) {now : τ}
    (hnow : clock ≤ now) : Effects spec allowed P init now history order abs replies :=
  { h with past := fun e he => (h.past e he).trans hnow }

theorem invoke (h : Effects spec allowed P init clock history order abs replies) {now : τ}
    {id : Nat} {obj : κ} {op : ι} (hid : id ∉ order.map Effect.id) :
    Effects spec allowed P init clock (history ++ [.invoked now id obj op]) order abs replies where
  __ := h
  began := fun e he =>
    (h.began e he).imp fun _ hinv => ⟨List.mem_append_left _ hinv.1, hinv.2⟩
  answered := by
    intro now' id' r hret
    rcases List.mem_append.mp hret with hret | hret
    · exact h.answered now' id' r hret
    · cases List.mem_singleton.mp hret
  realTime := by
    intro t t' a b r obj' op' hsub hb
    -- a call that has taken effect is not the new one
    have hne : b ≠ id := fun hbid => hid (hbid ▸ hb)
    refine h.realTime t t' a b r obj' op' (sublist_of_snoc hsub fun he => ?_) hb
    cases he
    exact hne rfl

theorem respond (h : Effects spec allowed P init clock history order abs replies) {id : Nat}
    {r : ρ} (hr : Answered order replies id r) :
    Effects spec allowed P init clock (history ++ [.returned clock id r]) order abs replies where
  __ := h
  began := fun e he =>
    (h.began e he).imp fun _ hinv => ⟨List.mem_append_left _ hinv.1, hinv.2⟩
  answered := by
    intro now id' r' hret
    rcases List.mem_append.mp hret with hret | hret
    · exact h.answered now id' r' hret
    · cases List.mem_singleton.mp hret
      obtain ⟨e, he, hid⟩ := hr
      exact ⟨e, he, hid, h.past e (List.of_mem_zip he).1⟩
  realTime := by
    intro t t' a b r' obj op hsub hb
    exact h.realTime t t' a b r' obj op (sublist_of_snoc hsub nofun) hb

/-- The next call takes effect, at the present time. -/
theorem snoc (h : Effects spec allowed P init clock history order abs replies) {id : Nat}
    {obj : κ} {op : ι} (hop : allowed obj op) (hid : id ∉ order.map Effect.id)
    (hinv : ∃ now, .invoked now id obj op ∈ history ∧ now ≤ clock) {o : σ} {r : ρ}
    (hspec : spec (abs obj) (clock, op) = some (o, r)) (ho : P obj o) :
    Effects spec allowed P init clock history (order ++ [⟨id, obj, clock, op⟩])
      (Function.update abs obj o) (replies ++ [r]) where
  legal := by
    rw [List.map_append]
    refine Machine.run_append h.legal (Machine.run_cons_some ?_ rfl)
    show (spec (abs obj) (clock, op)).map _ = _
    rw [hspec]
    rfl
  good := by
    intro i
    rw [Function.update_apply]
    split
    · next hi => exact hi ▸ ho
    · exact h.good i
  allowed := by
    intro e he
    rcases List.mem_append.mp he with he | he
    · exact h.allowed e he
    · cases List.mem_singleton.mp he
      exact hop
  once := by
    rw [List.map_append]
    refine h.once.append (List.nodup_singleton id) fun a ha ha' => hid ?_
    cases List.mem_singleton.mp ha'
    exact ha
  began := by
    intro e he
    rcases List.mem_append.mp he with he | he
    · exact h.began e he
    · cases List.mem_singleton.mp he
      exact hinv
  answered := by
    intro now id' r' hret
    obtain ⟨e, he, hrest⟩ := h.answered now id' r' hret
    refine ⟨e, ?_, hrest⟩
    rw [h.zip_snoc]
    exact List.mem_append_left _ he
  realTime := by
    intro t t' a b r' obj' op' hsub hb
    rw [List.map_append] at hb ⊢
    rcases List.mem_append.mp hb with hb | hb
    · exact (h.realTime t t' a b r' obj' op' hsub hb).trans (List.sublist_append_left _ _)
    · -- a call that has returned has taken effect, so it comes before the new one
      cases List.mem_singleton.mp hb
      obtain ⟨e, he, hea, -⟩ := h.answered t a r' (hsub.subset List.mem_cons_self)
      have ha : a ∈ order.map Effect.id :=
        hea ▸ List.mem_map_of_mem (List.of_mem_zip he).1
      exact (List.singleton_sublist.mpr ha).append (List.Sublist.refl [id])
  monotone := by
    refine List.pairwise_append.mpr ⟨h.monotone, List.pairwise_singleton _ _, fun e he e' he' => ?_⟩
    cases List.mem_singleton.mp he'
    exact h.past e he
  past := by
    intro e he
    rcases List.mem_append.mp he with he | he
    · exact h.past e he
    · cases List.mem_singleton.mp he
      exact le_refl clock

end Effects

omit [DecidableEq κ] in
/-- What is known about a thread stays true when other threads move: the object it is inside of is
left alone, and its call does not take effect. -/
theorem StageOk.frame (h : StageOk spec allowed s abs replies st)
    (hobj : ∀ i, st.inside = some i → s'.objects i = s.objects i ∧ abs' i = abs i)
    (hfresh : ∀ id, st.call = some id → id ∉ s.order.map Effect.id →
      id ∉ s'.order.map Effect.id)
    (hhist : s.history ⊆ s'.history) (hclock : s.clock ≤ s'.clock)
    (hans : ∀ id r, Answered s.order replies id r → Answered s'.order replies' id r) :
    StageOk spec allowed s' abs' replies' st := by
  have hpending : ∀ {id obj op}, st.call = some id →
      (allowed obj op ∧ id ∉ s.order.map Effect.id ∧
        ∃ now, .invoked now id obj op ∈ s.history ∧ now ≤ s.clock) →
      allowed obj op ∧ id ∉ s'.order.map Effect.id ∧
        ∃ now, .invoked now id obj op ∈ s'.history ∧ now ≤ s'.clock := by
    rintro id obj op hid ⟨hop, hnew, now, hinv, hnow⟩
    exact ⟨hop, hfresh id hid hnew, now, hhist hinv, hnow.trans hclock⟩
  cases st with
  | idle => trivial
  | waiting id obj op => exact hpending rfl h
  | before id obj op body =>
    obtain ⟨ho, ha⟩ := hobj obj rfl
    refine ⟨hpending rfl h.1, fun now => ?_⟩
    rw [ho, ha]
    exact h.2 now
  | after id obj tail =>
    obtain ⟨ho, ha⟩ := hobj obj rfl
    obtain ⟨r, hexec, hr⟩ := h
    exact ⟨r, by rw [ho, ha]; exact hexec, hans id r hr⟩
  | returning id r => exact hans id r h

namespace Inv

/-- A step of thread `t` in which no call takes effect. -/
theorem move (h : Inv spec allowed P init s abs replies) (hlocks : Locks s') (hcalls : Calls s')
    (heffects : Effects spec allowed P init s'.clock s'.history s'.order abs replies)
    (hfree : ∀ i, s'.holder i = none → s'.objects i = abs i)
    (horder : s'.order = s.order) (hhist : s.history ⊆ s'.history) (hclock : s.clock ≤ s'.clock)
    (hother : ∀ t', t' ≠ t → s'.threads t' = s.threads t')
    (hobj : ∀ t' i, t' ≠ t → (s.threads t').inside = some i → s'.objects i = s.objects i)
    (hself : StageOk spec allowed s' abs replies (s'.threads t)) :
    Inv spec allowed P init s' abs replies := by
  refine ⟨hlocks, hcalls, heffects, hfree, fun t' => ?_⟩
  by_cases ht : t' = t
  · exact ht ▸ hself
  · rw [hother t' ht]
    refine (h.stage t').frame (fun i hi => ⟨hobj t' i ht hi, rfl⟩) (fun id _ hid => ?_) hhist hclock
      fun id r hr => ?_
    · rw [horder]
      exact hid
    · rw [horder]
      exact hr

/-- Two threads are never inside the same object. -/
theorem ne_of_inside (h : Inv spec allowed P init s abs replies) {obj i : κ} {t' : Nat}
    (hin : (s.threads t).inside = some obj) (ht : t' ≠ t) (hin' : (s.threads t').inside = some i) :
    i ≠ obj := by
  rintro rfl
  have hheld := (h.locks t i).mpr hin
  rw [(h.locks t' i).mpr hin'] at hheld
  exact ht (Option.some.inj hheld)

theorem tick (h : Inv spec allowed P init s abs replies) {now : τ} (hnow : s.clock ≤ now) :
    Inv spec allowed P init { s with clock := now } abs replies where
  locks := h.locks
  calls := ⟨h.calls.distinct, h.calls.issued, h.calls.effects⟩
  effects := h.effects.tick hnow
  free := h.free
  stage := fun t =>
    (h.stage t).frame (fun _ _ => ⟨rfl, rfl⟩) (fun _ _ hid => hid) (fun _ he => he) hnow
      fun _ _ hr => hr

theorem invoke (h : Inv spec allowed P init s abs replies) {obj : κ} {op : ι}
    (hst : s.threads t = .idle) (hop : allowed obj op) :
    Inv spec allowed P init
      ({ s with
          issued := s.issued + 1
          history := s.history ++ [Event.invoked s.clock s.issued obj op] }.setThread t
        (.waiting s.issued obj op)) abs replies := by
  have hnew : s.issued ∉ s.order.map Effect.id := by
    intro hmem
    obtain ⟨e, he, hid⟩ := List.mem_map.mp hmem
    exact Nat.lt_irrefl _ (hid ▸ h.calls.effects e he)
  have hlt : ∀ t' id, (s.threads t').call = some id → id ≠ s.issued := fun t' id hid =>
    Nat.ne_of_lt (h.calls.issued t' id hid)
  refine h.move (t := t) (Locks.keep h.locks (by rw [hst]; rfl)) ⟨?_, ?_, ?_⟩
    (h.effects.invoke hnew) h.free rfl (List.subset_append_left _ _) (le_refl _) (fun t' ht => ?_)
    (fun _ _ _ _ => rfl) ?_
  · intro t₁ t₂ id h₁ h₂
    rw [State.threads_setThread] at h₁ h₂
    split at h₁ <;> split at h₂
    · next e₁ e₂ => exact e₁.trans e₂.symm
    · cases h₁
      exact absurd rfl (hlt t₂ _ h₂)
    · cases h₂
      exact absurd rfl (hlt t₁ _ h₁)
    · exact h.calls.distinct t₁ t₂ id h₁ h₂
  · intro t' id hid
    rw [State.threads_setThread] at hid
    split at hid
    · cases hid
      exact Nat.lt_succ_self _
    · exact Nat.lt_succ_of_lt (h.calls.issued t' id hid)
  · exact fun e he => Nat.lt_succ_of_lt (h.calls.effects e he)
  · rw [State.threads_setThread, if_neg ht]
  · rw [State.threads_setThread, if_pos rfl]
    exact ⟨hop, hnew, s.clock, List.mem_append_right _ List.mem_cons_self, le_refl _⟩

theorem acquire (h : Inv spec allowed P init s abs replies)
    (hcorrect : Correct spec body allowed P) {id : Nat} {obj : κ} {op : ι}
    (hst : s.threads t = .waiting id obj op) (hfree : s.holder obj = none) :
    Inv spec allowed P init
      ((s.setHolder obj (some t)).setThread t (.before id obj op (body op))) abs replies := by
  have hwait := h.stage t
  rw [hst] at hwait
  refine h.move (t := t) (h.locks.acquire hfree (by rw [hst]; rfl) rfl)
    (Calls.keep ⟨h.calls.distinct, h.calls.issued, h.calls.effects⟩ fun _ hid => ?_) h.effects
    (fun i hi => ?_) rfl (fun _ he => he) (le_refl _) (fun t' ht => ?_) (fun _ _ _ _ => rfl) ?_
  · exact (congrArg Stage.call hst).trans hid
  · have hi' : (s.setHolder obj (some t)).holder i = none := hi
    rw [State.holder_setHolder] at hi'
    split at hi'
    · cases hi'
    · exact h.free i hi'
  · rw [State.threads_setThread, if_neg ht]
    rfl
  · rw [State.threads_setThread, if_pos rfl]
    refine ⟨hwait, fun now => ?_⟩
    show (body op).exec now (s.objects obj) = _
    rw [h.free obj hfree]
    exact hcorrect.body_spec obj (abs obj) now op (h.effects.good obj) hwait.1

/-- An access to the object the thread is inside of. -/
theorem change (h : Inv spec allowed P init s abs replies) {obj : κ} {o : σ}
    (hin : (s.threads t).inside = some obj) (hst : st.inside = some obj)
    (hcall : st.call = (s.threads t).call)
    (hself : StageOk spec allowed (s.setObject obj o) abs replies st) :
    Inv spec allowed P init ((s.setObject obj o).setThread t st) abs replies := by
  refine h.move (t := t) (Locks.keep h.locks (hst.trans hin.symm))
    (Calls.keep ⟨h.calls.distinct, h.calls.issued, h.calls.effects⟩ fun _ hid => hcall ▸ hid)
    h.effects (fun i hi => ?_) rfl (fun _ he => he) (le_refl _) (fun t' ht => ?_)
    (fun t' i ht hi => ?_) ?_
  · show (s.setObject obj o).objects i = abs i
    rw [State.objects_setObject, if_neg]
    · exact h.free i hi
    · rintro rfl
      have hi' : s.holder i = none := hi
      rw [(h.locks t i).mpr hin] at hi'
      cases hi'
  · rw [State.threads_setThread, if_neg ht]
    rfl
  · show (s.setObject obj o).objects i = s.objects i
    rw [State.objects_setObject, if_neg (h.ne_of_inside hin ht hi)]
  · rw [State.threads_setThread, if_pos rfl]
    exact hself.frame (fun _ _ => ⟨rfl, rfl⟩) (fun _ _ hid => hid) (fun _ he => he) (le_refl _)
      fun _ _ hr => hr

/-- The call of a thread takes effect. What is left of its critical section finishes the job. -/
theorem effect (h : Inv spec allowed P init s abs replies) (hcorrect : Correct spec body allowed P)
    {id : Nat} {obj : κ} {op : ι} {b : Body σ τ ρ} {tail : Tail σ ρ}
    (hst : s.threads t = .before id obj op b)
    (htail : tail.exec (s.objects obj) = spec (abs obj) (s.clock, op)) :
    ∃ abs' replies', Inv spec allowed P init
      ((s.takeEffect id obj op).setThread t (.after id obj tail)) abs' replies' := by
  have hstage := h.stage t
  rw [hst] at hstage
  obtain ⟨⟨hop, hnew, hinv⟩, -⟩ := hstage
  obtain ⟨o, r, hspec, ho⟩ := hcorrect.defined obj (abs obj) s.clock op (h.effects.good obj) hop
  have hin : (s.threads t).inside = some obj := by
    rw [hst]
    rfl
  have heffects := h.effects.snoc hop hnew hinv hspec ho
  have hzip := h.effects.zip_snoc ⟨id, obj, s.clock, op⟩ r
  refine ⟨_, _, Locks.keep h.locks hin.symm, Calls.keep
    (h.calls.takeEffect (by rw [hst]; rfl) obj op) fun _ hid => (congrArg Stage.call hst).trans hid,
    heffects, fun i hi => ?_, fun t' => ?_⟩
  · have hi' : s.holder i = none := hi
    rw [Function.update_of_ne]
    · exact h.free i hi'
    · rintro rfl
      rw [(h.locks t i).mpr hin] at hi'
      cases hi'
  · rw [State.threads_setThread]
    split
    · refine ⟨r, ?_, ⟨id, obj, s.clock, op⟩, ?_, rfl⟩
      · rw [Function.update_self]
        exact htail.trans hspec
      · show _ ∈ (s.order ++ [_]).zip _
        rw [hzip]
        exact List.mem_append_right _ List.mem_cons_self
    · next ht =>
      refine (h.stage t').frame (fun i hi => ⟨rfl, ?_⟩) (fun id' hid' hold => ?_) (fun _ he => he)
        (le_refl _) fun id' r' hr => ?_
      · rw [Function.update_of_ne (h.ne_of_inside hin ht hi)]
      · show id' ∉ (s.order ++ [_]).map Effect.id
        rw [List.map_append, List.mem_append, not_or]
        refine ⟨hold, fun hmem => ht ?_⟩
        cases List.mem_singleton.mp hmem
        exact h.calls.distinct t' t id hid' (by rw [hst]; rfl)
      · obtain ⟨e, he, heid⟩ := hr
        refine ⟨e, ?_, heid⟩
        show _ ∈ (s.order ++ [_]).zip _
        rw [hzip]
        exact List.mem_append_left _ he

theorem release (h : Inv spec allowed P init s abs replies) {id : Nat} {obj : κ} {r : ρ}
    (hst : s.threads t = .after id obj (.done r)) :
    Inv spec allowed P init ((s.setHolder obj none).setThread t (.returning id r)) abs replies := by
  have hstage := h.stage t
  rw [hst] at hstage
  obtain ⟨r', hexec, hr⟩ := hstage
  obtain ⟨hobj, rfl⟩ := Prod.mk.inj (Option.some.inj hexec)
  have hin : (s.threads t).inside = some obj := by
    rw [hst]
    rfl
  refine h.move (t := t) (h.locks.release hin rfl)
    (Calls.keep ⟨h.calls.distinct, h.calls.issued, h.calls.effects⟩ fun _ hid => ?_) h.effects
    (fun i hi => ?_) rfl (fun _ he => he) (le_refl _) (fun t' ht => ?_) (fun _ _ _ _ => rfl) ?_
  · exact (congrArg Stage.call hst).trans hid
  · have hi' : (s.setHolder obj none).holder i = none := hi
    rw [State.holder_setHolder] at hi'
    split at hi'
    · next he => exact he ▸ hobj
    · exact h.free i hi'
  · rw [State.threads_setThread, if_neg ht]
    rfl
  · rw [State.threads_setThread, if_pos rfl]
    exact hr

theorem respond (h : Inv spec allowed P init s abs replies) {id : Nat} {r : ρ}
    (hst : s.threads t = .returning id r) :
    Inv spec allowed P init
      ({ s with history := s.history ++ [Event.returned s.clock id r] }.setThread t .idle) abs
      replies := by
  have hstage := h.stage t
  rw [hst] at hstage
  refine h.move (t := t) (Locks.keep h.locks (by rw [hst]; rfl))
    (Calls.keep ⟨h.calls.distinct, h.calls.issued, h.calls.effects⟩ nofun)
    (h.effects.respond hstage) h.free rfl (List.subset_append_left _ _) (le_refl _)
    (fun t' ht => ?_) (fun _ _ _ _ => rfl) ?_
  · rw [State.threads_setThread, if_neg ht]
  · rw [State.threads_setThread, if_pos rfl]
    trivial

theorem advance (h : Inv spec allowed P init s abs replies)
    (hcorrect : Correct spec body allowed P) (hstep : Advance body t s s') :
    ∃ abs' replies', Inv spec allowed P init s' abs' replies' := by
  cases hstep with
  | acquire hst hfree => exact ⟨_, _, h.acquire hcorrect hst hfree⟩
  | act hst hf =>
    have hstage := h.stage t
    rw [hst] at hstage
    refine ⟨_, _, h.change (by rw [hst]; rfl) rfl (by rw [hst]; rfl) ⟨hstage.1, fun now => ?_⟩⟩
    rw [← hstage.2 now, State.objects_setObject, if_pos rfl, Body.exec_act, hf]
    rfl
  | actUnread hst hf =>
    have hstage := h.stage t
    rw [hst] at hstage
    refine ⟨_, _, h.change (by rw [hst]; rfl) rfl (by rw [hst]; rfl) ⟨hstage.1, fun now => ?_⟩⟩
    rw [← hstage.2 now, State.objects_setObject, if_pos rfl, Body.exec_tail, Body.exec_tail,
      Tail.exec, hf]
    rfl
  | read hst =>
    have hstage := h.stage t
    rw [hst] at hstage
    exact h.effect hcorrect hst (hstage.2 s.clock)
  | actRead hst hf =>
    have hstage := h.stage t
    rw [hst] at hstage
    obtain ⟨r, hexec, hr⟩ := hstage
    refine ⟨_, _, h.change (by rw [hst]; rfl) rfl (by rw [hst]; rfl) ⟨r, ?_, hr⟩⟩
    rw [← hexec, State.objects_setObject, if_pos rfl, Tail.exec, hf]
    rfl
  | @releaseUnread id obj op r hst =>
    -- the call takes effect and then releases the mutex
    have hstage := h.stage t
    rw [hst] at hstage
    have htail : (Tail.done r).exec (s.objects obj) = spec (abs obj) (s.clock, op) :=
      hstage.2 s.clock
    obtain ⟨abs', replies', h'⟩ := h.effect hcorrect hst htail
    have hafter : ((s.takeEffect id obj op).setThread t (.after id obj (.done r))).threads t
        = .after id obj (.done r) := by
      rw [State.threads_setThread, if_pos rfl]
    have hrel := h'.release hafter
    simp only [State.setThread, State.setHolder, State.takeEffect, Function.update_idem] at hrel
    exact ⟨abs', replies', hrel⟩
  | release hst => exact ⟨_, _, h.release hst⟩
  | respond hst => exact ⟨_, _, h.respond hst⟩

theorem step (h : Inv spec allowed P init s abs replies) (hcorrect : Correct spec body allowed P)
    (hstep : Step body allowed s s') :
    ∃ abs' replies', Inv spec allowed P init s' abs' replies' := by
  cases hstep with
  | tick hnow => exact ⟨_, _, h.tick hnow⟩
  | invoke t obj op hst hop => exact ⟨_, _, h.invoke hst hop⟩
  | advance hadv => exact h.advance hcorrect hadv

end Inv

/-- The invariant holds in every state of every run. -/
theorem inv_of_reaches (hcorrect : Correct spec body allowed P) (hinit : ∀ i, P i (init i))
    {clock : τ} (h : Reaches body allowed (start clock init) s) :
    ∃ abs replies, Inv spec allowed P init s abs replies := by
  induction h with
  | refl => exact ⟨_, _, inv_start hinit clock⟩
  | tail _ hstep ih =>
    obtain ⟨abs, replies, hinv⟩ := ih
    exact hinv.step hcorrect hstep

/-- **Linearizability.** The calls in the order in which they took effect explain what the callers
saw. -/
theorem linearizable (hcorrect : Correct spec body allowed P) (hinit : ∀ i, P i (init i))
    {clock : τ} (h : Reaches body allowed (start clock init) s) :
    Linearization (stepAt spec) init s.history s.order ∧ ∀ e ∈ s.order, allowed e.obj e.op := by
  obtain ⟨abs, replies, hinv⟩ := inv_of_reaches hcorrect hinit h
  have he := hinv.effects
  exact ⟨⟨⟨abs, replies, he.legal, he.answered⟩, he.once, he.began, he.realTime, he.monotone⟩,
    he.allowed⟩

/-- Mutual exclusion. -/
theorem exclusive (hcorrect : Correct spec body allowed P) (hinit : ∀ i, P i (init i)) {clock : τ}
    (h : Reaches body allowed (start clock init) s) {t₁ t₂ : Nat} {obj : κ}
    (h₁ : (s.threads t₁).inside = some obj) (h₂ : (s.threads t₂).inside = some obj) : t₁ = t₂ := by
  obtain ⟨abs, replies, hinv⟩ := inv_of_reaches hcorrect hinit h
  by_contra ht
  exact hinv.ne_of_inside h₂ ht h₁ rfl

/-! ## Progress -/

theorem exists_of_bind {γ δ : Type} {o : Option γ} {f : γ → Option δ} {d : δ}
    (h : o.bind f = some d) : ∃ c, o = some c :=
  (Option.bind_eq_some_iff.mp h).imp fun _ hc => hc.1

/-- A thread inside an object can go on: nothing it does is undefined. -/
theorem Inv.inside_advances (h : Inv spec allowed P init s abs replies)
    (hcorrect : Correct spec body allowed P) {obj : κ} (hin : (s.threads t).inside = some obj) :
    ∃ s', Advance body t s s' := by
  have hstage := h.stage t
  cases hst : s.threads t with
  | before id i op b =>
    rw [hst] at hstage
    obtain ⟨o, r, hspec, -⟩ :=
      hcorrect.defined i (abs i) s.clock op (h.effects.good i) hstage.1.1
    have hexec := (hstage.2 s.clock).trans hspec
    cases b with
    | act f next => exact (exists_of_bind hexec).elim fun p hp => ⟨_, .act hst hp⟩
    | read next => exact ⟨_, .read hst⟩
    | tail tail =>
      cases tail with
      | done r => exact ⟨_, .releaseUnread hst⟩
      | act f next => exact (exists_of_bind hexec).elim fun p hp => ⟨_, .actUnread hst hp⟩
  | after id i tail =>
    rw [hst] at hstage
    obtain ⟨r, hexec, -⟩ := hstage
    cases tail with
    | done r => exact ⟨_, .release hst⟩
    | act f next => exact (exists_of_bind hexec).elim fun p hp => ⟨_, .actRead hst hp⟩
  | idle => rw [hst] at hin; cases hin
  | waiting id i op => rw [hst] at hin; cases hin
  | returning id r => rw [hst] at hin; cases hin

/-- No deadlock: a thread in a call can advance, or the thread that holds the mutex it waits for
can. -/
theorem progress (hcorrect : Correct spec body allowed P) (hinit : ∀ i, P i (init i)) {clock : τ}
    (h : Reaches body allowed (start clock init) s) (hbusy : s.threads t ≠ .idle) :
    ∃ t' s', Advance body t' s s' ∧
      (t' = t ∨ ∃ id obj op, s.threads t = .waiting id obj op ∧ s.holder obj = some t') := by
  obtain ⟨abs, replies, hinv⟩ := inv_of_reaches hcorrect hinit h
  cases hst : s.threads t with
  | idle => exact absurd hst hbusy
  | waiting id obj op =>
    cases hh : s.holder obj with
    | none => exact ⟨t, _, .acquire hst hh, .inl rfl⟩
    | some t' =>
      obtain ⟨s', hadv⟩ := hinv.inside_advances hcorrect ((hinv.locks t' obj).mp hh)
      exact ⟨t', s', hadv, .inr ⟨id, obj, op, rfl, hh⟩⟩
  | before id obj op b =>
    obtain ⟨s', hadv⟩ := hinv.inside_advances hcorrect (by rw [hst]; rfl)
    exact ⟨t, s', hadv, .inl rfl⟩
  | after id obj tail =>
    obtain ⟨s', hadv⟩ := hinv.inside_advances hcorrect (by rw [hst]; rfl)
    exact ⟨t, s', hadv, .inl rfl⟩
  | returning id r => exact ⟨t, _, .respond hst, .inl rfl⟩

end System

end CacheX.Monitor
