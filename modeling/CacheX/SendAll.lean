import CacheX.Connection

/-!
# The loop of `send_all`

`send_all` of `socket.cpp` pass by pass, against a kernel that may accept any part of what it is
offered, be interrupted or fail. A count is at most what was offered by its type, `Outcome`.

* `passCase`: everything that one pass of the loop can do.
* `sends_in_order`: the bytes accepted are a beginning of the data at every moment, and all of it
  iff the result is `true`; the result is `false` from the first error on; the loop returns unless
  it stalls forever.
* `sendAll_eq_loop`: the loop gives what `sendAll` gives.
-/

namespace CacheX

namespace SendAll

/-! ## The loop -/

/-- What `send` returns when it is offered that many bytes. -/
inductive Outcome (offered : Nat)
  | accepted (count : Fin (offered + 1))
  /-- `EINTR`. -/
  | interrupted
  /-- Another error. -/
  | failed

/-- What the `i`th call of `send` returns, for every number of bytes that it can be offered. -/
abbrev Kernel := (i offered : Nat) → Outcome offered

/-- The loop between two passes. `wire` is what the kernel has accepted, and `calls` is how often
`send` was called. -/
structure Loop where
  sent : Nat := 0
  calls : Nat := 0
  wire : Bytes := []
  result : Option Bool := none

section Loop

variable (kernel : Kernel) (data : Bytes)

/-- The rest of a pass after `send` has returned. -/
def Loop.answered (s : Loop) : Outcome (data.length - s.sent) → Loop
  | .interrupted => { s with calls := s.calls + 1 }
  | .failed => { s with calls := s.calls + 1, result := some false }
  | .accepted count => { s with
      calls := s.calls + 1
      wire := s.wire ++ (data.drop s.sent).take count
      sent := s.sent + count }

/-- One pass: the test of the loop and, if there is something left to send, one call of `send`. -/
def pass (s : Loop) : Loop :=
  match s.result with
  | some _ => s
  | none =>
    if s.sent < data.length then s.answered data (kernel s.calls (data.length - s.sent))
    else { s with result := some true }

/-- The loop after `k` passes. -/
def after (k : Nat) : Loop := (pass kernel data)^[k] {}

/-- The next pass calls `send`, and this is what the call returns. -/
def Returns (s : Loop) (outcome : Outcome (data.length - s.sent)) : Prop :=
  s.result = none ∧ s.sent < data.length ∧ kernel s.calls (data.length - s.sent) = outcome

/-- The next pass meets an error that is not `EINTR`. -/
def Fails (s : Loop) : Prop := Returns kernel data s .failed

/-- The next pass sends nothing, and the loop goes on. -/
def Stalls (s : Loop) : Prop :=
  Returns kernel data s .interrupted ∨ Returns kernel data s (.accepted 0)

/-! ## One pass -/

/-- What one pass can do. -/
inductive PassCase (s : Loop) : Loop → Prop
  | returned {b : Bool} (h : s.result = some b) : PassCase s s
  | finished (h : s.result = none) (hsent : data.length ≤ s.sent) :
    PassCase s { s with result := some true }
  | interrupted (h : Returns kernel data s .interrupted) :
    PassCase s { s with calls := s.calls + 1 }
  | failed (h : Returns kernel data s .failed) :
    PassCase s { s with calls := s.calls + 1, result := some false }
  | accepted {count : Fin (data.length - s.sent + 1)}
    (h : Returns kernel data s (.accepted count)) :
    PassCase s { s with
      calls := s.calls + 1
      wire := s.wire ++ (data.drop s.sent).take count
      sent := s.sent + count }

theorem passCase (s : Loop) : PassCase kernel data s (pass kernel data s) := by
  rw [pass]
  split
  · next b h => exact .returned h
  · next h =>
    split
    · next hsent =>
      cases ho : kernel s.calls (data.length - s.sent) with
      | accepted count => exact .accepted ⟨h, hsent, ho⟩
      | interrupted => exact .interrupted ⟨h, hsent, ho⟩
      | failed => exact .failed ⟨h, hsent, ho⟩
    · next hsent => exact .finished h (Nat.le_of_not_lt hsent)

end Loop

variable {kernel : Kernel} {data : Bytes}

theorem Returns.result_ne {s : Loop} {outcome : Outcome (data.length - s.sent)} {b : Bool}
    (h : Returns kernel data s outcome) : s.result ≠ some b := by
  rw [h.1]
  exact nofun

theorem Returns.not_fails {s : Loop} {outcome : Outcome (data.length - s.sent)}
    (h : Returns kernel data s outcome) (hne : outcome ≠ .failed) : ¬ Fails kernel data s := by
  intro hfails
  exact hne (h.2.2.symm.trans hfails.2.2)

/-- What holds between two passes. -/
structure Inv (data : Bytes) (s : Loop) : Prop where
  sent_le : s.sent ≤ data.length
  wire_eq : s.wire = data.take s.sent
  returned : ∀ b, s.result = some b → (b = true ↔ s.sent = data.length)

theorem PassCase.inv {s s' : Loop} (h : PassCase kernel data s s') (hinv : Inv data s) :
    Inv data s' := by
  obtain ⟨hle, hwire, hret⟩ := hinv
  cases h with
  | returned _ => exact ⟨hle, hwire, hret⟩
  | finished _ hsent =>
    refine ⟨hle, hwire, ?_⟩
    rintro b ⟨⟩
    exact iff_of_true rfl (Nat.le_antisymm hle hsent)
  | interrupted _ => exact ⟨hle, hwire, hret⟩
  | failed h =>
    refine ⟨hle, hwire, ?_⟩
    rintro b ⟨⟩
    exact iff_of_false Bool.false_ne_true (Nat.ne_of_lt h.2.1)
  | @accepted count h =>
    refine ⟨?_, ?_, ?_⟩
    · exact Nat.add_le_of_le_sub' hle (Nat.le_of_lt_succ count.isLt)
    · rw [hwire, List.take_add]
    · intro b hb
      exact absurd hb h.result_ne

theorem PassCase.eq_of_returned {s s' : Loop} {b : Bool} (h : PassCase kernel data s s')
    (hb : s.result = some b) : s' = s := by
  cases h with
  | returned _ => rfl
  | finished h _ =>
    rw [h] at hb
    cases hb
  | interrupted h | failed h | accepted h => exact absurd hb h.result_ne

/-- With everything sent, the next pass returns. -/
theorem PassCase.result_of_sent {s s' : Loop} (h : PassCase kernel data s s')
    (hresult : s.result = none) (hsent : s.sent = data.length) : s'.result = some true := by
  cases h with
  | returned h =>
    rw [hresult] at h
    cases h
  | finished _ _ => rfl
  | interrupted h | failed h | accepted h => exact absurd hsent (Nat.ne_of_lt h.2.1)

/-- A pass ends with the result `false` iff it starts with it or its call of `send` fails. -/
theorem PassCase.result_eq_false {s s' : Loop} (h : PassCase kernel data s s') :
    s'.result = some false ↔ s.result = some false ∨ Fails kernel data s := by
  cases h with
  | returned h =>
    have hfails : ¬ Fails kernel data s := fun hfails => Returns.result_ne hfails h
    exact (or_iff_left hfails).symm
  | finished h hsent =>
    have hfails : ¬ Fails kernel data s := fun hfails => Nat.not_le_of_lt hfails.2.1 hsent
    rw [or_iff_left hfails, h]
    exact iff_of_false nofun nofun
  | interrupted h => exact (or_iff_left (h.not_fails nofun)).symm
  | failed h => exact iff_of_true rfl (Or.inr h)
  | accepted h => exact (or_iff_left (h.not_fails nofun)).symm

/-- What is left to do: the bytes, and to return. -/
def remaining (data : Bytes) (s : Loop) : Nat :=
  data.length - s.sent + if s.result = none then 1 else 0

theorem remaining_of_running {s : Loop} (h : s.result = none) :
    remaining data s = data.length - s.sent + 1 := by
  rw [remaining, if_pos h]

/-- A pass brings the loop closer to its end, unless it has returned or stalls. -/
theorem PassCase.remaining_lt_or_eq {s s' : Loop} (h : PassCase kernel data s s') :
    remaining data s' < remaining data s ∨
      remaining data s' = remaining data s ∧ (s.result ≠ none ∨ Stalls kernel data s) := by
  cases h with
  | returned h => exact Or.inr ⟨rfl, Or.inl (Option.ne_none_iff_exists'.mpr ⟨_, h⟩)⟩
  | finished h _ =>
    left
    rw [remaining_of_running h]
    exact Nat.lt_succ_self _
  | failed h =>
    left
    rw [remaining_of_running h.1]
    exact Nat.lt_succ_self _
  | interrupted h => exact Or.inr ⟨rfl, Or.inr (Or.inl h)⟩
  | @accepted count h =>
    by_cases hcount : count = 0
    · subst hcount
      exact Or.inr ⟨rfl, Or.inr (Or.inr h)⟩
    · have hpos : 0 < count.val := Fin.pos_iff_ne_zero.mpr hcount
      have hlt := h.2.1
      left
      simp only [remaining]
      omega

/-! ## All passes -/

theorem after_succ (kernel : Kernel) (data : Bytes) (k : Nat) :
    after kernel data (k + 1) = pass kernel data (after kernel data k) :=
  Function.iterate_succ_apply' _ _ _

theorem inv_after (kernel : Kernel) (data : Bytes) (k : Nat) : Inv data (after kernel data k) := by
  induction k with
  | zero => exact ⟨Nat.zero_le _, rfl, nofun⟩
  | succ k ih =>
    rw [after_succ]
    exact (passCase kernel data _).inv ih

/-- Once the loop has returned, it stays as it is. -/
theorem after_of_returned {i j : Nat} {b : Bool} (h : (after kernel data i).result = some b)
    (hij : i ≤ j) : after kernel data j = after kernel data i := by
  induction j, hij using Nat.le_induction with
  | base => rfl
  | succ j _ ih =>
    rw [after_succ, ih]
    exact (passCase kernel data _).eq_of_returned h

theorem result_eq_false_iff (k : Nat) :
    (after kernel data k).result = some false ↔
      ∃ j < k, Fails kernel data (after kernel data j) := by
  induction k with
  | zero => exact iff_of_false nofun fun ⟨j, hj, _⟩ => absurd hj (Nat.not_lt_zero j)
  | succ k ih =>
    rw [after_succ, (passCase kernel data _).result_eq_false, ih]
    simp only [Nat.lt_succ_iff_lt_or_eq, or_and_right, exists_or, exists_eq_left]

/-- The call that fails is the first one that does. -/
theorem not_fails_of_lt {i j : Nat} (h : Fails kernel data (after kernel data j)) (hij : i < j) :
    ¬ Fails kernel data (after kernel data i) := by
  intro hi
  have hresult : (after kernel data j).result = some false :=
    (result_eq_false_iff j).mpr ⟨i, hij, hi⟩
  exact Returns.result_ne h hresult

theorem Inv.wire_eq_data {s : Loop} (h : Inv data s) : s.wire = data ↔ s.sent = data.length := by
  rw [h.wire_eq, List.take_eq_self_iff]
  exact ⟨Nat.le_antisymm h.sent_le, Nat.le_of_eq ∘ Eq.symm⟩

theorem returns_true_iff :
    (∃ k, (after kernel data k).result = some true) ↔ ∃ k, (after kernel data k).wire = data := by
  constructor
  · rintro ⟨k, hk⟩
    have hinv := inv_after kernel data k
    exact ⟨k, hinv.wire_eq_data.mpr ((hinv.returned true hk).mp rfl)⟩
  · rintro ⟨k, hk⟩
    have hinv := inv_after kernel data k
    have hsent := hinv.wire_eq_data.mp hk
    cases hresult : (after kernel data k).result with
    | none =>
      refine ⟨k + 1, ?_⟩
      rw [after_succ]
      exact (passCase kernel data _).result_of_sent hresult hsent
    | some b =>
      rw [(hinv.returned b hresult).mpr hsent] at hresult
      exact ⟨k, hresult⟩

/-- The loop returns unless it stalls forever. -/
theorem returns_iff :
    (∃ k, (after kernel data k).result ≠ none) ↔
      ∀ k, ∃ j, k ≤ j ∧ ¬ Stalls kernel data (after kernel data j) := by
  constructor
  · rintro ⟨n, hn⟩ k
    obtain ⟨b, hb⟩ := Option.ne_none_iff_exists'.mp hn
    refine ⟨max k n, Nat.le_max_left _ _, ?_⟩
    rw [after_of_returned hb (Nat.le_max_right _ _)]
    rintro (h | h) <;> exact hn h.1
  · intro hfair
    refine Machine.iterate_halts (P := fun s => s.result ≠ none) (remaining data) ?_ ?_ hfair
    · intro s
      rcases (passCase kernel data s).remaining_lt_or_eq with hlt | ⟨heq, -⟩
      · exact Nat.le_of_lt hlt
      · exact Nat.le_of_eq heq
    · intro s hresult hstalls
      rcases (passCase kernel data s).remaining_lt_or_eq with hlt | ⟨-, h | h⟩
      · exact hlt
      · exact absurd h hresult
      · exact absurd h hstalls

/-- Every byte is sent once and in order. Whatever the kernel does, what it has accepted is a
beginning of the data at every moment. The result is `true` iff that is all of the data, and `false`
from the first error on that is not `EINTR`. The loop returns unless from some pass on `send` does
nothing but accept no bytes and be interrupted. -/
theorem sends_in_order (kernel : Kernel) (data : Bytes) :
    (∀ k, (after kernel data k).wire <+: data) ∧
      (∀ k b, (after kernel data k).result = some b →
        (b = true ↔ (after kernel data k).wire = data)) ∧
      ((∃ k, (after kernel data k).result = some true) ↔ ∃ k, (after kernel data k).wire = data) ∧
      (∀ k, (after kernel data k).result = some false ↔
        ∃ j < k, Fails kernel data (after kernel data j)) ∧
      (∀ j, Fails kernel data (after kernel data j) →
        ∀ i < j, ¬ Fails kernel data (after kernel data i)) ∧
      ((∃ k, (after kernel data k).result ≠ none) ↔
        ∀ k, ∃ j, k ≤ j ∧ ¬ Stalls kernel data (after kernel data j)) := by
  refine ⟨?_, ?_, returns_true_iff, result_eq_false_iff, ?_, returns_iff⟩
  · intro k
    rw [(inv_after kernel data k).wire_eq]
    exact List.take_prefix _ _
  · intro k b hb
    have hinv := inv_after kernel data k
    rw [hinv.wire_eq_data]
    exact hinv.returned b hb
  · intro j hj i hij
    exact not_fails_of_lt hj hij

/-! ## The loop and `sendAll` -/

/-- The kernel that returns these counts and interruptions in order, and then an error. -/
def kernelOf (returns : List (Option Nat)) : Kernel := fun i offered =>
  match returns[i]? with
  | none => .failed
  | some none => .interrupted
  | some (some n) => .accepted ⟨min n offered, Nat.lt_succ_of_le (Nat.min_le_right _ _)⟩

/-- What `send` returns from this state on is `returns`. -/
def Meets (kernel : Kernel) (s : Loop) (returns : List (Option Nat)) : Prop :=
  ∀ i, kernel (s.calls + i) = kernelOf returns i

theorem Meets.tail {s s' : Loop} {r : Option Nat} {returns : List (Option Nat)}
    (h : Meets kernel s (r :: returns)) (hcalls : s'.calls = s.calls + 1) :
    Meets kernel s' returns := by
  intro i
  rw [hcalls, Nat.add_assoc, Nat.add_comm 1 i, h (i + 1)]
  rfl

theorem Meets.pass_eq {s : Loop} {returns : List (Option Nat)} (h : Meets kernel s returns)
    (hresult : s.result = none) (hsent : s.sent < data.length) :
    pass kernel data s = s.answered data (kernelOf returns 0 (data.length - s.sent)) := by
  have hkernel : kernel s.calls = kernelOf returns 0 := h 0
  rw [pass, hresult]
  exact (if_pos hsent).trans (by rw [hkernel])

theorem lt_length_of_drop {n : Nat} {c : UInt8} {rest : Bytes} (h : data.drop n = c :: rest) :
    n < data.length := by
  refine List.length_lt_of_drop_ne_nil ?_
  rw [h]
  exact List.cons_ne_nil _ _

/-- Along the recursion of `sendAll`: what it sends of the rest is what the loop still sends. -/
theorem loop_sendAll {returns : List (Option Nat)} {rest : Bytes} {s : Loop}
    (hresult : s.result = none) (hrest : data.drop s.sent = rest)
    (hmeets : Meets kernel s returns) :
    ∃ k, ((pass kernel data)^[k] s).result = some (sendAll returns rest).2 ∧
      ((pass kernel data)^[k] s).wire = s.wire ++ (sendAll returns rest).1 := by
  induction returns, rest using sendAll.induct generalizing s with
  | case1 returns =>
    have hsent : ¬ s.sent < data.length := Nat.not_lt.mpr (List.drop_eq_nil_iff.mp hrest)
    refine ⟨1, ?_⟩
    rw [Function.iterate_one, pass, hresult]
    simp only [if_neg hsent, sendAll, List.append_nil, and_self]
  | case2 c rest =>
    refine ⟨1, ?_⟩
    rw [Function.iterate_one, hmeets.pass_eq hresult (lt_length_of_drop hrest)]
    exact ⟨rfl, (List.append_nil _).symm⟩
  | case3 returns c rest ih =>
    have hpass : pass kernel data s = s.answered data .interrupted :=
      hmeets.pass_eq hresult (lt_length_of_drop hrest)
    obtain ⟨k, hk⟩ := ih (s := s.answered data .interrupted) hresult hrest (hmeets.tail rfl)
    refine ⟨k + 1, ?_⟩
    rw [Function.iterate_succ_apply, hpass]
    exact hk
  | case4 n returns c rest ih =>
    let count : Fin (data.length - s.sent + 1) :=
      ⟨min n (data.length - s.sent), Nat.lt_succ_of_le (Nat.min_le_right _ _)⟩
    have hpass : pass kernel data s = s.answered data (.accepted count) :=
      hmeets.pass_eq hresult (lt_length_of_drop hrest)
    have hrest' : data.drop (s.sent + count) = (c :: rest).drop n := by
      rw [← List.drop_drop, ← hrest, List.drop_eq_drop_min (i := n), List.length_drop]
    have htake : (data.drop s.sent).take count = (c :: rest).take n := by
      rw [← hrest, List.take_eq_take_min (i := n), List.length_drop]
    obtain ⟨k, hk, hwire⟩ :=
      ih (s := s.answered data (.accepted count)) hresult hrest' (hmeets.tail rfl)
    refine ⟨k + 1, ?_⟩
    rw [Function.iterate_succ_apply, hpass]
    refine ⟨hk, hwire.trans ?_⟩
    rw [sendAll, ← htake, ← List.append_assoc]
    rfl

/-- `sendAll` is what the loop gives. -/
theorem sendAll_eq_loop (returns : List (Option Nat)) (data : Bytes) :
    ∃ k, (after (kernelOf returns) data k).result = some (sendAll returns data).2 ∧
      (after (kernelOf returns) data k).wire = (sendAll returns data).1 :=
  loop_sendAll (s := {}) rfl rfl fun i => by rw [Nat.zero_add]

end SendAll

end CacheX
