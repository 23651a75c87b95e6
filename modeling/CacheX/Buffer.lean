import CacheX.Connection

/-!
# The memory of a connection

`Connection::serve` in small steps, so that its buffer can be looked at between any two of them. The
limit is checked after the complete lines have been drained and before more bytes are read, so what
is read is added to less than a line.

* `serve_reaches`: `serve` goes through these steps.
* `Conn.Inv.advance`, `Conn.Inv.receive`: what a step keeps.
* `rounds_count`, `drain_ends`: the inner loop uses up a newline in each round, and ends.
* `buffer_bounded`: how much a buffer holds, at any point of any connection.
-/

namespace CacheX

open Decimal (ascii)
open Lines

/-! ## Steps -/

/-- Where `serve` is: at the condition of the inner loop, at the check of the limit, at the call of
`fill_buffer`, or back at its caller. -/
inductive Point
  | drain
  | check
  | fill
  | returned
deriving DecidableEq, Repr

/-- A connection between two steps. -/
structure Conn where
  point : Point
  session : Session
  buffer : Bytes

/-- What `recv` can return for a chunk of `kReadChunkBytes`. -/
def Recv.Possible : Recv → Prop
  | .bytes chunk => chunk.length ≤ kReadChunkBytes
  | .interrupted => True
  | .failed => True

namespace Conn

/-- A new connection. -/
def start (s : Session) : Conn := ⟨.drain, s, []⟩

section Steps

variable (stdHash : Bytes → UInt64) (persistence : Bool) (outside : Outside)

/-- One step of `serve` without the socket: a round of the inner loop, its end, or the check. -/
def advance (c : Conn) : Option Conn :=
  match c.point with
  | .drain =>
    match nextLine c.buffer with
    | none => some { c with point := .check }
    | some (line, rest) =>
      (handleLine stdHash persistence outside c.session line).map fun p =>
        ⟨if p.2 then .drain else .returned, p.1, rest⟩
  | .check =>
    if kMaxLineBytes < c.buffer.length then
      some { c with point := .returned, session := (c.session.send outside lineTooLong).1 }
    else some { c with point := .fill }
  | .fill => none
  | .returned => none

/-- `fill_buffer` and the check of its result. -/
def receive (c : Conn) (received : Recv) : Conn :=
  let filled := fillBuffer c.buffer received
  ⟨if filled.2 then .drain else .returned, c.session, filled.1⟩

/-- A connection gets to `c` with what `recv` returned so far. In between, other connections may
change the cache and the snapshot file. -/
inductive Reaches (c₀ : Conn) : List Recv → Conn → Prop
  | refl : Reaches c₀ [] c₀
  | advance {recvs : List Recv} {c c' : Conn} (h : Reaches c₀ recvs c)
    (hstep : c.advance stdHash persistence outside = some c') : Reaches c₀ recvs c'
  | receive {recvs : List Recv} {c : Conn} (h : Reaches c₀ recvs c) (hpoint : c.point = .fill)
    (received : Recv) : Reaches c₀ (recvs ++ [received]) (c.receive received)
  | others {recvs : List Recv} {c : Conn} (h : Reaches c₀ recvs c) {w : World}
    (hw : w.cache.WF stdHash) : Reaches c₀ recvs { c with session := { c.session with world := w } }

/-- `n` rounds of the inner loop, with what other connections do in between. -/
inductive Rounds (c₀ : Conn) : Nat → Conn → Prop
  | zero : Rounds c₀ 0 c₀
  | round {n : Nat} {c c' : Conn} (h : Rounds c₀ n c) (hpoint : c.point = .drain)
    (hline : nextLine c.buffer ≠ none) (hstep : c.advance stdHash persistence outside = some c') :
    Rounds c₀ (n + 1) c'
  | others {n : Nat} {c : Conn} (h : Rounds c₀ n c) {w : World} (hw : w.cache.WF stdHash) :
    Rounds c₀ n { c with session := { c.session with world := w } }

end Steps

variable {stdHash : Bytes → UInt64} {persistence : Bool} {outside : Outside}

/-! ## `serve` -/

theorem Reaches.trans {c₀ c₁ c₂ : Conn} {recvs more : List Recv}
    (h : Reaches stdHash persistence outside c₀ recvs c₁)
    (h' : Reaches stdHash persistence outside c₁ more c₂) :
    Reaches stdHash persistence outside c₀ (recvs ++ more) c₂ := by
  induction h' with
  | refl => rwa [List.append_nil]
  | advance _ hstep ih => exact .advance ih hstep
  | receive _ hpoint received ih =>
    rw [← List.append_assoc]
    exact .receive ih hpoint received
  | others _ hw ih => exact .others ih hw

theorem advance_none {c : Conn} (hpoint : c.point = .drain) (h : nextLine c.buffer = none) :
    c.advance stdHash persistence outside = some { c with point := .check } := by
  simp only [advance, hpoint, h]

theorem advance_line {c : Conn} {line rest : Bytes} (hpoint : c.point = .drain)
    (h : nextLine c.buffer = some (line, rest)) :
    c.advance stdHash persistence outside
      = (handleLine stdHash persistence outside c.session line).map fun p =>
          ⟨if p.2 then .drain else .returned, p.1, rest⟩ := by
  simp only [advance, hpoint, h]

theorem drain_reaches {s s' : Session} {buffer left : Bytes} {go : Bool}
    (h : drain stdHash persistence outside s buffer = some (s', left, go)) :
    Reaches stdHash persistence outside ⟨.drain, s, buffer⟩ []
      ⟨if go then .check else .returned, s', left⟩ := by
  fun_induction drain stdHash persistence outside s buffer with
  | case1 s buffer hnext =>
    cases h
    exact .advance .refl (advance_none rfl hnext)
  | case2 => cases h
  | case3 s buffer line rest hnext s₁ hhandle =>
    cases h
    refine .advance .refl ((advance_line rfl hnext).trans ?_)
    rw [hhandle]
    rfl
  | case4 s buffer line rest hnext s₁ hhandle ih =>
    have hstep : (⟨.drain, s, buffer⟩ : Conn).advance stdHash persistence outside
        = some ⟨.drain, s₁, rest⟩ := by
      rw [advance_line rfl hnext, hhandle]
      rfl
    exact Reaches.trans (.advance .refl hstep) (ih h)

theorem advance_check {c : Conn} (hpoint : c.point = .check) :
    c.advance stdHash persistence outside = some (if kMaxLineBytes < c.buffer.length then
      { c with point := .returned, session := (c.session.send outside lineTooLong).1 }
    else { c with point := .fill }) := by
  simp only [advance, hpoint]
  split <;> rfl

/-- One round of `serve`: it returns, or it goes on to the next `recv`. -/
theorem round_reaches {s s' : Session} {buffer : Bytes} {recvs : List Recv} {ended : Bool} :
    serve stdHash persistence outside s buffer recvs = some (s', ended) →
    (ended = true ∧ ∃ left,
      Reaches stdHash persistence outside ⟨.drain, s, buffer⟩ [] ⟨.returned, s', left⟩) ∨
    ∃ s₁ left, Reaches stdHash persistence outside ⟨.drain, s, buffer⟩ [] ⟨.fill, s₁, left⟩ ∧
      (match recvs with
        | [] => some (s₁, false)
        | received :: recvs =>
          let filled := fillBuffer left received
          if filled.2 then serve stdHash persistence outside s₁ filled.1 recvs
          else some (s₁, true)) = some (s', ended) := by
  intro h
  unfold serve at h
  rcases hd : drain stdHash persistence outside s buffer with _ | ⟨s₁, left, go⟩
  · rw [hd] at h
    cases h
  · have hreach := drain_reaches hd
    rw [hd] at h
    cases go with
    | false =>
      cases h
      exact Or.inl ⟨rfl, left, hreach⟩
    | true =>
      simp only at h
      split at h
      · next hlong =>
        cases h
        refine Or.inl ⟨rfl, left, .advance hreach ((advance_check rfl).trans ?_)⟩
        rw [if_pos hlong]
      · next hlong =>
        refine Or.inr ⟨s₁, left, .advance hreach ((advance_check rfl).trans ?_), h⟩
        rw [if_neg hlong]

/-- `serve` takes these steps, with as many `recv`s as it needs. -/
theorem serve_reaches {s s' : Session} {buffer : Bytes} {recvs : List Recv} {ended : Bool}
    (h : serve stdHash persistence outside s buffer recvs = some (s', ended)) :
    ∃ used left, used <+: recvs ∧
      Reaches stdHash persistence outside ⟨.drain, s, buffer⟩ used
        ⟨if ended then .returned else .fill, s', left⟩ := by
  induction recvs generalizing s buffer with
  | nil =>
    rcases round_reaches h with ⟨rfl, left, hreach⟩ | ⟨s₁, left, hreach, h⟩
    · exact ⟨[], left, List.nil_prefix, hreach⟩
    · cases h
      exact ⟨[], left, List.nil_prefix, hreach⟩
  | cons r recvs ih =>
    rcases round_reaches h with ⟨rfl, left, hreach⟩ | ⟨s₁, left, hreach, h⟩
    · exact ⟨[], left, List.nil_prefix, hreach⟩
    · have hrecv := Reaches.receive hreach rfl r
      rw [receive] at hrecv
      simp only at h
      split at h
      · next hgo =>
        rw [if_pos hgo] at hrecv
        obtain ⟨used, left', hused, hrest⟩ := ih h
        exact ⟨r :: used, left', List.cons_prefix_cons.mpr ⟨rfl, hused⟩, hrecv.trans hrest⟩
      · next hgo =>
        cases h
        rw [if_neg hgo] at hrecv
        exact ⟨[r], _, List.cons_prefix_cons.mpr ⟨rfl, List.nil_prefix⟩, hrecv⟩

/-! ## What a step keeps -/

/-- What is known of a connection at every point. -/
structure Inv (stdHash : Bytes → UInt64) (c : Conn) : Prop where
  wf : c.session.world.cache.WF stdHash
  length_le : c.buffer.length ≤ kMaxLineBytes + kReadChunkBytes
  drained : c.point = .check ∨ c.point = .fill → newline ∉ c.buffer
  checked : c.point = .fill → c.buffer.length ≤ kMaxLineBytes

theorem handleLine_wf {s : Session} (h : s.world.cache.WF stdHash) (line : Bytes) :
    ∃ s' go, handleLine stdHash persistence outside s line = some (s', go) ∧
      s'.world.cache.WF stdHash := by
  unfold handleLine
  cases parseCommand line with
  | error e => exact ⟨_, _, rfl, h⟩
  | ok command =>
    obtain ⟨w', reply, hexec, hwf⟩ :=
      execute_wf h persistence (outside.env s.commandsHandled) command
    simp only [hexec, Option.map_some]
    exact ⟨_, _, rfl, hwf⟩

theorem ite_drain_returned (go : Bool) :
    (if go then Point.drain else .returned) = .drain ∨
      (if go then Point.drain else .returned) = .returned := by
  cases go with
  | false => exact Or.inr rfl
  | true => exact Or.inl rfl

/-- Only at the check and before a `recv` is something known of what the buffer holds. -/
theorem Inv.of_point {c : Conn} (hwf : c.session.world.cache.WF stdHash)
    (hle : c.buffer.length ≤ kMaxLineBytes + kReadChunkBytes)
    (hpoint : c.point = .drain ∨ c.point = .returned) : Inv stdHash c where
  wf := hwf
  length_le := hle
  drained hp := by rcases hpoint with h | h <;> rw [h] at hp <;> simp at hp
  checked hp := by rcases hpoint with h | h <;> rw [h] at hp <;> simp at hp

theorem Inv.start {s : Session} (h : s.world.cache.WF stdHash) : Inv stdHash (start s) :=
  .of_point h (Nat.zero_le _) (Or.inl rfl)

theorem Inv.advance {c c' : Conn} (h : Inv stdHash c)
    (hstep : c.advance stdHash persistence outside = some c') : Inv stdHash c' := by
  cases hpoint : c.point with
  | drain =>
    cases hnext : nextLine c.buffer with
    | none =>
      rw [advance_none hpoint hnext] at hstep
      cases hstep
      exact ⟨h.wf, h.length_le, fun _ => nextLine_eq_none hnext, fun hp => (by cases hp)⟩
    | some p =>
      obtain ⟨line, rest⟩ := p
      obtain ⟨s', go, hhandle, hwf⟩ :=
        @handleLine_wf stdHash persistence outside c.session h.wf line
      rw [advance_line hpoint hnext, hhandle] at hstep
      cases hstep
      have hle := Nat.le_trans (Nat.le_of_lt (nextLine_shorter hnext)) h.length_le
      exact .of_point hwf hle (ite_drain_returned go)
  | check =>
    rw [advance_check hpoint] at hstep
    cases hstep
    split
    · exact .of_point h.wf h.length_le (Or.inr rfl)
    · next hlong =>
      exact ⟨h.wf, h.length_le, fun _ => h.drained (Or.inl hpoint), fun _ => Nat.not_lt.mp hlong⟩
  | fill => simp only [Conn.advance, hpoint, reduceCtorEq] at hstep
  | returned => simp only [Conn.advance, hpoint, reduceCtorEq] at hstep

/-- One `recv` adds at most a chunk to what is less than a line. -/
theorem Inv.receive {c : Conn} (h : Inv stdHash c) (hpoint : c.point = .fill) {r : Recv}
    (hr : r.Possible) : Inv stdHash (c.receive r) := by
  have hle : (fillBuffer c.buffer r).1.length ≤ kMaxLineBytes + kReadChunkBytes := by
    have hline := h.checked hpoint
    cases r with
    | bytes chunk =>
      have hchunk : chunk.length ≤ kReadChunkBytes := hr
      cases chunk with
      | nil => exact h.length_le
      | cons b chunk =>
        simp only [fillBuffer, List.length_append]
        omega
    | interrupted => exact h.length_le
    | failed => exact h.length_le
  exact .of_point h.wf hle (ite_drain_returned _)

theorem Inv.reaches {c₀ c : Conn} {recvs : List Recv} (h₀ : Inv stdHash c₀)
    (hrecvs : ∀ r ∈ recvs, r.Possible) (h : Reaches stdHash persistence outside c₀ recvs c) :
    Inv stdHash c := by
  induction h with
  | refl => exact h₀
  | advance _ hstep ih => exact (ih hrecvs).advance hstep
  | receive _ hpoint r ih =>
    exact (ih fun r' hr' => hrecvs r' (List.mem_append_left _ hr')).receive hpoint
      (hrecvs r (List.mem_append_right _ List.mem_cons_self))
  | others _ hw ih =>
    have hinv := ih hrecvs
    exact ⟨hw, hinv.length_le, hinv.drained, hinv.checked⟩

/-! ## The inner loop -/

theorem nextLine_count {buffer line rest : Bytes} (h : nextLine buffer = some (line, rest)) :
    rest.count newline + 1 = buffer.count newline := by
  obtain ⟨x, hx, rfl, -⟩ := nextLine_eq_some h
  rw [List.count_append, List.count_eq_zero_of_not_mem hx, List.count_cons_self, Nat.zero_add]

/-- A round of the inner loop uses up one newline, and is defined. -/
theorem advance_round {c : Conn} (hwf : c.session.world.cache.WF stdHash)
    (hpoint : c.point = .drain) (hline : nextLine c.buffer ≠ none) :
    ∃ c', c.advance stdHash persistence outside = some c' ∧
      c'.session.world.cache.WF stdHash ∧ (c'.point = .drain ∨ c'.point = .returned) ∧
      c'.buffer.count newline + 1 = c.buffer.count newline := by
  obtain ⟨⟨line, rest⟩, hnext⟩ := Option.ne_none_iff_exists'.mp hline
  obtain ⟨s', go, hhandle, hwf'⟩ :=
    @handleLine_wf stdHash persistence outside c.session hwf line
  refine ⟨⟨if go then .drain else .returned, s', rest⟩, ?_, hwf', ite_drain_returned go,
    nextLine_count hnext⟩
  rw [advance_line hpoint hnext, hhandle]
  rfl

/-- The inner loop can always go on or end. -/
theorem advance_drain {c : Conn} (hwf : c.session.world.cache.WF stdHash)
    (hpoint : c.point = .drain) : ∃ c', c.advance stdHash persistence outside = some c' := by
  by_cases hline : nextLine c.buffer = none
  · exact ⟨_, advance_none hpoint hline⟩
  · obtain ⟨c', hstep, -⟩ := @advance_round stdHash persistence outside c hwf hpoint hline
    exact ⟨c', hstep⟩

theorem rounds_count {c₀ c : Conn} {n : Nat} (hwf : c₀.session.world.cache.WF stdHash)
    (h : Rounds stdHash persistence outside c₀ n c) :
    c.session.world.cache.WF stdHash ∧ n + c.buffer.count newline = c₀.buffer.count newline := by
  induction h with
  | zero => exact ⟨hwf, Nat.zero_add _⟩
  | round _ hpoint hline hstep ih =>
    obtain ⟨hwf', hcount⟩ := ih
    obtain ⟨c₁, hstep₁, hwf₁, -, hround⟩ :=
      @advance_round stdHash persistence outside _ hwf' hpoint hline
    cases hstep₁.symm.trans hstep
    exact ⟨hwf₁, by omega⟩
  | others _ hw ih => exact ⟨hw, ih.2⟩

theorem Rounds.trans {c₀ c₁ c₂ : Conn} {m n : Nat}
    (h : Rounds stdHash persistence outside c₀ m c₁)
    (h' : Rounds stdHash persistence outside c₁ n c₂) :
    Rounds stdHash persistence outside c₀ (m + n) c₂ := by
  induction h' with
  | zero => exact h
  | round _ hpoint hline hstep ih => exact .round ih hpoint hline hstep
  | others _ hw ih => exact .others ih hw

/-- The inner loop ends: a line ended the connection, or there is no complete line. -/
theorem drain_ends {c : Conn} (hwf : c.session.world.cache.WF stdHash) (hpoint : c.point = .drain) :
    ∃ n c', Rounds stdHash persistence outside c n c' ∧
      (c'.point = .returned ∨ nextLine c'.buffer = none) := by
  -- on the newlines that are left
  induction hn : c.buffer.count newline generalizing c with
  | zero =>
    refine ⟨0, c, .zero, Or.inr ?_⟩
    exact nextLine_of_notMem (List.count_eq_zero.mp hn)
  | succ n ih =>
    by_cases hline : nextLine c.buffer = none
    · exact ⟨0, c, .zero, Or.inr hline⟩
    · obtain ⟨c₁, hstep, hwf₁, hpoint₁, hcount⟩ :=
        @advance_round stdHash persistence outside c hwf hpoint hline
      have hround : Rounds stdHash persistence outside c 1 c₁ := .round .zero hpoint hline hstep
      rcases hpoint₁ with hdrain | hreturned
      · obtain ⟨m, c', hrounds, hend⟩ := ih hwf₁ hdrain (by omega)
        exact ⟨1 + m, c', hround.trans hrounds, hend⟩
      · exact ⟨1, c₁, hround, Or.inl hreturned⟩

/-- **The memory of a connection.** A connection starts on a reachable cache and gets somewhere,
with any `recv`s of at most a chunk, any replies that can or cannot be sent, and any changes by
other connections. Its buffer holds at most a line and a chunk. At a `recv` it holds no newline and
at most a line. The inner loop takes at most one round for each newline, is never stuck, and
ends. -/
theorem buffer_bounded (persistence : Bool) (outside : Outside) {s : Session}
    (hreach : Reachable stdHash s.world.cache) {recvs : List Recv}
    (hrecvs : ∀ r ∈ recvs, r.Possible) {c : Conn}
    (h : Reaches stdHash persistence outside (start s) recvs c) :
    c.buffer.length ≤ kMaxLineBytes + kReadChunkBytes ∧
    (c.point = .fill → newline ∉ c.buffer ∧ c.buffer.length ≤ kMaxLineBytes) ∧
    (c.point = .drain →
      (∀ n c', Rounds stdHash persistence outside c n c' → n ≤ c.buffer.count newline ∧
        (c'.point = .drain → ∃ c'', c'.advance stdHash persistence outside = some c'')) ∧
      ∃ n c', Rounds stdHash persistence outside c n c' ∧
        (c'.point = .returned ∨ nextLine c'.buffer = none)) := by
  have hinv := (Inv.start hreach.wf).reaches hrecvs h
  refine ⟨hinv.length_le, fun hp => ⟨hinv.drained (Or.inr hp), hinv.checked hp⟩, fun hp =>
    ⟨fun n c' hrounds => ?_, drain_ends hinv.wf hp⟩⟩
  obtain ⟨hwf, hcount⟩ := rounds_count hinv.wf hrounds
  exact ⟨by omega, advance_drain hwf⟩

/-- One `recv` returns a `PING`. -/
theorem buffer_bounded_ping :
    ∃ c, Reaches (fun _ => 0) false promptly (start { world := ⟨.unbounded 1, none⟩ })
        [.bytes (ascii "PING\n")] c ∧
      c.point = .drain ∧ c.buffer = ascii "PING\n" ∧
      c.buffer.length ≤ kMaxLineBytes + kReadChunkBytes := by
  have hcheck : Reaches (fun _ => 0) false promptly (start { world := ⟨.unbounded 1, none⟩ }) []
      ⟨.check, { world := ⟨.unbounded 1, none⟩ }, []⟩ := .advance .refl (advance_none rfl rfl)
  have hfill : Reaches (fun _ => 0) false promptly (start { world := ⟨.unbounded 1, none⟩ }) []
      ⟨.fill, { world := ⟨.unbounded 1, none⟩ }, []⟩ := .advance hcheck (advance_check rfl)
  have hreach := Reaches.receive hfill rfl (.bytes (ascii "PING\n"))
  refine ⟨_, hreach, rfl, rfl, (buffer_bounded false _ (.unbounded 1) ?_ hreach).1⟩
  intro r hr
  rw [List.mem_singleton.mp hr]
  show (ascii "PING\n").length ≤ kReadChunkBytes
  decide

end Conn

end CacheX
