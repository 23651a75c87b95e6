import CacheX.Command
import CacheX.Lib.Lines
import CacheX.Lib.Machine
import CacheX.Restore

/-!
# Connections

`line_buffer.cpp`, `send_all` of `socket.cpp` and `connection.cpp`: a connection drains the complete
lines of its buffer, answers each one, and asks the socket for more bytes when there is none.

* `nextLine_of_notMem`, `nextLine_cons`: what `nextLine` does, by the first newline of the buffer.
* `sendAll_sent`: a send that succeeds has sent everything.
* `drain_served`: draining a buffer serves its complete lines, up to the first `QUIT`.
* `serve_lines`: what a connection does depends on the bytes of the stream only.
-/

namespace CacheX

open Decimal (ascii)
open Lines

/-! ## Lines -/

def carriageReturn : UInt8 := 13

/-- `line.pop_back()` if the line ends with a carriage return. -/
def stripReturn (line : Bytes) : Bytes :=
  if line.getLast? = some carriageReturn then line.dropLast else line

/-- A line as it is sent. -/
def terminated (line : Bytes) : Bytes := line ++ [newline]

theorem length_terminated (line : Bytes) : (terminated line).length = line.length + 1 := by
  simp only [terminated, List.length_append, List.length_cons, List.length_nil]

/-- `LineBuffer::next_line`: the next complete line and what stays in the buffer. -/
def nextLine (buffer : Bytes) : Option (Bytes × Bytes) :=
  match buffer.idxOf? newline with
  | none => none
  | some i => some (stripReturn (buffer.take i), buffer.drop (i + 1))

theorem nextLine_of_notMem {buffer : Bytes} (h : newline ∉ buffer) : nextLine buffer = none := by
  rw [nextLine, List.idxOf?_eq_none_iff.mpr h]

theorem nextLine_eq_none {buffer : Bytes} (h : nextLine buffer = none) : newline ∉ buffer := by
  rw [nextLine] at h
  split at h
  · next hidx => exact List.idxOf?_eq_none_iff.mp hidx
  · cases h

theorem nextLine_cons {line : Bytes} (h : newline ∉ line) (rest : Bytes) :
    nextLine (line ++ newline :: rest) = some (stripReturn line, rest) := by
  have hi : (line ++ newline :: rest).idxOf? newline = some line.length := by
    rw [List.idxOf?, List.findIdx?_append]
    have hline : line.findIdx? (· == newline) = none := List.idxOf?_eq_none_iff.mpr h
    simp [hline, List.findIdx?_cons]
  rw [nextLine, hi]
  simp

/-- A line that `nextLine` finds is what stands before the first newline. -/
theorem nextLine_eq_some {buffer line rest : Bytes} (h : nextLine buffer = some (line, rest)) :
    ∃ x, newline ∉ x ∧ buffer = x ++ newline :: rest ∧ line = stripReturn x := by
  by_cases hmem : newline ∈ buffer
  · obtain ⟨x, y, rfl, hx⟩ := List.eq_append_cons_of_mem hmem
    rw [nextLine_cons hx] at h
    cases h
    exact ⟨x, hx, rfl, rfl⟩
  · rw [nextLine_of_notMem hmem] at h
    cases h

theorem nextLine_shorter {buffer line rest : Bytes} (h : nextLine buffer = some (line, rest)) :
    rest.length < buffer.length := by
  obtain ⟨x, -, rfl, -⟩ := nextLine_eq_some h
  simp only [List.length_append, List.length_cons]
  omega

/-! ## The connection -/

/-- `kReadChunkBytes`: the size of one `recv`. -/
def kReadChunkBytes : Nat := 16 * 1024

/-- What one `recv` returns: bytes, where none at all is the end of the stream, or an error. -/
inductive Recv
  | bytes (chunk : Bytes)
  | interrupted
  | failed
deriving DecidableEq, Repr

/-- A non-empty chunk, or an interruption: what `recv` returns before the end of the stream. -/
def Recv.ordinary : Recv → Bool
  | .bytes chunk => chunk ≠ [] ∧ chunk.length ≤ kReadChunkBytes
  | .interrupted => true
  | .failed => false

/-- What a connection meets outside: what its `n`th command reads, and what `send` returns for its
`i`th reply, which is the number of bytes taken or an interruption (`none`), up to the first
error. -/
structure Outside where
  env : Nat → Env
  sends : Nat → Bytes → List (Option Nat)

/-- What a connection has done. `executed` is the history of its calls of `execute`. -/
structure Session where
  world : World
  wire : Bytes := []
  sendCount : Nat := 0
  commandsHandled : Nat := 0
  executed : List Command := []

/-- `send_all`: the bytes that reach the peer, and whether all of them do. -/
def sendAll : List (Option Nat) → Bytes → Bytes × Bool
  | _, [] => ([], true)
  | [], _ :: _ => ([], false)
  | none :: returns, c :: data => sendAll returns (c :: data)
  | some n :: returns, c :: data =>
    let later := sendAll returns ((c :: data).drop n)
    ((c :: data).take n ++ later.1, later.2)

theorem sendAll_sent {returns : List (Option Nat)} {data : Bytes}
    (h : (sendAll returns data).2 = true) : (sendAll returns data).1 = data := by
  fun_induction sendAll returns data with
  | case1 => rfl
  | case2 => cases h
  | case3 returns c data ih => exact ih h
  | case4 returns n c data later ih => rw [ih h, List.take_append_drop]

section Connection

variable (stdHash : Bytes → UInt64) (persistence : Bool) (outside : Outside)

def Session.send (s : Session) (data : Bytes) : Session × Bool :=
  let sent := sendAll (outside.sends s.sendCount data) data
  ({ s with wire := s.wire ++ sent.1, sendCount := s.sendCount + 1 }, sent.2)

/-- `Connection::handle_line`: `false` ends the connection. -/
def handleLine (s : Session) (line : Bytes) : Option (Session × Bool) :=
  match parseCommand line with
  | .error error => some (s.send outside (replyError error))
  | .ok command =>
    (execute stdHash persistence (outside.env s.commandsHandled) s.world command).map fun p =>
      let s' : Session := { s with
        world := p.1
        commandsHandled := s.commandsHandled + 1
        executed := s.executed ++ [command] }
      let sent := s'.send outside p.2
      (sent.1, sent.2 && command.type != .quit)

/-- The inner loop of `serve`: the buffer it leaves, and `false` if a line ended the connection. -/
def drain (s : Session) (buffer : Bytes) : Option (Session × Bytes × Bool) :=
  match _h : nextLine buffer with
  | none => some (s, buffer, true)
  | some (line, rest) =>
    match handleLine stdHash persistence outside s line with
    | none => none
    | some (s', false) => some (s', rest, false)
    | some (s', true) => drain s' rest
termination_by buffer.length
decreasing_by exact nextLine_shorter _h

/-- `Connection::fill_buffer` for what `recv` returned: `false` ends the connection. -/
def fillBuffer (buffer : Bytes) : Recv → Bytes × Bool
  | .bytes [] => (buffer, false)
  | .bytes chunk => (buffer ++ chunk, true)
  | .interrupted => (buffer, true)
  | .failed => (buffer, false)

def lineTooLong : Bytes :=
  replyError (ascii "line too long (maximum " ++ Decimal.ofNat kMaxLineBytes
    ++ ascii " bytes); closing connection")

/-- `Connection::serve` over what `recv` returns, call after call: `true` once it has returned,
`false` while it waits for one more `recv`. -/
def serve (s : Session) (buffer : Bytes) (recvs : List Recv) : Option (Session × Bool) :=
  match drain stdHash persistence outside s buffer with
  | none => none
  | some (s', _, false) => some (s', true)
  | some (s', buffer', true) =>
    if kMaxLineBytes < buffer'.length then some ((s'.send outside lineTooLong).1, true)
    else
      match recvs with
      | [] => some (s', false)
      | received :: recvs =>
        let filled := fillBuffer buffer' received
        if filled.2 then serve s' filled.1 recvs else some (s', true)
termination_by structural recvs

/-! ## One line at a time -/

/-- The reply to one line, with the number of commands so far. -/
def answer (st : World × Nat) (line : Bytes) : Option ((World × Nat) × Bytes) :=
  match parseCommand line with
  | .error error => some (st, replyError error)
  | .ok command =>
    (execute stdHash persistence (outside.env st.2) st.1 command).map fun p =>
      ((p.1, st.2 + 1), p.2)

end Connection

/-- The command of a line, if it has one. -/
def commandOf (line : Bytes) : Option Command := (parseCommand line).toOption

def isQuit (line : Bytes) : Bool := (commandOf line).any fun command => command.type == .quit

/-- The lines up to and including the first `QUIT`. -/
def upToQuit : List Bytes → List Bytes
  | [] => []
  | line :: lines => if isQuit line then [line] else line :: upToQuit lines

/-- The lines of a stream that a newline ends. -/
def completeLines (stream : Bytes) : List Bytes := (complete newline stream).map stripReturn

/-- The bytes that a connection receives. -/
def received (recvs : List Recv) : Bytes :=
  recvs.flatMap fun r =>
    match r with
    | .bytes chunk => chunk
    | _ => []

/-! ## Serving -/

namespace ConnectionLemmas

theorem upToQuit_append_of_quit {lines : List Bytes} (h : ∃ line ∈ lines, isQuit line = true)
    (more : List Bytes) : upToQuit (lines ++ more) = upToQuit lines := by
  induction lines with
  | nil =>
    obtain ⟨line, hmem, -⟩ := h
    cases hmem
  | cons x lines ih =>
    simp only [List.cons_append, upToQuit]
    split
    · rfl
    · next hx =>
      obtain ⟨line, hmem, hq⟩ := h
      rcases List.mem_cons.mp hmem with rfl | hmem
      · exact absurd hq hx
      · rw [ih ⟨line, hmem, hq⟩]

theorem upToQuit_append {lines : List Bytes} (h : ∀ line ∈ lines, isQuit line = false)
    (more : List Bytes) : upToQuit (lines ++ more) = lines ++ upToQuit more := by
  induction lines with
  | nil => rfl
  | cons x lines ih =>
    have hx : isQuit x = false := h x List.mem_cons_self
    have htail := ih fun line hline => h line (List.mem_cons_of_mem _ hline)
    simp only [List.cons_append, upToQuit, hx, Bool.false_eq_true, if_false, htail]

theorem completeLines_append (stream more : Bytes) :
    completeLines (stream ++ more)
      = completeLines stream ++ completeLines (rest newline stream ++ more) := by
  simp only [completeLines, complete_append stream more, List.map_append]

theorem received_cons (r : Recv) (recvs : List Recv) :
    received (r :: recvs) = received [r] ++ received recvs := by
  simp [received]

theorem fillBuffer_ordinary {r : Recv} (h : r.ordinary = true) (buffer : Bytes) :
    fillBuffer buffer r = (buffer ++ received [r], true) := by
  cases r with
  | bytes chunk =>
    cases chunk with
    | nil => cases h
    | cons c chunk => simp [fillBuffer, received]
  | interrupted => simp [fillBuffer, received]
  | failed => cases h

end ConnectionLemmas

open ConnectionLemmas

section Serving

variable {stdHash : Bytes → UInt64} {persistence : Bool} {outside : Outside}

/-- `s'` comes from `s` by answering the lines one by one, and sending every reply. -/
structure Served (stdHash : Bytes → UInt64) (persistence : Bool) (outside : Outside) (s : Session)
    (lines : List Bytes) (s' : Session) : Prop where
  replied : ∃ replies, Machine.run (answer stdHash persistence outside)
      (s.world, s.commandsHandled) lines = some ((s'.world, s'.commandsHandled), replies) ∧
    s'.wire = s.wire ++ replies.flatten ∧ s'.sendCount = s.sendCount + replies.length
  executed : s'.executed = s.executed ++ lines.filterMap commandOf
  wf : s'.world.cache.WF stdHash

namespace Served

theorem refl {s : Session} (h : s.world.cache.WF stdHash) :
    Served stdHash persistence outside s [] s :=
  ⟨⟨[], rfl, by simp, rfl⟩, by simp, h⟩

theorem trans {s s' s'' : Session} {lines more : List Bytes}
    (h : Served stdHash persistence outside s lines s')
    (h' : Served stdHash persistence outside s' more s'') :
    Served stdHash persistence outside s (lines ++ more) s'' := by
  obtain ⟨replies, hrun, hwire, hcount⟩ := h.replied
  obtain ⟨replies', hrun', hwire', hcount'⟩ := h'.replied
  refine ⟨⟨replies ++ replies', Machine.run_append hrun hrun', ?_, ?_⟩, ?_, h'.wf⟩
  · rw [hwire', hwire, List.flatten_append, List.append_assoc]
  · rw [hcount', hcount, List.length_append, Nat.add_assoc]
  · rw [h'.executed, h.executed, List.filterMap_append, List.append_assoc]

end Served

/-- Every reply of a connection can be sent. -/
def SendsSucceed (outside : Outside) : Prop :=
  ∀ i data, (sendAll (outside.sends i data) data).2 = true

/-- Sends that take everything at once. -/
def promptly : Outside := ⟨fun _ => ⟨fun _ => 0, 0, .done⟩, fun _ data => [some data.length]⟩

theorem send_succeeds (h : SendsSucceed outside) (s : Session) (data : Bytes) :
    s.send outside data
      = ({ s with wire := s.wire ++ data, sendCount := s.sendCount + 1 }, true) := by
  have hs := h s.sendCount data
  simp only [Session.send, hs, sendAll_sent hs]

theorem handleLine_served (hsends : SendsSucceed outside) {s : Session}
    (hwf : s.world.cache.WF stdHash) (line : Bytes) :
    ∃ s', handleLine stdHash persistence outside s line = some (s', !isQuit line) ∧
      Served stdHash persistence outside s [line] s' := by
  cases hp : parseCommand line with
  | error e =>
    have hc : commandOf line = none := by rw [commandOf, hp]; rfl
    refine ⟨{ s with wire := s.wire ++ replyError e, sendCount := s.sendCount + 1 }, ?_,
      ⟨⟨[replyError e], ?_, ?_, rfl⟩, ?_, hwf⟩⟩
    · rw [handleLine, hp]
      simp only [send_succeeds hsends, isQuit, hc, Option.any_none, Bool.not_false]
    · refine Machine.run_cons_some ?_ rfl
      rw [answer, hp]
    · simp
    · simp [hc]
  | ok command =>
    have hc : commandOf line = some command := by rw [commandOf, hp]; rfl
    obtain ⟨w', reply, hexec, hwf'⟩ :=
      execute_wf hwf persistence (outside.env s.commandsHandled) command
    refine ⟨⟨w', s.wire ++ reply, s.sendCount + 1, s.commandsHandled + 1, s.executed ++ [command]⟩,
      ?_, ⟨⟨[reply], ?_, ?_, rfl⟩, ?_, hwf'⟩⟩
    · rw [handleLine, hp]
      simp only [hexec, Option.map_some, send_succeeds hsends, isQuit, hc, Option.any_some,
        Bool.true_and]
      rfl
    · refine Machine.run_cons_some ?_ rfl
      rw [answer, hp]
      simp only [hexec, Option.map_some]
    · simp
    · simp [hc]

theorem drain_of_notMem {buffer : Bytes} (h : newline ∉ buffer) (s : Session) :
    drain stdHash persistence outside s buffer = some (s, buffer, true) := by
  rw [drain]
  split
  · rfl
  · next hn =>
    rw [nextLine_of_notMem h] at hn
    cases hn

theorem drain_cons {line buffer : Bytes} (hline : newline ∉ line) {s s₁ : Session} {go : Bool}
    (hhandle : handleLine stdHash persistence outside s (stripReturn line) = some (s₁, go)) :
    drain stdHash persistence outside s (line ++ newline :: buffer)
      = if go then drain stdHash persistence outside s₁ buffer else some (s₁, buffer, false) := by
  rw [drain]
  split
  · next hn =>
    rw [nextLine_cons hline] at hn
    cases hn
  · next line' rest' hn =>
    rw [nextLine_cons hline] at hn
    cases hn
    rw [hhandle]
    cases go <;> rfl

theorem completeLines_cons {line : Bytes} (hline : newline ∉ line) (buffer : Bytes) :
    completeLines (line ++ newline :: buffer) = stripReturn line :: completeLines buffer := by
  rw [completeLines, complete_cons hline]
  rfl

/-- Draining serves the complete lines of the buffer. Without a `QUIT` it leaves the rest. -/
theorem drain_served (hsends : SendsSucceed outside) {s : Session}
    (hwf : s.world.cache.WF stdHash) (buffer : Bytes) :
    (∃ s' left, drain stdHash persistence outside s buffer = some (s', left, false) ∧
      (∃ line ∈ completeLines buffer, isQuit line = true) ∧
      Served stdHash persistence outside s (upToQuit (completeLines buffer)) s') ∨
    ∃ s', drain stdHash persistence outside s buffer = some (s', rest newline buffer, true) ∧
      (∀ line ∈ completeLines buffer, isQuit line = false) ∧
      Served stdHash persistence outside s (completeLines buffer) s' := by
  induction buffer using parts_induction newline generalizing s with
  | last buffer h =>
    have hlines : completeLines buffer = [] := by rw [completeLines, complete_of_notMem h]; rfl
    refine Or.inr ⟨s, ?_, ?_, ?_⟩
    · rw [drain_of_notMem h, rest_of_notMem h]
    · simp [hlines]
    · rw [hlines]
      exact Served.refl hwf
  | cons line buffer hline ih =>
    obtain ⟨s₁, hhandle, hserved⟩ :=
      @handleLine_served stdHash persistence outside hsends s hwf (stripReturn line)
    rw [drain_cons hline hhandle, completeLines_cons hline, rest_cons hline]
    cases hq : isQuit (stripReturn line) with
    | true =>
      refine Or.inl ⟨s₁, buffer, rfl, ⟨_, List.mem_cons_self, hq⟩, ?_⟩
      rw [upToQuit, if_pos hq]
      exact hserved
    | false =>
      simp only [Bool.not_false, if_true]
      rcases ih hserved.wf with ⟨s', left, hd, ⟨x, hx, hxq⟩, hs'⟩ | ⟨s', hd, hnone, hs'⟩
      · refine Or.inl ⟨s', left, hd, ⟨x, List.mem_cons_of_mem _ hx, hxq⟩, ?_⟩
        rw [upToQuit, hq]
        exact hserved.trans hs'
      · refine Or.inr ⟨s', hd, ?_, hserved.trans hs'⟩
        intro x hx
        rcases List.mem_cons.mp hx with rfl | hx
        · exact hq
        · exact hnone x hx

/-- One round of `serve`: a `QUIT` in the buffer ends it whatever comes later, and otherwise the
next `recv` decides. The buffer is short enough, because it begins a run of the stream. -/
theorem serve_round (hsends : SendsSucceed outside) {s : Session}
    (hwf : s.world.cache.WF stdHash) {buffer more : Bytes}
    (hruns : ∀ run ∈ (buffer ++ more).splitOn newline, run.length ≤ kMaxLineBytes) :
    (∃ s', (∀ recvs, serve stdHash persistence outside s buffer recvs = some (s', true)) ∧
      Served stdHash persistence outside s (upToQuit (completeLines (buffer ++ more))) s') ∨
    ∃ s', Served stdHash persistence outside s (completeLines buffer) s' ∧
      (∀ line ∈ completeLines buffer, isQuit line = false) ∧
      ∀ r recvs, serve stdHash persistence outside s buffer (r :: recvs)
        = if (fillBuffer (rest newline buffer) r).2 then
            serve stdHash persistence outside s' (fillBuffer (rest newline buffer) r).1 recvs
          else some (s', true) := by
  rcases @drain_served stdHash persistence outside hsends s hwf buffer with
    ⟨s', left, hd, hquit, hserved⟩ | ⟨s', hd, hnone, hserved⟩
  · refine Or.inl ⟨s', fun recvs => ?_, ?_⟩
    · rw [serve, hd]
    · rw [completeLines_append, upToQuit_append_of_quit hquit]
      exact hserved
  · refine Or.inr ⟨s', hserved, hnone, fun r recvs => ?_⟩
    have hshort : ¬ kMaxLineBytes < (rest newline buffer).length := by
      obtain ⟨part, hpart, hle⟩ := exists_part_ge (notMem_rest buffer) more
      have hmem : part ∈ (buffer ++ more).splitOn newline := by
        rw [splitOn_append]
        exact List.mem_append_right _ hpart
      exact Nat.not_lt.mpr (hle.trans (hruns part hmem))
    rw [serve, hd]
    simp only [if_neg hshort]

theorem serve_served (hsends : SendsSucceed outside) {s : Session}
    (hwf : s.world.cache.WF stdHash) {buffer : Bytes} {recvs : List Recv}
    (hrecvs : ∀ r ∈ recvs, r.ordinary = true)
    (hruns : ∀ run ∈ (buffer ++ received recvs).splitOn newline, run.length ≤ kMaxLineBytes) :
    ∃ s', serve stdHash persistence outside s buffer (recvs ++ [.bytes []]) = some (s', true) ∧
      Served stdHash persistence outside s
        (upToQuit (completeLines (buffer ++ received recvs))) s' := by
  -- the lines of the buffer are served now, the lines of its rest and the later bytes by induction
  induction recvs generalizing s buffer with
  | nil =>
    rcases @serve_round stdHash persistence outside hsends s hwf buffer _ hruns with
      ⟨s', hserve, hserved⟩ | ⟨s', hserved, hnone, hserve⟩
    · exact ⟨s', hserve _, hserved⟩
    · refine ⟨s', by rw [List.nil_append, hserve]; rfl, ?_⟩
      have hlines := upToQuit_append hnone []
      simp only [List.append_nil, upToQuit] at hlines
      rw [received, List.flatMap_nil, List.append_nil, hlines]
      exact hserved
  | cons r recvs ih =>
    rcases @serve_round stdHash persistence outside hsends s hwf buffer _ hruns with
      ⟨s', hserve, hserved⟩ | ⟨s₁, hserved, hnone, hserve⟩
    · exact ⟨s', hserve _, hserved⟩
    · rw [received_cons, splitOn_append, ← List.append_assoc] at hruns
      obtain ⟨s', hs', hserved'⟩ := @ih s₁ hserved.wf (rest newline buffer ++ received [r])
        (fun r' hr' => hrecvs r' (List.mem_cons_of_mem _ hr'))
        (fun run hrun => hruns run (List.mem_append_right _ hrun))
      refine ⟨s', ?_, ?_⟩
      · rw [List.cons_append, hserve, fillBuffer_ordinary (hrecvs r List.mem_cons_self)]
        exact hs'
      · rw [completeLines_append, upToQuit_append hnone, received_cons, ← List.append_assoc]
        exact hserved.trans hserved'

end Serving

/-- A connection answers the complete lines of its stream, up to the first `QUIT`, and returns. Each
line has one reply, the replies are sent in order, and the world is as after the lines one by one.
How the stream was cut into chunks makes no difference. -/
theorem serve_lines (stdHash : Bytes → UInt64) (persistence : Bool) {outside : Outside} {w : World}
    {stream : Bytes} {recvs : List Recv} (hreach : Reachable stdHash w.cache)
    (hsends : SendsSucceed outside)
    (hruns : ∀ run ∈ stream.splitOn newline, run.length ≤ kMaxLineBytes - 1)
    (hrecvs : ∀ r ∈ recvs, r.ordinary = true) (hstream : received recvs = stream) :
    ∃ w' handled replies,
      Machine.run (answer stdHash persistence outside) (w, 0) (upToQuit (completeLines stream))
        = some ((w', handled), replies) ∧
      replies.length = (upToQuit (completeLines stream)).length ∧
      serve stdHash persistence outside { world := w } [] (recvs ++ [.bytes []])
        = some ({
            world := w'
            wire := replies.flatten
            sendCount := replies.length
            commandsHandled := handled
            executed := (upToQuit (completeLines stream)).filterMap commandOf }, true) := by
  subst hstream
  obtain ⟨⟨w', wire, count, handled, executed⟩, hserve, hserved⟩ :=
    @serve_served stdHash persistence outside hsends { world := w } hreach.wf [] recvs
      hrecvs (fun run hrun => (hruns run hrun).trans (Nat.sub_le _ _))
  obtain ⟨⟨replies, hrun, hwire, hcount⟩, hexecuted, -⟩ := hserved
  simp only [List.nil_append, Nat.zero_add] at hwire hcount hexecuted
  refine ⟨w', handled, replies, hrun, Machine.run_length hrun, ?_⟩
  rw [hserve, hwire, hcount, hexecuted]

/-- A command cut in two, a cut between CR and LF, an interruption, partial writes, and bytes after
`QUIT` that are never looked at. -/
theorem serve_lines_cut :
    ∃ s, serve (fun _ => 0) false ⟨fun _ => ⟨fun _ => 0, 0, .done⟩,
          fun _ data => [none, some 1, some data.length]⟩
        { world := ⟨.bounded 2 8, none⟩ } []
        [.bytes (ascii "SET k"), .interrupted, .bytes (ascii " v\r"),
          .bytes (ascii "\nGET k\nQU"), .bytes (ascii "IT\nDEL k\nGET"), .bytes []]
      = some (s, true) ∧ s.wire = ascii "+OK\n=v\n+BYE\n" ∧ s.commandsHandled = 3 := by
  obtain ⟨w', handled, replies, hrun, -, hserve⟩ := @serve_lines (fun _ => 0) false
    ⟨fun _ => ⟨fun _ => 0, 0, .done⟩, fun _ data => [none, some 1, some data.length]⟩
    ⟨.bounded 2 8, none⟩ (ascii "SET k v\r\nGET k\nQUIT\nDEL k\nGET")
    [.bytes (ascii "SET k"), .interrupted, .bytes (ascii " v\r"),
      .bytes (ascii "\nGET k\nQU"), .bytes (ascii "IT\nDEL k\nGET")]
    (.bounded 2 8)
    (fun _ data => by
      rcases data with _ | ⟨c, _ | ⟨d, data⟩⟩ <;> simp [sendAll, List.drop_of_length_le])
    (by decide) (by decide) (by decide)
  refine ⟨_, hserve, ?_, ?_⟩
  · have hreplies : some replies = some [ascii "+OK\n", ascii "=v\n", ascii "+BYE\n"] :=
      (congrArg (Option.map Prod.snd) hrun).symm.trans (by decide)
    rw [Option.some.inj hreplies]
    rfl
  · have hhandled : some handled = some 3 :=
      (congrArg (Option.map fun p : (World × Nat) × List Bytes => p.1.2) hrun).symm.trans
        (by decide)
    exact Option.some.inj hhandled

end CacheX
