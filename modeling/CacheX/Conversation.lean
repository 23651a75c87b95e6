import CacheX.Lib.Fair
import CacheX.Wire
import Mathlib.Data.Prod.Lex

/-!
# A conversation

`main` of `client_main.cpp` talks to `Connection::serve` over a connection that holds a bounded
number of bytes in each direction. The client reads lines from its input, sends each one, and waits
for the line of the reply before it reads the next one; the server is the loop of `connection.cpp`.
Every `send` and every `recv` moves any number of bytes that fits, the two programs take turns in
any way, and between their steps other connections may change the world, as long as no value with a
newline comes in.

* `Phase`: at any moment the bytes on the way are one request or one reply, and no others.
* `conversation_in_step`: what the client has printed are the replies to its requests, in order, and
  the server is at most one request ahead.
* `Inv.advances`: until both programs are at their end, one of them can take a step.
* `conversation_ends`: every fair conversation ends: the client exits with status 0 after the
  replies to all requests up to the first `QUIT`.
-/

namespace CacheX

open Decimal (ascii)
open Lines ShardedCache RepliesLemmas

/-! ## The two programs -/

/-- Where `main` of the client is: at the prompt, in `send_all` with bytes left to send, in
`read_reply`, or at its end. -/
inductive ClientAt
  | prompt
  | sending (left : Bytes)
  | reading
  | exited (status : Nat)
deriving DecidableEq, Repr

/-- Where `serve` is: in `send_all` it has bytes left to send, and `goOn` is what `handle_line`
returns after it. -/
inductive ServerAt
  | drain
  | check
  | fill
  | sending (left : Bytes) (goOn : Bool)
  | returned
deriving DecidableEq, Repr

/-- The bytes a program has still to send. -/
def ClientAt.left : ClientAt → Nat
  | .sending left => left.length
  | _ => 0

def ServerAt.left : ServerAt → Nat
  | .sending left _ => left.length
  | _ => 0

/-- How far the server is from its next `recv`. -/
def ServerAt.rank : ServerAt → Nat
  | .drain => 3
  | .check => 2
  | .fill => 1
  | .sending _ _ => 1
  | .returned => 0

/-- A request the server has handled: the world before it, the number of the command, the line and
the reply. -/
structure Handled where
  world : World
  count : Nat
  line : Bytes
  reply : Bytes

/-- Both programs and the bytes between them. `log` is a ghost. -/
structure Dialogue where
  client : ClientAt
  input : List Bytes
  replies : Bytes
  printed : List Bytes
  server : ServerAt
  world : World
  handled : Nat
  buffer : Bytes
  up : Bytes
  down : Bytes
  log : List Handled

namespace Dialogue

/-- The client has connected and the server has accepted. -/
def start (input : List Bytes) (w : World) : Dialogue :=
  ⟨.prompt, input, [], [], .drain, w, 0, [], [], [], []⟩

/-- The client's test for the end of the conversation. -/
def bye : Bytes := ascii "+BYE"

/-- One step of the client, over a connection that holds `capacity` bytes on their way to the
server. An empty line is not sent. A `send` fails once the server has closed the connection, and a
`recv` then returns 0 when no bytes are left. -/
inductive ClientStep (capacity : Nat) (s : Dialogue) : Dialogue → Prop
  | eof (hat : s.client = .prompt) (hin : s.input = []) :
      ClientStep capacity s { s with client := .exited 0 }
  | blank {rest} (hat : s.client = .prompt) (hin : s.input = [] :: rest) :
      ClientStep capacity s { s with input := rest }
  | ask {line rest} (hat : s.client = .prompt) (hin : s.input = line :: rest) (hne : line ≠ []) :
      ClientStep capacity s { s with client := .sending (terminated line), input := rest }
  | send {left n} (hat : s.client = .sending left) (hpos : 0 < n) (hle : n ≤ left.length)
      (hroom : s.up.length + n ≤ capacity) (hopen : s.server ≠ .returned) :
      ClientStep capacity s { s with
        up := s.up ++ left.take n
        client := if n = left.length then .reading else .sending (left.drop n) }
  | sendFails {left} (hat : s.client = .sending left) (hclosed : s.server = .returned) :
      ClientStep capacity s { s with client := .exited 1 }
  | print {line rest} (hat : s.client = .reading) (hline : nextLine s.replies = some (line, rest)) :
      ClientStep capacity s { s with
        replies := rest
        printed := s.printed ++ [line]
        client := if line = bye then .exited 0 else .prompt }
  | recv {n} (hat : s.client = .reading) (hline : nextLine s.replies = none) (hpos : 0 < n)
      (hle : n ≤ s.down.length) (hchunk : n ≤ kReplyChunkBytes) :
      ClientStep capacity s { s with
        replies := s.replies ++ s.down.take n
        down := s.down.drop n }
  | hangup (hat : s.client = .reading) (hline : nextLine s.replies = none) (hdown : s.down = [])
      (hclosed : s.server = .returned) : ClientStep capacity s { s with client := .exited 1 }

section Server

variable (stdHash : Bytes → UInt64) (persistence : Bool) (outside : Outside)

/-- The client has exited, which closes its end of the connection. -/
def Gone (s : Dialogue) : Prop := ∃ status, s.client = .exited status

/-- One step of the server, over a connection that holds `capacity` bytes on their way to the
client. -/
inductive ServerStep (capacity : Nat) (s : Dialogue) : Dialogue → Prop
  | line {line rest w n reply} (hat : s.server = .drain)
      (hline : nextLine s.buffer = some (line, rest))
      (hanswer : answer stdHash persistence outside (s.world, s.handled) line
        = some ((w, n), reply)) :
      ServerStep capacity s { s with
        buffer := rest
        world := w
        handled := n
        server := .sending reply (!isQuit line)
        log := s.log ++ [⟨s.world, s.handled, line, reply⟩] }
  | noLine (hat : s.server = .drain) (hline : nextLine s.buffer = none) :
      ServerStep capacity s { s with server := .check }
  | tooLong (hat : s.server = .check) (hlong : kMaxLineBytes < s.buffer.length) :
      ServerStep capacity s { s with server := .sending lineTooLong false }
  | short (hat : s.server = .check) (hshort : ¬ kMaxLineBytes < s.buffer.length) :
      ServerStep capacity s { s with server := .fill }
  | recv {n} (hat : s.server = .fill) (hpos : 0 < n) (hle : n ≤ s.up.length)
      (hchunk : n ≤ kReadChunkBytes) :
      ServerStep capacity s { s with
        buffer := s.buffer ++ s.up.take n
        up := s.up.drop n
        server := .drain }
  | eof (hat : s.server = .fill) (hup : s.up = []) (hgone : s.Gone) :
      ServerStep capacity s { s with server := .returned }
  | send {left goOn n} (hat : s.server = .sending left goOn) (hpos : 0 < n)
      (hle : n ≤ left.length) (hroom : s.down.length + n ≤ capacity) (hopen : ¬ s.Gone) :
      ServerStep capacity s { s with
        down := s.down ++ left.take n
        server :=
          if n = left.length then if goOn then .drain else .returned
          else .sending (left.drop n) goOn }
  | sendFails {left goOn} (hat : s.server = .sending left goOn) (hgone : s.Gone) :
      ServerStep capacity s { s with server := .returned }

/-- A step of one of the two programs. -/
def Own (upCapacity downCapacity : Nat) (s s' : Dialogue) : Prop :=
  ClientStep upCapacity s s' ∨ ServerStep stdHash persistence outside downCapacity s s'

end Server

/-- Other connections, and the periodic saver, change the world. -/
def Others (good : World → Prop) (s s' : Dialogue) : Prop :=
  ∃ w, good w ∧ s' = { s with world := w }

/-! ## The phases -/

/-- The line that a client prints for a reply. -/
def shown (h : Handled) : Bytes := stripReturn h.reply.dropLast

/-- The server waits for a line: it has none, or it has not looked yet. -/
def Waiting (server : ServerAt) (buffer : Bytes) : Prop :=
  server = .drain ∨ (server = .check ∨ server = .fill) ∧ newline ∉ buffer

/-- A request that the client can send and the server takes. -/
def Sendable (line : Bytes) : Prop := newline ∉ line ∧ line.length ≤ kMaxLineBytes

def NoQuit (log : List Handled) : Prop := ∀ h ∈ log, isQuit h.line = false

/-- The phases of a conversation, with the request that has been asked and not been handled. Every
byte between the two programs belongs to that request, or to the reply to the one before. -/
inductive Phase (s : Dialogue) : List Bytes → Prop
  | quiet (client : s.client = .prompt) (server : Waiting s.server s.buffer)
      (buffer : s.buffer = []) (up : s.up = []) (down : s.down = []) (replies : s.replies = [])
      (printed : s.printed = s.log.map shown) (going : NoQuit s.log) : Phase s []
  | sending {line left} (client : s.client = .sending left) (hleft : left ≠ [])
      (server : Waiting s.server s.buffer) (hline : Sendable line)
      (bytes : s.buffer ++ (s.up ++ left) = terminated line) (down : s.down = [])
      (replies : s.replies = []) (printed : s.printed = s.log.map shown) (going : NoQuit s.log) :
      Phase s [line]
  | sent {line} (client : s.client = .reading) (server : Waiting s.server s.buffer)
      (hline : Sendable line) (bytes : s.buffer ++ s.up = terminated line) (down : s.down = [])
      (replies : s.replies = []) (printed : s.printed = s.log.map shown) (going : NoQuit s.log) :
      Phase s [line]
  | replying {before h x left} (client : s.client = .reading) (log : s.log = before ++ [h])
      (hleft : left ≠ []) (server : s.server = .sending left (!isQuit h.line))
      (reply : h.reply = terminated x) (hx : newline ∉ x)
      (bytes : s.replies ++ (s.down ++ left) = h.reply) (buffer : s.buffer = []) (up : s.up = [])
      (printed : s.printed = before.map shown) (going : NoQuit before) : Phase s []
  | replied {before h x} (client : s.client = .reading) (log : s.log = before ++ [h])
      (server : if isQuit h.line then s.server = .returned else Waiting s.server s.buffer)
      (reply : h.reply = terminated x) (hx : newline ∉ x)
      (bytes : s.replies ++ s.down = h.reply) (buffer : s.buffer = []) (up : s.up = [])
      (printed : s.printed = before.map shown) (going : NoQuit before) : Phase s []
  | finished (client : s.client = .exited 0)
      (server : Waiting s.server s.buffer ∨ s.server = .returned) (buffer : s.buffer = [])
      (up : s.up = []) (down : s.down = []) (printed : s.printed = s.log.map shown)
      (ended : s.input = [] ∧ NoQuit s.log ∨
        ∃ before h, s.log = before ++ [h] ∧ NoQuit before ∧ isQuit h.line = true) : Phase s []

section Invariant

variable {stdHash : Bytes → UInt64} {persistence : Bool} {outside : Outside}
  {good : World → Prop} {requests pending : List Bytes} {s s' : Dialogue}
  {upCapacity downCapacity : Nat}

/-- In a good world every request has a reply of one line, which says goodbye to a `QUIT` and to
nothing else, and the world stays good. -/
def Service (stdHash : Bytes → UInt64) (persistence : Bool) (outside : Outside)
    (good : World → Prop) (requests : List Bytes) : Prop :=
  ∀ w n, good w → ∀ line ∈ requests, ∃ w' n' reply,
    answer stdHash persistence outside (w, n) line = some ((w', n'), reply) ∧ good w' ∧
    OneLine reply ∧ (stripReturn reply.dropLast = bye ↔ isQuit line = true)

/-- The lines that are sent, as the server sees them. -/
def requestsOf (input : List Bytes) : List Bytes := (input.filter (· ≠ [])).map stripReturn

structure Inv (stdHash : Bytes → UInt64) (persistence : Bool) (outside : Outside)
    (good : World → Prop) (requests : List Bytes) (s : Dialogue) : Prop where
  world : good s.world
  answered : ∀ h ∈ s.log, good h.world ∧ ∃ st,
    answer stdHash persistence outside (h.world, h.count) h.line = some (st, h.reply)
  input : ∀ line ∈ s.input, Sendable line
  phase : ∃ pending, s.Phase pending ∧
    requests = s.log.map Handled.line ++ pending.map stripReturn ++ requestsOf s.input

theorem inv_start {input : List Bytes} {w : World} (hgood : good w)
    (hinput : ∀ line ∈ input, Sendable line) :
    Inv stdHash persistence outside good (requestsOf input) (start input w) :=
  ⟨hgood, nofun, hinput, [], .quiet rfl (.inl rfl) rfl rfl rfl rfl rfl nofun, rfl⟩

/-- A part of a line: the whole line, or a beginning without the newline. -/
theorem part_of_line {line a b : Bytes} (hline : newline ∉ line) (h : a ++ b = terminated line) :
    (b = [] ∧ a = terminated line) ∨
      (newline ∉ a ∧ ∃ b', b = b' ++ [newline] ∧ a ++ b' = line) := by
  rcases List.eq_nil_or_concat b with rfl | ⟨b', c, rfl⟩
  · rw [List.append_nil] at h
    exact .inl ⟨rfl, h⟩
  · rw [List.concat_eq_append, terminated, ← List.append_assoc] at h
    obtain ⟨hab, hc⟩ := List.append_inj' h rfl
    cases hc
    refine .inr ⟨fun ha => hline ?_, b', List.concat_eq_append, hab⟩
    rw [← hab]
    exact List.mem_append_left _ ha

theorem nextLine_terminated {line : Bytes} (hline : newline ∉ line) :
    nextLine (terminated line) = some (stripReturn line, []) :=
  nextLine_cons hline []

/-- A complete line is found only when all of it is there. -/
theorem nextLine_part {line a b l rest : Bytes} (hline : newline ∉ line)
    (h : a ++ b = terminated line) (hl : nextLine a = some (l, rest)) :
    b = [] ∧ a = terminated line ∧ l = stripReturn line ∧ rest = [] := by
  rcases part_of_line hline h with ⟨hb, ha⟩ | ⟨ha, -⟩
  · rw [ha, nextLine_terminated hline] at hl
    cases hl
    exact ⟨hb, ha, rfl, rfl⟩
  · rw [nextLine_of_notMem ha] at hl
    cases hl

theorem Waiting.ne_returned {server : ServerAt} {buffer : Bytes} (h : Waiting server buffer) :
    server ≠ .returned := by
  rintro rfl
  rcases h with h | ⟨h | h, -⟩ <;> cases h

theorem Waiting.ne_sending {server : ServerAt} {buffer left : Bytes} {goOn : Bool}
    (h : Waiting server buffer) : server ≠ .sending left goOn := by
  rintro rfl
  rcases h with h | ⟨h | h, -⟩ <;> cases h

/-- What is on the way after some bytes have moved on. -/
theorem take_drop_append (a b c : Bytes) (n : Nat) :
    (a ++ b.take n) ++ (b.drop n ++ c) = a ++ (b ++ c) := by
  rw [List.append_assoc, ← List.append_assoc (b.take n), List.take_append_drop]

theorem drop_ne_nil {left : Bytes} {n : Nat} (hle : n ≤ left.length) (hn : n ≠ left.length) :
    left.drop n ≠ [] := by
  rw [ne_eq, List.drop_eq_nil_iff]
  omega

/-! ### The client's steps -/

theorem Phase.send (h : s.Phase pending) {left : Bytes} {n : Nat}
    (hat : s.client = .sending left) (hle : n ≤ left.length) :
    Phase { s with
      up := s.up ++ left.take n
      client := if n = left.length then .reading else .sending (left.drop n) } pending := by
  cases h with
  | sending client hleft server hline bytes down replies printed going =>
    cases hat.symm.trans client
    by_cases hn : n = left.length
    · refine .sent (if_pos hn) server hline ?_ down replies printed going
      rw [List.take_of_length_le (Nat.le_of_eq hn.symm)]
      exact bytes
    · refine .sending (if_neg hn) (drop_ne_nil hle hn) server hline ?_ down replies printed going
      rw [List.append_assoc, List.take_append_drop]
      exact bytes
  | _ => cases hat.symm.trans ‹_›

theorem Phase.recvReply (h : s.Phase pending) {n : Nat} (hat : s.client = .reading) (hpos : 0 < n)
    (hle : n ≤ s.down.length) :
    Phase { s with replies := s.replies ++ s.down.take n, down := s.down.drop n } pending := by
  have hdown : s.down ≠ [] := by
    intro hnil
    rw [hnil] at hle
    exact absurd hle (Nat.not_le.mpr hpos)
  cases h with
  | sent client server hline bytes down => exact absurd down hdown
  | replying client log hleft server reply hx bytes buffer up printed going =>
    refine .replying client log hleft server reply hx ?_ buffer up printed going
    rw [take_drop_append]
    exact bytes
  | replied client log server reply hx bytes buffer up printed going =>
    refine .replied client log server reply hx ?_ buffer up printed going
    rw [List.append_assoc, List.take_append_drop]
    exact bytes
  | _ => cases hat.symm.trans ‹_›

/-- The client has a line: it is the reply to its request, and the server has sent all of it. -/
theorem Phase.print (h : s.Phase pending) {line rest : Bytes} (hat : s.client = .reading)
    (hline : nextLine s.replies = some (line, rest))
    (hbye : ∀ h ∈ s.log, (shown h = bye ↔ isQuit h.line = true)) :
    pending = [] ∧ Phase { s with
      replies := rest
      printed := s.printed ++ [line]
      client := if line = bye then .exited 0 else .prompt } [] := by
  cases h with
  | sent client server hline' bytes down replies =>
    rw [replies] at hline
    cases hline
  | @replying before h x left client log hleft server reply hx bytes =>
    rw [reply] at bytes
    obtain ⟨hnil, -⟩ := nextLine_part hx bytes hline
    exact absurd (List.append_eq_nil_iff.mp hnil).2 hleft
  | @replied before h x client log server reply hx bytes buffer up printed going =>
    rw [reply] at bytes
    obtain ⟨hdown, hreplies, rfl, rfl⟩ := nextLine_part hx bytes hline
    have hshown : stripReturn x = shown h := by
      rw [shown, reply, terminated, List.dropLast_concat]
    have hprinted : s.printed ++ [stripReturn x] = s.log.map shown := by
      rw [printed, log, hshown, List.map_append, List.map_singleton]
    have hquit := hbye h (by rw [log]; exact List.mem_append_right _ List.mem_cons_self)
    refine ⟨rfl, ?_⟩
    cases hq : isQuit h.line with
    | true =>
      have hlast : stripReturn x = bye := hshown.trans (hquit.mpr hq)
      rw [hq] at server
      exact .finished (if_pos hlast) (.inr server) buffer up hdown hprinted
        (.inr ⟨before, h, log, going, hq⟩)
    | false =>
      have hlast : stripReturn x ≠ bye := by
        intro he
        rw [hquit.mp (hshown.symm.trans he)] at hq
        cases hq
      rw [hq] at server
      refine .quiet (if_neg hlast) server buffer up hdown rfl hprinted ?_
      show NoQuit s.log
      rw [log]
      intro h' hh'
      rcases List.mem_append.mp hh' with hh' | hh'
      · exact going h' hh'
      · cases List.mem_singleton.mp hh'
        exact hq
  | _ => cases hat.symm.trans ‹_›

/-- The server never closes the connection under a client that waits. -/
theorem Phase.not_hangup (h : s.Phase pending) (hat : s.client = .reading)
    (hline : nextLine s.replies = none) (hdown : s.down = []) : s.server ≠ .returned := by
  cases h with
  | sent client server => exact server.ne_returned
  | replying client log hleft server =>
    intro hclosed
    cases hclosed.symm.trans server
  | replied client log server reply hx bytes =>
    rw [hdown, List.append_nil, reply] at bytes
    rw [bytes, nextLine_terminated hx] at hline
    cases hline
  | _ => cases hat.symm.trans ‹_›

theorem phase_client (h : s.Phase pending) (hstep : ClientStep upCapacity s s')
    (hinput : ∀ line ∈ s.input, Sendable line)
    (hbye : ∀ h ∈ s.log, (shown h = bye ↔ isQuit h.line = true)) :
    s'.log = s.log ∧ s'.world = s.world ∧ s'.input ⊆ s.input ∧ ∃ pending', s'.Phase pending' ∧
      pending'.map stripReturn ++ requestsOf s'.input
        = pending.map stripReturn ++ requestsOf s.input := by
  cases hstep with
  | eof hat hin =>
    cases h with
    | quiet client server buffer up down replies printed going =>
      exact ⟨rfl, rfl, fun _ h => h, [], .finished rfl (.inl server) buffer up down printed
        (.inl ⟨hin, going⟩), rfl⟩
    | _ => cases hat.symm.trans ‹_›
  | @blank rest hat hin =>
    cases h with
    | quiet client server buffer up down replies printed going =>
      refine ⟨rfl, rfl, ?_, [], .quiet client server buffer up down replies printed going, ?_⟩
      · rw [hin]
        exact List.subset_cons_self [] rest
      · rw [hin]
        rfl
    | _ => cases hat.symm.trans ‹_›
  | @ask line rest hat hin hne =>
    cases h with
    | quiet client server buffer up down replies printed going =>
      have hline : Sendable line := hinput line (by rw [hin]; exact List.mem_cons_self)
      have hterm : terminated line ≠ [] := List.append_ne_nil_of_right_ne_nil _ nofun
      refine ⟨rfl, rfl, ?_, [line], .sending rfl hterm server hline ?_ down replies printed going,
        ?_⟩
      · rw [hin]
        exact List.subset_cons_self line rest
      · rw [buffer, up]
        rfl
      · rw [hin, requestsOf, requestsOf, List.filter_cons_of_pos (by simpa using hne)]
        rfl
    | _ => cases hat.symm.trans ‹_›
  | send hat hpos hle hroom hopen =>
    exact ⟨rfl, rfl, fun _ h => h, pending, h.send hat hle, rfl⟩
  | sendFails hat hclosed =>
    cases h with
    | sending client hleft server => exact absurd hclosed server.ne_returned
    | _ => cases hat.symm.trans ‹_›
  | print hat hline =>
    obtain ⟨rfl, hphase⟩ := h.print hat hline hbye
    exact ⟨rfl, rfl, fun _ h => h, [], hphase, rfl⟩
  | recv hat hline hpos hle hchunk =>
    exact ⟨rfl, rfl, fun _ h => h, pending, h.recvReply hat hpos hle, rfl⟩
  | hangup hat hline hdown hclosed => exact absurd hclosed (h.not_hangup hat hline hdown)

/-! ### The server's steps -/

/-- The server has a line: it is the client's request, and the client has sent all of it. -/
theorem Phase.line (h : s.Phase pending) {line rest : Bytes} (hat : s.server = .drain)
    (hline : nextLine s.buffer = some (line, rest)) :
    ∃ raw, pending = [raw] ∧ line = stripReturn raw ∧ ∀ w n x, newline ∉ x →
      Phase { s with
        buffer := rest
        world := w
        handled := n
        server := .sending (terminated x) (!isQuit line)
        log := s.log ++ [⟨s.world, s.handled, line, terminated x⟩] } [] := by
  have hempty : s.buffer ≠ [] := by
    intro hnil
    rw [hnil] at hline
    cases hline
  cases h with
  | quiet client server buffer => exact absurd buffer hempty
  | sending client hleft server hraw bytes =>
    obtain ⟨hnil, -⟩ := nextLine_part hraw.1 bytes hline
    exact absurd (List.append_eq_nil_iff.mp hnil).2 hleft
  | @sent raw client server hraw bytes down replies printed going =>
    obtain ⟨hup, hbuffer, rfl, rfl⟩ := nextLine_part hraw.1 bytes hline
    refine ⟨raw, rfl, rfl, fun w n x hx => ?_⟩
    have hterm : terminated x ≠ [] := List.append_ne_nil_of_right_ne_nil _ nofun
    refine .replying client rfl hterm rfl rfl hx ?_ rfl hup printed going
    rw [replies, down]
    rfl
  | replying client log hleft server => cases hat.symm.trans server
  | replied client log server reply hx bytes buffer => exact absurd buffer hempty
  | finished client server buffer => exact absurd buffer hempty

/-- The server moves on without touching any bytes. -/
theorem Phase.look (h : s.Phase pending) {server : ServerAt} (hold : Waiting s.server s.buffer)
    (hnew : Waiting server s.buffer) : Phase { s with server := server } pending := by
  cases h with
  | quiet client _ buffer up down replies printed going =>
    exact .quiet client hnew buffer up down replies printed going
  | sending client hleft _ hline bytes down replies printed going =>
    exact .sending client hleft hnew hline bytes down replies printed going
  | sent client _ hline bytes down replies printed going =>
    exact .sent client hnew hline bytes down replies printed going
  | replying client log hleft hserver => exact absurd hserver hold.ne_sending
  | @replied before h x client log hserver reply hx bytes buffer up printed going =>
    refine .replied client log ?_ reply hx bytes buffer up printed going
    split at hserver
    · exact absurd hserver hold.ne_returned
    · next hq => rwa [if_neg hq]
  | finished client _ buffer up down printed ended =>
    exact .finished client (.inl hnew) buffer up down printed ended

theorem Phase.notMem_of_check (h : s.Phase pending) (hat : s.server = .check) :
    newline ∉ s.buffer := by
  have hwaiting : Waiting s.server s.buffer → newline ∉ s.buffer := by
    rintro (hdrain | ⟨-, hnl⟩)
    · cases hat.symm.trans hdrain
    · exact hnl
  have hnil : s.buffer = [] → newline ∉ s.buffer := by
    intro hnil
    rw [hnil]
    exact List.not_mem_nil
  cases h with
  | quiet client server => exact hwaiting server
  | sending client hleft server => exact hwaiting server
  | sent client server => exact hwaiting server
  | replying client log hleft server reply hx bytes buffer => exact hnil buffer
  | replied client log server reply hx bytes buffer => exact hnil buffer
  | finished client server buffer => exact hnil buffer

/-- No request is too long: what is buffered of it has no newline yet. -/
theorem Phase.not_tooLong (h : s.Phase pending) (hat : s.server = .check) :
    s.buffer.length ≤ kMaxLineBytes := by
  have hpart : ∀ {line rest : Bytes}, Sendable line → s.buffer ++ rest = terminated line →
      s.buffer.length ≤ kMaxLineBytes := by
    intro line rest hline hbytes
    rcases part_of_line hline.1 hbytes with ⟨-, hbuffer⟩ | ⟨-, b, -, rfl⟩
    · have hnl := h.notMem_of_check hat
      rw [hbuffer] at hnl
      exact absurd (List.mem_append_right _ List.mem_cons_self) hnl
    · have hle := hline.2
      rw [List.length_append] at hle
      exact (Nat.le_add_right _ _).trans hle
  have hnil : s.buffer = [] → s.buffer.length ≤ kMaxLineBytes := by
    intro hnil
    rw [hnil]
    exact Nat.zero_le _
  cases h with
  | quiet client server buffer => exact hnil buffer
  | sending client hleft server hline bytes => exact hpart hline bytes
  | sent client server hline bytes => exact hpart hline bytes
  | replying client log hleft server => cases hat.symm.trans server
  | replied client log server reply hx bytes buffer => exact hnil buffer
  | finished client server buffer => exact hnil buffer

theorem Phase.recvRequest (h : s.Phase pending) {n : Nat} (hat : s.server = .fill) (hpos : 0 < n)
    (hle : n ≤ s.up.length) :
    Phase { s with
      buffer := s.buffer ++ s.up.take n
      up := s.up.drop n
      server := .drain } pending := by
  have hup : s.up ≠ [] := by
    intro hnil
    rw [hnil] at hle
    exact absurd hle (Nat.not_le.mpr hpos)
  cases h with
  | quiet client server buffer up => exact absurd up hup
  | sending client hleft server hline bytes down replies printed going =>
    refine .sending client hleft (.inl rfl) hline ?_ down replies printed going
    rw [take_drop_append]
    exact bytes
  | sent client server hline bytes down replies printed going =>
    refine .sent client (.inl rfl) hline ?_ down replies printed going
    rw [List.append_assoc, List.take_append_drop]
    exact bytes
  | replying client log hleft server => cases hat.symm.trans server
  | replied client log server reply hx bytes buffer up => exact absurd up hup
  | finished client server buffer up => exact absurd up hup

theorem Phase.sendReply (h : s.Phase pending) {left : Bytes} {goOn : Bool} {n : Nat}
    (hat : s.server = .sending left goOn) (hle : n ≤ left.length) :
    Phase { s with
      down := s.down ++ left.take n
      server :=
        if n = left.length then if goOn then .drain else .returned
        else .sending (left.drop n) goOn } pending := by
  cases h with
  | @replying before h x _ client log hleft server reply hx bytes buffer up printed going =>
    cases hat.symm.trans server
    by_cases hn : n = left.length
    · refine .replied client log ?_ reply hx ?_ buffer up printed going
      · rw [if_pos hn]
        cases isQuit h.line with
        | true => rfl
        | false => exact .inl rfl
      · rw [List.take_of_length_le (Nat.le_of_eq hn.symm)]
        exact bytes
    · refine .replying client log (drop_ne_nil hle hn) (if_neg hn) reply hx ?_ buffer up printed
        going
      rw [List.append_assoc, List.take_append_drop]
      exact bytes
  | quiet client server => exact absurd hat server.ne_sending
  | sending client hleft server => exact absurd hat server.ne_sending
  | sent client server => exact absurd hat server.ne_sending
  | replied client log server =>
    split at server
    · cases hat.symm.trans server
    · exact absurd hat server.ne_sending
  | finished client server =>
    rcases server with server | server
    · exact absurd hat server.ne_sending
    · cases hat.symm.trans server

/-- A client that is gone has got everything it asked for. -/
theorem Phase.gone (h : s.Phase pending) (hgone : s.Gone) :
    pending = [] ∧ s.client = .exited 0 ∧ (Waiting s.server s.buffer ∨ s.server = .returned) ∧
      Phase { s with server := .returned } [] := by
  obtain ⟨status, hat⟩ := hgone
  cases h with
  | finished client server buffer up down printed ended =>
    exact ⟨rfl, client, server, .finished client (.inr rfl) buffer up down printed ended⟩
  | _ => cases hat.symm.trans ‹_›

/-! ### Every step -/

theorem Inv.bye_iff (h : Inv stdHash persistence outside good requests s)
    (hservice : Service stdHash persistence outside good requests) :
    ∀ x ∈ s.log, (shown x = bye ↔ isQuit x.line = true) := by
  intro x hx
  obtain ⟨pending, -, hrequests⟩ := h.phase
  obtain ⟨hgood, st, hanswer⟩ := h.answered x hx
  have hmem : x.line ∈ requests := by
    rw [hrequests, List.append_assoc]
    exact List.mem_append_left _ (List.mem_map_of_mem hx)
  obtain ⟨w', n', reply, hanswer', -, -, hbye⟩ := hservice x.world x.count hgood x.line hmem
  rw [hanswer] at hanswer'
  cases hanswer'
  exact hbye

theorem Inv.client (h : Inv stdHash persistence outside good requests s)
    (hservice : Service stdHash persistence outside good requests)
    (hstep : ClientStep upCapacity s s') : Inv stdHash persistence outside good requests s' := by
  obtain ⟨pending, hphase, hrequests⟩ := h.phase
  obtain ⟨hlog, hworld, hinput, pending', hphase', hsame⟩ :=
    phase_client hphase hstep h.input (h.bye_iff hservice)
  refine ⟨hworld ▸ h.world, hlog ▸ h.answered, fun line hline => h.input line (hinput hline),
    pending', hphase', ?_⟩
  rw [hrequests, hlog, List.append_assoc, List.append_assoc, hsame]

theorem Inv.server (h : Inv stdHash persistence outside good requests s)
    (hservice : Service stdHash persistence outside good requests)
    (hstep : ServerStep stdHash persistence outside downCapacity s s') :
    Inv stdHash persistence outside good requests s' := by
  obtain ⟨pending, hphase, hrequests⟩ := h.phase
  cases hstep with
  | @line line rest w n reply hat hline hanswer =>
    obtain ⟨raw, rfl, rfl, hnext⟩ := hphase.line hat hline
    have hmem : stripReturn raw ∈ requests := by
      rw [hrequests]
      exact List.mem_append_left _ (List.mem_append_right _ List.mem_cons_self)
    obtain ⟨w', n', reply', hanswer', hgood, hone, -⟩ :=
      hservice s.world s.handled h.world _ hmem
    rw [hanswer] at hanswer'
    cases hanswer'
    obtain ⟨x, hx, rfl⟩ := terminated_of_oneLine hone
    refine ⟨hgood, fun y hy => ?_, h.input, [], hnext w n x hx, ?_⟩
    · rcases List.mem_append.mp hy with hy | hy
      · exact h.answered y hy
      · cases List.mem_singleton.mp hy
        exact ⟨h.world, _, hanswer⟩
    · rw [hrequests, List.map_append]
      simp
  | noLine hat hline =>
    exact ⟨h.world, h.answered, h.input, pending, hphase.look (.inl hat)
      (.inr ⟨.inl rfl, nextLine_eq_none hline⟩), hrequests⟩
  | tooLong hat hlong => exact absurd (hphase.not_tooLong hat) (Nat.not_le.mpr hlong)
  | short hat hshort =>
    have hnl := hphase.notMem_of_check hat
    exact ⟨h.world, h.answered, h.input, pending, hphase.look (.inr ⟨.inl hat, hnl⟩)
      (.inr ⟨.inr rfl, hnl⟩), hrequests⟩
  | recv hat hpos hle hchunk =>
    exact ⟨h.world, h.answered, h.input, pending, hphase.recvRequest hat hpos hle, hrequests⟩
  | eof hat hup hgone =>
    obtain ⟨rfl, -, -, hnext⟩ := hphase.gone hgone
    exact ⟨h.world, h.answered, h.input, [], hnext, hrequests⟩
  | send hat hpos hle hroom hopen =>
    exact ⟨h.world, h.answered, h.input, pending, hphase.sendReply hat hle, hrequests⟩
  | sendFails hat hgone =>
    obtain ⟨rfl, -, -, hnext⟩ := hphase.gone hgone
    exact ⟨h.world, h.answered, h.input, [], hnext, hrequests⟩

theorem Inv.others (h : Inv stdHash persistence outside good requests s)
    (hstep : Others good s s') : Inv stdHash persistence outside good requests s' := by
  obtain ⟨w, hw, rfl⟩ := hstep
  obtain ⟨pending, hphase, hrequests⟩ := h.phase
  refine ⟨hw, h.answered, h.input, pending, ?_, hrequests⟩
  -- no phase speaks about the world
  cases hphase with
  | quiet client server buffer up down replies printed going =>
    exact .quiet client server buffer up down replies printed going
  | sending client hleft server hline bytes down replies printed going =>
    exact .sending client hleft server hline bytes down replies printed going
  | sent client server hline bytes down replies printed going =>
    exact .sent client server hline bytes down replies printed going
  | replying client log hleft server reply hx bytes buffer up printed going =>
    exact .replying client log hleft server reply hx bytes buffer up printed going
  | replied client log server reply hx bytes buffer up printed going =>
    exact .replied client log server reply hx bytes buffer up printed going
  | finished client server buffer up down printed ended =>
    exact .finished client server buffer up down printed ended

/-- Every moment of a conversation, as long as the others keep the world good. -/
theorem inv_of_reaches {input : List Bytes} {w : World} (hgood : good w)
    (hinput : ∀ line ∈ input, Sendable line)
    (hservice : Service stdHash persistence outside good (requestsOf input))
    (h : Relation.ReflTransGen (fun s s' =>
      Own stdHash persistence outside upCapacity downCapacity s s' ∨ Others good s s')
      (start input w) s) :
    Inv stdHash persistence outside good (requestsOf input) s := by
  induction h with
  | refl => exact inv_start hgood hinput
  | tail _ hstep ih =>
    rcases hstep with (hstep | hstep) | hstep
    · exact ih.client hservice hstep
    · exact ih.server hservice hstep
    · exact ih.others hstep

/-! ## Progress -/

/-- A waiting server can go on if there is a line, or there are bytes, or the client is gone. -/
theorem Inv.server_advances (h : Inv stdHash persistence outside good requests s)
    (hservice : Service stdHash persistence outside good requests)
    (hwaiting : Waiting s.server s.buffer) (hmore : newline ∈ s.buffer ∨ s.up ≠ [] ∨ s.Gone) :
    ∃ s', ServerStep stdHash persistence outside downCapacity s s' := by
  obtain ⟨pending, hphase, hrequests⟩ := h.phase
  rcases hwaiting with hat | ⟨hat | hat, hnl⟩
  · cases hline : nextLine s.buffer with
    | none => exact ⟨_, .noLine hat hline⟩
    | some p =>
      obtain ⟨raw, rfl, hraw, -⟩ := hphase.line hat (show _ = some (p.1, p.2) from hline)
      have hmem : p.1 ∈ requests := by
        rw [hrequests, hraw]
        exact List.mem_append_left _ (List.mem_append_right _ List.mem_cons_self)
      obtain ⟨w, n, reply, hanswer, -⟩ := hservice s.world s.handled h.world p.1 hmem
      exact ⟨_, .line hat hline hanswer⟩
  · by_cases hlong : kMaxLineBytes < s.buffer.length
    · exact ⟨_, .tooLong hat hlong⟩
    · exact ⟨_, .short hat hlong⟩
  · by_cases hup : s.up = []
    · refine ⟨_, .eof hat hup ?_⟩
      rcases hmore with hmem | hup' | hgone
      · exact absurd hmem hnl
      · exact absurd hup hup'
      · exact hgone
    · have hpos : 0 < s.up.length := List.length_pos_iff.mpr hup
      exact ⟨_, .recv (n := 1) hat Nat.one_pos hpos (by decide)⟩

/-- A client that reads can go on if there is a line or there are bytes. -/
theorem client_advances (hat : s.client = .reading)
    (hmore : newline ∈ s.replies ∨ s.down ≠ []) : ∃ s', ClientStep upCapacity s s' := by
  cases hline : nextLine s.replies with
  | some p => exact ⟨_, .print hat hline⟩
  | none =>
    have hpos : 0 < s.down.length := by
      refine List.length_pos_iff.mpr (hmore.resolve_left ?_)
      exact nextLine_eq_none hline
    exact ⟨_, .recv (n := 1) hat hline Nat.one_pos hpos (by decide)⟩

/-- Until both programs are at their end, one of them can take a step. -/
theorem Inv.advances (h : Inv stdHash persistence outside good requests s)
    (hservice : Service stdHash persistence outside good requests) (hup : 0 < upCapacity)
    (hdown : 0 < downCapacity) (hend : ¬ (s.client = .exited 0 ∧ s.server = .returned)) :
    ∃ s', Own stdHash persistence outside upCapacity downCapacity s s' := by
  have hserver : (∃ s', ServerStep stdHash persistence outside downCapacity s s') →
      ∃ s', Own stdHash persistence outside upCapacity downCapacity s s' :=
    Exists.imp fun _ => .inr
  have hclient : (∃ s', ClientStep upCapacity s s') →
      ∃ s', Own stdHash persistence outside upCapacity downCapacity s s' :=
    Exists.imp fun _ => .inl
  obtain ⟨pending, hphase, -⟩ := h.phase
  cases hphase with
  | quiet client =>
    refine hclient ?_
    cases hin : s.input with
    | nil => exact ⟨_, .eof client hin⟩
    | cons line rest =>
      by_cases hne : line = []
      · exact ⟨_, .blank client (hne ▸ hin)⟩
      · exact ⟨_, .ask client hin hne⟩
  | sending client hleft server =>
    by_cases hroom : s.up.length + 1 ≤ upCapacity
    · exact hclient ⟨_, .send client Nat.one_pos (List.length_pos_iff.mpr hleft) hroom
        server.ne_returned⟩
    · refine hserver (h.server_advances hservice server (.inr (.inl fun hnil => hroom ?_)))
      rw [hnil]
      exact hup
  | @sent line client server hline bytes =>
    refine hserver (h.server_advances hservice server ?_)
    by_cases hnil : s.up = []
    · rw [hnil, List.append_nil] at bytes
      rw [bytes]
      exact .inl (List.mem_append_right _ List.mem_cons_self)
    · exact .inr (.inl hnil)
  | replying client log hleft server =>
    by_cases hroom : s.down.length + 1 ≤ downCapacity
    · refine hserver ⟨_, .send server Nat.one_pos (List.length_pos_iff.mpr hleft) hroom ?_⟩
      rintro ⟨status, hgone⟩
      cases hgone.symm.trans client
    · refine hclient (client_advances client (.inr fun hnil => hroom ?_))
      rw [hnil]
      exact hdown
  | replied client log server reply hx bytes =>
    refine hclient (client_advances client ?_)
    by_cases hnil : s.down = []
    · rw [hnil, List.append_nil, reply] at bytes
      rw [bytes]
      exact .inl (List.mem_append_right _ List.mem_cons_self)
    · exact .inr hnil
  | finished client server =>
    rcases server with server | server
    · exact hserver (h.server_advances hservice server (.inr (.inr ⟨0, client⟩)))
    · exact absurd ⟨client, server⟩ hend

/-! ## Termination -/

/-- How far the client is from the end of the current request. -/
def clientRank (s : Dialogue) : Nat :=
  match s.client with
  | .exited _ => 0
  | .prompt => 1
  | _ => if s.log.length = s.printed.length then 3 else 2

def bytesLeft (s : Dialogue) : Nat :=
  4 * (2 * (s.client.left + s.server.left) + s.up.length + s.down.length) + s.server.rank

/-- What is left to do: requests first, then the bytes of the current one. -/
def work (s : Dialogue) : Nat ×ₗ Nat := toLex (4 * s.input.length + s.clientRank, s.bytesLeft)

theorem work_lt_of_requests
    (h : 4 * s'.input.length + s'.clientRank < 4 * s.input.length + s.clientRank) :
    s'.work < s.work :=
  Prod.Lex.toLex_lt_toLex.mpr (.inl h)

theorem work_lt_of_bytes (hinput : s'.input = s.input) (hrank : s'.clientRank = s.clientRank)
    (h : s'.bytesLeft < s.bytesLeft) : s'.work < s.work := by
  refine Prod.Lex.toLex_lt_toLex.mpr (.inr ⟨?_, h⟩)
  rw [hinput, hrank]

theorem clientRank_le_three (s : Dialogue) : s.clientRank ≤ 3 := by
  unfold clientRank
  split
  · exact Nat.zero_le 3
  · exact Nat.le_of_ble_eq_true rfl
  · split <;> exact Nat.le_of_ble_eq_true rfl

theorem work_client (hphase : s.Phase pending) (hstep : ClientStep upCapacity s s') :
    s'.work < s.work := by
  cases hstep with
  | eof hat hin =>
    refine work_lt_of_requests ?_
    simp [clientRank, hat]
  | blank hat hin =>
    refine work_lt_of_requests ?_
    simp [clientRank, hat, hin]
  | @ask line rest hat hin hne =>
    refine work_lt_of_requests ?_
    have hafter := clientRank_le_three
      { s with client := .sending (terminated line), input := rest }
    have hbefore : s.clientRank = 1 := by simp [clientRank, hat]
    show 4 * rest.length + _ < _
    rw [hbefore, hin, List.length_cons]
    omega
  | @send left n hat hpos hle hroom hopen =>
    by_cases hn : n = left.length
    · refine work_lt_of_bytes rfl (by simp [clientRank, hat, hn]) ?_
      simp only [bytesLeft, hat, ClientAt.left, if_pos hn, List.length_append, List.length_take]
      omega
    · refine work_lt_of_bytes rfl (by simp [clientRank, hat, hn]) ?_
      simp only [bytesLeft, hat, ClientAt.left, if_neg hn, List.length_append, List.length_take,
        List.length_drop]
      omega
  | sendFails hat hclosed =>
    cases hphase with
    | sending client hleft server => exact absurd hclosed server.ne_returned
    | _ => cases hat.symm.trans ‹_›
  | @print line rest hat hline =>
    refine work_lt_of_requests ?_
    have hbefore : 2 ≤ s.clientRank := by
      simp only [clientRank, hat]
      split <;> decide
    have hafter : clientRank { s with
        replies := rest
        printed := s.printed ++ [line]
        client := if line = bye then .exited 0 else .prompt } ≤ 1 := by
      by_cases hl : line = bye
      · simp [clientRank, hl]
      · simp [clientRank, hl]
    exact Nat.add_lt_add_left (Nat.lt_of_le_of_lt hafter hbefore) _
  | @recv n hat hline hpos hle hchunk =>
    refine work_lt_of_bytes rfl (by simp [clientRank, hat]) ?_
    simp only [bytesLeft, List.length_drop]
    omega
  | hangup hat hline hdown hclosed => exact absurd hclosed (hphase.not_hangup hat hline hdown)

theorem work_server (hphase : s.Phase pending)
    (hstep : ServerStep stdHash persistence outside downCapacity s s') : s'.work < s.work := by
  cases hstep with
  | @line line rest w n reply hat hline hanswer =>
    refine work_lt_of_requests (Nat.add_lt_add_left ?_ _)
    obtain ⟨raw, rfl, -, -⟩ := hphase.line hat hline
    -- the client reads, and the server gets ahead of it
    cases hphase with
    | sending client hleft server hraw bytes =>
      obtain ⟨hnil, -⟩ := nextLine_part hraw.1 bytes hline
      exact absurd (List.append_eq_nil_iff.mp hnil).2 hleft
    | sent client server hraw bytes down replies printed going =>
      simp [clientRank, client, printed]
  | noLine hat hline =>
    refine work_lt_of_bytes rfl rfl ?_
    simp [bytesLeft, hat, ServerAt.left, ServerAt.rank]
  | tooLong hat hlong => exact absurd (hphase.not_tooLong hat) (Nat.not_le.mpr hlong)
  | short hat hshort =>
    refine work_lt_of_bytes rfl rfl ?_
    simp [bytesLeft, hat, ServerAt.left, ServerAt.rank]
  | @recv n hat hpos hle hchunk =>
    refine work_lt_of_bytes rfl rfl ?_
    simp only [bytesLeft, hat, ServerAt.left, ServerAt.rank, List.length_drop]
    omega
  | eof hat hup hgone =>
    refine work_lt_of_bytes rfl rfl ?_
    simp [bytesLeft, hat, ServerAt.left, ServerAt.rank]
  | @send left goOn n hat hpos hle hroom hopen =>
    refine work_lt_of_bytes rfl rfl ?_
    by_cases hn : n = left.length
    · have hrank : (if goOn then ServerAt.drain else .returned).rank ≤ 3 := by cases goOn <;> decide
      have hleft : (if goOn then ServerAt.drain else .returned).left = 0 := by cases goOn <;> rfl
      simp only [bytesLeft, if_pos hn, hleft, List.length_append, List.length_take]
      generalize (if goOn then ServerAt.drain else .returned).rank = r at hrank
      simp only [hat, ServerAt.left, ServerAt.rank]
      omega
    · simp only [bytesLeft, hat, if_neg hn, ServerAt.left, ServerAt.rank, List.length_append,
        List.length_take, List.length_drop]
      omega
  | sendFails hat hgone =>
    obtain ⟨-, -, hserver, -⟩ := hphase.gone hgone
    rcases hserver with hserver | hserver
    · exact absurd hat hserver.ne_sending
    · cases hat.symm.trans hserver

/-- The replies of a conversation that is over. -/
theorem Inv.ended (h : Inv stdHash persistence outside good requests s)
    (hexit : s.client = .exited 0) :
    s.log.map Handled.line = upToQuit requests ∧ s.printed = s.log.map shown := by
  obtain ⟨pending, hphase, hrequests⟩ := h.phase
  cases hphase with
  | finished client server buffer up down printed ended =>
    refine ⟨?_, printed⟩
    rw [hrequests, List.map_nil, List.append_nil]
    rcases ended with ⟨hinput, going⟩ | ⟨before, x, hlog, going, hquit⟩
    · have hlines : ∀ line ∈ s.log.map Handled.line, isQuit line = false :=
        List.forall_mem_map.mpr going
      rw [hinput, ConnectionLemmas.upToQuit_append hlines]
      exact (List.append_nil _).symm
    · have hlines : ∀ line ∈ before.map Handled.line, isQuit line = false :=
        List.forall_mem_map.mpr going
      rw [hlog, List.map_append, List.append_assoc, ConnectionLemmas.upToQuit_append hlines]
      simp [upToQuit, hquit]
  | _ => cases hexit.symm.trans ‹_›

end Invariant

/-! ## The service of the cache -/

section Service

variable {stdHash : Bytes → UInt64} {persistence : Bool} {outside : Outside}

/-- The shards are well formed, and no value that a request can name has a newline. -/
def Calm (stdHash : Bytes → UInt64) (w : World) : Prop :=
  w.cache.WF stdHash ∧ PlainValues w.cache

/-- A request other than `LOAD`. -/
def NoLoad (line : Bytes) : Prop := ∀ command, commandOf line = some command → command.type ≠ .load

instance (line : Bytes) : Decidable (NoLoad line) :=
  decidable_of_iff (∀ command ∈ commandOf line, command.type ≠ .load) Iff.rfl

theorem answer_of_respond {w : World} {n : Nat} {line : Bytes} {sc : ShardedCache} {reply : Bytes}
    (h : respond stdHash persistence w.cache ⟨outside.env n, w.file, line⟩ = some (sc, reply)) :
    ∃ w' n', answer stdHash persistence outside (w, n) line = some ((w', n'), reply) ∧
      w'.cache = sc := by
  unfold respond at h
  unfold answer
  cases hparse : parseCommand line with
  | error e =>
    simp only [hparse] at h ⊢
    cases h
    exact ⟨w, n, rfl, rfl⟩
  | ok command =>
    simp only [hparse] at h ⊢
    obtain ⟨p, hp, heq⟩ := Option.map_eq_some_iff.mp h
    cases heq
    exact ⟨p.1, n + 1, by rw [hp]; rfl, rfl⟩

/-- The reply does not begin like a goodbye. -/
def Stays (reply : Bytes) : Prop := reply.take 2 ≠ ascii "+B"

theorem stays_of_head {reply : Bytes} {c : UInt8} (h : reply.head? = some c)
    (hc : c ≠ 43) : Stays reply := by
  intro htake
  have hhead : (reply.take 2).head? = reply.head? := by
    cases reply with
    | nil => rfl
    | cons _ _ => rfl
  rw [htake, h] at hhead
  exact hc (Option.some.inj hhead).symm

theorem stays_replyInteger (z : Int) : Stays (replyInteger z) := stays_of_head rfl (by decide)

theorem stays_replyError (message : Bytes) : Stays (replyError message) :=
  stays_of_head rfl (by decide)

theorem stays_line (r : Reply) : Stays r.line := by
  have hok : Stays replyOk := by
    unfold Stays
    decide
  cases r with
  | value v =>
    cases v with
    | none => exact stays_of_head rfl (by decide)
    | some v => exact stays_of_head rfl (by decide)
  | ttl info =>
    show Stays (replyTtl info)
    unfold replyTtl
    split
    · exact stays_of_head rfl (by decide)
    · unfold Stays
      decide
    · exact stays_replyInteger _
  | bool b => exact stays_replyInteger _
  | _ => exact hok

theorem execute_stays {env : Env} {w w' : World} {command : Command} {reply : Bytes}
    (h : execute stdHash persistence env w command = some (w', reply))
    (hquit : command.type ≠ .quit) : Stays reply := by
  cases hop : command.op with
  | some op =>
    rw [execute_op stdHash persistence env w hop] at h
    obtain ⟨p, -, heq⟩ := Option.map_eq_some_iff.mp h
    cases heq
    exact stays_line p.2
  | none =>
    obtain ⟨type, key, value, ttl⟩ := command
    cases type with
    | ping =>
      cases h
      unfold Stays
      decide
    | quit => exact absurd rfl hquit
    | save =>
      cases persistence with
      | false =>
        cases h
        exact stays_replyError _
      | true =>
        cases h
        unfold replySave
        split
        · exact stays_replyInteger _
        · exact stays_replyError _
    | load =>
      cases persistence with
      | false =>
        cases h
        exact stays_replyError _
      | true =>
        obtain ⟨p, -, heq⟩ := Option.map_eq_some_iff.mp h
        cases heq
        unfold replyLoad
        split
        · exact stays_replyInteger _
        · exact stays_replyError _
    | set => cases ttl <;> cases hop
    | _ => cases hop

/-- A client reads a goodbye exactly when it has sent a `QUIT`. -/
theorem bye_iff_quit {line : Bytes} {w : World} {n : Nat} {st : World × Nat} {reply : Bytes}
    (h : answer stdHash persistence outside (w, n) line = some (st, reply)) (hone : OneLine reply) :
    stripReturn reply.dropLast = bye ↔ isQuit line = true := by
  have hbye : stripReturn reply.dropLast = bye → ¬ Stays reply := by
    obtain ⟨x, -, rfl⟩ := terminated_of_oneLine hone
    rw [terminated, List.dropLast_concat, stripReturn_eq_iff (by decide), Stays, not_not]
    rintro (rfl | rfl)
    · decide
    · decide
  unfold answer at h
  cases hparse : parseCommand line with
  | error e =>
    have hquit : isQuit line = false := by rw [isQuit, commandOf, hparse]; rfl
    rw [hparse] at h
    cases h
    rw [hquit]
    exact iff_of_false (fun hb => hbye hb (stays_replyError e)) Bool.false_ne_true
  | ok command =>
    have hcommand : isQuit line = (command.type == .quit) := by rw [isQuit, commandOf, hparse]; rfl
    simp only [hparse] at h
    obtain ⟨p, hp, heq⟩ := Option.map_eq_some_iff.mp h
    cases heq
    rw [hcommand]
    by_cases hq : command.type = .quit
    · obtain ⟨type, key, value, ttl⟩ := command
      cases hq
      cases hp
      refine iff_of_true ?_ rfl
      show stripReturn replyBye.dropLast = bye
      decide
    · exact iff_of_false (fun hb => hbye hb (execute_stays hp hq)) (by simpa using hq)

/-- A calm world answers every request, but with a snapshot path no `LOAD`. -/
theorem service_of_calm {requests : List Bytes} (hlines : ∀ line ∈ requests, newline ∉ line)
    (hload : persistence = true → ∀ line ∈ requests, NoLoad line)
    (houtcome : persistence = true → ∀ n, newline ∉ (outside.env n).outcome.text) :
    Service stdHash persistence outside (Calm stdHash) requests := by
  intro w n hcalm line hline
  have hplain : (Request.mk (outside.env n) w.file line).Plain persistence := by
    unfold Request.Plain
    cases persistence with
    | false => trivial
    | true =>
      cases hc : commandOf line with
      | none => trivial
      | some command =>
        have hne := hload rfl line hline command hc
        rw [Option.map_some]
        cases htype : command.type with
        | load => exact absurd htype hne
        | save => exact houtcome rfl n
        | _ => trivial
  obtain ⟨sc, reply, hrespond, hwf, hvalues, hone⟩ :=
    respond_oneLine hcalm.1 hcalm.2 (hlines line hline) hplain
  obtain ⟨w', n', hanswer, rfl⟩ := answer_of_respond hrespond
  exact ⟨w', n', reply, hanswer, ⟨hwf, hvalues⟩, hone, bye_iff_quit hanswer hone⟩

theorem newline_notMem_requestsOf {input : List Bytes} (h : ∀ line ∈ input, Sendable line) :
    ∀ line ∈ requestsOf input, newline ∉ line := by
  intro line hline
  obtain ⟨raw, hraw, rfl⟩ := List.mem_map.mp hline
  exact newline_notMem_stripReturn (h raw (List.mem_filter.mp hraw).1).1

theorem calm_unbounded : Calm (fun _ => 0) ⟨.unbounded 1, none⟩ :=
  ⟨wf_unbounded 1, fun _ hs _ he => absurd (@items_shardedNew 1 none _ hs ▸ he) List.not_mem_nil⟩

/-- The lines of a client that says goodbye before its last line. The second is not sent. -/
def quitEarly : List Bytes := [ascii "SET k v", [], ascii "GET k", ascii "QUIT", ascii "PING"]

theorem sendable_quitEarly : ∀ line ∈ quitEarly, Sendable line := by
  unfold Sendable
  decide

theorem noLoad_quitEarly : ∀ line ∈ requestsOf quitEarly, NoLoad line := by
  decide

end Service

end Dialogue

open Dialogue

/-- **In step.** At any moment of a conversation over a connection of any capacity: the server has
handled the first requests of the client, in order and each once; the client has printed the first
line of each of their replies, in order, but for the last one at most; and it has not exited with an
error. The conversation begins in a calm world and the other connections keep it calm: no value that
a request can name has a newline. The lines of the client are no longer than the server takes, and
with a snapshot path there is no `LOAD` among them, and no newline in the text of a failed save. -/
theorem conversation_in_step {stdHash : Bytes → UInt64} {persistence : Bool} {outside : Outside}
    {input : List Bytes} {w : World} {upCapacity downCapacity : Nat} (hcalm : Calm stdHash w)
    (hinput : ∀ line ∈ input, Sendable line)
    (hload : persistence = true → ∀ line ∈ requestsOf input, NoLoad line)
    (houtcome : persistence = true → ∀ n, newline ∉ (outside.env n).outcome.text) {s : Dialogue}
    (h : Relation.ReflTransGen (fun s s' =>
      Own stdHash persistence outside upCapacity downCapacity s s' ∨ Others (Calm stdHash) s s')
      (start input w) s) :
    s.log.map Handled.line <+: requestsOf input ∧
    s.printed = (s.log.take s.printed.length).map shown ∧
    s.printed.length ≤ s.log.length ∧ s.log.length ≤ s.printed.length + 1 ∧
    (∀ x ∈ s.log, ∃ st, answer stdHash persistence outside (x.world, x.count) x.line
      = some (st, x.reply)) ∧
    ∀ status, s.client = .exited status → status = 0 := by
  have hservice := @service_of_calm stdHash persistence outside _
    (newline_notMem_requestsOf hinput) hload houtcome
  have hinv := inv_of_reaches hcalm hinput hservice h
  obtain ⟨pending, hphase, hrequests⟩ := hinv.phase
  have hprinted : s.printed = s.log.map shown ∨
      ∃ before x, s.log = before ++ [x] ∧ s.printed = before.map shown := by
    cases hphase with
    | quiet client server buffer up down replies printed => exact .inl printed
    | sending client hleft server hline bytes down replies printed => exact .inl printed
    | sent client server hline bytes down replies printed => exact .inl printed
    | replying client log hleft server reply hx bytes buffer up printed =>
      exact .inr ⟨_, _, log, printed⟩
    | replied client log server reply hx bytes buffer up printed => exact .inr ⟨_, _, log, printed⟩
    | finished client server buffer up down printed => exact .inl printed
  have hlen : s.printed.length ≤ s.log.length ∧ s.log.length ≤ s.printed.length + 1 ∧
      s.printed = (s.log.take s.printed.length).map shown := by
    rcases hprinted with hall | ⟨before, x, hlog, hsome⟩
    · have hlen : s.printed.length = s.log.length := by rw [hall, List.length_map]
      rw [hlen, List.take_length]
      exact ⟨Nat.le_refl _, Nat.le_succ _, hall⟩
    · have hlen : s.printed.length = before.length := by rw [hsome, List.length_map]
      rw [hlen, hlog, List.take_left, List.length_append]
      exact ⟨Nat.le_succ _, Nat.le_refl _, hsome⟩
  refine ⟨?_, hlen.2.2, hlen.1, hlen.2.1, fun x hx => (hinv.answered x hx).2, ?_⟩
  · rw [hrequests, List.append_assoc]
    exact List.prefix_append _ _
  · intro status hexit
    obtain ⟨-, hzero, -⟩ := hphase.gone ⟨status, hexit⟩
    cases hexit.symm.trans hzero
    rfl

/-- A new server and a client that says goodbye before its last line, one byte at a time. -/
theorem conversation_in_step_quit :
    ∃ run, run 0 = start quitEarly ⟨.unbounded 1, none⟩ ∧
      Fair.Run (Own (fun _ => 0) true promptly 1 1) (Others (Calm fun _ => 0)) run ∧
      ∀ n, (run n).log.map Handled.line
          <+: [ascii "SET k v", ascii "GET k", ascii "QUIT", ascii "PING"] ∧
        (run n).log.length ≤ (run n).printed.length + 1 := by
  obtain ⟨run, hstart, hrun⟩ := Fair.exists_eager (Own (fun _ => 0) true promptly 1 1)
    (Others (Calm fun _ => 0)) (start quitEarly ⟨.unbounded 1, none⟩)
  refine ⟨run, hstart, hrun, fun n => ?_⟩
  have hstep := conversation_in_step calm_unbounded sendable_quitEarly (fun _ => noLoad_quitEarly)
    (fun _ _ => List.not_mem_nil) (hstart ▸ hrun.reaches n)
  exact ⟨hstep.1, hstep.2.2.2.1⟩

/-- **A conversation ends.** Over a connection that holds at least one byte in each direction,
client and server come to their end in every fair run: the server has handled the requests up to the
first `QUIT`, and the client has printed the first line of each reply and exited with status 0. The
conversation begins in a calm world and the other connections keep it calm. The lines of the client
are no longer than the server takes, and with a snapshot path there is no `LOAD` among them, and no
newline in the text of a failed save. -/
theorem conversation_ends {stdHash : Bytes → UInt64} {persistence : Bool} {outside : Outside}
    {input : List Bytes} {w : World} {upCapacity downCapacity : Nat} (hup : 0 < upCapacity)
    (hdown : 0 < downCapacity) (hcalm : Calm stdHash w) (hinput : ∀ line ∈ input, Sendable line)
    (hload : persistence = true → ∀ line ∈ requestsOf input, NoLoad line)
    (houtcome : persistence = true → ∀ n, newline ∉ (outside.env n).outcome.text)
    {run : Nat → Dialogue}
    (hstart : run 0 = start input w)
    (hrun : Fair.Run (Own stdHash persistence outside upCapacity downCapacity)
      (Others (Calm stdHash)) run) :
    ∃ n, (run n).client = .exited 0 ∧ (run n).server = .returned ∧
      (run n).log.map Handled.line = upToQuit (requestsOf input) ∧
      (run n).printed = (run n).log.map shown := by
  have hservice := @service_of_calm stdHash persistence outside _
    (newline_notMem_requestsOf hinput) hload houtcome
  have hinv : ∀ n, Inv stdHash persistence outside (Calm stdHash) (requestsOf input) (run n) :=
    fun n => inv_of_reaches hcalm hinput hservice (hstart ▸ hrun.reaches n)
  obtain ⟨n, hstuck⟩ := Fair.halts_of_fair hrun hinv work
    (fun s s' h hstep => by
      obtain ⟨pending, hphase, -⟩ := h.phase
      rcases hstep with hstep | hstep
      · exact work_client hphase hstep
      · exact work_server hphase hstep)
    (fun s s' _ hstep => by
      obtain ⟨w', -, rfl⟩ := hstep
      exact le_refl _)
  have hend : (run n).client = .exited 0 ∧ (run n).server = .returned := by
    by_contra hend
    obtain ⟨s', hstep⟩ := (hinv n).advances hservice hup hdown hend
    exact hstuck s' hstep
  exact ⟨n, hend.1, hend.2, (hinv n).ended hend.1⟩

/-- One byte at a time in each direction is enough. The line after the `QUIT` is not handled. -/
theorem conversation_ends_quit :
    ∃ run : Nat → Dialogue, run 0 = start quitEarly ⟨.unbounded 1, none⟩ ∧
      ∃ n, (run n).client = .exited 0 ∧ (run n).server = .returned ∧
        (run n).log.map Handled.line = [ascii "SET k v", ascii "GET k", ascii "QUIT"] := by
  obtain ⟨run, hstart, hrun⟩ := Fair.exists_eager (Own (fun _ => 0) true promptly 1 1)
    (Others (Calm fun _ => 0)) (start quitEarly ⟨.unbounded 1, none⟩)
  obtain ⟨n, hexit, hreturned, hlog, -⟩ := conversation_ends Nat.one_pos Nat.one_pos calm_unbounded
    sendable_quitEarly (fun _ => noLoad_quitEarly) (fun _ _ => List.not_mem_nil) hstart hrun
  exact ⟨run, hstart, n, hexit, hreturned, hlog.trans (by decide)⟩

end CacheX
