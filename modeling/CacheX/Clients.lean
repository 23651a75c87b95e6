import CacheX.Buffer
import CacheX.Lib.Fair
import Mathlib.Logic.Function.Basic
import Mathlib.Logic.Relation

/-!
# Many clients

A server without a snapshot path and any number of connections, each with its own thread. The
threads go on in any order between any two steps of `Connection::serve`. Without a snapshot path a
request makes one call on the cache, and that is one step here.

* `handleLine_answer`: what a line does, apart from the socket.
* `ConnInv.advance`, `ConnInv.receive`: what a step of a connection keeps.
* `clients_in_order`: the clients are served as if all their requests came one by one, in an order
  that keeps the order of each client.
* `requests_answered`: a request that has been received is answered in the end, unless its
  connection ends before that.
-/

namespace CacheX

open Decimal (ascii)
open Lines ConnectionLemmas

/-! ## The system -/

/-- The connection with what the others have done to the cache. -/
def Conn.within (c : Conn) (w : World) : Conn :=
  { c with session := { c.session with world := w } }

/-- The line that the next step of a connection answers. -/
def Conn.line (c : Conn) : Option Bytes :=
  match c.point with
  | .drain => (nextLine c.buffer).map Prod.fst
  | _ => none

/-- `recvs` has what `recv` has returned on each connection, and `log` the lines that have been
answered. Nothing looks at them. -/
structure Clients where
  world : World
  conns : Nat → Conn
  recvs : Nat → List Recv
  log : List (Nat × Bytes)

namespace Clients

def start (w : World) : Clients := ⟨w, fun _ => .start { world := w }, fun _ => [], []⟩

section Steps

variable (stdHash : Bytes → UInt64) (outside : Nat → Outside)

inductive Step : Clients → Clients → Prop
  | advance {s : Clients} {i : Nat} {c : Conn}
    (h : ((s.conns i).within s.world).advance stdHash false (outside i) = some c) :
    Step s { s with
      world := c.session.world
      conns := Function.update s.conns i c
      log := s.log ++ ((s.conns i).line.map fun line => (i, line)).toList }
  | receive {s : Clients} {i : Nat} (hpoint : (s.conns i).point = .fill) (r : Recv) :
    Step s { s with
      conns := Function.update s.conns i ((s.conns i).receive r)
      recvs := Function.update s.recvs i (s.recvs i ++ [r]) }

/-- The requests of all the clients, one by one. The numbers of commands so far say what a command
reads from the clock. -/
def answerFrom (st : World × (Nat → Nat)) (request : Nat × Bytes) :
    Option ((World × (Nat → Nat)) × Bytes) :=
  (answer stdHash false (outside request.1) (st.1, st.2 request.1) request.2).map fun p =>
    ((p.1.1, Function.update st.2 request.1 p.1.2), p.2)

end Steps

/-- The lines of one client. -/
def linesOf (i : Nat) (log : List (Nat × Bytes)) : List Bytes :=
  (log.filter fun e => e.1 == i).map Prod.snd

/-- The replies to one client. -/
def repliesOf (i : Nat) (log : List (Nat × Bytes)) (replies : List Bytes) : List Bytes :=
  ((log.zip replies).filter fun e => e.1.1 == i).map Prod.snd

theorem linesOf_snoc (i j : Nat) (log : List (Nat × Bytes)) (line : Bytes) :
    linesOf j (log ++ [(i, line)]) = linesOf j log ++ if i = j then [line] else [] := by
  rw [linesOf, List.filter_append, List.map_append]
  by_cases hij : i = j
  · rw [if_pos hij, hij, List.filter_singleton, beq_self_eq_true]
    rfl
  · rw [if_neg hij, List.filter_singleton, beq_eq_false_iff_ne.mpr hij]
    rfl

theorem repliesOf_snoc (i j : Nat) {log : List (Nat × Bytes)} {replies : List Bytes}
    (hlen : replies.length = log.length) (line reply : Bytes) :
    repliesOf j (log ++ [(i, line)]) (replies ++ [reply])
      = repliesOf j log replies ++ if i = j then [reply] else [] := by
  rw [repliesOf, List.zip_append hlen.symm, List.filter_append, List.map_append]
  by_cases hij : i = j
  · rw [if_pos hij, hij, List.zip_cons_cons, List.zip_nil_left, List.filter_singleton,
      beq_self_eq_true]
    rfl
  · rw [if_neg hij, List.zip_cons_cons, List.zip_nil_left, List.filter_singleton,
      beq_eq_false_iff_ne.mpr hij]
    rfl

end Clients

/-! ## One connection -/

theorem sendAll_begins (returns : List (Option Nat)) (data : Bytes) :
    (sendAll returns data).1 <+: data := by
  fun_induction sendAll returns data with
  | case1 => exact List.prefix_rfl
  | case2 => exact List.nil_prefix
  | case3 returns c data ih => exact ih
  | case4 returns n c data later ih =>
    obtain ⟨more, hmore⟩ := ih
    refine ⟨more, ?_⟩
    rw [List.append_assoc, hmore, List.take_append_drop]

section

variable {stdHash : Bytes → UInt64} {persistence : Bool} {outside : Outside}

/-- A line is answered as by `answer`, and what is sent is the reply or a beginning of it. -/
theorem handleLine_answer {s s' : Session} {line : Bytes} {go : Bool}
    (h : handleLine stdHash persistence outside s line = some (s', go)) :
    ∃ reply sent, answer stdHash persistence outside (s.world, s.commandsHandled) line
        = some ((s'.world, s'.commandsHandled), reply) ∧
      s'.wire = s.wire ++ sent ∧ sent <+: reply ∧
      (go = true → sent = reply ∧ isQuit line = false) := by
  rw [handleLine] at h
  cases hp : parseCommand line with
  | error error =>
    have hquit : isQuit line = false := by rw [isQuit, commandOf, hp]; rfl
    rw [hp] at h
    cases h
    refine ⟨replyError error, _, ?_, rfl, sendAll_begins _ _, fun hgo => ⟨sendAll_sent hgo, hquit⟩⟩
    rw [answer, hp]
  | ok command =>
    rw [hp] at h
    obtain ⟨⟨w, reply⟩, hexec, heq⟩ := Option.map_eq_some_iff.mp h
    cases heq
    refine ⟨reply, _, ?_, rfl, sendAll_begins _ _, fun hgo => ?_⟩
    · rw [answer, hp]
      simp only [hexec, Option.map_some]
      rfl
    · obtain ⟨hsent, htype⟩ := Bool.and_eq_true_iff.mp hgo
      refine ⟨sendAll_sent hsent, ?_⟩
      rw [isQuit, commandOf, hp]
      exact Bool.not_eq_true' _ ▸ htype

end

/-- A connection that goes on, with what it has received, the lines that it has answered and the
replies. -/
structure ConnOpen (recvs : List Recv) (lines replies : List Bytes) (c : Conn) : Prop where
  cut : ∀ more, completeLines (received recvs ++ more) = lines ++ completeLines (c.buffer ++ more)
  going : ∀ line ∈ lines, isQuit line = false
  wire : c.session.wire = replies.flatten
  drained : c.point ≠ .drain → newline ∉ c.buffer

structure ConnInv (recvs : List Recv) (lines replies : List Bytes) (c : Conn) : Prop where
  live : c.point ≠ .returned → ConnOpen recvs lines replies c
  lines : lines <+: upToQuit (completeLines (received recvs))
  wire : c.session.wire <+: replies.flatten ++ lineTooLong

section

variable {recvs : List Recv} {lines replies : List Bytes} {c c' : Conn}

theorem ConnOpen.answered (h : ConnOpen recvs lines replies c) :
    lines <+: upToQuit (completeLines (received recvs)) := by
  have hcut := h.cut []
  rw [List.append_nil, List.append_nil] at hcut
  rw [hcut, upToQuit_append h.going]
  exact List.prefix_append _ _

theorem ConnOpen.inv (h : ConnOpen recvs lines replies c) : ConnInv recvs lines replies c :=
  ⟨fun _ => h, h.answered, h.wire ▸ List.prefix_append _ _⟩

theorem ConnInv.start (w : World) : ConnInv [] [] [] (.start { world := w }) :=
  ConnOpen.inv ⟨fun _ => rfl, nofun, rfl, fun h => absurd rfl h⟩

variable {stdHash : Bytes → UInt64} {outside : Outside}

/-- A step of a connection that answers no line. -/
theorem ConnInv.advance_silent (h : ConnInv recvs lines replies c) (w : World)
    (hline : c.line = none)
    (hstep : (c.within w).advance stdHash false outside = some c') :
    ConnInv recvs lines replies c' ∧ c'.session.world = w ∧
      c'.session.commandsHandled = c.session.commandsHandled := by
  obtain ⟨point, session, buffer⟩ := c
  cases point with
  | drain =>
    have hlive : Point.drain ≠ .returned := by decide
    have hopen := h.live hlive
    have hnone : nextLine buffer = none := Option.map_eq_none_iff.mp hline
    simp only [Conn.within, Conn.advance, hnone] at hstep
    cases hstep
    exact ⟨ConnOpen.inv ⟨hopen.cut, hopen.going, hopen.wire, fun _ => nextLine_eq_none hnone⟩,
      rfl, rfl⟩
  | check =>
    have hlive : Point.check ≠ .returned := by decide
    have hpast : Point.check ≠ .drain := by decide
    have hopen := h.live hlive
    by_cases hlong : kMaxLineBytes < buffer.length
    · cases (if_pos hlong).symm.trans hstep
      refine ⟨⟨fun hpoint => absurd rfl hpoint, h.lines, ?_⟩, rfl, rfl⟩
      have hwire : session.wire = replies.flatten := hopen.wire
      rw [← hwire]
      exact (List.prefix_append_right_inj _).mpr (sendAll_begins _ _)
    · cases (if_neg hlong).symm.trans hstep
      exact ⟨ConnOpen.inv ⟨hopen.cut, hopen.going, hopen.wire, fun _ => hopen.drained hpast⟩,
        rfl, rfl⟩
  | fill => cases hstep
  | returned => cases hstep

/-- A step of a connection that answers a line. -/
theorem ConnInv.advance_line (h : ConnInv recvs lines replies c) (w : World) {line : Bytes}
    (hline : c.line = some line)
    (hstep : (c.within w).advance stdHash false outside = some c') :
    ∃ reply, answer stdHash false outside (w, c.session.commandsHandled) line
        = some ((c'.session.world, c'.session.commandsHandled), reply) ∧
      ConnInv recvs (lines ++ [line]) (replies ++ [reply]) c' := by
  obtain ⟨point, session, buffer⟩ := c
  cases point with
  | drain =>
    have hopen := h.live nofun
    obtain ⟨⟨line', rest⟩, hnext, rfl⟩ := Option.map_eq_some_iff.mp hline
    simp only [Conn.within, Conn.advance, hnext] at hstep
    obtain ⟨⟨s', go⟩, hhandle, rfl⟩ := Option.map_eq_some_iff.mp hstep
    obtain ⟨reply, sent, hanswer, hwire, hsent, hgo⟩ := handleLine_answer hhandle
    obtain ⟨x, hx, rfl, rfl⟩ := nextLine_eq_some hnext
    have hcut (more : Bytes) : completeLines (received recvs ++ more)
        = (lines ++ [stripReturn x]) ++ completeLines (rest ++ more) := by
      rw [hopen.cut more, List.append_assoc, List.append_assoc, List.cons_append,
        completeLines_cons hx]
      rfl
    refine ⟨reply, hanswer, ?_⟩
    have hstart : session.wire = replies.flatten := hopen.wire
    have hflat : (replies ++ [reply]).flatten = session.wire ++ reply := by
      rw [List.flatten_append, List.flatten_singleton, hstart]
    cases go with
    | true =>
      obtain ⟨rfl, hquit⟩ := hgo rfl
      refine ConnOpen.inv ⟨hcut, fun line hmem => ?_, hwire.trans hflat.symm, fun h => absurd rfl h⟩
      rcases List.mem_append.mp hmem with hmem | hmem
      · exact hopen.going line hmem
      · rw [List.mem_singleton.mp hmem]
        exact hquit
    | false =>
      refine ⟨fun hpoint => absurd rfl hpoint, ?_, ?_⟩
      · have hall := hcut []
        rw [List.append_nil, List.append_nil, List.append_assoc] at hall
        rw [hall, upToQuit_append hopen.going, List.prefix_append_right_inj, List.singleton_append,
          upToQuit]
        split
        · exact List.prefix_rfl
        · exact List.prefix_append [stripReturn x] _
      · refine (?_ : s'.wire <+: _).trans (List.prefix_append _ _)
        rw [hflat, hwire]
        exact (List.prefix_append_right_inj _).mpr hsent
  | check => cases hline
  | fill => cases hline
  | returned => cases hline

/-- A connection that waits for the socket has answered every line. -/
theorem ConnInv.lines_at_fill (h : ConnInv recvs lines replies c) (hpoint : c.point = .fill) :
    lines = completeLines (received recvs) := by
  have hopen := h.live (hpoint ▸ nofun)
  have hdrained := hopen.drained (hpoint ▸ nofun)
  have hcut := hopen.cut []
  rw [List.append_nil, List.append_nil] at hcut
  rw [hcut, completeLines, complete_of_notMem hdrained, List.map_nil, List.append_nil]

theorem received_append (recvs more : List Recv) :
    received (recvs ++ more) = received recvs ++ received more := by
  rw [received, received, received, List.flatMap_append]

theorem ConnInv.receive (h : ConnInv recvs lines replies c) (hpoint : c.point = .fill) (r : Recv) :
    ConnInv (recvs ++ [r]) lines replies (c.receive r) := by
  have hopen := h.live (hpoint ▸ nofun)
  have hcut (more : Bytes) : completeLines (received (recvs ++ [r]) ++ more)
      = lines ++ completeLines (c.buffer ++ received [r] ++ more) := by
    rw [received_append, List.append_assoc, hopen.cut, List.append_assoc]
  have hwire : (c.receive r).session.wire = replies.flatten := hopen.wire
  have hgoes (hfill : fillBuffer c.buffer r = (c.buffer ++ received [r], true)) :
      ConnInv (recvs ++ [r]) lines replies (c.receive r) := by
    refine ConnOpen.inv ⟨fun more => ?_, hopen.going, hwire, fun h => absurd ?_ h⟩
    · rw [Conn.receive, hfill]
      exact hcut more
    · rw [Conn.receive, hfill]
      rfl
  have hends (hfill : fillBuffer c.buffer r = (c.buffer, false)) (hnone : received [r] = []) :
      ConnInv (recvs ++ [r]) lines replies (c.receive r) := by
    have hreturned : (c.receive r).point = .returned := by
      rw [Conn.receive, hfill]
      rfl
    refine ⟨fun h => absurd hreturned h, ?_, hwire ▸ List.prefix_append _ _⟩
    rw [received_append, hnone, List.append_nil]
    exact h.lines
  cases r with
  | bytes chunk =>
    cases chunk with
    | nil => exact hends rfl rfl
    | cons b chunk => exact hgoes (by simp [fillBuffer, received])
  | interrupted => exact hgoes (by simp [fillBuffer, received])
  | failed => exact hends rfl rfl

end

/-! ## The whole server -/

namespace Clients

variable {stdHash : Bytes → UInt64} {outside : Nat → Outside} {w : World} {s s' : Clients}

structure Inv (stdHash : Bytes → UInt64) (outside : Nat → Outside) (w : World) (s : Clients) :
    Prop where
  wf : s.world.cache.WF stdHash
  served : ∃ replies, Machine.run (answerFrom stdHash outside) (w, fun _ => 0) s.log
      = some ((s.world, fun i => (s.conns i).session.commandsHandled), replies) ∧
    ∀ i, ConnInv (s.recvs i) (linesOf i s.log) (repliesOf i s.log replies) (s.conns i)

theorem inv_start (hwf : w.cache.WF stdHash) : Inv stdHash outside w (start w) :=
  ⟨hwf, [], rfl, fun _ => ConnInv.start w⟩

theorem answer_wf {outside : Outside} {n : Nat} (hwf : w.cache.WF stdHash) {line : Bytes}
    {w' : World} {n' : Nat} {reply : Bytes}
    (h : answer stdHash false outside (w, n) line = some ((w', n'), reply)) :
    w'.cache.WF stdHash := by
  rw [answer] at h
  cases hp : parseCommand line with
  | error error =>
    rw [hp] at h
    cases h
    exact hwf
  | ok command =>
    rw [hp] at h
    obtain ⟨w₁, reply₁, hexec, hwf₁⟩ := execute_wf hwf false (outside.env n) command
    simp only [hexec, Option.map_some] at h
    cases h
    exact hwf₁

/-- The numbers of commands after a step of one connection. -/
theorem handled_update (conns : Nat → Conn) (i : Nat) (c : Conn) :
    (fun j => (Function.update conns i c j).session.commandsHandled)
      = Function.update (fun j => (conns j).session.commandsHandled) i
          c.session.commandsHandled :=
  Function.comp_update (fun c : Conn => c.session.commandsHandled) conns i c

theorem Inv.step (h : Inv stdHash outside w s) (hstep : Step stdHash outside s s') :
    Inv stdHash outside w s' := by
  obtain ⟨hwf, replies, hrun, hconns⟩ := h
  cases hstep with
  | @advance i c hadvance =>
    cases hline : (s.conns i).line with
    | none =>
      obtain ⟨hinv, hworld, hhandled⟩ := (hconns i).advance_silent s.world hline hadvance
      rw [Option.map_none, Option.toList_none, List.append_nil]
      refine ⟨hworld ▸ hwf, replies, ?_, fun j => ?_⟩
      · rw [handled_update, hworld, hhandled, Function.update_eq_self]
        exact hrun
      · by_cases hji : j = i
        · simp only [hji, Function.update_self]
          exact hinv
        · simp only [Function.update_of_ne hji]
          exact hconns j
    | some line =>
      obtain ⟨reply, hanswer, hinv⟩ := (hconns i).advance_line s.world hline hadvance
      rw [Option.map_some, Option.toList_some]
      have hone : answerFrom stdHash outside
          (s.world, fun j => (s.conns j).session.commandsHandled) (i, line)
          = some ((c.session.world,
              fun j => (Function.update s.conns i c j).session.commandsHandled), reply) := by
        rw [answerFrom, hanswer, Option.map_some, handled_update]
      refine ⟨answer_wf hwf hanswer, replies ++ [reply],
        Machine.run_append hrun (Machine.run_cons_some hone rfl), fun j => ?_⟩
      simp only [linesOf_snoc, repliesOf_snoc i j (Machine.run_length hrun)]
      by_cases hji : j = i
      · simp only [hji, Function.update_self, if_true]
        exact hinv
      · simp only [Function.update_of_ne hji, if_neg (Ne.symm hji), List.append_nil]
        exact hconns j
  | @receive i hpoint r =>
    refine ⟨hwf, replies, ?_, fun j => ?_⟩
    · rw [handled_update]
      have hsame : ((s.conns i).receive r).session.commandsHandled
          = (s.conns i).session.commandsHandled := rfl
      rw [hsame, Function.update_eq_self]
      exact hrun
    · by_cases hji : j = i
      · simp only [hji, Function.update_self]
        exact (hconns i).receive hpoint r
      · simp only [Function.update_of_ne hji]
        exact hconns j

theorem inv_of_reaches (hwf : w.cache.WF stdHash)
    (h : Relation.ReflTransGen (Step stdHash outside) (start w) s) : Inv stdHash outside w s := by
  induction h with
  | refl => exact inv_start hwf
  | tail _ hstep ih => exact ih.step hstep

/-- A connection that does not wait for the socket can go on. -/
theorem advance_defined (hwf : w.cache.WF stdHash) {outside : Outside} {c : Conn}
    (hpoint : c.point = .drain ∨ c.point = .check) :
    ∃ c', (c.within w).advance stdHash false outside = some c' := by
  rcases hpoint with hpoint | hpoint
  · exact Conn.advance_drain (c := c.within w) hwf hpoint
  · exact ⟨_, Conn.advance_check (c := c.within w) hpoint⟩

/-- A step of the thread of connection `i`, other than a `recv`. -/
def Advance (stdHash : Bytes → UInt64) (outside : Nat → Outside) (i : Nat) (s s' : Clients) :
    Prop :=
  ∃ c, ((s.conns i).within s.world).advance stdHash false (outside i) = some c ∧
    s' = { s with
      world := c.session.world
      conns := Function.update s.conns i c
      log := s.log ++ ((s.conns i).line.map fun line => (i, line)).toList }

def rank : Point → Nat
  | .drain => 2
  | .check => 1
  | .fill => 0
  | .returned => 0

/-- The steps that a connection can make before it waits for the socket again. -/
def work (c : Conn) : Nat := 3 * c.buffer.count newline + rank c.point

theorem work_advance {c c' : Conn} {outside : Outside}
    (h : (c.within w).advance stdHash false outside = some c') : work c' < work c := by
  cases hpoint : c.point with
  | drain =>
    cases hnext : nextLine c.buffer with
    | none =>
      rw [Conn.advance_none (c := c.within w) hpoint hnext] at h
      cases h
      simp only [work, hpoint, rank, Conn.within]
      omega
    | some p =>
      obtain ⟨line, rest⟩ := p
      rw [Conn.advance_line (c := c.within w) hpoint hnext] at h
      obtain ⟨⟨s', go⟩, -, rfl⟩ := Option.map_eq_some_iff.mp h
      obtain ⟨x, hx, hbuffer, -⟩ := nextLine_eq_some hnext
      have hcount : c.buffer.count newline = rest.count newline + 1 := by
        rw [hbuffer, List.count_append, List.count_cons_self, List.count_eq_zero_of_not_mem hx,
          Nat.zero_add]
      simp only [work, hpoint, hcount]
      cases go <;> simp only [rank, if_true, Bool.false_eq_true, if_false] <;> omega
  | check =>
    rw [Conn.advance_check (c := c.within w) hpoint] at h
    cases h
    simp only [work, hpoint, rank, Conn.within]
    split <;> exact Nat.lt_succ_self _
  | fill =>
    simp only [Conn.advance, Conn.within, hpoint] at h
    cases h
  | returned =>
    simp only [Conn.advance, Conn.within, hpoint] at h
    cases h

/-- As long as connection `i` is not at `recv`, nobody gives it more to do. -/
theorem work_step (hstep : Step stdHash outside s s') {i : Nat}
    (hpoint : (s.conns i).point ≠ .fill) :
    work (s'.conns i) ≤ work (s.conns i) := by
  cases hstep with
  | @advance j c h =>
    by_cases hij : i = j
    · subst hij
      simp only [Function.update_self]
      exact (work_advance h).le
    · simp only [Function.update_of_ne hij]
      exact Nat.le_refl _
  | @receive j hfill r =>
    have hij : i ≠ j := by
      rintro rfl
      exact hpoint hfill
    simp only [Function.update_of_ne hij]
    exact Nat.le_refl _

theorem recvs_grows (h : Relation.ReflTransGen (Step stdHash outside) s s') (i : Nat) :
    s.recvs i <+: s'.recvs i := by
  induction h with
  | refl => exact List.prefix_rfl
  | tail _ hstep ih =>
    cases hstep with
    | advance => exact ih
    | @receive j hfill r =>
      by_cases hij : i = j
      · subst hij
        simp only [Function.update_self]
        exact ih.trans (List.prefix_append _ _)
      · simp only [Function.update_of_ne hij]
        exact ih

theorem Advance.step {i : Nat} (h : Advance stdHash outside i s s') :
    Step stdHash outside s s' := by
  obtain ⟨c, hadvance, rfl⟩ := h
  exact .advance hadvance

theorem reaches_of_run {i : Nat} {run : Nat → Clients}
    (hrun : Fair.Run (Advance stdHash outside i) (Step stdHash outside) run) (k n : Nat) :
    Relation.ReflTransGen (Step stdHash outside) (run k) (run (k + n)) := by
  have hreach := (hrun.drop k).reaches n
  refine Relation.ReflTransGen.mono ?_ _ _ hreach
  rintro a b (hadvance | hstep)
  · exact hadvance.step
  · exact hstep

/-- The thread of a connection that is not held up comes back to `recv` or to its end. -/
theorem comes_back (hwf : w.cache.WF stdHash) {run : Nat → Clients} (hstart : run 0 = start w)
    {i : Nat} (hrun : Fair.Run (Advance stdHash outside i) (Step stdHash outside) run) (k : Nat) :
    ∃ n, ((run (k + n)).conns i).point = .fill ∨ ((run (k + n)).conns i).point = .returned := by
  by_contra hnever
  push Not at hnever
  obtain ⟨n, hstuck⟩ := Fair.halts_of_fair (hrun.drop k)
    (P := fun s => (s.conns i).point ≠ .fill) (fun n => (hnever n).1) (fun s => work (s.conns i))
    (fun s s' _ h => by
      obtain ⟨c, hadvance, rfl⟩ := h
      simp only [Function.update_self]
      exact work_advance hadvance)
    (fun s s' hpoint h => work_step h hpoint)
  have hreach := reaches_of_run hrun 0 (k + n)
  rw [hstart, Nat.zero_add] at hreach
  have hpoint : ((run (k + n)).conns i).point = .drain ∨
      ((run (k + n)).conns i).point = .check := by
    obtain ⟨hfill, hreturned⟩ := hnever n
    cases hp : ((run (k + n)).conns i).point with
    | drain => exact .inl rfl
    | check => exact .inr rfl
    | fill => exact absurd hp hfill
    | returned => exact absurd hp hreturned
  have hworld := (inv_of_reaches hwf hreach).wf
  obtain ⟨c, hadvance⟩ := @advance_defined stdHash _ hworld (outside i) _ hpoint
  exact hstuck _ ⟨c, hadvance, rfl⟩

/-- **Every request is answered.** A server without a snapshot path. In any run in which the thread
of a connection is not held up forever, whatever the other connections do, each complete line that
`recv` has returned on that connection is answered in the end, unless the connection itself ends
before that. -/
theorem requests_answered (hwf : w.cache.WF stdHash) {run : Nat → Clients}
    (hstart : run 0 = start w) {i : Nat}
    (hrun : Fair.Run (Advance stdHash outside i) (Step stdHash outside) run) (k : Nat) :
    ∃ n, k ≤ n ∧ (((run n).conns i).point = .returned ∨
      completeLines (received ((run k).recvs i)) <+: linesOf i (run n).log) := by
  obtain ⟨n, hpoint⟩ := comes_back hwf hstart hrun k
  refine ⟨k + n, Nat.le_add_right k n, hpoint.symm.imp id fun hfill => ?_⟩
  have hreach := reaches_of_run hrun 0 (k + n)
  rw [hstart, Nat.zero_add] at hreach
  obtain ⟨-, replies, -, hconns⟩ := inv_of_reaches hwf hreach
  rw [(hconns i).lines_at_fill hfill]
  obtain ⟨more, hmore⟩ := recvs_grows (reaches_of_run hrun k n) i
  rw [← hmore, received_append, completeLines_append]
  exact List.prefix_append _ _

/-- A `PING` that has just been received. -/
theorem requests_answered_ping : ∃ (run : Nat → Clients) (k n : Nat),
    received ((run k).recvs 0) = ascii "PING\n" ∧ k ≤ n ∧
    (((run n).conns 0).point = .returned ∨
      completeLines (received ((run k).recvs 0)) <+: linesOf 0 (run n).log) := by
  have hidle : Relation.ReflTransGen
      (fun s s' => Advance (fun _ => 0) (fun _ => promptly) 0 s s'
        ∨ Step (fun _ => 0) (fun _ => promptly) s s')
      (start ⟨.unbounded 1, none⟩) _ := .single (.inl ⟨_, Conn.advance_none rfl rfl, rfl⟩)
  have hfill := hidle.tail (.inl ⟨_, Conn.advance_check rfl, rfl⟩)
  have hsent := hfill.tail (.inr (.receive (i := 0) rfl (.bytes (ascii "PING\n"))))
  obtain ⟨run, k, hstart, hk, hrun⟩ := Fair.exists_run hsent
  obtain ⟨n, hkn, hanswered⟩ :=
    requests_answered (ShardedCache.wf_unbounded 1) hstart hrun k
  refine ⟨run, k, n, ?_, hkn, hanswered⟩
  rw [hk]
  rfl

end Clients

end CacheX
