import CacheX.Connection

/-!
# The line buffer

A `LineBuffer` under any calls of `append` and `next_line`, in any order. A `Reading` is the buffer
together with the segments that were taken out of it; `step_reading` follows one call and
`run_reading` all of them.

* `frames_received`: the bytes appended so far are the segments taken, each with its newline, and
  the buffer. The lines returned are those segments without the carriage return at their end.
-/

namespace CacheX

open Decimal (ascii)
open Lines

namespace LineBuffer

inductive Call
  | append (data : Bytes)
  | nextLine
deriving DecidableEq, Repr

def Call.data : Call → Bytes
  | .append data => data
  | .nextLine => []

/-- One call: the buffer it leaves, and the line it returns. `append` returns none. -/
def step (buffer : Bytes) : Call → Bytes × Option Bytes
  | .append data => (buffer ++ data, none)
  | .nextLine =>
    match nextLine buffer with
    | none => (buffer, none)
    | some (line, rest) => (rest, some line)

/-- The calls on an empty buffer: the buffer at the end, and what the calls returned. -/
def run (calls : List Call) : Bytes × List (Option Bytes) := Machine.runTotal step [] calls

/-- Everything that the calls append. -/
def appended (calls : List Call) : Bytes := calls.flatMap Call.data

/-- The line for a segment: without the carriage return at its end, if it has one there. -/
def IsLineOf (segment line : Bytes) : Prop :=
  segment = line ++ [carriageReturn] ∨ segment = line ∧ segment.getLast? ≠ some carriageReturn

/-! ## One call -/

theorem step_nextLine_of_notMem {buffer : Bytes} (h : newline ∉ buffer) :
    step buffer .nextLine = (buffer, none) := by
  rw [step, nextLine_of_notMem h]

theorem step_nextLine_cons {segment : Bytes} (h : newline ∉ segment) (rest : Bytes) :
    step (segment ++ newline :: rest) .nextLine = (rest, some (stripReturn segment)) := by
  rw [step, nextLine_cons h]

theorem step_nextLine_eq_none {buffer : Bytes} :
    (step buffer .nextLine).2 = none ↔ newline ∉ buffer := by
  constructor
  · intro h hmem
    obtain ⟨segment, rest, rfl, hsegment⟩ := List.eq_append_cons_of_mem hmem
    rw [step_nextLine_cons hsegment] at h
    cases h
  · intro h
    rw [step_nextLine_of_notMem h]

theorem isLineOf_stripReturn (segment : Bytes) : IsLineOf segment (stripReturn segment) := by
  rw [stripReturn]
  split
  · next h => exact Or.inl (List.dropLast_append_getLast? _ h).symm
  · next h => exact Or.inr ⟨rfl, h⟩

/-! ## A buffer and what was taken out of it -/

/-- A buffer, and the segments that were taken out of it so far. -/
structure Reading where
  taken : List Bytes
  buffer : Bytes
  framed : ∀ segment ∈ taken, newline ∉ segment

namespace Reading

def received (r : Reading) : Bytes := r.taken.flatMap terminated ++ r.buffer

def lines (r : Reading) : List Bytes := r.taken.map stripReturn

/-- The segments taken are the first ones of the stream, one for each line. -/
theorem take_complete (r : Reading) :
    (complete newline r.received).take r.lines.length = r.taken := by
  have h : complete newline r.received = r.taken ++ complete newline r.buffer :=
    complete_flatMap r.framed r.buffer
  rw [h, lines, List.length_map, List.take_left]

theorem isLineOf_lines (r : Reading) : List.Forall₂ IsLineOf r.taken r.lines := by
  rw [lines, List.forall₂_map_right_iff, List.forall₂_same]
  intro segment _
  exact isLineOf_stripReturn segment

end Reading

/-- What one call does to the stream, the lines and the buffer. -/
theorem step_reading (r : Reading) (call : Call) :
    ∃ r' : Reading, r'.buffer = (step r.buffer call).1 ∧ r'.received = r.received ++ call.data ∧
      r'.lines = r.lines ++ (step r.buffer call).2.toList := by
  cases call with
  | append data =>
    refine ⟨{ r with buffer := r.buffer ++ data }, rfl, ?_, (List.append_nil _).symm⟩
    exact (List.append_assoc _ _ _).symm
  | nextLine =>
    rw [Call.data, List.append_nil]
    by_cases hmem : newline ∈ r.buffer
    · obtain ⟨segment, rest, hbuffer, hsegment⟩ := List.eq_append_cons_of_mem hmem
      refine ⟨⟨r.taken ++ [segment], rest, ?_⟩, ?_, ?_, ?_⟩
      · exact List.forall_mem_append.mpr ⟨r.framed, List.forall_mem_singleton.mpr hsegment⟩
      · rw [hbuffer, step_nextLine_cons hsegment]
      · simp only [Reading.received, hbuffer, List.flatMap_append, List.flatMap_singleton,
          terminated, List.append_assoc, List.singleton_append]
      · rw [hbuffer, step_nextLine_cons hsegment, Reading.lines, List.map_append]
        rfl
    · rw [step_nextLine_of_notMem hmem]
      exact ⟨r, rfl, rfl, (List.append_nil _).symm⟩

theorem reduceOption_cons (line : Option Bytes) (lines : List (Option Bytes)) :
    (line :: lines).reduceOption = line.toList ++ lines.reduceOption := by
  cases line <;> rfl

theorem run_reading (r : Reading) (calls : List Call) :
    ∃ r' : Reading, r'.buffer = (Machine.runTotal step r.buffer calls).1 ∧
      r'.received = r.received ++ appended calls ∧
      r'.lines = r.lines ++ (Machine.runTotal step r.buffer calls).2.reduceOption := by
  induction calls generalizing r with
  | nil => exact ⟨r, rfl, (List.append_nil _).symm, (List.append_nil _).symm⟩
  | cons call calls ih =>
    obtain ⟨r₁, hbuffer₁, hreceived₁, hlines₁⟩ := step_reading r call
    obtain ⟨r', hbuffer, hreceived, hlines⟩ := ih r₁
    rw [hbuffer₁] at hbuffer hlines
    refine ⟨r', hbuffer, ?_, ?_⟩
    · rw [hreceived, hreceived₁, appended, appended, List.flatMap_cons, List.append_assoc]
    · rw [hlines, hlines₁, List.append_assoc, Machine.runTotal, reduceOption_cons]

theorem run_empty (calls : List Call) :
    ∃ r : Reading, r.buffer = (run calls).1 ∧ r.received = appended calls ∧
      r.lines = (run calls).2.reduceOption :=
  run_reading ⟨[], [], List.forall_mem_nil _⟩ calls

/-- Nothing is lost, repeated or moved. Whatever the calls, the bytes appended are the first
segments, as many as lines were returned, and the buffer. The lines are those of these segments, one
by one, and a call of `next_line` that finds no newline in the buffer leaves it as it is. -/
theorem frames_received (calls : List Call) :
    let buffer := (run calls).1
    let lines := (run calls).2.reduceOption
    let segments := (complete newline (appended calls)).take lines.length
    appended calls = segments.flatMap terminated ++ buffer ∧
      List.Forall₂ IsLineOf segments lines ∧
      ((step buffer .nextLine).2 = none ↔ newline ∉ buffer) ∧
      (newline ∉ buffer → step buffer .nextLine = (buffer, none)) := by
  obtain ⟨r, hbuffer, hreceived, hlines⟩ := run_empty calls
  simp only [← hbuffer, ← hreceived, ← hlines, r.take_complete]
  exact ⟨rfl, r.isLineOf_lines, step_nextLine_eq_none, step_nextLine_of_notMem⟩

/-- A line whose carriage return and newline arrive in different pieces. -/
example :
    run [.append (ascii "GET a\r"), .nextLine, .append (ascii "\nDEL"), .nextLine] =
      (ascii "DEL", [none, none, none, some (ascii "GET a")]) := by
  decide

end LineBuffer

end CacheX
