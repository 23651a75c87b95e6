import CacheX.Connection

/-!
# The limit on request lines

`serve` compares what is left in the buffer with `kMaxLineBytes` once every complete line has been
drained. So a line that is too long is refused only if some `recv` ends inside it, more than
`kMaxLineBytes` bytes after its start; a line whose newline comes earlier than that is handled,
however long it is.

* `serveLog_forget`: the log of handled lines changes nothing in what `serve` does.
* `serveLog_ended`: the three ways in which a connection ends, with the lines it has handled.
* `lineLimit_iff`: the limit holds on exactly those streams and chunkings that cut the first
  over-long line after the limit.
* `lineLimit_exceeded`: a line of 65537 bytes is handled.
-/

namespace CacheX

open Lines ConnectionLemmas

/-! ## The lines that are handled -/

section Log

variable (stdHash : Bytes → UInt64) (persistence : Bool) (outside : Outside)

/-- `drain` with a log of the lines that it passes to `handle_line`, each as it was received, with
its terminator. -/
def drainLog (s : Session) (buffer : Bytes) : Option (Session × Bytes × Bool × List Bytes) :=
  match _h : nextLine buffer with
  | none => some (s, buffer, true, [])
  | some (line, rest) =>
    match handleLine stdHash persistence outside s line with
    | none => none
    | some (s', false) => some (s', rest, false, [buffer.take (buffer.length - rest.length)])
    | some (s', true) => (drainLog s' rest).map fun r =>
        (r.1, r.2.1, r.2.2.1, buffer.take (buffer.length - rest.length) :: r.2.2.2)
termination_by buffer.length
decreasing_by exact nextLine_shorter _h

/-- `serve` with the log. -/
def serveLog (s : Session) (buffer : Bytes) (recvs : List Recv) :
    Option (Session × Bool × List Bytes) :=
  match drainLog stdHash persistence outside s buffer with
  | none => none
  | some (s', _, false, lines) => some (s', true, lines)
  | some (s', buffer', true, lines) =>
    if kMaxLineBytes < buffer'.length then some ((s'.send outside lineTooLong).1, true, lines)
    else
      match recvs with
      | [] => some (s', false, lines)
      | received :: recvs =>
        let filled := fillBuffer buffer' received
        if filled.2 then
          (serveLog s' filled.1 recvs).map fun r => (r.1, r.2.1, lines ++ r.2.2)
        else some (s', true, lines)
termination_by structural recvs

theorem drainLog_forget (s : Session) (buffer : Bytes) :
    (drainLog stdHash persistence outside s buffer).map (fun r => (r.1, r.2.1, r.2.2.1))
      = drain stdHash persistence outside s buffer := by
  fun_induction drainLog stdHash persistence outside s buffer with
  | case1 s buffer hnext =>
    rw [drain]
    split <;> simp_all
  | case2 s buffer line rest hnext hhandle =>
    rw [drain]
    split <;> simp_all
  | case3 s buffer line rest hnext s' hhandle =>
    rw [drain]
    split <;> simp_all
  | case4 s buffer line rest hnext s' hhandle ih =>
    rw [Option.map_map, drain]
    split
    · next hn =>
      rw [hn] at hnext
      cases hnext
    · next hn =>
      rw [hn] at hnext
      cases hnext
      rw [hhandle]
      exact ih

theorem serveLog_forget (s : Session) (buffer : Bytes) (recvs : List Recv) :
    (serveLog stdHash persistence outside s buffer recvs).map (fun r => (r.1, r.2.1))
      = serve stdHash persistence outside s buffer recvs := by
  induction recvs generalizing s buffer with
  | nil =>
    rw [serve, serveLog, ← drainLog_forget]
    rcases drainLog stdHash persistence outside s buffer with _ | ⟨s', left, go, lines⟩
    · rfl
    · cases go with
      | false => rfl
      | true => simp only [Option.map_some, apply_ite (Option.map _)]
  | cons r recvs ih =>
    rw [serve, serveLog, ← drainLog_forget]
    rcases drainLog stdHash persistence outside s buffer with _ | ⟨s', left, go, lines⟩
    · rfl
    · cases go with
      | false => rfl
      | true =>
        simp only [Option.map_some, apply_ite (Option.map _), Option.map_map, ← ih]
        rfl

end Log

/-! ## How a connection ends -/

def NoQuit (lines : List Bytes) : Prop := ∀ line ∈ lines, isQuit (stripReturn line) = false

section Ends

variable {stdHash : Bytes → UInt64} {persistence : Bool} {outside : Outside}

/-- What is left of a stream when `k` more `recv`s have been made, each time within the limit. -/
def FitsUntil (buffer : Bytes) (recvs : List Recv) (k : Nat) : Prop :=
  ∀ i < k, (rest newline (buffer ++ received (recvs.take i))).length ≤ kMaxLineBytes

/-- How `serve` ends after some ordinary `recv`s and the end of the stream: with the session it
leaves and the lines it has handled. `k` is the number of `recv`s that it has made. -/
inductive Ended (stdHash : Bytes → UInt64) (persistence : Bool) (outside : Outside) (s : Session)
    (buffer : Bytes) (recvs : List Recv) : Session → List Bytes → Prop
  | quit {k : Nat} {before after : List Bytes} {line : Bytes} {s' : Session}
    (hlines : complete newline (buffer ++ received (recvs.take k)) = before ++ line :: after)
    (hbefore : NoQuit before) (hquit : isQuit (stripReturn line) = true)
    (hfits : FitsUntil buffer recvs k)
    (hserved : Served stdHash persistence outside s ((before ++ [line]).map stripReturn) s') :
    Ended stdHash persistence outside s buffer recvs s' (before ++ [line])
  | tooLong {k : Nat} {lines : List Bytes} {s' : Session}
    (hlines : complete newline (buffer ++ received (recvs.take k)) = lines)
    (hnone : NoQuit lines)
    (hlong : kMaxLineBytes < (rest newline (buffer ++ received (recvs.take k))).length)
    (hfits : FitsUntil buffer recvs k)
    (hserved : Served stdHash persistence outside s (lines.map stripReturn) s') :
    Ended stdHash persistence outside s buffer recvs (s'.send outside lineTooLong).1 lines
  | closed {lines : List Bytes} {s' : Session}
    (hlines : complete newline (buffer ++ received recvs) = lines) (hnone : NoQuit lines)
    (hfits : FitsUntil buffer recvs (recvs.length + 1))
    (hserved : Served stdHash persistence outside s (lines.map stripReturn) s') :
    Ended stdHash persistence outside s buffer recvs s' lines

theorem drainLog_of_notMem {buffer : Bytes} (h : newline ∉ buffer) (s : Session) :
    drainLog stdHash persistence outside s buffer = some (s, buffer, true, []) := by
  rw [drainLog]
  split
  · rfl
  · next hn =>
    rw [nextLine_of_notMem h] at hn
    cases hn

theorem drainLog_cons {line buffer : Bytes} (hline : newline ∉ line) {s s₁ : Session} {go : Bool}
    (hhandle : handleLine stdHash persistence outside s (stripReturn line) = some (s₁, go)) :
    drainLog stdHash persistence outside s (line ++ newline :: buffer)
      = if go then (drainLog stdHash persistence outside s₁ buffer).map fun r =>
          (r.1, r.2.1, r.2.2.1, terminated line :: r.2.2.2)
        else some (s₁, buffer, false, [terminated line]) := by
  have htaken : (line ++ newline :: buffer).take
      ((line ++ newline :: buffer).length - buffer.length) = terminated line := by
    have hlen : (line ++ newline :: buffer).length - buffer.length = (terminated line).length := by
      simp only [terminated, List.length_append, List.length_cons, List.length_nil]
      omega
    rw [hlen, List.append_cons]
    exact List.take_left
  rw [drainLog]
  split
  · next hn =>
    rw [nextLine_cons hline] at hn
    cases hn
  · next line' rest' hn =>
    rw [nextLine_cons hline] at hn
    cases hn
    rw [hhandle, htaken]
    cases go <;> rfl

/-- Draining handles the complete lines of the buffer, up to a `QUIT`. -/
theorem drainLog_spec (hsends : SendsSucceed outside) {s : Session}
    (hwf : s.world.cache.WF stdHash) (buffer : Bytes) :
    (∃ before line after s' left, complete newline buffer = before ++ line :: after ∧
      NoQuit before ∧ isQuit (stripReturn line) = true ∧
      drainLog stdHash persistence outside s buffer
        = some (s', left, false, (before ++ [line]).map terminated) ∧
      Served stdHash persistence outside s ((before ++ [line]).map stripReturn) s') ∨
    ∃ s', NoQuit (complete newline buffer) ∧
      drainLog stdHash persistence outside s buffer
        = some (s', rest newline buffer, true, (complete newline buffer).map terminated) ∧
      Served stdHash persistence outside s ((complete newline buffer).map stripReturn) s' := by
  induction buffer using parts_induction newline generalizing s with
  | last buffer h =>
    rw [complete_of_notMem h, rest_of_notMem h, drainLog_of_notMem h]
    exact Or.inr ⟨s, fun line hline => absurd hline List.not_mem_nil, rfl, Served.refl hwf⟩
  | cons line buffer hline ih =>
    obtain ⟨s₁, hhandle, hserved⟩ :=
      @handleLine_served stdHash persistence outside hsends s hwf (stripReturn line)
    rw [drainLog_cons hline hhandle, complete_cons hline, rest_cons hline]
    cases hq : isQuit (stripReturn line) with
    | true =>
      exact Or.inl ⟨[], line, _, s₁, buffer, rfl, fun _ h => absurd h List.not_mem_nil, hq, rfl,
        hserved⟩
    | false =>
      simp only [Bool.not_false, if_true]
      rcases ih hserved.wf with
        ⟨before, last, after, s', left, hlines, hbefore, hlast, hd, hs'⟩ | ⟨s', hnone, hd, hs'⟩
      · refine Or.inl ⟨line :: before, last, after, s', left, by rw [hlines]; rfl, ?_, hlast,
          by rw [hd]; rfl, hserved.trans hs'⟩
        exact List.forall_mem_cons.mpr ⟨hq, hbefore⟩
      · exact Or.inr ⟨s', List.forall_mem_cons.mpr ⟨hq, hnone⟩, by rw [hd]; rfl,
          hserved.trans hs'⟩

theorem FitsUntil.cons {buffer : Bytes} {r : Recv} {recvs : List Recv} {k : Nat}
    (hrest : (rest newline buffer).length ≤ kMaxLineBytes)
    (h : FitsUntil (rest newline buffer ++ received [r]) recvs k) :
    FitsUntil buffer (r :: recvs) (k + 1) := by
  intro i hi
  cases i with
  | zero => simpa [received] using hrest
  | succ i =>
    have := h i (Nat.lt_of_succ_lt_succ hi)
    rwa [List.append_assoc, ← received_cons, ← List.take_succ_cons, ← rest_append] at this

/-- A round of `serve` that ends nothing. -/
theorem Ended.cons {s s₁ s' : Session} {buffer : Bytes} {r : Recv} {recvs : List Recv}
    {lines : List Bytes} (hnone : NoQuit (complete newline buffer))
    (hserved : Served stdHash persistence outside s ((complete newline buffer).map stripReturn) s₁)
    (hrest : (rest newline buffer).length ≤ kMaxLineBytes)
    (h : Ended stdHash persistence outside s₁ (rest newline buffer ++ received [r]) recvs s'
      lines) :
    Ended stdHash persistence outside s buffer (r :: recvs) s'
      (complete newline buffer ++ lines) := by
  have hlater : ∀ recvs', buffer ++ received (r :: recvs')
      = buffer ++ (received [r] ++ received recvs') := fun _ => by rw [received_cons]
  cases h with
  | @quit k before after line _ hlines hbefore hquit hfits hs =>
    have hlines' : complete newline (buffer ++ received ((r :: recvs).take (k + 1)))
        = (complete newline buffer ++ before) ++ line :: after := by
      rw [List.take_succ_cons, hlater, complete_append, ← List.append_assoc, hlines,
        List.append_assoc]
    rw [← List.append_assoc]
    refine .quit hlines' (List.forall_mem_append.mpr ⟨hnone, hbefore⟩) hquit (.cons hrest hfits) ?_
    rw [List.append_assoc, List.map_append]
    exact hserved.trans hs
  | @tooLong k _ s₂ hlines hnone' hlong hfits hs =>
    refine .tooLong (k := k + 1) ?_ (List.forall_mem_append.mpr ⟨hnone, hnone'⟩) ?_
      (.cons hrest hfits) ?_
    · rw [List.take_succ_cons, hlater, complete_append, ← List.append_assoc, hlines]
    · rw [List.take_succ_cons, hlater, rest_append, ← List.append_assoc]
      exact hlong
    · rw [List.map_append]
      exact hserved.trans hs
  | closed hlines hnone' hfits hs =>
    refine .closed ?_ (List.forall_mem_append.mpr ⟨hnone, hnone'⟩) (.cons hrest hfits) ?_
    · rw [hlater, complete_append, ← List.append_assoc, hlines]
    · rw [List.map_append]
      exact hserved.trans hs

/-- One round of `serve`: it ends the connection whatever comes later, or the next `recv`
decides. -/
theorem serveLog_round (hsends : SendsSucceed outside) {s : Session}
    (hwf : s.world.cache.WF stdHash) (buffer : Bytes) :
    (∃ s' lines, ∀ recvs,
      (∀ more, serveLog stdHash persistence outside s buffer more
        = some (s', true, lines.map terminated)) ∧
      Ended stdHash persistence outside s buffer recvs s' lines) ∨
    ∃ s', NoQuit (complete newline buffer) ∧
      Served stdHash persistence outside s ((complete newline buffer).map stripReturn) s' ∧
      (rest newline buffer).length ≤ kMaxLineBytes ∧
      ∀ r more, serveLog stdHash persistence outside s buffer (r :: more)
        = if (fillBuffer (rest newline buffer) r).2 then
            (serveLog stdHash persistence outside s'
              (fillBuffer (rest newline buffer) r).1 more).map
              fun p => (p.1, p.2.1, (complete newline buffer).map terminated ++ p.2.2)
          else some (s', true, (complete newline buffer).map terminated) := by
  have hnow : ∀ recvs : List Recv, buffer ++ received (recvs.take 0) = buffer := fun _ =>
    List.append_nil _
  have hfits : ∀ recvs, FitsUntil buffer recvs 0 := fun _ i hi => absurd hi (Nat.not_lt_zero i)
  rcases @drainLog_spec stdHash persistence outside hsends s hwf buffer with
    ⟨before, line, after, s', left, hlines, hbefore, hquit, hd, hserved⟩ | ⟨s', hnone, hd, hserved⟩
  · refine Or.inl ⟨s', before ++ [line], fun recvs => ⟨fun more => ?_, ?_⟩⟩
    · cases more <;> rw [serveLog, hd]
    · exact .quit ((hnow recvs).symm ▸ hlines) hbefore hquit (hfits recvs) hserved
  · by_cases hlong : kMaxLineBytes < (rest newline buffer).length
    · refine Or.inl ⟨(s'.send outside lineTooLong).1, complete newline buffer,
        fun recvs => ⟨fun more => ?_, ?_⟩⟩
      · cases more <;> (rw [serveLog, hd]; simp only [if_pos hlong])
      · exact .tooLong (by rw [hnow recvs]) hnone ((hnow recvs).symm ▸ hlong) (hfits recvs) hserved
    · refine Or.inr ⟨s', hnone, hserved, Nat.not_lt.mp hlong, fun r more => ?_⟩
      rw [serveLog, hd]
      simp only [if_neg hlong]

theorem serveLog_ended (hsends : SendsSucceed outside) {s : Session}
    (hwf : s.world.cache.WF stdHash) (buffer : Bytes) {recvs : List Recv}
    (hrecvs : ∀ r ∈ recvs, r.ordinary = true) :
    ∃ s' lines, serveLog stdHash persistence outside s buffer (recvs ++ [.bytes []])
        = some (s', true, lines.map terminated) ∧
      Ended stdHash persistence outside s buffer recvs s' lines := by
  induction recvs generalizing s buffer with
  | nil =>
    rcases @serveLog_round stdHash persistence outside hsends s hwf buffer with
      ⟨s', lines, hend⟩ | ⟨s', hnone, hserved, hrest, hserve⟩
    · exact ⟨s', lines, (hend []).1 _, (hend []).2⟩
    · have hnow : buffer ++ received [] = buffer := List.append_nil _
      refine ⟨s', complete newline buffer, by rw [List.nil_append, hserve]; rfl, ?_⟩
      refine .closed (by rw [hnow]) hnone (fun i _ => ?_) hserved
      rw [List.take_nil, hnow]
      exact hrest
  | cons r recvs ih =>
    rcases @serveLog_round stdHash persistence outside hsends s hwf buffer with
      ⟨s', lines, hend⟩ | ⟨s₁, hnone, hserved, hrest, hserve⟩
    · exact ⟨s', lines, (hend (r :: recvs)).1 _, (hend (r :: recvs)).2⟩
    · obtain ⟨s', lines, hlater, hended⟩ := ih hserved.wf (rest newline buffer ++ received [r])
        fun r' hr' => hrecvs r' (List.mem_cons_of_mem _ hr')
      refine ⟨s', complete newline buffer ++ lines, ?_, .cons hnone hserved hrest hended⟩
      rw [List.cons_append, hserve, fillBuffer_ordinary (hrecvs r List.mem_cons_self), if_pos rfl,
        hlater, Option.map_some, List.map_append]

end Ends

/-! ## The limit -/

/-- The first line of a stream that is longer than the limit, with its terminator. No `QUIT` comes
before it. -/
structure FirstOverlong (stream : Bytes) (before : List Bytes) (line : Bytes)
    (after : List Bytes) : Prop where
  lines : complete newline stream = before ++ line :: after
  overlong : kMaxLineBytes < (terminated line).length
  fits : ∀ l ∈ before, (terminated l).length ≤ kMaxLineBytes
  noQuit : NoQuit before

/-- No line longer than the limit is handled, and at the first one the connection answers the lines
before it, sends the error and ends. -/
structure Enforced (stdHash : Bytes → UInt64) (persistence : Bool) (outside : Outside) (w : World)
    (recvs : List Recv) (s : Session) (log : List Bytes) : Prop where
  fits : ∀ line ∈ log, line.length ≤ kMaxLineBytes
  refused : ∀ before line after, FirstOverlong (received recvs) before line after →
    ∃ s₁, Served stdHash persistence outside { world := w } (before.map stripReturn) s₁ ∧
      s = (s₁.send outside lineTooLong).1

/-- Some `recv` ends in the first over-long line, more than the limit after its start. -/
def CutInside (recvs : List Recv) : Prop :=
  ∀ before line after, FirstOverlong (received recvs) before line after →
    ∃ k, complete newline (received (recvs.take k)) = before ∧
      kMaxLineBytes < (rest newline (received (recvs.take k))).length

namespace LineLimitLemmas

/-- What the first `k` `recv`s bring begins the stream. -/
theorem received_take (recvs : List Recv) (k : Nat) :
    received (recvs.take k) ++ received (recvs.drop k) = received recvs := by
  rw [received, received, ← List.flatMap_append, List.take_append_drop]
  rfl

theorem complete_take (recvs : List Recv) (k : Nat) :
    ∃ more, complete newline (received recvs)
      = complete newline (received (recvs.take k)) ++ more := by
  rw [← received_take recvs k, complete_append]
  exact ⟨_, rfl⟩

/-- The lines after `k` `recv`s begin the lines after `i ≥ k` `recv`s. -/
theorem complete_take_le (recvs : List Recv) {k i : Nat} (h : k ≤ i) :
    ∃ more, complete newline (received (recvs.take i))
      = complete newline (received (recvs.take k)) ++ more := by
  have := complete_take (recvs.take i) k
  rwa [List.take_take, Nat.min_eq_left h] at this

/-- Where the first over-long line is, seen from the lines handled so far. -/
theorem firstOverlong_cases {stream : Bytes} {before : List Bytes} {line : Bytes}
    {after lines more : List Bytes} (h : FirstOverlong stream before line after)
    (hlines : complete newline stream = lines ++ more) :
    (line ∈ lines) ∨ lines = before ∨ ∃ next later, before = lines ++ next :: later ∧
      more = next :: (later ++ line :: after) := by
  rcases List.append_eq_append_iff.mp (hlines.symm.trans h.lines) with
    ⟨_ | ⟨next, later⟩, hbefore, hmore⟩ | ⟨_ | ⟨x, xs⟩, hlines', hafter⟩
  · exact Or.inr (Or.inl (by rw [hbefore, List.append_nil]))
  · exact Or.inr (Or.inr ⟨next, later, hbefore, hmore⟩)
  · exact Or.inr (Or.inl (by rw [hlines', List.append_nil]))
  · cases hafter
    exact Or.inl (by rw [hlines']; exact List.mem_append_right _ List.mem_cons_self)

/-- If the buffer is over the limit before the first over-long line has been handled, it holds the
beginning of that line. -/
theorem eq_before_of_long {recvs : List Recv} {before : List Bytes} {line : Bytes}
    {after : List Bytes} (h : FirstOverlong (received recvs) before line after) {k : Nat}
    (hlong : kMaxLineBytes < (rest newline (received (recvs.take k))).length)
    (hnot : line ∉ complete newline (received (recvs.take k))) :
    complete newline (received (recvs.take k)) = before := by
  have happ : complete newline (received (recvs.take k) ++ received (recvs.drop k)) = _ :=
    complete_append _ _
  rw [received_take] at happ
  rcases firstOverlong_cases h happ with hmem | heq | ⟨next, later, hbefore, hmore⟩
  · exact absurd hmem hnot
  · exact heq
  · have hnext := length_le_of_complete (notMem_rest _) hmore
    have hfits := h.fits next (by rw [hbefore]; exact List.mem_append_right _ List.mem_cons_self)
    rw [length_terminated] at hfits
    omega

section

variable {stdHash : Bytes → UInt64} {persistence : Bool} {outside : Outside} {s s' : Session}
  {recvs : List Recv} {lines : List Bytes}

/-- Nothing is handled once the buffer is over the limit. -/
theorem handled_of_long (h : Ended stdHash persistence outside s [] recvs s' lines) {i : Nat}
    (hlong : kMaxLineBytes < (rest newline (received (recvs.take i))).length) :
    lines <+: complete newline (received (recvs.take i)) := by
  have hle : ∀ {k}, FitsUntil [] recvs k → k ≤ i := fun hfits =>
    Nat.not_lt.mp fun hlt => absurd (hfits i hlt) (Nat.not_le.mpr hlong)
  cases h with
  | @quit k before after line _ hlines _ _ hfits =>
    obtain ⟨more, hmore⟩ := complete_take_le recvs (hle hfits)
    rw [List.nil_append] at hlines
    rw [hmore, hlines]
    exact ⟨after ++ more, by simp only [List.append_assoc, List.cons_append, List.nil_append]⟩
  | tooLong hlines _ _ hfits _ =>
    obtain ⟨more, hmore⟩ := complete_take_le recvs (hle hfits)
    rw [List.nil_append] at hlines
    rw [hmore, hlines]
    exact List.prefix_append _ _
  | closed hlines _ hfits _ =>
    have hall : recvs.take i = recvs := List.take_of_length_le (Nat.le_of_succ_le (hle hfits))
    rw [hall, ← hlines, List.nil_append]

theorem noQuit_init (h : Ended stdHash persistence outside s [] recvs s' lines) :
    NoQuit lines.dropLast := by
  cases h with
  | quit _ hbefore => rwa [List.dropLast_concat]
  | tooLong _ hnone => exact fun l hl => hnone l (List.dropLast_subset _ hl)
  | closed _ hnone => exact fun l hl => hnone l (List.dropLast_subset _ hl)

theorem handled_begin (h : Ended stdHash persistence outside s [] recvs s' lines) :
    ∃ more, complete newline (received recvs) = lines ++ more := by
  cases h with
  | @quit k before after line _ hlines =>
    obtain ⟨more, hmore⟩ := complete_take recvs k
    rw [List.nil_append] at hlines
    exact ⟨after ++ more, by rw [hmore, hlines]; simp only [List.append_assoc, List.cons_append,
      List.nil_append]⟩
  | @tooLong k _ _ hlines =>
    obtain ⟨more, hmore⟩ := complete_take recvs k
    rw [List.nil_append] at hlines
    exact ⟨more, by rw [hmore, hlines]⟩
  | closed hlines => exact ⟨[], by rw [← hlines, List.nil_append, List.append_nil]⟩

/-- If all handled lines fit, the first over-long line is cut inside. -/
theorem cutInside_of_fits (h : Ended stdHash persistence outside s [] recvs s' lines)
    (hfits : ∀ l ∈ lines, (terminated l).length ≤ kMaxLineBytes) : CutInside recvs := by
  intro before line after hfirst
  have hnot : line ∉ lines := fun hmem => absurd (hfits line hmem) (Nat.not_le.mpr hfirst.overlong)
  obtain ⟨more, hmore⟩ := handled_begin h
  cases h with
  | @quit k before' after' last _ hlines _ hquit =>
    have hlast : last ∈ before := by
      rcases firstOverlong_cases hfirst hmore with hmem | heq | ⟨next, later, hbefore, -⟩
      · exact absurd hmem hnot
      · exact heq ▸ List.mem_append_right _ List.mem_cons_self
      · rw [hbefore]
        exact List.mem_append_left _ (List.mem_append_right _ List.mem_cons_self)
    have hno := hfirst.noQuit last hlast
    rw [hquit] at hno
    cases hno
  | @tooLong k _ _ hlines _ hlong =>
    rw [List.nil_append] at hlines hlong
    exact ⟨k, eq_before_of_long hfirst hlong (hlines ▸ hnot), hlong⟩
  | closed hlines =>
    rw [List.nil_append, hfirst.lines] at hlines
    exact absurd (hlines ▸ List.mem_append_right _ List.mem_cons_self) hnot

/-- A cut inside the first over-long line keeps it from being handled. -/
theorem fits_of_cutInside (h : Ended stdHash persistence outside s [] recvs s' lines)
    (hcut : CutInside recvs) {l : Bytes} (hl : l ∈ lines) :
    (terminated l).length ≤ kMaxLineBytes := by
  by_contra hover
  -- the first of the handled lines that is too long is the first of the stream
  have hsome : (lines.find? fun l => decide (kMaxLineBytes < (terminated l).length)).isSome := by
    rw [List.find?_isSome]
    exact ⟨l, hl, decide_eq_true (Nat.not_le.mp hover)⟩
  obtain ⟨line, hfind⟩ := Option.isSome_iff_exists.mp hsome
  obtain ⟨hline, before, after, hlines, hbefore⟩ := List.find?_eq_some_iff_append.mp hfind
  obtain ⟨more, hmore⟩ := handled_begin h
  have hinit := noQuit_init h
  rw [hlines, List.dropLast_append_of_ne_nil (List.cons_ne_nil _ _)] at hinit
  have hfirst : FirstOverlong (received recvs) before line (after ++ more) := by
    refine ⟨by rw [hmore, hlines, List.append_assoc, List.cons_append], of_decide_eq_true hline,
      fun x hx => ?_, fun x hx => hinit x (List.mem_append_left _ hx)⟩
    have := hbefore x hx
    simpa using this
  obtain ⟨k, hk, hlong⟩ := hcut _ _ _ hfirst
  have hle := (handled_of_long h hlong).length_le
  rw [hk, hlines, List.length_append, List.length_cons] at hle
  omega

theorem enforced_of_cutInside {w : World}
    (h : Ended stdHash persistence outside { world := w } [] recvs s' lines)
    (hcut : CutInside recvs) :
    Enforced stdHash persistence outside w recvs s' (lines.map terminated) := by
  refine ⟨fun line hline => ?_, fun before line after hfirst => ?_⟩
  · obtain ⟨l, hl, rfl⟩ := List.mem_map.mp hline
    exact fits_of_cutInside h hcut hl
  · obtain ⟨i, hi, hcutLong⟩ := hcut before line after hfirst
    have hhandled := handled_of_long h hcutLong
    rw [hi] at hhandled
    have hnot : line ∉ lines := fun hmem =>
      absurd (hfirst.fits line (hhandled.subset hmem)) (Nat.not_le.mpr hfirst.overlong)
    cases h with
    | @quit k before' after' last _ hlines _ hquit =>
      have hno := hfirst.noQuit last (hhandled.subset (List.mem_append_right _ List.mem_cons_self))
      rw [hquit] at hno
      cases hno
    | @tooLong k _ s₁ hlines _ hlong _ hserved =>
      rw [List.nil_append] at hlines hlong
      have hbefore := eq_before_of_long hfirst hlong (hlines ▸ hnot)
      rw [hlines] at hbefore
      exact ⟨s₁, hbefore ▸ hserved, rfl⟩
    | closed hlines =>
      rw [List.nil_append, hfirst.lines] at hlines
      exact absurd (hlines ▸ List.mem_append_right _ List.mem_cons_self) hnot

end

end LineLimitLemmas

open LineLimitLemmas

/-- **The line limit.** For any stream and any way of cutting it into `recv`s, a connection returns,
and it enforces the limit exactly when some `recv` ends in the first over-long line, more than
`kMaxLineBytes` bytes after the start of that line. -/
theorem lineLimit_iff (stdHash : Bytes → UInt64) (persistence : Bool) {outside : Outside}
    {w : World} {recvs : List Recv} (hreach : Reachable stdHash w.cache)
    (hsends : SendsSucceed outside) (hrecvs : ∀ r ∈ recvs, r.ordinary = true) :
    ∃ s log,
      serve stdHash persistence outside { world := w } [] (recvs ++ [.bytes []]) = some (s, true) ∧
      serveLog stdHash persistence outside { world := w } [] (recvs ++ [.bytes []])
        = some (s, true, log) ∧
      (Enforced stdHash persistence outside w recvs s log ↔ CutInside recvs) := by
  obtain ⟨s, lines, hlog, hended⟩ := @serveLog_ended stdHash persistence outside hsends
    { world := w } hreach.wf [] recvs hrecvs
  refine ⟨s, lines.map terminated, ?_, hlog, fun h => ?_, enforced_of_cutInside hended⟩
  · rw [← serveLog_forget, hlog]
    rfl
  · exact cutInside_of_fits hended fun l hl => h.fits _ (List.mem_map_of_mem hl)

theorem sendsSucceed_promptly : SendsSucceed promptly := by
  intro i data
  cases data with
  | nil => rfl
  | cons c data => simp [promptly, sendAll]

/-- One line that fills `n` `recv`s, and its newline in one more. -/
def flood (n : Nat) : List Recv :=
  List.replicate n (.bytes (List.replicate kReadChunkBytes 97)) ++ [.bytes [newline]]

theorem notMem_replicate (n : Nat) : newline ∉ List.replicate n (97 : UInt8) := fun h =>
  absurd (List.eq_of_mem_replicate h) (by decide)

theorem ordinary_bytes {chunk : Bytes} (h0 : 0 < chunk.length)
    (h : chunk.length ≤ kReadChunkBytes) : (Recv.bytes chunk).ordinary = true :=
  decide_eq_true ⟨List.ne_nil_of_length_pos h0, h⟩

theorem ordinary_flood (n : Nat) : ∀ r ∈ flood n, r.ordinary = true := by
  intro r hr
  rcases List.mem_append.mp hr with hr | hr
  · rw [List.eq_of_mem_replicate hr]
    exact ordinary_bytes (by rw [List.length_replicate]; decide) (by rw [List.length_replicate])
  · rw [List.mem_singleton.mp hr]
    decide

theorem received_chunks (n : Nat) :
    received (List.replicate n (.bytes (List.replicate kReadChunkBytes 97)))
      = List.replicate (n * kReadChunkBytes) 97 := by
  simp only [received, List.flatMap_replicate, List.flatten_replicate_replicate]

theorem received_flood (n : Nat) :
    received (flood n) = List.replicate (n * kReadChunkBytes) 97 ++ [newline] := by
  rw [← received_chunks, flood, received, List.flatMap_append]
  rfl

theorem complete_flood (n : Nat) :
    complete newline (received (flood n)) = [List.replicate (n * kReadChunkBytes) 97] := by
  rw [received_flood, complete_cons (notMem_replicate _)]
  rfl

/-- A line that needs a fifth `recv` is refused. -/
theorem lineLimit_iff_flood :
    ∃ s log,
      serve (fun _ => 0) false promptly { world := ⟨.unbounded 1, none⟩ } []
        (flood 5 ++ [.bytes []]) = some (s, true) ∧
      Enforced (fun _ => 0) false promptly ⟨.unbounded 1, none⟩ (flood 5) s log := by
  obtain ⟨s, log, hserve, -, hiff⟩ := @lineLimit_iff (fun _ => 0) false promptly
    ⟨.unbounded 1, none⟩ (flood 5) (.unbounded 1) sendsSucceed_promptly (ordinary_flood 5)
  refine ⟨s, log, hserve, hiff.mpr fun before line after hfirst => ⟨5, ?_⟩⟩
  have hlines := hfirst.lines
  rw [complete_flood] at hlines
  have hbefore : before = [] := by
    cases before with
    | nil => rfl
    | cons x before => simp at hlines
  have htake : (flood 5).take 5
      = List.replicate 5 (.bytes (List.replicate kReadChunkBytes 97)) :=
    List.take_left' List.length_replicate
  rw [htake, received_chunks, complete_of_notMem (notMem_replicate _),
    rest_of_notMem (notMem_replicate _), hbefore, List.length_replicate]
  exact ⟨rfl, by decide⟩

/-- A line of 65536 bytes with its newline in the next `recv` is handled. -/
theorem lineLimit_exceeded :
    ∃ s log,
      serve (fun _ => 0) false promptly { world := ⟨.unbounded 1, none⟩ } []
        (flood 4 ++ [.bytes []]) = some (s, true) ∧
      serveLog (fun _ => 0) false promptly { world := ⟨.unbounded 1, none⟩ } []
        (flood 4 ++ [.bytes []]) = some (s, true, log) ∧
      ∃ line ∈ log, kMaxLineBytes < line.length := by
  obtain ⟨s, lines, hlog, hended⟩ := @serveLog_ended (fun _ => 0) false promptly
    sendsSucceed_promptly { world := ⟨.unbounded 1, none⟩ } (ShardedCache.wf_unbounded 1) []
    (flood 4) (ordinary_flood 4)
  refine ⟨s, lines.map terminated, by rw [← serveLog_forget, hlog]; rfl, hlog, ?_⟩
  by_contra hnone
  have hcut := cutInside_of_fits hended fun l hl =>
    Nat.not_lt.mp fun hlong => hnone ⟨_, List.mem_map_of_mem hl, hlong⟩
  obtain ⟨k, hcomplete, hlong⟩ := hcut [] (List.replicate (4 * kReadChunkBytes) 97) []
    ⟨complete_flood 4, by rw [length_terminated, List.length_replicate]; decide,
      fun l hl => absurd hl List.not_mem_nil, fun l hl => absurd hl List.not_mem_nil⟩
  -- before the newline there are not enough bytes
  have hnot := complete_eq_nil.mp hcomplete
  rw [rest_of_notMem hnot] at hlong
  have happ := received_take (flood 4) k
  rw [received_flood] at happ
  by_cases hnil : received ((flood 4).drop k) = []
  · rw [hnil, List.append_nil] at happ
    exact hnot (happ ▸ List.mem_append_right _ List.mem_cons_self)
  · have hpos := List.length_pos_of_ne_nil hnil
    have hlen := congrArg List.length happ
    rw [List.length_append, List.length_append, List.length_replicate] at hlen
    simp only [List.length_cons, List.length_nil, kMaxLineBytes, kReadChunkBytes] at hlen hlong
    omega

end CacheX
