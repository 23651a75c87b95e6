import CacheX.Replies

/-!
# Values on the wire

A value goes from a request line of one client into the cache, and from the reply to a `GET` back to
a client, which takes its replies apart with the same `LineBuffer` as the server. The tokenizer
keeps a carriage return at the end of a value when two of them end the line, and the client's
framing then drops it.

* `readReply_line`: what a client reads does not depend on how the reply is cut into chunks.
* `readsAs_other`: which replies look the same to a client.
* `execute_keeps`: a command that does not write a key leaves its entry or drops it.
* `run_keeps`: commands that spare a key leave its value, as long as it is not evicted.
* `wire_iff`: a value survives, and differs from another value, exactly when it does not end with a
  carriage return and the other value is not the same up to a line end.
* `wire_loses_return`: a value that comes back without its last byte.
-/

namespace CacheX

open Decimal (ascii)
open Lines ShardedCache ConcurrentLemmas RepliesLemmas

/-! ## The client -/

/-- `read_reply` of `client_main.cpp` over what `recv` returns: the line, what stays in the buffer
and the `recv`s to come. There is no line if the server closes or the socket fails; an interruption
is a failure here. -/
def readReply (buffer : Bytes) (recvs : List Recv) : Option (Bytes × Bytes × List Recv) :=
  match nextLine buffer with
  | some (line, rest) => some (line, rest, recvs)
  | none =>
    match recvs with
    | .bytes (c :: chunk) :: recvs => readReply (buffer ++ c :: chunk) recvs
    | _ => none
termination_by structural recvs

/-- `sizeof(chunk)` in `read_reply`. -/
def kReplyChunkBytes : Nat := 4096

/-- A client that has read all earlier replies reads `line` from `reply`, however it is cut. -/
def ReadsAs (reply line : Bytes) : Prop :=
  ∀ chunks : List Bytes, (∀ chunk ∈ chunks, chunk ≠ [] ∧ chunk.length ≤ kReplyChunkBytes) →
    chunks.flatten = reply →
    (readReply [] (chunks.map Recv.bytes)).map (fun p => p.1) = some line

theorem nextLine_append {buffer line rest : Bytes} (h : nextLine buffer = some (line, rest))
    (more : Bytes) : nextLine (buffer ++ more) = some (line, rest ++ more) := by
  obtain ⟨x, hx, rfl, rfl⟩ := nextLine_eq_some h
  rw [List.append_assoc, List.cons_append, nextLine_cons hx]

theorem readReply_line {chunks : List Bytes} (hchunks : ∀ chunk ∈ chunks, chunk ≠ [])
    {buffer line left : Bytes} (h : nextLine (buffer ++ chunks.flatten) = some (line, left)) :
    (readReply buffer (chunks.map Recv.bytes)).map (fun p => p.1) = some line := by
  induction chunks generalizing buffer with
  | nil =>
    rw [List.flatten_nil, List.append_nil] at h
    rw [List.map_nil, readReply.eq_def, h]
    rfl
  | cons chunk chunks ih =>
    rw [List.map_cons, readReply.eq_def]
    cases hn : nextLine buffer with
    | some p =>
      rw [nextLine_append (show nextLine buffer = some (p.1, p.2) from hn)] at h
      cases h
      rfl
    | none =>
      obtain ⟨c, chunk, rfl⟩ := List.exists_cons_of_ne_nil (hchunks chunk List.mem_cons_self)
      refine ih (fun x hx => hchunks x (List.mem_cons_of_mem _ hx)) ?_
      rwa [List.append_assoc]

theorem readsAs_line {x : Bytes} (h : newline ∉ x) (y : Bytes) :
    ReadsAs (x ++ newline :: y) (stripReturn x) := fun chunks hchunks hflat =>
  readReply_line (fun chunk hchunk => (hchunks chunk hchunk).1)
    (by rw [List.nil_append, hflat, nextLine_cons h])

/-! ## What looks the same -/

/-- A value and another one look different to a client. -/
def Distinct (v other : Bytes) : Prop :=
  v.getLast? ≠ some carriageReturn ∧ other ≠ v ++ [carriageReturn] ∧
    ¬ v ++ [newline] <+: other ∧ ¬ v ++ [carriageReturn, newline] <+: other

instance (v other : Bytes) : Decidable (Distinct v other) := inferInstanceAs (Decidable (_ ∧ _))

theorem stripReturn_eq_iff {x y : Bytes} (hy : y.getLast? ≠ some carriageReturn) :
    stripReturn x = y ↔ x = y ∨ x = y ++ [carriageReturn] := by
  unfold stripReturn
  split
  · next hx =>
    obtain ⟨z, rfl⟩ := List.getLast?_eq_some_iff.mp hx
    rw [List.dropLast_concat]
    refine ⟨fun h => Or.inr (by rw [h]), ?_⟩
    rintro (rfl | h)
    · exact absurd hx hy
    · exact List.append_cancel_right h
  · next hx =>
    refine ⟨Or.inl, ?_⟩
    rintro (h | rfl)
    · exact h
    · exact absurd List.getLast?_concat hx

/-- The line that begins a list is its beginning up to the first newline. -/
theorem line_prefix_iff {x a : Bytes} (hx : newline ∉ x) (ha : newline ∉ a) (b : Bytes) :
    x ++ [newline] <+: a ++ newline :: b ↔ x = a := by
  constructor
  · rintro ⟨more, hmore⟩
    rw [List.append_assoc, List.singleton_append] at hmore
    have hlines := congrArg (complete newline) hmore
    rw [complete_cons hx, complete_cons ha] at hlines
    exact (List.cons.inj hlines).1
  · rintro rfl
    exact ⟨b, by rw [List.append_assoc, List.singleton_append]⟩

theorem getLast?_value {v : Bytes} (hv : v ≠ []) : (ascii "=" ++ v).getLast? = v.getLast? := by
  rw [List.getLast?_append_of_ne_nil _ hv]

/-- What a client reads from the reply with a value that has no newline. -/
theorem readsAs_value {v : Bytes} (h : newline ∉ v) :
    ReadsAs (replyValue v) (stripReturn (ascii "=" ++ v)) := by
  have hx : newline ∉ ascii "=" ++ v := by
    simp only [List.mem_append, not_or]
    exact ⟨by decide, h⟩
  exact readsAs_line hx []

theorem readsAs_nil : ReadsAs replyNil (ascii "_") := by
  have hx : newline ∉ ascii "_" := by decide
  exact readsAs_line hx []

/-- Which values a client reads like `v`. -/
theorem not_distinct {v : Bytes} (hlast : v.getLast? ≠ some carriageReturn) (other : Bytes) :
    ¬ Distinct v other ↔ other = v ++ [carriageReturn] ∨ v ++ [newline] <+: other ∨
      v ++ [carriageReturn] ++ [newline] <+: other := by
  have hcrlf : v ++ [carriageReturn] ++ [newline] = v ++ [carriageReturn, newline] := by simp
  rw [hcrlf, Distinct]
  tauto

/-- What a client reads from a reply with any value, and for which values it is `v`. -/
theorem readsAs_other {v : Bytes} (hv : newline ∉ v) (hne : v ≠ []) (other : Bytes) :
    ∃ got, ReadsAs (replyValue other) got ∧ (v.getLast? ≠ some carriageReturn →
      (got = ascii "=" ++ v ↔ other = v ∨ ¬ Distinct v other)) := by
  have hret : newline ∉ v ++ [carriageReturn] := by
    simp only [List.mem_append, not_or]
    exact ⟨hv, by decide⟩
  by_cases hmem : newline ∈ other
  · have hv' : other ≠ v := fun he => hv (he ▸ hmem)
    have hret' : other ≠ v ++ [carriageReturn] := fun he => hret (he ▸ hmem)
    obtain ⟨a, b, rfl, ha⟩ := List.eq_append_cons_of_mem hmem
    have ha' : newline ∉ ascii "=" ++ a := by
      simp only [List.mem_append, not_or]
      exact ⟨by decide, ha⟩
    refine ⟨stripReturn (ascii "=" ++ a), ?_, fun hlast => ?_⟩
    · have := readsAs_line ha' (b ++ ascii "\n")
      rwa [List.append_assoc, ← List.cons_append, ← List.append_assoc, ← List.append_assoc] at this
    · rw [not_distinct hlast, stripReturn_eq_iff (by rwa [getLast?_value hne]), List.append_assoc,
        List.append_cancel_left_eq, List.append_cancel_left_eq, line_prefix_iff hv ha,
        line_prefix_iff hret ha, eq_comm (a := a) (b := v),
        eq_comm (a := a) (b := v ++ [carriageReturn])]
      exact ⟨fun h => Or.inr (Or.inr h), fun h => (h.resolve_left hv').resolve_left hret'⟩
  · have hnot : ∀ x : Bytes, ¬ x ++ [newline] <+: other := fun x hx =>
      hmem (hx.subset (List.mem_append_right _ List.mem_cons_self))
    refine ⟨stripReturn (ascii "=" ++ other), readsAs_value hmem, fun hlast => ?_⟩
    rw [not_distinct hlast, stripReturn_eq_iff (by rwa [getLast?_value hne]), List.append_assoc,
      List.append_cancel_left_eq, List.append_cancel_left_eq]
    simp only [hnot, or_false]

/-! ## Keeping a value -/

/-- A command that does not write the key. -/
def Command.Spares (command : Command) (k : Bytes) : Prop :=
  command.type ≠ .load ∧ (command.key = k → command.type ≠ .set ∧ command.type ≠ .delete)

/-- The command writes the key: it sets or deletes it, or loads a record for it whose time has not
run out. -/
def Command.Writes (persistence : Bool) (env : Env) (w : World) (command : Command) (k : Bytes) :
    Prop :=
  match command.type with
  | .set => command.key = k
  | .delete => command.key = k
  | .load => persistence = true ∧ ∃ file p, w.file = some file ∧ parseSnapshot file = .ok p ∧
      ∃ e ∈ survivors (elapsedMs env.wall p.savedAt) env.steady p.records, e.key = k
  | _ => False

/-- `execute` as a machine: what a command reads from outside comes with it. -/
def perform (stdHash : Bytes → UInt64) (persistence : Bool) (w : World) (x : Env × Command) :
    Option (World × Bytes) :=
  execute stdHash persistence x.1 w x.2

section Keeping

variable {stdHash : Bytes → UInt64} {persistence : Bool}

theorem stored_key {now : Time} {op : Op} {e : Entry} (h : stored (now, op) = some e) :
    op.key = some e.key := by
  cases op with
  | set k v =>
    cases h
    rfl
  | setTtl k v ttl =>
    simp only [stored] at h
    split at h
    · cases h
    · cases h
      rfl
  | _ => cases h

/-- A command that makes no call, other than `LOAD`, leaves the cache. -/
theorem execute_cache {command : Command} (hop : command.op = none) (hload : command.type ≠ .load)
    {env : Env} {w w' : World} {r : Bytes}
    (h : execute stdHash persistence env w command = some (w', r)) : w'.cache = w.cache := by
  obtain ⟨type, key, value, ttl⟩ := command
  cases type with
  | ping =>
    cases h
    rfl
  | quit =>
    cases h
    rfl
  | save => cases persistence <;> cases h <;> rfl
  | load => exact absurd rfl hload
  | set => cases ttl <;> cases hop
  | _ => cases hop

/-- A resident entry is what is found under its key. -/
theorem find_of_mem_shard {sc : ShardedCache} (h : sc.WF stdHash) {c : Cache} (hc : c ∈ sc.shards)
    {e : Entry} (he : e ∈ c.entries.toList) : (sc.lru stdHash e.key).find e.key = some e := by
  obtain ⟨j, hj⟩ := List.mem_iff_getElem?.mp hc
  have hshard : sc.shards[sc.shardIndexFor stdHash e.key]? = some (sc.shardFor stdHash e.key) :=
    sc.shardFor_eq e.key
  rw [h.owner hj he, hj] at hshard
  cases hshard
  exact Keyed.find_of_mem (h.lru_wf e.key).nodup he

/-- A load that restores nothing under a key leaves its entry or drops it. -/
theorem load_keeps {sc sc' : ShardedCache} (h : sc.WF stdHash) {file : Option Bytes} {wall : Millis}
    {clock : Nat → Time} {res : LoadResult}
    (hload : load stdHash sc file wall clock = some (sc', res)) {k : Bytes}
    (hspares : ∀ bytes p, file = some bytes → parseSnapshot bytes = .ok p →
      ∀ e ∈ survivors (elapsedMs wall p.savedAt) clock p.records, e.key ≠ k) :
    sc'.WF stdHash ∧ ∀ e, (sc'.lru stdHash k).find k = some e →
      (sc.lru stdHash k).find k = some e := by
  cases file with
  | none =>
    cases hload
    exact ⟨h, fun e he => he⟩
  | some bytes =>
    rcases load_cases h bytes wall clock with
      ⟨err, -, hl⟩ | ⟨p, sc₁, res₁, hp, hl, -, hwf, -, hrest⟩
    · cases hl.symm.trans hload
      exact ⟨h, fun e he => he⟩
    · cases hl.symm.trans hload
      refine ⟨hwf, fun e he => ?_⟩
      obtain ⟨hmem, rfl⟩ := Keyed.find_some he
      rcases hrest.mem (sc'.shardFor_mem e.key) hmem with hnew | ⟨-, c, hc, hold⟩
      · exact absurd rfl (hspares bytes p rfl hp e hnew)
      · exact find_of_mem_shard h hc hold

/-- A command that does not write a key leaves its entry or drops it. -/
theorem execute_keeps {w w' : World} (hwf : w.cache.WF stdHash) {env : Env} {command : Command}
    {k r : Bytes} (hx : ¬ command.Writes persistence env w k)
    (h : execute stdHash persistence env w command = some (w', r)) :
    w'.cache.WF stdHash ∧ ∀ e, (w'.cache.lru stdHash k).find k = some e →
      (w.cache.lru stdHash k).find k = some e := by
  cases hop : command.op with
  | none =>
    by_cases hload : command.type = .load
    · cases hpers : persistence with
      | false =>
        simp only [execute, hload, hpers, Bool.false_eq_true, if_false] at h
        cases h
        exact ⟨hwf, fun e he => he⟩
      | true =>
        simp only [execute, hload, hpers, if_true] at h
        obtain ⟨⟨sc', res⟩, hl, heq⟩ := Option.map_eq_some_iff.mp h
        cases heq
        refine load_keeps hwf hl fun bytes p hfile hp e he hk => hx ?_
        simp only [Command.Writes, hload]
        exact ⟨hpers, bytes, p, hfile, hp, e, he, hk⟩
    · rw [execute_cache hop hload h]
      exact ⟨hwf, fun e he => he⟩
  | some op =>
    have hk := op_key hop
    obtain ⟨sc', hstep, hwf', habs⟩ :=
      step_spec hwf (show (env.steady 0, op).2.key = some command.key from hk)
    rw [execute_op stdHash persistence env w hop, hstep] at h
    cases h
    refine ⟨hwf', fun e he => ?_⟩
    rcases find_step hwf hk habs he with hst | ⟨hold, -⟩
    · -- the stored entry has another key, because the command does not write this one
      have hkey : command.key = k := by
        have := (stored_key hst).symm.trans hk
        rw [← Option.some.inj this]
        exact (Keyed.find_some he).2
      refine absurd ?_ hx
      simp only [Command.Writes, (set_of_stored hop hst).1]
      exact hkey
    · exact hold

theorem Command.Spares.not_writes {command : Command} {k : Bytes} (h : command.Spares k)
    (env : Env) (w : World) : ¬ command.Writes persistence env w k := by
  unfold Command.Writes
  split
  · next htype => exact fun hk => (h.2 hk).1 htype
  · next htype => exact fun hk => (h.2 hk).2 htype
  · next htype => exact absurd htype h.1
  · exact not_false

/-- While a key is spared and not evicted, it keeps its entry. -/
theorem run_keeps {w w' : World} (hwf : w.cache.WF stdHash) {later : List (Env × Command)}
    {k : Bytes} {rs : List Bytes} (hspares : ∀ x ∈ later, x.2.Spares k)
    (hrun : Machine.run (perform stdHash persistence) w later = some (w', rs)) {e : Entry}
    (he : (w'.cache.lru stdHash k).find k = some e) :
    w'.cache.WF stdHash ∧ (w.cache.lru stdHash k).find k = some e := by
  induction later generalizing w rs with
  | nil =>
    cases hrun
    exact ⟨hwf, he⟩
  | cons x later ih =>
    obtain ⟨w₁, r, rs', hstep, hrest, rfl⟩ := Machine.run_cons_inv hrun
    obtain ⟨hwf₁, hkeeps⟩ :=
      execute_keeps hwf ((hspares x List.mem_cons_self).not_writes x.1 w) hstep
    obtain ⟨hwf', hfind⟩ := ih hwf₁ (fun y hy => hspares y (List.mem_cons_of_mem _ hy)) hrest
    exact ⟨hwf', hkeeps e hfind⟩

/-- `SET` without a ttl where there is room. -/
theorem execute_set {w : World} (hwf : w.cache.WF stdHash)
    (hcap : ∀ c ∈ w.cache.shards, c.capacity ≠ some 0) (env : Env) (k v : Bytes) :
    ∃ w₁, execute stdHash persistence env w { type := .set, key := k, value := v }
        = some (w₁, replyOk) ∧ w₁.cache.WF stdHash ∧
      (w₁.cache.lru stdHash k).find k = some ⟨k, v, none⟩ := by
  obtain ⟨sc', hset, hwf', habs⟩ := set_spec hwf k v
  refine ⟨{ w with cache := sc' }, ?_, hwf', ?_⟩
  · simp only [execute, hset, Option.map_some]
  · rw [lru_set habs k, if_pos rfl]
    exact Lru.find_store_self (hcap _ (w.cache.shardFor_mem k)) ⟨k, v, none⟩

/-- `GET` of an entry that is live. -/
theorem execute_get {w : World} (hwf : w.cache.WF stdHash) {k : Bytes} {e : Entry} {env : Env}
    (hf : (w.cache.lru stdHash k).find k = some e) (hx : isExpired (env.steady 0) e = false) :
    ∃ w₁, execute stdHash persistence env w { type := .get, key := k }
      = some (w₁, replyValue e.value) := by
  have hop : ({ type := .get, key := k } : Command).op = some (.get k) := rfl
  obtain ⟨sc', hstep, -⟩ :=
    step_spec hwf (show (env.steady 0, Op.get k).2.key = some k from rfl)
  refine ⟨{ w with cache := sc' }, ?_⟩
  rw [execute_op stdHash persistence env w hop, hstep, Lru.step_reply _ rfl, Lru.view_live hf hx]
  rfl

end Keeping

theorem newline_notMem_stripReturn {line : Bytes} (h : newline ∉ line) :
    newline ∉ stripReturn line := by
  unfold stripReturn
  split
  · exact fun hmem => h (List.dropLast_subset _ hmem)
  · exact h

/-- **Values on the wire.** A request line without a newline, framed and parsed by the server as
`SET k v`, is executed where every shard has room for an entry. Later, while `k` has not been
written, evicted or loaded over, a `GET k` is answered. What a client reads from the reply is the
value, and differs from what it reads for another value and for no value, exactly when the value
does not end with a carriage return and the other value does not continue it with a line end. -/
theorem wire_iff (stdHash : Bytes → UInt64) (persistence : Bool) {w : World}
    (hreach : Reachable stdHash w.cache) (hcap : ∀ c ∈ w.cache.shards, c.capacity ≠ some 0)
    {line request left k v : Bytes} (hline : newline ∉ line)
    (hframe : nextLine (terminated line) = some (request, left))
    (hparse : parseCommand request = .ok { type := .set, key := k, value := v }) (env : Env) :
    ∃ w₁, execute stdHash persistence env w { type := .set, key := k, value := v }
        = some (w₁, replyOk) ∧
      ∀ later w₂ replies, (∀ x ∈ later, x.2.Spares k) →
        Machine.run (perform stdHash persistence) w₁ later = some (w₂, replies) →
        (w₂.cache.lru stdHash k).find k ≠ none →
        ∀ env', ∃ w₃ reply got,
          execute stdHash persistence env' w₂ { type := .get, key := k } = some (w₃, reply) ∧
          ReadsAs reply got ∧
          ∀ other, other ≠ v → ∃ gotOther gotNil,
            ReadsAs (replyValue other) gotOther ∧ ReadsAs replyNil gotNil ∧
            (got = ascii "=" ++ v ∧ got ≠ gotOther ∧ got ≠ gotNil ↔ Distinct v other) := by
  obtain ⟨w₁, hset, hwf₁, hfind⟩ := @execute_set stdHash persistence w hreach.wf hcap env k v
  refine ⟨w₁, hset, fun later w₂ replies hspares hrun hres env' => ?_⟩
  obtain ⟨e, he⟩ := Option.ne_none_iff_exists'.mp hres
  obtain ⟨hwf₂, hkept⟩ := run_keeps hwf₁ hspares hrun he
  rw [hfind] at hkept
  cases hkept
  obtain ⟨w₃, hget⟩ := @execute_get stdHash persistence w₂ hwf₂ k _ env' he rfl
  -- the value is a token of the request
  rw [terminated, nextLine_cons hline] at hframe
  cases hframe
  have hop : ({ type := .set, key := k, value := v } : Command).op = some (.set k v) := rfl
  have htoken : v ∈ tokenize (stripReturn line) := (parseCommand_tokens hparse hop).2 rfl
  have hv := newline_notMem_token htoken (newline_notMem_stripReturn hline)
  have hne := (mem_tokenize htoken).1
  refine ⟨w₃, replyValue v, stripReturn (ascii "=" ++ v), hget, readsAs_value hv,
    fun other hother => ?_⟩
  obtain ⟨gotOther, hreads, hiff⟩ := readsAs_other hv hne other
  refine ⟨gotOther, ascii "_", hreads, readsAs_nil, ?_⟩
  by_cases hlast : v.getLast? = some carriageReturn
  · -- the client drops the carriage return
    refine iff_of_false (fun h => ?_) fun h => h.1 hlast
    have hlen := congrArg List.length h.1
    rw [stripReturn, if_pos (by rwa [getLast?_value hne]), List.length_dropLast] at hlen
    have hpos := List.length_pos_of_ne_nil hne
    simp only [List.length_append] at hlen
    omega
  · have hgot : stripReturn (ascii "=" ++ v) = ascii "=" ++ v :=
      if_neg (by rwa [getLast?_value hne])
    have hnil : ascii "=" ++ v ≠ ascii "_" := fun h =>
      absurd (show some (61 : UInt8) = some 95 from congrArg List.head? h) (by decide)
    rw [hgot, ne_comm (a := ascii "=" ++ v) (b := gotOther)]
    constructor
    · rintro ⟨-, hne', -⟩
      by_contra hd
      exact hne' ((hiff hlast).mpr (Or.inr hd))
    · intro hd
      refine ⟨rfl, fun heq => ?_, hnil⟩
      rcases (hiff hlast).mp heq with h | h
      · exact hother h
      · exact h hd

/-- A value with a carriage return inside, read back after another key was set. -/
theorem wire_iff_inside :
    ∃ w₁ w₂ w₃ replies reply,
      execute (fun _ => 0) false ⟨fun _ => 0, 0, .done⟩ ⟨.bounded 1 2, none⟩
        { type := .set, key := ascii "k", value := ascii "a\rb" } = some (w₁, replyOk) ∧
      Machine.run (perform (fun _ => 0) false) w₁ [(⟨fun _ => 0, 0, .done⟩,
        { type := .set, key := ascii "j", value := ascii "x" })] = some (w₂, replies) ∧
      execute (fun _ => 0) false ⟨fun _ => 0, 0, .done⟩ w₂ { type := .get, key := ascii "k" }
        = some (w₃, reply) ∧
      ReadsAs reply (ascii "=a\rb") := by
  obtain ⟨w₁, hset, hlater⟩ := @wire_iff (fun _ => 0) false ⟨.bounded 1 2, none⟩ (.bounded 1 2)
    (by decide) (ascii "SET k a\rb") (ascii "SET k a\rb") [] (ascii "k") (ascii "a\rb")
    (by decide) (by decide) (by decide) ⟨fun _ => 0, 0, .done⟩
  have hrun : ((execute (fun _ => 0) false ⟨fun _ => 0, 0, .done⟩ ⟨.bounded 1 2, none⟩
        { type := .set, key := ascii "k", value := ascii "a\rb" }).bind fun p =>
      (Machine.run (perform (fun _ => 0) false) p.1 [(⟨fun _ => 0, 0, .done⟩,
        { type := .set, key := ascii "j", value := ascii "x" })]).map fun q =>
          ((q.1.cache.lru (fun _ => 0) (ascii "k")).find (ascii "k")).isSome) = some true := by
    decide
  rw [hset, Option.bind_some] at hrun
  obtain ⟨⟨w₂, replies⟩, hrun', hres⟩ := Option.map_eq_some_iff.mp hrun
  obtain ⟨w₃, reply, got, hget, hreads, hiff⟩ := hlater _ w₂ replies
    (by unfold Command.Spares; decide) hrun' (Option.isSome_iff_ne_none.mp hres)
    ⟨fun _ => 0, 0, .done⟩
  obtain ⟨_, _, -, -, hvalue⟩ := hiff (ascii "b") (by decide)
  rw [(hvalue.mpr (by decide)).1] at hreads
  exact ⟨w₁, w₂, w₃, replies, reply, hset, hrun', hget, hreads⟩

/-- Two carriage returns end the line: the server takes one off, the client the other. -/
theorem wire_loses_return :
    nextLine (ascii "SET k v\r\r\n") = some (ascii "SET k v\r", []) ∧
      parseCommand (ascii "SET k v\r")
        = .ok { type := .set, key := ascii "k", value := ascii "v\r" } ∧
      ((execute (fun _ => 0) false ⟨fun _ => 0, 0, .done⟩ ⟨.unbounded 1, none⟩
          { type := .set, key := ascii "k", value := ascii "v\r" }).bind fun p =>
        execute (fun _ => 0) false ⟨fun _ => 0, 0, .done⟩ p.1
          { type := .get, key := ascii "k" }).map Prod.snd = some (ascii "=v\r\n") ∧
      (readReply [] [.bytes (ascii "=v\r\n")]).map (fun p => p.1) = some (ascii "=v") ∧
      (readReply [] [.bytes (replyValue (ascii "v"))]).map (fun p => p.1) = some (ascii "=v") := by
  decide

end CacheX
