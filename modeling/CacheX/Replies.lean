import CacheX.Concurrent
import CacheX.Connection
import CacheX.Grammar

/-!
# One line per reply

A reply ends with a newline. It has no other as long as the values it echoes have none: a `SET`
cannot bring one into the cache, because it is parsed from a line, but a `LOAD` can.

* `parseCommand_error`, `parseCommand_tokens`: what the parser takes over from a line.
* `respond_oneLine`: one request, in a cache whose values are plain.
* `replies_oneLine`: in every run whose loaded files have plain values, every reply is one line, and
  the bytes of the replies split into them again.
* `replies_desync`: a loaded value with a newline makes two lines of one reply.
-/

namespace CacheX

open Decimal (ascii)
open Lines ShardedCache ConcurrentLemmas GrammarLemmas

/-! ## Requests -/

/-- A request: what its command reads from outside, the snapshot file at that moment, and the
line. -/
structure Request where
  env : Env
  file : Option Bytes
  line : Bytes

/-- `Connection::handle_line` without the socket: the reply to a line. -/
def respond (stdHash : Bytes → UInt64) (persistence : Bool) (sc : ShardedCache) (r : Request) :
    Option (ShardedCache × Bytes) :=
  match parseCommand r.line with
  | .error error => some (sc, replyError error)
  | .ok command =>
    (execute stdHash persistence r.env ⟨sc, r.file⟩ command).map fun p => (p.1.cache, p.2)

/-- Exactly one newline, as the last byte. -/
def OneLine (reply : Bytes) : Prop := reply.count newline = 1 ∧ reply.getLast? = some newline

instance (reply : Bytes) : Decidable (OneLine reply) := inferInstanceAs (Decidable (_ ∧ _))

/-- A key that a request can name. -/
def IsToken (key : Bytes) : Prop := key ≠ [] ∧ ∀ c ∈ key, isSeparator c = false ∧ c ≠ newline

/-- The text of a failed save that does not come from the program. -/
def SaveOutcome.text : SaveOutcome → Bytes
  | .done => []
  | .cannotOpen tempPath => tempPath
  | .writeFailed => []
  | .cannotRename reason => reason

/-- A `LOAD` of a file without a newline in any value that a request can name, or a `SAVE` without a
newline in the text of its error, or any other request. Without a snapshot path `LOAD` and `SAVE` do
nothing, so any request is plain. -/
def Request.Plain (persistence : Bool) (r : Request) : Prop :=
  match persistence, (commandOf r.line).map Command.type with
  | true, some .load => ∀ file p, r.file = some file → parseSnapshot file = .ok p →
      ∀ record ∈ p.records, IsToken record.key → newline ∉ record.value
  | true, some .save => newline ∉ r.env.outcome.text
  | _, _ => True

/-! ## Lines and tokens -/

namespace RepliesLemmas

theorem oneLine_terminated {body : Bytes} (h : newline ∉ body) : OneLine (terminated body) := by
  refine ⟨?_, List.getLast?_concat⟩
  rw [terminated, List.count_append, List.count_eq_zero.mpr h]
  rfl

theorem terminated_of_oneLine {reply : Bytes} (h : OneLine reply) :
    ∃ body, newline ∉ body ∧ reply = terminated body := by
  obtain ⟨hcount, hlast⟩ := h
  obtain ⟨body, rfl⟩ := List.getLast?_eq_some_iff.mp hlast
  refine ⟨body, List.count_eq_zero.mp ?_, rfl⟩
  rw [List.count_append] at hcount
  exact Nat.succ.inj hcount

/-- Replies of one line each can be told apart. -/
theorem complete_flatten {replies : List Bytes} (h : ∀ reply ∈ replies, OneLine reply) :
    (complete newline replies.flatten).map terminated = replies ∧
      rest newline replies.flatten = [] := by
  induction replies with
  | nil => exact ⟨rfl, rfl⟩
  | cons reply replies ih =>
    obtain ⟨hlines, hrest⟩ := ih fun r hr => h r (List.mem_cons_of_mem _ hr)
    obtain ⟨body, hbody, rfl⟩ := terminated_of_oneLine (h reply List.mem_cons_self)
    rw [List.flatten_cons, terminated, List.append_assoc, List.singleton_append,
      complete_cons hbody, rest_cons hbody, List.map_cons, hlines]
    exact ⟨rfl, hrest⟩

theorem newline_notMem_ofNat (n : Nat) : newline ∉ Decimal.ofNat n := fun h =>
  absurd (Decimal.isDigit_of_mem_ofNat h) (by decide)

theorem newline_notMem_ofInt (z : Int) : newline ∉ Decimal.ofInt z := by
  cases z with
  | ofNat n => exact newline_notMem_ofNat n
  | negSucc n =>
    exact List.not_mem_cons_of_ne_of_not_mem (by decide) (newline_notMem_ofNat _)

theorem mem_tokenizeFrom {token line t : Bytes} (h : t ∈ tokenizeFrom token line)
    (htoken : ∀ c ∈ token, isSeparator c = false) :
    t ≠ [] ∧ ∀ c ∈ t, isSeparator c = false ∧ (c ∈ token ∨ c ∈ line) := by
  induction line generalizing token with
  | nil =>
    unfold tokenizeFrom at h
    split at h
    · cases h
    · next hne =>
      rw [List.mem_singleton.mp h]
      exact ⟨hne, fun c hc => ⟨htoken c hc, Or.inl hc⟩⟩
  | cons c line ih =>
    have hrest : ∀ {token : Bytes}, t ∈ tokenizeFrom token line →
        (∀ d ∈ token, isSeparator d = false) →
        t ≠ [] ∧ ∀ d ∈ t, isSeparator d = false ∧ (d ∈ token ∨ d ∈ c :: line) := by
      intro token hmem hsep
      obtain ⟨hne, hbytes⟩ := ih hmem hsep
      exact ⟨hne, fun d hd => ⟨(hbytes d hd).1, (hbytes d hd).2.imp_right
        (List.mem_cons_of_mem _)⟩⟩
    have hfresh : t ∈ tokenizeFrom [] line →
        t ≠ [] ∧ ∀ d ∈ t, isSeparator d = false ∧ (d ∈ token ∨ d ∈ c :: line) := by
      intro hmem
      obtain ⟨hne, hbytes⟩ := hrest hmem fun d hd => absurd hd List.not_mem_nil
      exact ⟨hne, fun d hd => ⟨(hbytes d hd).1,
        Or.inr ((hbytes d hd).2.resolve_left List.not_mem_nil)⟩⟩
    unfold tokenizeFrom at h
    split at h
    · split at h
      · exact hfresh h
      · next hne =>
        rcases List.mem_cons.mp h with rfl | h
        · exact ⟨hne, fun d hd => ⟨htoken d hd, Or.inl hd⟩⟩
        · exact hfresh h
    · next hc =>
      obtain ⟨hne, hbytes⟩ := hrest h fun d hd => by
        rcases List.mem_append.mp hd with hd | hd
        · exact htoken d hd
        · rw [List.mem_singleton.mp hd]
          exact Bool.eq_false_iff.mpr hc
      refine ⟨hne, fun d hd => ⟨(hbytes d hd).1, ?_⟩⟩
      rcases (hbytes d hd).2 with hd | hd
      · rcases List.mem_append.mp hd with hd | hd
        · exact Or.inl hd
        · exact Or.inr (List.mem_singleton.mp hd ▸ List.mem_cons_self)
      · exact Or.inr hd

/-- The tokens of a line are not empty, and their bytes are bytes of the line. -/
theorem mem_tokenize {line t : Bytes} (h : t ∈ tokenize line) :
    t ≠ [] ∧ ∀ c ∈ t, isSeparator c = false ∧ c ∈ line := by
  obtain ⟨hne, hbytes⟩ := mem_tokenizeFrom h fun c hc => absurd hc List.not_mem_nil
  exact ⟨hne, fun c hc => ⟨(hbytes c hc).1, (hbytes c hc).2.resolve_left List.not_mem_nil⟩⟩

theorem isToken_of_mem {line t : Bytes} (h : t ∈ tokenize line) (hline : newline ∉ line) :
    IsToken t :=
  ⟨(mem_tokenize h).1, fun c hc =>
    ⟨((mem_tokenize h).2 c hc).1, fun he => hline (he ▸ ((mem_tokenize h).2 c hc).2)⟩⟩

theorem newline_notMem_token {line t : Bytes} (h : t ∈ tokenize line) (hline : newline ∉ line) :
    newline ∉ t := fun hmem => ((isToken_of_mem h hline).2 newline hmem).2 rfl

theorem newline_notMem_quoted {text : Bytes} (h : newline ∉ text) : newline ∉ quoted text := by
  have htake : newline ∉ text.take 32 := fun hmem => h (List.mem_of_mem_take hmem)
  have hdots : newline ∉ (if 32 < text.length then ascii "..." else []) := by
    split <;> decide
  simp only [quoted, List.mem_append, not_or]
  exact ⟨⟨⟨by decide, htake⟩, hdots⟩, by decide⟩

/-- The message for a wrong number of arguments. -/
theorem newline_notMem_usage {name usage : Bytes} (hname : newline ∉ name)
    (husage : newline ∉ usage) :
    newline ∉ ascii "wrong number of arguments for '" ++ name ++ ascii "' (expected '" ++ name
      ++ usage := by
  simp only [List.mem_append, not_or]
  exact ⟨⟨⟨⟨by decide, hname⟩, by decide⟩, hname⟩, husage⟩

theorem parseKeyOnly_error {type : CommandType} {name e : Bytes} {tokens : List Bytes}
    (hname : newline ∉ name) (h : parseKeyOnly type name tokens = .error e) : newline ∉ e := by
  unfold parseKeyOnly at h
  split at h
  · cases h
  · cases h
    exact newline_notMem_usage hname (by decide)

theorem parseNoArgs_error {type : CommandType} {name e : Bytes} {tokens : List Bytes}
    (hname : newline ∉ name) (h : parseNoArgs type name tokens = .error e) : newline ∉ e := by
  unfold parseNoArgs at h
  split at h
  · cases h
  · cases h
    exact newline_notMem_usage hname (by decide)

theorem parseTtl_error {text e : Bytes} (htext : newline ∉ text) (h : parseTtl text = .error e) :
    newline ∉ e := by
  unfold parseTtl at h
  split at h
  · cases h
    simp only [List.mem_append, not_or]
    exact ⟨⟨by decide, newline_notMem_quoted htext⟩, by decide⟩
  · split at h
    · cases h
      decide
    · split at h
      · cases h
        simp only [List.mem_append, not_or]
        exact ⟨⟨by decide, newline_notMem_ofInt _⟩, by decide⟩
      · cases h

theorem parseSet_error {tokens : List Bytes} {e : Bytes} (htokens : ∀ t ∈ tokens, newline ∉ t)
    (h : parseSet tokens = .error e) : newline ∉ e := by
  unfold parseSet at h
  split at h
  · cases h
  · next verb key value ttl =>
    split at h
    · next e' he =>
      cases h
      exact parseTtl_error (htokens ttl (by simp)) he
    · cases h
  · cases h
    decide

theorem keyVerbs_plain : ∀ p ∈ keyVerbs, p.2 ≠ .set ∧ newline ∉ ascii p.1 := by decide

theorem plainVerbs_plain :
    ∀ p ∈ plainVerbs, ({ type := p.2 } : Command).op = none ∧ newline ∉ ascii p.1 := by decide

/-- No error message takes a newline over from a line that has none. -/
theorem parseCommand_error {line e : Bytes} (hline : newline ∉ line)
    (h : parseCommand line = .error e) : newline ∉ e := by
  have htokens : ∀ {tokens : List Bytes}, tokenize line = tokens → ∀ t ∈ tokens, newline ∉ t :=
    fun ht t hmem => newline_notMem_token (ht ▸ hmem) hline
  revert h
  refine parseCommand_cases (P := fun parsed => parsed = .error e → newline ∉ e) line
    (fun _ h => ?_) (fun _ _ ht _ => parseSet_error (htokens ht))
    (fun _ _ _ _ _ _ _ hshown _ => parseKeyOnly_error (keyVerbs_plain _ hshown).2)
    (fun _ _ _ _ _ hmem _ => parseNoArgs_error (plainVerbs_plain _ hmem).2)
    (fun verb rest ht h => ?_)
  · cases h
    decide
  · cases h
    simp only [List.mem_append, not_or]
    exact ⟨by decide, newline_notMem_quoted (htokens ht verb List.mem_cons_self)⟩

theorem parseKeyOnly_ok {type : CommandType} {name : Bytes} {tokens : List Bytes}
    {command : Command} (h : parseKeyOnly type name tokens = .ok command) :
    command.type = type ∧ command.key ∈ tokens := by
  unfold parseKeyOnly at h
  split at h
  · cases h
    exact ⟨rfl, by simp⟩
  · cases h

theorem parseSet_ok {tokens : List Bytes} {command : Command}
    (h : parseSet tokens = .ok command) : command.key ∈ tokens ∧ command.value ∈ tokens := by
  unfold parseSet at h
  split at h
  · cases h
    exact ⟨by simp, by simp⟩
  · split at h
    · cases h
    · cases h
      exact ⟨by simp, by simp⟩
  · cases h

/-- The key and the value of a command that calls the cache are tokens of its line. -/
theorem parseCommand_tokens {line : Bytes} {command : Command} {op : Op}
    (h : parseCommand line = .ok command) (hop : command.op = some op) :
    command.key ∈ tokenize line ∧ (command.type = .set → command.value ∈ tokenize line) := by
  revert h
  refine parseCommand_cases (P := fun parsed => parsed = .ok command →
    command.key ∈ tokenize line ∧ (command.type = .set → command.value ∈ tokenize line)) line
    (fun _ h => ?_) (fun _ _ ht _ h => ?_) (fun _ _ _ _ _ ht _ hshown _ h => ?_)
    (fun _ _ _ _ _ hmem _ h => ?_) (fun _ _ _ h => ?_)
  · cases h
  · rw [ht]
    exact ⟨(parseSet_ok h).1, fun _ => (parseSet_ok h).2⟩
  · obtain ⟨htype, hkey⟩ := parseKeyOnly_ok h
    rw [ht]
    exact ⟨hkey, fun hset => absurd (htype.symm.trans hset) (keyVerbs_plain _ hshown).1⟩
  · unfold parseNoArgs at h
    split at h
    · cases h
      cases (plainVerbs_plain _ hmem).1.symm.trans hop
    · cases h
  · cases h

theorem oneLine_replyError {message : Bytes} (h : newline ∉ message) :
    OneLine (replyError message) := by
  show OneLine (terminated (ascii "-ERR " ++ message))
  refine oneLine_terminated ?_
  simp only [List.mem_append, not_or]
  exact ⟨by decide, h⟩

theorem oneLine_replyInteger (z : Int) : OneLine (replyInteger z) := by
  show OneLine (terminated (ascii ":" ++ Decimal.ofInt z))
  refine oneLine_terminated ?_
  simp only [List.mem_append, not_or]
  exact ⟨by decide, newline_notMem_ofInt z⟩

theorem oneLine_replyValue {v : Bytes} (h : newline ∉ v) : OneLine (replyValue v) := by
  show OneLine (terminated (ascii "=" ++ v))
  refine oneLine_terminated ?_
  simp only [List.mem_append, not_or]
  exact ⟨by decide, h⟩

theorem oneLine_replyOk : OneLine replyOk := by decide

theorem oneLine_replyTtl (info : TtlInfo) : OneLine (replyTtl info) := by
  unfold replyTtl
  split
  · decide
  · decide
  · exact oneLine_replyInteger _

/-- What a call returned is told in one line, unless it is a value with a newline. -/
theorem oneLine_line {r : Reply} (h : ∀ v, r = .value (some v) → newline ∉ v) : OneLine r.line := by
  cases r with
  | value v =>
    cases v with
    | none => decide
    | some v => exact oneLine_replyValue (h v rfl)
  | ttl info => exact oneLine_replyTtl info
  | bool b => exact oneLine_replyInteger _
  | _ => exact oneLine_replyOk

theorem newline_notMem_loadError (e : LoadError) : newline ∉ e.text := by
  cases e <;> simp only [LoadError.text, List.mem_append, not_or]
  case notSnapshot => decide
  case invalidCount => decide
  case unsupportedVersion version => exact ⟨by decide, newline_notMem_ofInt version⟩
  case countExceeds count => exact ⟨⟨by decide, newline_notMem_ofInt count⟩, by decide⟩
  all_goals exact ⟨by decide, newline_notMem_ofNat _⟩

theorem oneLine_replySave {env : Env} {w : World} (h : newline ∉ env.outcome.text) :
    OneLine (replySave (save env w).2) := by
  have herror : ∀ {error : Bytes}, newline ∉ error →
      OneLine (replyError (ascii "save failed: " ++ error)) := fun herr =>
    oneLine_replyError (by
      simp only [List.mem_append, not_or]
      exact ⟨by decide, herr⟩)
  unfold save writeSnapshot
  cases hout : env.outcome with
  | done => exact oneLine_replyInteger _
  | cannotOpen tempPath =>
    rw [hout] at h
    refine herror ?_
    simp only [List.mem_append, not_or]
    exact ⟨⟨by decide, h⟩, by decide⟩
  | writeFailed =>
    have htext : newline ∉ ascii "write failed (disk full?)" := by decide
    exact herror htext
  | cannotRename reason =>
    rw [hout] at h
    refine herror ?_
    simp only [List.mem_append, not_or]
    exact ⟨by decide, h⟩

/-- A call returns the value of an entry under its key. -/
theorem value_of_step {s : Lru} {now : Time} {op : Op} {k v : Bytes} (hk : op.key = some k)
    (h : (s.step (now, op)).2 = .value (some v)) : ∃ e ∈ s.items, e.key = k ∧ e.value = v := by
  rw [Lru.step_reply s hk] at h
  cases op with
  | get k' =>
    cases hk
    rcases s.view_cases now k with ⟨-, hv⟩ | ⟨e, -, -, hv⟩ | ⟨e, hf, -, hv⟩
    · simp [cellStep, hv] at h
    · simp [cellStep, hv] at h
    · simp only [cellStep, hv, Option.map_some, Entry.timed] at h
      cases h
      exact ⟨e, (Keyed.find_some hf).1, (Keyed.find_some hf).2, rfl⟩
  | getInto k' out =>
    simp only [cellStep] at h
    split at h <;> cases h
  | _ => cases h

/-- A call adds no entry but the one it stores. -/
theorem mem_step {s : Lru} (h : s.WF) {now : Time} {op : Op} {k : Bytes} (hk : op.key = some k)
    {e : Entry} (he : e ∈ (s.step (now, op)).1.items) :
    e ∈ s.items ∨ stored (now, op) = some e := by
  rcases Lru.step_shape h hk with ⟨e₀, rfl, hs, horigin⟩ | ⟨hforget, -⟩
  · rw [hs] at he
    rcases List.mem_cons.mp ((Keyed.atMost_sublist _ _).subset he) with rfl | he
    · exact horigin.symm.imp_left fun h => (Keyed.find_some h.1).1
    · exact Or.inl (Keyed.mem_without.mp he).1
  · exact Or.inl (hforget.sublist.subset he)

theorem restored_value {elapsed : Millis} {now : Time} {record : Record} {e : Entry}
    (h : restored elapsed now record = some e) : e.value = record.value := by
  unfold restored at h
  split at h
  · cases h
    rfl
  · split at h
    · cases h
      rfl
    · cases h

/-- A survivor is the entry of one of the records. -/
theorem mem_survivors {elapsed : Millis} {clock : Nat → Time} {records : List Record} {e : Entry}
    (h : e ∈ survivors elapsed clock records) :
    ∃ record ∈ records, e.key = record.key ∧ e.value = record.value := by
  obtain ⟨p, hp, hres⟩ := List.mem_filterMap.mp (Keyed.firsts_sublist _ |>.subset h)
  exact ⟨p.1, (List.mem_zipIdx' hp).2 ▸ List.getElem_mem _, restored_key hres, restored_value hres⟩

end RepliesLemmas

open RepliesLemmas

/-! ## One request -/

/-- No value that a request can name has a newline. -/
def PlainValues (sc : ShardedCache) : Prop :=
  ∀ s ∈ sc.abs, ∀ e ∈ s.items, IsToken e.key → newline ∉ e.value

section Respond

variable {stdHash : Bytes → UInt64} {persistence : Bool} {sc : ShardedCache}

/-- A command that is one call on the cache. -/
theorem respond_call (hwf : sc.WF stdHash) (hplain : PlainValues sc) {r : Request}
    (hline : newline ∉ r.line) {command : Command} (hparse : parseCommand r.line = .ok command)
    {op : Op} (hop : command.op = some op) :
    ∃ sc' reply, respond stdHash persistence sc r = some (sc', reply) ∧ sc'.WF stdHash ∧
      PlainValues sc' ∧ OneLine reply := by
  have hk := op_key hop
  obtain ⟨hkey, hvalue⟩ := parseCommand_tokens hparse hop
  obtain ⟨sc', hstep, hwf', habs⟩ :=
    step_spec hwf (show (r.env.steady 0, op).2.key = some command.key from hk)
  have hlru : sc.lru stdHash command.key ∈ sc.abs := List.mem_of_getElem? (sc.abs_shardIndexFor _)
  refine ⟨sc', ((sc.lru stdHash command.key).step (r.env.steady 0, op)).2.line, ?_, hwf',
    fun s hs e he htoken => ?_, oneLine_line fun v hv => ?_⟩
  · simp only [respond, hparse, execute_op stdHash persistence _ _ hop, hstep, Option.map_some]
  · rw [habs] at hs
    rcases List.mem_or_eq_of_mem_set hs with hs | rfl
    · exact hplain s hs e he htoken
    · rcases mem_step (hwf.lru_wf _) hk he with hold | hst
      · exact hplain _ hlru e hold htoken
      · obtain ⟨hset, -, hev, -⟩ := set_of_stored hop hst
        exact hev ▸ newline_notMem_token (hvalue hset) hline
  · obtain ⟨e, he, hek, rfl⟩ := value_of_step hk hv
    exact hplain _ hlru e he (hek ▸ isToken_of_mem hkey hline)

/-- A `LOAD` of a file with plain values. -/
theorem load_plain (hwf : sc.WF stdHash) (hplain : PlainValues sc) {file : Option Bytes}
    (hfile : ∀ bytes p, file = some bytes → parseSnapshot bytes = .ok p →
      ∀ record ∈ p.records, IsToken record.key → newline ∉ record.value)
    (wall : Millis) (clock : Nat → Time) :
    ∃ sc' res, load stdHash sc file wall clock = some (sc', res) ∧ sc'.WF stdHash ∧
      PlainValues sc' ∧ OneLine (replyLoad res) := by
  cases file with
  | none => exact ⟨sc, { ok := true }, rfl, hwf, hplain, oneLine_replyInteger _⟩
  | some bytes =>
    rcases load_cases hwf bytes wall clock with
      ⟨e, -, hload⟩ | ⟨p, sc', res, hp, hload, hok, hwf', -, hrest⟩
    · refine ⟨sc, { error := e.text }, hload, hwf, hplain, oneLine_replyError ?_⟩
      simp only [List.mem_append, not_or]
      exact ⟨by decide, newline_notMem_loadError e⟩
    · refine ⟨sc', res, hload, hwf', fun s hs e he htoken => ?_, ?_⟩
      · obtain ⟨c', hc', rfl⟩ := List.mem_map.mp hs
        rcases hrest.mem hc' he with hnew | ⟨-, c, hc, hold⟩
        · obtain ⟨record, hrec, hkey, hval⟩ := mem_survivors hnew
          exact hval ▸ hfile bytes p rfl hp record hrec (hkey ▸ htoken)
        · exact hplain _ (List.mem_map_of_mem hc) e hold htoken
      · rw [replyLoad, if_pos hok]
        exact oneLine_replyInteger _

/-- One request to a cache with plain values. -/
theorem respond_oneLine (hwf : sc.WF stdHash) (hplain : PlainValues sc) {r : Request}
    (hline : newline ∉ r.line) (hr : r.Plain persistence) :
    ∃ sc' reply, respond stdHash persistence sc r = some (sc', reply) ∧ sc'.WF stdHash ∧
      PlainValues sc' ∧ OneLine reply := by
  cases hparse : parseCommand r.line with
  | error e =>
    refine ⟨sc, replyError e, ?_, hwf, hplain, oneLine_replyError (parseCommand_error hline hparse)⟩
    simp only [respond, hparse]
  | ok command =>
    cases hop : command.op with
    | some op => exact respond_call hwf hplain hline hparse hop
    | none =>
      have hcommand : commandOf r.line = some command := by rw [commandOf, hparse]; rfl
      unfold Request.Plain at hr
      rw [hcommand, Option.map_some] at hr
      simp only [respond, hparse]
      obtain ⟨type, key, value, ttl⟩ := command
      cases type with
      | ping => exact ⟨sc, replyPong, rfl, hwf, hplain, by decide⟩
      | quit => exact ⟨sc, replyBye, rfl, hwf, hplain, by decide⟩
      | save =>
        cases persistence with
        | false => exact ⟨sc, replyDisabled, rfl, hwf, hplain, by decide⟩
        | true => exact ⟨sc, _, rfl, hwf, hplain, oneLine_replySave hr⟩
      | load =>
        cases persistence with
        | false => exact ⟨sc, replyDisabled, rfl, hwf, hplain, by decide⟩
        | true =>
          obtain ⟨sc', res, hload, hwf', hplain', hone⟩ :=
            load_plain hwf hplain hr r.env.wall r.env.steady
          refine ⟨sc', replyLoad res, ?_, hwf', hplain', hone⟩
          simp only [execute, if_true, hload, Option.map_some]
      | set => cases ttl <;> cases hop
      | _ => cases hop

end Respond

/-! ## Runs -/

/-- **One line per reply.** In every run of requests from a new cache, where the request lines have
no newline and every `LOAD` and `SAVE` is plain, each request is answered by one line, so the bytes
of the replies split into the replies again, the `i`th for the `i`th request. -/
theorem replies_oneLine (stdHash : Bytes → UInt64) (persistence : Bool) (shardCount : Nat)
    (capacity : Option Nat) (requests : List Request) (hlines : ∀ r ∈ requests, newline ∉ r.line)
    (hplain : ∀ r ∈ requests, r.Plain persistence) :
    ∃ sc replies,
      Machine.run (respond stdHash persistence) (.new shardCount capacity) requests
        = some (sc, replies) ∧
      (∀ reply ∈ replies, OneLine reply) ∧ replies.length = requests.length ∧
      (complete newline replies.flatten).map terminated = replies ∧
      rest newline replies.flatten = [] := by
  have hnew : PlainValues (.new shardCount capacity) := fun s hs e he =>
    absurd (items_shardedNew hs ▸ he) List.not_mem_nil
  obtain ⟨sc, replies, hrun, -, hone⟩ := Machine.run_outputs
    (P := fun sc => sc.WF stdHash ∧ PlainValues sc)
    (I := fun r => newline ∉ r.line ∧ r.Plain persistence) (Q := OneLine) (fun sc r h hr => by
      obtain ⟨sc', reply, hs, hwf, hp, hone⟩ :=
        @respond_oneLine stdHash persistence sc h.1 h.2 r hr.1 hr.2
      exact ⟨sc', reply, hs, ⟨hwf, hp⟩, hone⟩)
    ⟨wf_shardedNew shardCount capacity, hnew⟩ fun r hr => ⟨hlines r hr, hplain r hr⟩
  exact ⟨sc, replies, hrun, hone, Machine.run_length hrun, complete_flatten hone⟩

/-- A `LOAD` of one record under `k`, and a `GET k`. -/
def loadThenGet (value : Bytes) : List Request :=
  let env : Env := ⟨fun _ => 0, 0, .done⟩
  [⟨env, some (saveBytes 0 [⟨ascii "k", value, none⟩]), ascii "LOAD"⟩, ⟨env, none, ascii "GET k"⟩]

theorem replies_oneLine_loaded :
    ∃ sc replies,
      Machine.run (respond (fun _ => 0) true) (.new 2 (some 8)) (loadThenGet (ascii "a b"))
        = some (sc, replies) ∧
      (∀ reply ∈ replies, OneLine reply) ∧ replies.length = 2 := by
  obtain ⟨sc, replies, hrun, hone, hlen, -⟩ := replies_oneLine (fun _ => 0) true 2 (some 8)
    (loadThenGet (ascii "a b")) (by decide) (by
      intro r hr
      rcases List.mem_cons.mp hr with rfl | hr
      · intro file p hfile hp record hrec
        cases hfile
        have hparse : parseSnapshot (saveBytes 0 [⟨ascii "k", ascii "a b", none⟩])
            = .ok ⟨0, 1, [⟨ascii "k", ascii "a b", -1⟩]⟩ := by decide
        rw [hparse] at hp
        cases hp
        rw [List.mem_singleton.mp hrec]
        exact fun _ => by decide
      · rw [List.mem_singleton.mp hr]
        trivial)
  exact ⟨sc, replies, hrun, hone, hlen⟩

/-- A value with a newline comes in by a `LOAD`, and the reply to `GET` is two lines. -/
theorem replies_desync :
    (Machine.run (respond (fun _ => 0) true) (.new 1 none)
        (loadThenGet (ascii "a\nb"))).map Prod.snd = some [ascii ":1\n", ascii "=a\nb\n"] ∧
      ¬ OneLine (ascii "=a\nb\n") := by
  decide

end CacheX
