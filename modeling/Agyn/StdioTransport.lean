import Agyn.TerminatedLines
import Mathlib.Data.List.Induction
import Mathlib.Data.List.Infix

/-!
The transport of an MCP server that writes one JSON message a line: the buffer of what has arrived
and the loop that reads it after each chunk. The loop ends at a line that is not JSON, at a falsy
message and at one that its handler throws on, with the lines behind it left in the buffer until the
next chunk.
-/
namespace Agyn.StdioTransport

open TerminatedLines

inductive Failure where
  | error (message : String)
  /-- What `onmessage` has thrown. -/
  | thrown
  deriving DecidableEq

inductive Call (J : Type) where
  | onmessage (msg : J)
  | onerror (err : Failure)
  deriving DecidableEq

/-- What is not of this program: the text of bytes, `JSON.parse`, the truth of a value, and whether
`onmessage` throws on a message after the calls made so far. -/
structure Host (J : Type) where
  decode : List UInt8 → String
  parse : String → Option J
  truthy : J → Bool
  throws : List (Call J) → J → Bool

structure WorkspaceExecTransport (J : Type) where
  buffer : Option (List UInt8)
  stdoutText : String
  calls : List (Call J)
  deriving DecidableEq

variable {J : Type} (host : Host J)

def newline : UInt8 := 10

/-- `replace(/\r$/, '')`. -/
def stripCr (line : String) : String :=
  if line.toList.getLast? = some '\r' then String.ofList line.toList.dropLast else line

def append (buffer : Option (List UInt8)) (chunk : List UInt8) : Option (List UInt8) :=
  match buffer with
  | some bytes => some (bytes ++ chunk)
  | none => some chunk

def lineValue (line : List UInt8) : Option J := host.parse (stripCr (host.decode line))

/-- The next message, none without a complete line, and what is left of the buffer. -/
def readMessage (buffer : Option (List UInt8)) :
    Except String (Option J) × Option (List UInt8) :=
  match buffer with
  | none => (.ok none, none)
  | some bytes =>
    match bytes.idxOf? newline with
    | none => (.ok none, some bytes)
    | some idx =>
      let left := some (bytes.drop (idx + 1))
      match lineValue host (bytes.take idx) with
      | some msg => (.ok (some msg), left)
      | none => (.error "Failed to parse JSON-RPC line", left)

/-- The loop of `processReadBuffer`; each round takes a line off the buffer. -/
def readLoop : ℕ → WorkspaceExecTransport J → WorkspaceExecTransport J
  | 0, t => t
  | rounds + 1, t =>
    match readMessage host t.buffer with
    | (.ok none, buffer) => { t with buffer }
    | (.ok (some msg), buffer) =>
      if !host.truthy msg then { t with buffer }
      else
        let delivered := t.calls ++ [.onmessage msg]
        if host.throws t.calls msg then
          { t with buffer, calls := delivered ++ [.onerror .thrown] }
        else readLoop rounds { t with buffer, calls := delivered }
    | (.error message, buffer) =>
      { t with buffer, calls := t.calls ++ [.onerror (.error message)] }

def processReadBuffer (t : WorkspaceExecTransport J) : WorkspaceExecTransport J :=
  readLoop host ((t.buffer.getD []).length + 1) t

/-- The listener of `data`. -/
def onData (t : WorkspaceExecTransport J) (chunk : List UInt8) : WorkspaceExecTransport J :=
  processReadBuffer host { t with
    stdoutText := t.stdoutText ++ host.decode chunk
    buffer := append t.buffer chunk }

def start : WorkspaceExecTransport J := ⟨none, "", []⟩

def received (chunks : List (List UInt8)) : WorkspaceExecTransport J :=
  chunks.foldl (onData host) start

def report (calls : List (Call J)) (line : List UInt8) : List (Call J) :=
  match lineValue host line with
  | none => calls ++ [.onerror (.error "Failed to parse JSON-RPC line")]
  | some msg => calls ++ .onmessage msg :: if host.throws calls msg then [.onerror .thrown] else []

/-- The messages that `onmessage` has been called with. -/
def messages (calls : List (Call J)) : List J :=
  calls.filterMap fun
    | .onmessage msg => some msg
    | .onerror _ => none

/-- How often `onerror` has been called for a line that is not JSON. -/
def parseErrors (calls : List (Call J)) : ℕ :=
  calls.countP fun
    | .onerror (.error _) => true
    | _ => false

/-- Each complete line of a stream is answered: its value has been delivered, in order, or it has
been reported once as not JSON. -/
structure Framed (calls : List (Call J)) (stream : List UInt8) : Prop where
  delivered : messages calls = (lines newline stream).filterMap (lineValue host)
  reported : parseErrors calls =
    (lines newline stream).countP fun line => (lineValue host line).isNone

def ReadsOn (calls : List (Call J)) (line : List UInt8) : Prop :=
  ∃ msg ∈ lineValue host line, host.truthy msg ∧ host.throws calls msg = false

/-- None of the lines is falsy, and each but the last is a message that its handler does not throw
on. -/
def ReadThrough : List (Call J) → List (List UInt8) → Prop
  | _, [] => True
  | _, [line] => ∀ msg ∈ lineValue host line, host.truthy msg
  | calls, line :: next :: lines =>
    ReadsOn host calls line ∧ ReadThrough (report host calls line) (next :: lines)

/-- The calls made when the loop is given some complete lines, and the lines it leaves. -/
def readLines (calls : List (Call J)) : List (List UInt8) → List (Call J) × List (List UInt8)
  | [] => (calls, [])
  | line :: lines =>
    match lineValue host line with
    | none => (report host calls line, lines)
    | some msg =>
      if !host.truthy msg then (calls, lines)
      else if host.throws calls msg then (report host calls line, lines)
      else readLines (report host calls line) lines

variable {host} {t : WorkspaceExecTransport J} {calls : List (Call J)} {line : List UInt8}
  {ls : List (List UInt8)}

/-- With rounds enough the loop makes the calls of its lines, and leaves the bytes behind them. -/
theorem readLoop_eq (rounds : ℕ) (bytes : List UInt8) (hbuffer : t.buffer = some bytes)
    (hrounds : bytes.length < rounds) :
    ∃ left, readLoop host rounds t = { t with
        buffer := some left
        calls := (readLines host t.calls (lines newline bytes)).1 } ∧
      lines newline left = (readLines host t.calls (lines newline bytes)).2 ∧
      rest newline left = rest newline bytes := by
  induction rounds generalizing t bytes with
  | zero => omega
  | succ rounds ih =>
    rw [readLoop, readMessage.eq_def, hbuffer]
    dsimp only
    cases hidx : bytes.idxOf? newline with
    | none =>
      have hmem : newline ∉ bytes := List.idxOf?_eq_none_iff.mp hidx
      refine ⟨bytes, ?_, ?_, rfl⟩
      · rw [lines_of_not_mem hmem]
        rfl
      · rw [lines_of_not_mem hmem]
        rfl
    | some idx =>
      obtain ⟨hbytes, hline⟩ := eq_line_of_idxOf? hidx
      have hlines : lines newline bytes =
          bytes.take idx :: lines newline (bytes.drop (idx + 1)) := by
        conv_lhs => rw [hbytes]
        exact lines_cons_line hline
      have hrest : rest newline (bytes.drop (idx + 1)) = rest newline bytes := by
        conv_rhs => rw [hbytes]
        exact (rest_cons_line hline).symm
      rw [hlines, readLines]
      dsimp only
      cases hvalue : lineValue host (bytes.take idx) with
      | none =>
        refine ⟨bytes.drop (idx + 1), ?_, rfl, hrest⟩
        simp [report, hvalue]
      | some msg =>
        dsimp only
        split_ifs with htruthy hthrows
        · exact ⟨bytes.drop (idx + 1), rfl, rfl, hrest⟩
        · refine ⟨bytes.drop (idx + 1), ?_, rfl, hrest⟩
          simp [report, hvalue, hthrows]
        · have hlength : (bytes.drop (idx + 1)).length < rounds := by
            have hlt : idx < bytes.length := (List.idxOf?_eq_some_iff.mp hidx).1
            rw [List.length_drop]
            omega
          have hreport : report host t.calls (bytes.take idx) = t.calls ++ [.onmessage msg] := by
            simp [report, hvalue, hthrows]
          rw [hreport]
          obtain ⟨left, heq, hleft, hend⟩ := ih
            (t := { t with
              buffer := some (bytes.drop (idx + 1)), calls := t.calls ++ [.onmessage msg] })
            (bytes.drop (idx + 1)) rfl hlength
          exact ⟨left, heq, hleft, hend.trans hrest⟩

def answered (calls : List (Call J)) : ℕ := (messages calls).length + parseErrors calls

theorem messages_report :
    messages (report host calls line) = messages calls ++ (lineValue host line).toList := by
  cases hvalue : lineValue host line with
  | none => simp [report, hvalue, messages]
  | some msg =>
    cases hthrows : host.throws calls msg with
    | true => simp [report, hvalue, hthrows, messages]
    | false => simp [report, hvalue, hthrows, messages]

theorem parseErrors_report :
    parseErrors (report host calls line) =
      parseErrors calls + if (lineValue host line).isNone then 1 else 0 := by
  cases hvalue : lineValue host line with
  | none => simp [report, hvalue, parseErrors]
  | some msg =>
    cases hthrows : host.throws calls msg with
    | true => simp [report, hvalue, hthrows, parseErrors]
    | false => simp [report, hvalue, hthrows, parseErrors]

theorem answered_report : answered (report host calls line) = answered calls + 1 := by
  rw [answered, answered, messages_report, parseErrors_report]
  cases lineValue host line with
  | none => simp; omega
  | some msg => simp; omega

theorem messages_reports :
    messages (ls.foldl (report host) calls) = messages calls ++ ls.filterMap (lineValue host) := by
  induction ls generalizing calls with
  | nil => simp
  | cons line ls ih =>
    rw [List.foldl_cons, ih, messages_report, List.append_assoc, List.filterMap_cons]
    cases lineValue host line <;> rfl

theorem parseErrors_reports :
    parseErrors (ls.foldl (report host) calls) =
      parseErrors calls + ls.countP fun line => (lineValue host line).isNone := by
  induction ls generalizing calls with
  | nil => rfl
  | cons line ls ih =>
    rw [List.foldl_cons, ih, parseErrors_report, List.countP_cons]
    omega

def reports (host : Host J) (stream : List UInt8) : List (Call J) :=
  (lines newline stream).foldl (report host) []

theorem framed_reports (stream : List UInt8) : Framed host (reports host stream) stream :=
  ⟨messages_reports, parseErrors_reports.trans (Nat.zero_add _)⟩

theorem reports_append (stream chunk : List UInt8) :
    reports host (stream ++ chunk) =
      (lines newline (rest newline stream ++ chunk)).foldl (report host) (reports host stream) := by
  rw [reports, lines_append, List.foldl_append]
  rfl

/-- Each complete line has been answered. -/
theorem Framed.answered {stream : List UInt8} (h : Framed host calls stream) :
    answered calls = (lines newline stream).length := by
  rw [StdioTransport.answered, h.delivered, h.reported]
  induction lines newline stream with
  | nil => rfl
  | cons line ls ih =>
    rw [List.filterMap_cons, List.countP_cons, List.length_cons, ← ih]
    cases lineValue host line with
    | none => simp; omega
    | some msg => simp; omega

/-- Lines that are read through are all reported, and none is left. -/
theorem readLines_of_readThrough (h : ReadThrough host calls ls) :
    readLines host calls ls = (ls.foldl (report host) calls, []) := by
  induction ls generalizing calls with
  | nil => rfl
  | cons line ls ih =>
    cases ls with
    | nil =>
      rw [readLines]
      cases hvalue : lineValue host line with
      | none => rfl
      | some msg =>
        have htruthy : host.truthy msg := h msg hvalue
        simp [htruthy, readLines]
    | cons next ls =>
      obtain ⟨⟨msg, hvalue, htruthy, hthrows⟩, hrest⟩ := h
      rw [readLines, Option.mem_def.mp hvalue]
      simp only [htruthy, hthrows, Bool.not_true, Bool.false_eq_true, if_false]
      exact ih hrest

/-- Where the loop answers every line, each is read through. -/
theorem readThrough_of_answered
    (h : answered (readLines host calls ls).1 = answered calls + ls.length) :
    ReadThrough host calls ls := by
  induction ls generalizing calls with
  | nil => trivial
  | cons line ls ih =>
    have hreport := @answered_report _ host calls line
    rw [readLines, List.length_cons] at h
    cases hvalue : lineValue host line with
    | none =>
      simp only [hvalue] at h
      obtain rfl : ls = [] := List.length_eq_zero_iff.mp (by omega)
      intro msg hmsg
      rw [hvalue] at hmsg
      cases hmsg
    | some msg =>
      simp only [hvalue] at h
      split_ifs at h with htruthy hthrows
      · simp only at h
        omega
      · simp only at h
        obtain rfl : ls = [] := List.length_eq_zero_iff.mp (by omega)
        intro msg' hmsg
        obtain rfl : msg = msg' := Option.some.inj (hvalue.symm.trans hmsg)
        simpa using htruthy
      · have hrest : ReadThrough host (report host calls line) ls := ih (by omega)
        have hreads : host.truthy msg := by simpa using htruthy
        cases ls with
        | nil =>
          intro msg' hmsg
          obtain rfl : msg = msg' := Option.some.inj (hvalue.symm.trans hmsg)
          exact hreads
        | cons next ls => exact ⟨⟨msg, hvalue, hreads, by simpa using hthrows⟩, hrest⟩

/-- The stream of some chunks has been read to its last complete line, each line as it asks for. -/
structure ReadUp (host : Host J) (t : WorkspaceExecTransport J) (stream : List UInt8) : Prop where
  buffer : t.buffer.getD [] = rest newline stream
  calls : t.calls = reports host stream

/-- The calls of a chunk are those of the lines it completes. -/
theorem onData_eq {stream : List UInt8} (h : ReadUp host t stream) (chunk : List UInt8) :
    ∃ left, (onData host t chunk).buffer = some left ∧
      (onData host t chunk).calls =
        (readLines host (reports host stream) (lines newline (rest newline stream ++ chunk))).1 ∧
      lines newline left =
        (readLines host (reports host stream) (lines newline (rest newline stream ++ chunk))).2 ∧
      rest newline left = rest newline (stream ++ chunk) := by
  have hbuffer : append t.buffer chunk = some (rest newline stream ++ chunk) := by
    rw [← h.buffer]
    cases t.buffer <;> rfl
  obtain ⟨left, heq, hleft, hend⟩ := readLoop_eq
    (t := { t with
      stdoutText := t.stdoutText ++ host.decode chunk, buffer := append t.buffer chunk })
    ((rest newline stream ++ chunk).length + 1) (rest newline stream ++ chunk) hbuffer
    (Nat.lt_succ_self _)
  have hdata : onData host t chunk = readLoop host ((rest newline stream ++ chunk).length + 1)
      { t with
        stdoutText := t.stdoutText ++ host.decode chunk, buffer := append t.buffer chunk } := by
    rw [onData, processReadBuffer]
    simp only [hbuffer, Option.getD_some]
  refine ⟨left, ?_, ?_, ?_, hend.trans (rest_append stream chunk).symm⟩
  · rw [hdata, heq]
  · rw [hdata, heq, ← h.calls]
  · rw [hleft, ← h.calls]

theorem ReadUp.onData {stream chunk : List UInt8} (h : ReadUp host t stream)
    (hthrough : ReadThrough host (reports host stream)
      (lines newline (rest newline stream ++ chunk))) :
    ReadUp host (onData host t chunk) (stream ++ chunk) := by
  obtain ⟨left, hbuffer, hcalls, hleft, hend⟩ := onData_eq h chunk
  rw [readLines_of_readThrough hthrough] at hcalls hleft
  refine ⟨?_, ?_⟩
  · rw [hbuffer, ← hend, Option.getD_some]
    exact (rest_of_lines_eq_nil hleft).symm
  · rw [hcalls, reports_append]

theorem ReadUp.readThrough {stream chunk : List UInt8} (h : ReadUp host t stream)
    (hframed : Framed host (StdioTransport.onData host t chunk).calls (stream ++ chunk)) :
    ReadThrough host (reports host stream) (lines newline (rest newline stream ++ chunk)) := by
  obtain ⟨left, -, hcalls, -, -⟩ := onData_eq h chunk
  apply readThrough_of_answered
  rw [← hcalls, hframed.answered, (framed_reports stream).answered, lines_append,
    List.length_append]

def ChunkReadThrough (host : Host J) (before : List (List UInt8)) (chunk : List UInt8) : Prop :=
  ReadThrough host (reports host before.flatten)
    (lines newline (rest newline before.flatten ++ chunk))

theorem received_append (before : List (List UInt8)) (chunk : List UInt8) :
    received host (before ++ [chunk]) = onData host (received host before) chunk := by
  rw [received, List.foldl_append]
  rfl

/-- Chunks are read up as long as the lines of each are read through. -/
theorem readUp_received {chunks : List (List UInt8)}
    (h : ∀ before chunk, before ++ [chunk] <+: chunks → ChunkReadThrough host before chunk) :
    ReadUp host (received host chunks) chunks.flatten := by
  induction chunks using List.reverseRecOn with
  | nil => exact ⟨rfl, rfl⟩
  | append_singleton before chunk ih =>
    have hbefore := ih fun b c hb => h b c (hb.trans (List.prefix_append _ _))
    rw [received_append, List.flatten_append, List.flatten_singleton]
    exact hbefore.onData (h before chunk (List.prefix_refl _))

/-- After each chunk all complete lines have been answered, if and only if each chunk completes
lines that are read through. -/
theorem framed_iff (chunks : List (List UInt8)) :
    (∀ before, before <+: chunks → Framed host (received host before).calls before.flatten) ↔
      ∀ before chunk, before ++ [chunk] <+: chunks → ChunkReadThrough host before chunk := by
  constructor
  · intro hframed
    induction chunks using List.reverseRecOn with
    | nil =>
      intro before chunk h
      have := h.length_le
      simp at this
    | append_singleton chunks last ih =>
      have hchunks := ih fun b hb => hframed b (hb.trans (List.prefix_append _ _))
      intro before chunk h
      obtain heq | h := List.prefix_concat_iff.mp h
      · obtain ⟨rfl, hlast⟩ := List.append_inj' heq rfl
        obtain rfl := List.singleton_injective hlast
        refine (readUp_received hchunks).readThrough ?_
        have hall := hframed _ (List.prefix_refl _)
        rwa [received_append, List.flatten_append, List.flatten_singleton] at hall
      · exact hchunks before chunk h
  · intro h before hbefore
    have hup := readUp_received fun b c hb => h b c (hb.trans hbefore)
    rw [hup.calls]
    exact framed_reports _

/-- Text of one byte a letter, with an empty array as the only text that is JSON. -/
def arrayHost : Host String where
  decode bytes := String.ofList (bytes.map fun byte => Char.ofNat byte.toNat)
  parse text := if text = "[]" then some text else none
  truthy _ := true
  throws _ _ := false

/-- A message behind a line that is not JSON is delivered when the two come apart, and not when they
come in one chunk. -/
theorem message_held :
    let hello : List UInt8 := [104, 105, 10]
    let array : List UInt8 := [91, 93, 10]
    ¬ Framed arrayHost (received arrayHost [hello ++ array]).calls (hello ++ array) ∧
      messages (received arrayHost [hello, array]).calls = ["[]"] := by
  constructor
  · intro h
    have hdelivered := h.delivered
    revert hdelivered
    decide +kernel
  · decide +kernel

end Agyn.StdioTransport
