import Mathlib.Data.List.Sort
import Mathlib.Logic.Function.Basic
import Agyn.AnsiCleaning

/-!
The two ways to run a shell command that completes. One collects the cleaned output as it comes.
The other also sends it out in chunks: the output of a source is gathered in a buffer, a buffer is
flushed when it is full or when its timer fires, and the flushes wait in a chain until they run.
Errors of the execution itself are left out.
-/
namespace Agyn.ShellCommand

open IngressText

variable {δ : Type} (iconv : Iconv δ)

inductive OutputSource where
  | stdout
  | stderr
  deriving DecidableEq

structure ResolvedShellCommandConfig where
  outputLimitChars : ℕ
  chunkSizeBytes : ℕ
  clientBufferLimitBytes : ℕ

structure ExecResponse where
  stdout : Text
  stderr : Text
  exitCode : ℤ

/-- The path of the file that the `n`-th attempt to save the output writes, if it succeeds. -/
abbrev SaveOversizedOutput := ℕ → Option Text

def OUTPUT_TAIL_LIMIT : ℕ := 10000

/-- What cleans the output of one source. -/
structure Pipe (δ : Type) where
  decoder : IngressDecodeStreamState δ
  remainder : Text
  sanitizeState : IngressSanitizeState

namespace Pipe

def create : Pipe δ := ⟨createIngressDecodeStreamState iconv, [], createIngressSanitizeState⟩

def sanitizeCleaned (pipe : Pipe δ) (cleaned : Text) : Text × Pipe δ :=
  let (text, sanitizeState) := sanitizeIngressChunk cleaned pipe.sanitizeState
  (text, { pipe with sanitizeState })

def cleanDecoded (pipe : Pipe δ) (decoded : Text) : Text × Pipe δ :=
  let (cleaned, remainder) := consume pipe.remainder decoded
  { pipe with remainder }.sanitizeCleaned cleaned

def cleanChunk (pipe : Pipe δ) (chunk : Bytes) : Text × Pipe δ :=
  let (decoded, decoder) := decodeIngressChunk iconv pipe.decoder chunk
  { pipe with decoder }.cleanDecoded decoded

def cleanTail (pipe : Pipe δ) : Text × Pipe δ :=
  pipe.cleanDecoded (flushIngressDecoder iconv pipe.decoder)

def cleanFlush (pipe : Pipe δ) : Text × Pipe δ :=
  { pipe with remainder := [] }.sanitizeCleaned (flush pipe.remainder)

end Pipe

def sanitizePlainText (value : Text) : Text := sanitizeIngressText value

def responseOutput (response : ExecResponse) : Text :=
  stripAnsi (sanitizePlainText response.stdout) ++ stripAnsi (sanitizePlainText response.stderr)

structure ErrorPayload where
  message : Text
  savedPath : Option Text
  truncationMessage : Option Text

/-- `text.slice(-n)` for a positive `n`. -/
def lastUnits (n : ℕ) (text : Text) : Text := text.drop (text.length - n)

/-- The payload, unless the output has to be saved and cannot be. -/
def buildPlainTextErrorPayload (exitCode : ℤ) (headline : String) (combinedOutput : Text)
    (limit : ℕ) (savedPath truncationMessage : Option Text) (save : Option Text) :
    Option ErrorPayload :=
  let shouldPersist := 0 < limit && limit < combinedOutput.length
  let truncationMessage :=
    if shouldPersist then
      truncationMessage.or
        (some (units ("Output exceeded " ++ toString limit ++ " characters.")))
    else truncationMessage
  let path := if shouldPersist then savedPath.or save else savedPath
  if shouldPersist && path.isNone then none
  else
    let tailLimit := min limit OUTPUT_TAIL_LIMIT
    let renderedOutput :=
      if shouldPersist then lastUnits (min tailLimit combinedOutput.length) combinedOutput
      else combinedOutput
    some ⟨units ("[exit code " ++ toString exitCode ++ "] " ++ headline ++ "\n---\n") ++
      renderedOutput, path, truncationMessage⟩

def formatExitCodeErrorMessage (exitCode : ℤ) (combinedOutput : Text) (limit : ℕ)
    (savedPath truncationMessage : Option Text) (save : Option Text) : Option ErrorPayload :=
  buildPlainTextErrorPayload exitCode ("Process exited with code " ++ toString exitCode)
    combinedOutput limit savedPath truncationMessage save

structure ExecuteState (δ : Type) where
  pipes : OutputSource → Pipe δ
  cleanBySource : OutputSource → Text
  orderedSegments : List (OutputSource × Text)

namespace ExecuteState

def initial : ExecuteState δ := ⟨fun _ => .create iconv, fun _ => [], []⟩

def pushSegment (s : ExecuteState δ) (source : OutputSource) (sanitized : Text) :
    ExecuteState δ :=
  if sanitized = [] then s
  else { s with
    orderedSegments := s.orderedSegments ++ [(source, sanitized)]
    cleanBySource := Function.update s.cleanBySource source
      (s.cleanBySource source ++ sanitized) }

def take (s : ExecuteState δ) (source : OutputSource) (clean : Pipe δ → Text × Pipe δ) :
    ExecuteState δ :=
  let (sanitized, pipe) := clean (s.pipes source)
  { s with pipes := Function.update s.pipes source pipe }.pushSegment source sanitized

def handleChunk (s : ExecuteState δ) (source : OutputSource) (chunk : Bytes) : ExecuteState δ :=
  if chunk = [] then s else s.take source fun pipe => pipe.cleanChunk iconv chunk

def handleChunks (s : ExecuteState δ) (output : List (OutputSource × Bytes)) : ExecuteState δ :=
  output.foldl (fun s piece => s.handleChunk iconv piece.1 piece.2) s

def flushDecoderRemainder (s : ExecuteState δ) : ExecuteState δ :=
  [OutputSource.stdout, .stderr].foldl
    (fun s source => (s.take source (Pipe.cleanTail iconv)).take source Pipe.cleanFlush) s

def getCombinedOutput (s : ExecuteState δ) (response : ExecResponse) : Text :=
  let combined :=
    if s.orderedSegments ≠ [] then (s.orderedSegments.map Prod.snd).flatten
    else if s.cleanBySource .stdout ≠ [] ∨ s.cleanBySource .stderr ≠ [] then
      s.cleanBySource .stdout ++ s.cleanBySource .stderr
    else responseOutput response
  sanitizePlainText (if combined = [] then responseOutput response else combined)

end ExecuteState

/-- The state when the command has completed. -/
def executed (output : List (OutputSource × Bytes)) : ExecuteState δ :=
  ((ExecuteState.initial iconv).handleChunks iconv output).flushDecoderRemainder iconv

/-- The text that is returned, unless the output has to be saved and cannot be. -/
def execute (cfg : ResolvedShellCommandConfig) (save : SaveOversizedOutput)
    (output : List (OutputSource × Bytes)) (response : ExecResponse) : Option Text :=
  let combined := (executed iconv output).getCombinedOutput response
  let limit := cfg.outputLimitChars
  if response.exitCode ≠ 0 then
    (formatExitCodeErrorMessage response.exitCode combined limit none none (save 0)).map
      ErrorPayload.message
  else if 0 < limit ∧ limit < combined.length then
    (save 0).map fun path =>
      units ("Error: output length exceeds " ++ toString limit ++
        " characters. It was saved on disk: ") ++ path
  else some combined

structure BufferState where
  text : Text
  bytes : ℕ
  timer : Bool

structure Segment where
  order : ℕ
  text : Text

/-- A flush in the chain, with the segments that it carries. -/
structure Flush where
  source : OutputSource
  text : Text
  bytes : ℕ
  segments : List Segment

structure ToolOutputChunk where
  seqGlobal : ℕ
  seqStream : ℕ
  source : OutputSource
  data : Text
  bytes : ℕ

inductive TruncatedReason where
  | outputLimit
  | clientBuffer
  deriving DecidableEq

structure StreamState (δ : Type) where
  pipes : OutputSource → Pipe δ
  buffers : OutputSource → BufferState
  bytesBySource : OutputSource → ℕ
  seqPerSource : OutputSource → ℕ
  segmentOrder : ℕ
  pendingSegments : OutputSource → List Segment
  orderedOutput : List Segment
  seqGlobal : ℕ
  totalChunks : ℕ
  droppedChunks : ℕ
  emittedBytes : ℕ
  allowNextChunkAfterTruncate : Bool
  truncated : Bool
  truncatedReason : Option TruncatedReason
  truncationMessage : Option Text
  truncatedSource : Option OutputSource
  cleaned : OutputSource → Text
  flushChain : List Flush
  stored : List ToolOutputChunk

/-- What happens while the command runs: a chunk of output comes in, a timer fires, or the next
flush in the chain runs. -/
inductive StreamEvent where
  | output (source : OutputSource) (chunk : Bytes)
  | timer (source : OutputSource)
  | chain

/-- `(bytes / (1024 * 1024)).toFixed(2)` -/
def megabytes (bytes : ℕ) : String :=
  let hundredths := (bytes * 200 + 1048576) / 2097152
  let cents := hundredths % 100
  toString (hundredths / 100) ++ "." ++ (if cents < 10 then "0" else "") ++ toString cents

namespace StreamState

variable (cfg : ResolvedShellCommandConfig) (persists : ℕ → Bool)

def initial : StreamState δ where
  pipes _ := .create iconv
  buffers _ := ⟨[], 0, false⟩
  bytesBySource _ := 0
  seqPerSource _ := 0
  segmentOrder := 0
  pendingSegments _ := []
  orderedOutput := []
  seqGlobal := 0
  totalChunks := 0
  droppedChunks := 0
  emittedBytes := 0
  allowNextChunkAfterTruncate := false
  truncated := false
  truncatedReason := none
  truncationMessage := none
  truncatedSource := none
  cleaned _ := []
  flushChain := []
  stored := []

def flushBuffer (s : StreamState δ) (source : OutputSource) (force : Bool) : StreamState δ :=
  let buffer := s.buffers source
  if !force && buffer.text = [] then s
  else
    let s := { s with buffers := Function.update s.buffers source ⟨[], 0, false⟩ }
    if buffer.text = [] then s
    else { s with
      flushChain := s.flushChain ++
        [⟨source, buffer.text, buffer.bytes, s.pendingSegments source⟩]
      pendingSegments := Function.update s.pendingSegments source [] }

/-- The chunk of a flush is sent out and stored, unless storing it fails. -/
def emit (s : StreamState δ) (flush : Flush) : StreamState δ :=
  let seqGlobal := s.seqGlobal + 1
  let seqStream := s.seqPerSource flush.source + 1
  let s := { s with
    seqGlobal
    seqPerSource := Function.update s.seqPerSource flush.source seqStream
    emittedBytes := s.emittedBytes + flush.bytes
    orderedOutput := s.orderedOutput ++ flush.segments }
  if persists seqGlobal then
    { s with stored := s.stored ++ [⟨seqGlobal, seqStream, flush.source, flush.text, flush.bytes⟩] }
  else { s with droppedChunks := s.droppedChunks + 1 }

def runFlush (s : StreamState δ) (flush : Flush) : StreamState δ :=
  let s := { s with totalChunks := s.totalChunks + 1 }
  let allowed := s.allowNextChunkAfterTruncate && s.truncatedSource = some flush.source
  if s.truncated && !allowed then { s with droppedChunks := s.droppedChunks + 1 }
  else
    let s := if s.truncated then { s with allowNextChunkAfterTruncate := false } else s
    if 0 < cfg.clientBufferLimitBytes ∧
        cfg.clientBufferLimitBytes < s.emittedBytes + flush.bytes then
      { s with
        truncated := true
        truncatedReason := some .clientBuffer
        truncatedSource := none
        truncationMessage := s.truncationMessage.or (some (units ("Streaming truncated after " ++
          "reaching " ++ megabytes cfg.clientBufferLimitBytes ++ " MB of output.")))
        droppedChunks := s.droppedChunks + 1 }
    else s.emit persists flush

def runChain (s : StreamState δ) : StreamState δ :=
  match s.flushChain with
  | [] => s
  | flush :: flushChain => { s with flushChain }.runFlush cfg persists flush

/-- The text joins the buffer of its source and the segments that the buffer carries. -/
def buffer (s : StreamState δ) (source : OutputSource) (sanitized : Text) : StreamState δ :=
  let old := s.buffers source
  let segmentOrder := s.segmentOrder + 1
  { s with
    cleaned := Function.update s.cleaned source (s.cleaned source ++ sanitized)
    bytesBySource := Function.update s.bytesBySource source
      (s.bytesBySource source + byteLength sanitized)
    buffers := Function.update s.buffers source
      { old with text := old.text ++ sanitized, bytes := old.bytes + byteLength sanitized }
    segmentOrder
    pendingSegments := Function.update s.pendingSegments source
      (s.pendingSegments source ++ [⟨segmentOrder, sanitized⟩]) }

def scheduleFlush (s : StreamState δ) (source : OutputSource) : StreamState δ :=
  let buffer := { s.buffers source with timer := true }
  { s with buffers := Function.update s.buffers source buffer }

def flushOrSchedule (s : StreamState δ) (source : OutputSource) : StreamState δ :=
  let chunkSizeBytes := max 512 cfg.chunkSizeBytes
  let buffer := s.buffers source
  if chunkSizeBytes ≤ buffer.bytes ∨ chunkSizeBytes ≤ buffer.text.length then
    s.flushBuffer source false
  else s.scheduleFlush source

def checkOutputLimit (s : StreamState δ) (source : OutputSource) : StreamState δ :=
  if !s.truncated ∧ 0 < cfg.outputLimitChars ∧
      cfg.outputLimitChars < (s.cleaned .stdout).length + (s.cleaned .stderr).length then
    { s with
      truncated := true
      truncatedReason := some .outputLimit
      truncatedSource := some source
      allowNextChunkAfterTruncate := true }
  else s

def handleDecoratedChunk (s : StreamState δ) (source : OutputSource) (sanitized : Text) :
    StreamState δ :=
  if sanitized = [] then s
  else ((s.buffer source sanitized).flushOrSchedule cfg source).checkOutputLimit cfg source

def take (s : StreamState δ) (source : OutputSource) (clean : Pipe δ → Text × Pipe δ) :
    StreamState δ :=
  let (sanitized, pipe) := clean (s.pipes source)
  { s with pipes := Function.update s.pipes source pipe }.handleDecoratedChunk cfg source sanitized

def handleChunk (s : StreamState δ) (source : OutputSource) (chunk : Bytes) : StreamState δ :=
  if chunk = [] then s else s.take cfg source fun pipe => pipe.cleanChunk iconv chunk

def onOutput (s : StreamState δ) (source : OutputSource) (chunk : Bytes) : StreamState δ :=
  if s.truncated && !s.allowNextChunkAfterTruncate then s
  else s.handleChunk iconv cfg source chunk

def step (s : StreamState δ) : StreamEvent → StreamState δ
  | .output source chunk => s.onOutput iconv cfg source chunk
  | .timer source => if (s.buffers source).timer then s.flushBuffer source false else s
  | .chain => s.runChain cfg persists

def flushSource (s : StreamState δ) (source : OutputSource) : StreamState δ :=
  (s.take cfg source (Pipe.cleanTail iconv)).take cfg source Pipe.cleanFlush

def awaitFlushChain (s : StreamState δ) : StreamState δ :=
  s.flushChain.foldl (fun s _ => s.runChain cfg persists) s

/-- What is left when the command has completed is flushed, and the whole chain runs. -/
def settle (s : StreamState δ) : StreamState δ :=
  let s := (s.flushSource iconv cfg .stdout).flushSource iconv cfg .stderr
  ((s.flushBuffer .stdout true).flushBuffer .stderr true).awaitFlushChain cfg persists

/-- The segments that were sent out, in the order in which they came, or else the output that the
response carries. -/
def getCombinedOutput (s : StreamState δ) (response : ExecResponse) : Text :=
  sanitizePlainText (
    if s.orderedOutput ≠ [] then
      ((s.orderedOutput.mergeSort fun a b => a.order ≤ b.order).map Segment.text).flatten
    else responseOutput response)

end StreamState

/-- The state when the command has completed. -/
def streamed (cfg : ResolvedShellCommandConfig) (persists : ℕ → Bool)
    (events : List StreamEvent) : StreamState δ :=
  (events.foldl (StreamState.step iconv cfg persists) (.initial iconv)).settle iconv cfg persists

/-- `ensureTruncationMessageIncludesPath` -/
def includingPath (truncationMessage : Option Text) (path : Text) : Option Text :=
  match truncationMessage with
  | some message =>
    if path <:+: message then some message
    else some (message ++ units " Full output saved to " ++ path ++ units ".")
  | none => some (units "Full output saved to " ++ path ++ units ".")

def buildTruncationMessage (reason : Option TruncatedReason) (limit clientLimitBytes : ℕ) :
    String :=
  if reason = some .outputLimit ∧ 0 < limit then
    "Output truncated after " ++ toString limit ++ " characters."
  else if reason = some .clientBuffer ∧ 0 < clientLimitBytes then
    "Output truncated after streaming " ++ megabytes clientLimitBytes ++ " MB."
  else "Output truncated."

structure Truncation where
  truncated : Bool
  reason : Option TruncatedReason
  message : Option Text
  savedPath : Option Text

def Truncation.checkFinal (t : Truncation) (cfg : ResolvedShellCommandConfig)
    (final : Text) (save : Option Text) : Truncation :=
  let limit := cfg.outputLimitChars
  if !t.truncated ∧ 0 < limit ∧ limit < final.length then
    let savedPath := t.savedPath.or save
    let message := units ("Output truncated after " ++ toString limit ++ " characters.")
    { truncated := true
      reason := some .outputLimit
      message := some (match savedPath with
        | some path => message ++ units " Full output saved to " ++ path ++ units "."
        | none => message)
      savedPath }
  else t

/-- A truncated output is saved and has a message. -/
def Truncation.complete (t : Truncation) (cfg : ResolvedShellCommandConfig) (final : Text)
    (save : Option Text) : Truncation :=
  if t.truncated then
    let savedPath := if final ≠ [] then t.savedPath.or save else t.savedPath
    let message := t.message.or (some (units (buildTruncationMessage t.reason
      cfg.outputLimitChars cfg.clientBufferLimitBytes)))
    { t with
      savedPath
      message := match savedPath with
        | some path => includingPath message path
        | none => message }
  else t

/-- The text that is returned. An output that cannot be saved is lost without an error. -/
def executeStreaming (cfg : ResolvedShellCommandConfig) (save : SaveOversizedOutput)
    (persists : ℕ → Bool) (events : List StreamEvent) (response : ExecResponse) : Text :=
  let s := streamed iconv cfg persists events
  let final := s.getCombinedOutput response
  let t := Truncation.checkFinal ⟨s.truncated, s.truncatedReason, s.truncationMessage, none⟩ cfg
    final (save 0)
  let t := t.complete cfg final (save 1)
  if response.exitCode ≠ 0 then
    match formatExitCodeErrorMessage response.exitCode final cfg.outputLimitChars t.savedPath
        t.message (save 2) with
    | some payload => sanitizePlainText payload.message
    | none => sanitizePlainText (units ("[exit code " ++ toString response.exitCode ++ "]"))
  else if t.truncated then
    t.message.getD (match t.savedPath with
      | some path => units "Output truncated. Full output saved to " ++ path ++ units "."
      | none => units "Output truncated.")
  else final

end Agyn.ShellCommand
