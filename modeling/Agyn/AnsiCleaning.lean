import Agyn.Backtracking
import Agyn.IngressText

/-!
The removal of escape sequences from text, all at once with the three patterns and piece by piece
with a cleaner that keeps back a sequence that may still go on.
-/
namespace Agyn.ShellCommand

open IngressText

def ESC : UInt16 := 0x1b
def BEL : UInt16 := 0x07
def BACKSLASH : UInt16 := 0x5c

def oneOf (chars : String) (c : UInt16) : Bool := (units chars).contains c

def isDigit (c : UInt16) : Bool := 0x30 ≤ c && c ≤ 0x39

/-- `[0-9A-ORZcf-nq-uy=><]` -/
def isAnsiEnd (c : UInt16) : Bool :=
  isDigit c || (0x41 ≤ c && c ≤ 0x4f) || (0x66 ≤ c && c ≤ 0x6e) || (0x71 ≤ c && c ≤ 0x75) ||
    oneOf "RZcy=><" c

/-- `[\u001B\u009B][[[\]()#;?]*(?:[0-9]{1,4}(?:;[0-9]{0,4})*)?[0-9A-ORZcf-nq-uy=><]` -/
def ANSI_REGEX : Pattern UInt16 :=
  let digits := .seq (.one isDigit) ((Pattern.one isDigit).upTo 3)
  let more := .star (.seq (.one (oneOf ";")) ((Pattern.one isDigit).upTo 4))
  .seq (.one fun c => c = ESC || c = 0x9b) <|
    .seq (.star (.one (oneOf "[]()#;?"))) <|
      .seq (Pattern.opt (.seq digits more)) (.one isAnsiEnd)

/-- `\u001b\\`, the end of a control string. -/
def STRING_TERMINATOR : Pattern UInt16 := .seq (.one (· = ESC)) (.one (· = BACKSLASH))

/-- `\u001b\][^\u001b\u0007]*(?:\u0007|\u001b\\)` -/
def ANSI_OSC_REGEX : Pattern UInt16 :=
  .seq (.one (· = ESC)) <| .seq (.one (oneOf "]")) <|
    .seq (.star (.one fun c => c ≠ ESC && c ≠ BEL)) <|
      .alt (.one (· = BEL)) STRING_TERMINATOR

/-- `\u001b[PX^_][^\u001b]*(?:\u001b\\)` -/
def ANSI_STRING_REGEX : Pattern UInt16 :=
  .seq (.one (· = ESC)) <| .seq (.one (oneOf "PX^_")) <|
    .seq (.star (.one (· ≠ ESC))) STRING_TERMINATOR

def stripAnsi (input : Text) : Text :=
  withoutNulls (ANSI_REGEX.remove (ANSI_STRING_REGEX.remove (ANSI_OSC_REGEX.remove input)))

def isFinalByte (code : UInt16) : Bool := 0x40 ≤ code && code ≤ 0x7e
def isIntermediateByte (code : UInt16) : Bool := 0x20 ≤ code && code ≤ 0x2f

def hasStringTerminator : Text → Bool
  | c :: d :: rest => (c = ESC && d = BACKSLASH) || hasStringTerminator (d :: rest)
  | _ => false

def isCompleteAnsiSequence : Text → Bool
  | _ :: second :: rest =>
    if oneOf "[" second then rest.any isFinalByte
    else if oneOf "]" second then rest.contains BEL || hasStringTerminator rest
    else if oneOf "P^_" second then hasStringTerminator rest
    else if isFinalByte second then true
    else if isIntermediateByte second then rest.any isFinalByte
    else true
  | _ => false

/-- The scan from the end: the length of the part that is kept back, and whether the scan has met
a complete sequence and stopped. -/
def scanRemainder : Text → ℕ × Bool
  | [] => (0, false)
  | c :: rest =>
    match scanRemainder rest with
    | (kept, true) => (kept, true)
    | (kept, false) =>
      if c ≠ ESC then (kept, false)
      else if isCompleteAnsiSequence (c :: rest) then (kept, true)
      else (rest.length + 1, false)

def splitAnsiSafePortion (input : Text) : Text × Text :=
  let remainderStart := input.length - (scanRemainder input).1
  (input.take remainderStart, input.drop remainderStart)

def consume (remainder chunk : Text) : Text × Text :=
  if chunk = [] then ([], remainder)
  else
    let (safe, remainder) := splitAnsiSafePortion (remainder ++ chunk)
    (stripAnsi safe, remainder)

def flush (remainder : Text) : Text :=
  if isCompleteAnsiSequence remainder then stripAnsi remainder else []

end Agyn.ShellCommand
