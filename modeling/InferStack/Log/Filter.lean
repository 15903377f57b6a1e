import Mathlib.Algebra.GroupWithZero.Nat
import InferStack.EnvFile
import InferStack.Kit.Regex

/-!
# InferStack.Log.Filter

The compaction of LiteLLM tracebacks in a stream of service logs.

A traceback of one service is held back until its terminal line is read; if a
registered pattern recognises it, its header and its indented lines are not
shown.  Other services' lines that arrive in between are held back with it, and
the pattern's fragments are looked up in all that is held back: a neighbour's
line completes a traceback that the registry does not know.
`hidesRecognised_iff` says on which logs this shows.

A line is known by its text only.  To say which line is not shown the same filter
is run on numbered lines, which `map_compactBy` says makes no difference.
-/

namespace InferStack

open Kit

namespace LogFilter

/-! ## lines -/

/-- What the interpreter's character tables count as a digit, and as part of a word. -/
structure CharTables where
  digit : Char → Bool
  word : Char → Bool

/-- A character in a range. -/
def between (a z : Char) (c : Char) : Bool := a.val ≤ c.val && c.val ≤ z.val

/-- A character with a text. -/
def lit (s : String) : Re Char := .text s.toList

/-- Some digits of a fixed number. -/
def digits (t : CharTables) (n : Nat) : Re Char := Re.all (List.replicate n (.one t.digit))

/-- An escape sequence: its parameters, its intermediate characters and a last one. -/
def ansiEscapeRe : Re Char :=
  Re.all [.one (·.val = 27), lit "[", .many (between '0' '?'), .many (between ' ' '/'),
    .one (between '@' '~')]

/-- `^\d{4}-\d{2}-\d{2}T\d{2}:\d{2}:\d{2}(?:\.\d+)?(?:Z|[+-]\d{2}:\d{2})[ \t]` -/
def dockerTimestampRe (t : CharTables) : Re Char :=
  Re.all [digits t 4, lit "-", digits t 2, lit "-", digits t 2, lit "T",
    digits t 2, lit ":", digits t 2, lit ":", digits t 2,
    .opt (Re.all [lit ".", .some t.digit]),
    .alt (lit "Z") (Re.all [.one (fun c => c = '+' || c = '-'), digits t 2, lit ":", digits t 2]),
    .one (fun c => c = ' ' || c = '\t')]

/-- `^(?:(?:\d{2}:){2}\d{2}(?:\.\d+)?\s+-\s+)?(?:(?:LiteLLM Proxy|LiteLLM):)?`
`(?:DEBUG|INFO|WARNING|ERROR|CRITICAL)\b`; the levels end with a character of a word. -/
def logRecordRe (t : CharTables) : Re Char :=
  Re.all [
    .opt (Re.all [digits t 2, lit ":", digits t 2, lit ":", digits t 2,
      .opt (Re.all [lit ".", .some t.digit]), .some isSpace, lit "-", .some isSpace]),
    .opt (.seq (.alt (lit "LiteLLM Proxy") (lit "LiteLLM")) (lit ":")),
    Re.any [lit "DEBUG", lit "INFO", lit "WARNING", lit "ERROR", lit "CRITICAL"],
    .edge t.word]

def tracebackHeader : List Char := "Traceback (most recent call last):".toList

def maxTracebackLines : Nat := 512

def maxTracebackBytes : Nat := 256 * 1024

/-- What a line of the compose log is made of. -/
structure ComposeLine where
  service : List Char
  message : List Char
  deriving DecidableEq

/-- The text without line breaks at its end. -/
def rstripBreaks (l : List Char) : List Char :=
  (l.reverse.dropWhile fun c => c = '\r' || c = '\n').reverse

/-- The service is what stands before the first bar; one blank after the bar and the
timestamp are not part of the message. -/
def parseComposeLine (t : CharTables) (line : String) : Option ComposeLine :=
  let clean := Re.sub ansiEscapeRe 0 (rstripBreaks line.toList)
  match clean.dropWhile (· ≠ '|') with
  | [] => none
  | _ :: rest =>
      let service := stripped (clean.takeWhile (· ≠ '|'))
      if service = [] then none
      else
        let message := if rest.head? = some ' ' then rest.tail else rest
        some ⟨service, Re.dropMatch (dockerTimestampRe t) message⟩

/-- `part in text` -/
def occursIn (part : String) (text : List Char) : Bool := decide (part.toList <:+: text)

/-- The lower case of a service name; only capitals `A`–`Z` become letters of the hint. -/
def isLitellm (line : ComposeLine) : Bool :=
  occursIn "litellm" (line.service.map Char.toLower)

def isLogRecord (t : CharTables) (message : List Char) : Bool :=
  (logRecordRe t).matchesStart message

/-! ## the registry -/

/-- One approved traceback shape. -/
structure LiteLLMTracebackPattern where
  name : String
  terminal : Re Char
  requiredFragments : List String

/-- The terminal line, and every fragment somewhere in the text. -/
def LiteLLMTracebackPattern.matches (p : LiteLLMTracebackPattern)
    (tracebackText terminal : List Char) : Bool :=
  p.terminal.matchesStart terminal && p.requiredFragments.all (occursIn · tracebackText)

/-- ``The model `[^`]+` does not exist\.`` -/
def modelNotExist : Re Char :=
  Re.all [lit "The model `", .some (fun c => c ≠ Char.ofNat 96), lit "` does not exist."]

/-- `.*` -/
def anyOnLine : Re Char := .many (· ≠ '\n')

def litellmTracebackPatterns : List LiteLLMTracebackPattern := [
  { name := "backend_connection_refused.aiohttp_socket_connect"
    terminal := lit "ConnectionRefusedError: [Errno 111] Connect call failed "
    requiredFragments := [
      "site-packages/aiohttp/connector.py",
      "site-packages/aiohappyeyeballs/impl.py",
      "uvloop/loop.pyx"] },
  { name := "backend_connection_refused.aiohttp_connector"
    terminal := lit "aiohttp.client_exceptions.ClientConnectorError: Cannot connect to host "
    requiredFragments := [
      "site-packages/litellm/llms/custom_httpx/aiohttp_transport.py",
      "site-packages/aiohttp/client.py",
      "site-packages/aiohttp/connector.py"] },
  { name := "backend_connection_refused.httpx"
    terminal := lit "httpx.ConnectError: Cannot connect to host "
    requiredFragments := [
      "site-packages/openai/_base_client.py",
      "site-packages/httpx/_client.py",
      "site-packages/litellm/llms/custom_httpx/aiohttp_transport.py"] },
  { name := "backend_connection_refused.openai_sdk"
    terminal := .seq (lit "openai.APIConnectionError: Connection error.") (.finish '\n')
    requiredFragments := [
      "site-packages/litellm/llms/openai/openai.py",
      "site-packages/litellm/litellm_core_utils/logging_utils.py",
      "site-packages/openai/resources/chat/completions/completions.py",
      "site-packages/openai/_base_client.py"] },
  { name := "backend_connection_refused.openai_adapter"
    terminal := .seq (lit "litellm.llms.openai.common_utils.OpenAIError: Connection error.")
      (.finish '\n')
    requiredFragments := [
      "site-packages/litellm/main.py",
      "site-packages/litellm/llms/openai/openai.py"] },
  { name := "backend_connection_refused.router"
    terminal := .seq (lit ("litellm.exceptions.InternalServerError: litellm.InternalServerError: "
      ++ "InternalServerError: OpenAIException - Connection error.")) (.finish '\n')
    requiredFragments := [
      "site-packages/litellm/router.py",
      "site-packages/litellm/utils.py",
      "site-packages/litellm/main.py",
      "site-packages/litellm/litellm_core_utils/exception_mapping_utils.py"] },
  { name := "backend_connection_refused.proxy"
    terminal := Re.all [lit ("litellm.exceptions.InternalServerError: "
      ++ "litellm.InternalServerError: InternalServerError: OpenAIException - Connection error."),
      .opt (lit "."), lit " Received Model Group="]
    requiredFragments := [
      "site-packages/litellm/proxy/proxy_server.py",
      "site-packages/litellm/proxy/common_request_processing.py",
      "site-packages/litellm/router.py",
      "site-packages/litellm/litellm_core_utils/exception_mapping_utils.py"] },
  { name := "model_not_found.openai_sdk"
    terminal := Re.all [lit "openai.NotFoundError: Error code: 404 - ", anyOnLine, modelNotExist]
    requiredFragments := [
      "site-packages/litellm/llms/openai/openai.py",
      "site-packages/litellm/litellm_core_utils/logging_utils.py",
      "site-packages/openai/resources/chat/completions/completions.py",
      "site-packages/openai/_base_client.py"] },
  { name := "model_not_found.openai_adapter"
    terminal := Re.all [lit "litellm.llms.openai.common_utils.OpenAIError: Error code: 404 - ",
      anyOnLine, modelNotExist]
    requiredFragments := [
      "site-packages/litellm/main.py",
      "site-packages/litellm/llms/openai/openai.py"] },
  { name := "model_not_found.proxy"
    terminal := Re.all [lit ("litellm.exceptions.NotFoundError: litellm.NotFoundError: "
      ++ "NotFoundError: OpenAIException - "), modelNotExist, .opt (lit "."),
      lit " Received Model Group="]
    requiredFragments := [
      "site-packages/litellm/proxy/proxy_server.py",
      "site-packages/litellm/proxy/common_request_processing.py",
      "site-packages/litellm/router.py",
      "site-packages/litellm/utils.py",
      "site-packages/litellm/main.py",
      "site-packages/litellm/litellm_core_utils/exception_mapping_utils.py"] }]

/-! ## the filter -/

/-- What a line is to the traceback that it is read in. -/
inductive Role where
  | header
  | scaffold
  | sideband
  | terminal
  deriving DecidableEq, Repr

/-- `role in {'sideband', 'terminal'}` -/
def Role.isKept : Role → Bool
  | .sideband | .terminal => true
  | .header | .scaffold => false

/-- A line read within a traceback of a service. -/
def roleIn (t : CharTables) (service : List Char) : Option ComposeLine → Role
  | none => .sideband
  | some line =>
      if line.service ≠ service then .sideband
      else if line.message = tracebackHeader then .header
      else if stripped line.message = [] then .scaffold
      else if line.message.head?.any isSpace then .scaffold
      else if isLogRecord t line.message then .sideband
      else .terminal

structure BufferedLine (α : Type*) where
  raw : α
  message : Option (List Char)
  role : Role

/-- One traceback segment, until its terminal exception is known. -/
structure TracebackBuffer (α : Type*) where
  service : List Char
  lines : List (BufferedLine α)
  nbytes : Nat

/-- The length of a text in UTF-8. -/
def utf8Bytes (s : String) : Nat := (s.toList.map fun c => c.utf8Size).sum

/-- Texts joined by newlines. -/
def joinLines (texts : List (List Char)) : List Char := ['\n'].intercalate texts

namespace TracebackBuffer

variable {α : Type*} (text : α → String)

def start (service : List Char) (raw : α) (message : List Char) : TracebackBuffer α :=
  ⟨service, [⟨raw, some message, .header⟩], utf8Bytes (text raw)⟩

def add (b : TracebackBuffer α) (line : Option ComposeLine) (raw : α) (role : Role) :
    TracebackBuffer α :=
  { b with
    lines := b.lines ++ [⟨raw, line.map (·.message), role⟩]
    nbytes := b.nbytes + utf8Bytes (text raw) }

def tooLarge (b : TracebackBuffer α) : Bool :=
  b.lines.length > maxTracebackLines || b.nbytes > maxTracebackBytes

def tracebackText (b : TracebackBuffer α) : List Char := joinLines (b.lines.filterMap (·.message))

def rawLines (b : TracebackBuffer α) : List α := b.lines.map (·.raw)

/-- The terminal line and the interleaved ones. -/
def compactedLines (b : TracebackBuffer α) : List α :=
  (b.lines.filter (·.role.isKept)).map (·.raw)

end TracebackBuffer

/-- The first registered pattern that recognises a traceback. -/
def matchPattern (tracebackText terminal : List Char) : Option LiteLLMTracebackPattern :=
  litellmTracebackPatterns.find? (·.matches tracebackText terminal)

/-- What is held back, or which service's lines are let through. -/
structure FilterState (α : Type*) where
  pending : Option (TracebackBuffer α) := none
  passthroughService : Option (List Char) := none

section

variable {α : Type*} (t : CharTables) (text : α → String)

/-- A line that ends the lines let through: it looks like a terminal line. -/
def endsPassthrough (service : List Char) : Option ComposeLine → Bool
  | none => false
  | some line =>
      line.service = service ∧ line.message ≠ [] ∧
        ¬ line.message.head?.any isSpace ∧ ¬ isLogRecord t line.message

/-- Let everything held back through if it has grown too large. -/
def checkSize (b : TracebackBuffer α) : List α × FilterState α :=
  if b.tooLarge then (b.rawLines, { passthroughService := some b.service })
  else ([], { pending := some b })

/-- A line read while a traceback is held back. -/
def stepPending (b : TracebackBuffer α) (raw : α) (parsed : Option ComposeLine) :
    List α × FilterState α :=
  match roleIn t b.service parsed with
  | .sideband => checkSize (b.add text parsed raw .sideband)
  | .header => (b.rawLines, { pending := some (.start text b.service raw tracebackHeader) })
  | .scaffold => checkSize (b.add text parsed raw .scaffold)
  | .terminal =>
      let full := b.add text parsed raw .terminal
      match matchPattern full.tracebackText ((parsed.map (·.message)).getD []) with
      | none => (full.rawLines, {})
      | some _ => (full.compactedLines, {})

/-- The service whose traceback a line begins. -/
def opens (parsed : Option ComposeLine) : Option (List Char) :=
  match parsed with
  | none => none
  | some line =>
      if isLitellm line && line.message = tracebackHeader then some line.service else none

/-- What a line makes the filter yield. -/
def step (s : FilterState α) (raw : α) : List α × FilterState α :=
  let parsed := parseComposeLine t (text raw)
  match s.passthroughService with
  | some service =>
      ([raw], if endsPassthrough t service parsed then { s with passthroughService := none } else s)
  | none =>
      match s.pending with
      | none =>
          match opens parsed with
          | none => ([raw], s)
          | some service => ([], { pending := some (.start text service raw tracebackHeader) })
      | some b => stepPending t text b raw parsed

/-- What is yielded when the input ends. -/
def flush (s : FilterState α) : List α :=
  match s.pending with
  | none => []
  | some b => b.rawLines

/-- The filter on the rest of the input. -/
def runFilter : FilterState α → List α → List α
  | s, [] => flush s
  | s, raw :: lines => (step t text s raw).1 ++ runFilter (step t text s raw).2 lines

/-- The filter on lines with a text. -/
def compactBy (lines : List α) : List α := runFilter t text {} lines

end

/-- Compact the registered LiteLLM traceback segments of some lines. -/
def compactLitellmTracebacks (t : CharTables) (lines : List String) : List String :=
  compactBy t id lines

end LogFilter

end InferStack
