import FreeToken.Utils.Text

/-!
# Protocol-neutral generation

The events that the adapters of the wire protocols format.  A reasoning parser and a tool-call
parser are objects of any types with the methods of `ReasoningParser` and `FunctionCallParser`.  On
the path without streaming the replies are put together, and the parsers see the whole text once.
-/

namespace FreeToken

/-! ### Events -/

structure ToolCallItem where
  toolIndex : ℤ
  name : Option Text
  parameters : Text
deriving DecidableEq, Repr

structure GenDone where
  finishReason : Text
  promptTokens : ℕ
  completionTokens : ℕ
  matchedStop : Option Text := none
  cachedTokens : ℕ := 0
deriving DecidableEq, Repr

/-- `GenEvent`, but for the `GenDone` that ends a generation. -/
inductive GenEvent where
  | reasoningDelta (text : Text)
  | contentDelta (text : Text)
  | toolCallStart (toolIndex : ℤ) (name : Option Text) (argsPrefixStable : Bool)
  | toolCallArgsDelta (toolIndex : ℤ) (fragment : Text)
  | toolCallsDelta (calls : List ToolCallItem)
deriving DecidableEq, Repr

/-- How a stream of events ends: with its `GenDone`, or with an exception. -/
inductive GenEnd where
  | done (d : GenDone)
  | generationError (message : Text) (code : Option Text)
  | exception (message : Text)
deriving DecidableEq, Repr

/-- What `with_keepalive` yields. -/
inductive StreamItem where
  | keepalive
  | event (ev : GenEvent)
deriving DecidableEq, Repr

/-! ### Parsers -/

/-- The methods of `ReasoningParser`. -/
class ReasoningParser (ρ : Type) where
  /-- The reasoning and the normal text of a chunk. -/
  parseStreamChunk : ρ → Text → ρ × Text × Text
  flush : ρ → Text × Text

/-- A segment of `parse_stream_events`. -/
inductive ParseSegment where
  | text (payload : Text)
  | calls (payload : List ToolCallItem)
deriving DecidableEq, Repr

/-- The methods of `FunctionCallParser`. -/
class FunctionCallParser (τ : Type) where
  supportsStreaming : τ → Bool
  argsFragmentsPrefixStable : τ → Bool
  parseStreamEvents : τ → Text → τ × List ParseSegment
  finalizeStream : τ → τ × List ToolCallItem
  unstreamedArguments : τ → ℤ → Option Text
  recoverTruncatedCall : τ → τ × List ToolCallItem
  finishStream : τ → τ × Text
  /-- `_parse_tool_response`, with the gate on the tool tags. -/
  parseToolResponse : τ → Text → Option (Text × List ToolCallItem)

def stripSpecialTokens (text : Text) (tokens : List Text) : Text :=
  tokens.foldl (fun text token => if token = [] then text else Text.remove token text) text

/-! ### Tool calls -/

/-- The tool call whose fragments are arriving. -/
structure OpenCall where
  detectorIndex : ℤ
  name : Option Text
  params : Text
  ordinal : ℕ
deriving DecidableEq, Repr

structure ToolAssembly (τ : Type) where
  parser : τ
  openCall : Option OpenCall := none
  callsEmitted : ℕ := 0
  suppressWs : Bool := false

namespace ToolAssembly

variable {τ : Type} [FunctionCallParser τ] (validJson : Text → Bool) (specials : List Text)
  (a : ToolAssembly τ)

open FunctionCallParser

/-- The final arguments of an open call: what has been streamed, or else the parse state of the
detector. -/
def finalParams (c : OpenCall) : Text :=
  let params :=
    if validJson c.params then c.params
    else
      match unstreamedArguments a.parser c.detectorIndex with
      | some args => if args = [] then c.params else args
      | none => c.params
  if params = [] then "{}".toList else params

def closeOpenCall : ToolAssembly τ × List GenEvent :=
  match a.openCall with
  | none => (a, [])
  | some c =>
    ({ a with openCall := none, callsEmitted := a.callsEmitted + 1, suppressWs := true },
      [.toolCallsDelta [⟨c.ordinal, c.name, a.finalParams validJson c⟩]])

omit [FunctionCallParser τ] in
/-- A content event, but for the whitespace behind a call. -/
def content (text : Text) : ToolAssembly τ × List GenEvent :=
  let stripped := stripSpecialTokens text specials
  if stripped = [] ∨ (stripped.all Text.isSpace ∧ a.suppressWs) then (a, [])
  else
    ({ a with suppressWs := a.suppressWs && stripped.all Text.isSpace }, [.contentDelta stripped])

def openFor (frag : ToolCallItem) : ToolAssembly τ × List GenEvent :=
  ({ a with openCall := some ⟨frag.toolIndex, frag.name, [], a.callsEmitted⟩ },
    [.toolCallStart a.callsEmitted frag.name (argsFragmentsPrefixStable a.parser)])

omit [FunctionCallParser τ] in
def addFragment (fragment : Text) : ToolAssembly τ × List GenEvent :=
  match a.openCall with
  | none => (a, [])
  | some c =>
    if fragment = [] then (a, [])
    else
      ({ a with openCall := some { c with params := c.params ++ fragment } },
        [.toolCallArgsDelta c.ordinal fragment])

omit [FunctionCallParser τ] in
/-- Whether a fragment starts another call than the open one. -/
def startsNew (frag : ToolCallItem) : Bool :=
  frag.name.isSome && match a.openCall with
    | none => true
    | some c => frag.toolIndex ≠ c.detectorIndex

/-- One fragment of `_route_tool_text`. -/
def routeFragment (frag : ToolCallItem) : ToolAssembly τ × List GenEvent :=
  let (a, closed) := if a.startsNew frag then a.closeOpenCall validJson else (a, [])
  let (a, opened) := if a.openCall.isNone then a.openFor frag else (a, [])
  let (a, added) := a.addFragment frag.parameters
  (a, closed ++ opened ++ added)

/-- Run a step over some elements, one after the other. -/
def each {β : Type} (f : ToolAssembly τ → β → ToolAssembly τ × List GenEvent) :
    ToolAssembly τ → List β → ToolAssembly τ × List GenEvent
  | a, [] => (a, [])
  | a, x :: xs =>
    let (a, evs) := f a x
    let (a, rest) := each f a xs
    (a, evs ++ rest)

/-- One segment of `_route_tool_text`. -/
def routeSegment : ParseSegment → ToolAssembly τ × List GenEvent
  | .text payload =>
    -- text behind a call closes it, so that the events keep the order of the generation
    let (a, closed) := a.closeOpenCall validJson
    let (a, shown) := a.content specials payload
    (a, closed ++ shown)
  | .calls payload => each (fun a frag => a.routeFragment validJson frag) a payload

def routeToolText (piece : Text) : ToolAssembly τ × List GenEvent :=
  if piece = [] then (a, [])
  else
    let (parser, segments) := parseStreamEvents a.parser piece
    each (fun a seg => a.routeSegment validJson specials seg) { a with parser } segments

/-- A call that was cut off inside its tag block. -/
def recovered (item : ToolCallItem) : ToolAssembly τ × List GenEvent :=
  ({ a with callsEmitted := a.callsEmitted + 1 },
    [.toolCallStart a.callsEmitted item.name true,
      .toolCallsDelta [⟨a.callsEmitted, item.name, item.parameters⟩]])

/-- The fragments that close a call cut off in the middle of its arguments. -/
def finalizeOpen : ToolAssembly τ × List GenEvent :=
  let (parser, frags) := finalizeStream a.parser
  each (fun a frag => a.addFragment frag.parameters) { a with parser } frags

/-- The calls that can be recovered at the end. -/
def recoverTruncated : ToolAssembly τ × List GenEvent :=
  let (parser, items) := recoverTruncatedCall a.parser
  each recovered { a with parser } items

def releaseResidual : ToolAssembly τ × List GenEvent :=
  let (parser, residual) := finishStream a.parser
  { a with parser }.content specials residual

/-- The end-of-stream drain of the tool parser. -/
def drain : ToolAssembly τ × List GenEvent :=
  let (a, finalized) := a.finalizeOpen
  let (a, closed) := a.closeOpenCall validJson
  let (a, recovered) := a.recoverTruncated
  let (a, shown) := a.releaseResidual specials
  (a, finalized ++ closed ++ recovered ++ shown)

end ToolAssembly

/-! ### `generate_events` -/

/-- The parts of a `UserReply` that a generation reads. -/
structure UserReply where
  incrementalOutput : Text
  finished : Bool
  finishReason : Option Text := none
  matchedStop : Option Text := none
  promptTokensDelta : ℕ := 0
  completionTokensDelta : ℕ := 0
  cachedTokens : ℕ := 0
  error : Option Text := none
  errorCode : Option Text := none
deriving DecidableEq, Repr

/-- Where the content of a generation goes. -/
inductive ContentSink (τ : Type) where
  /-- No tools: content is shown. -/
  | plain
  /-- A tool parser that cannot stream, or none: content is kept for the end. -/
  | buffered (parser : Option τ) (pending : Text)
  | streaming (assembly : ToolAssembly τ)

namespace ContentSink

variable {τ : Type} [FunctionCallParser τ] (validJson : Text → Bool) (specials : List Text)

def take (s : ContentSink τ) (text : Text) : ContentSink τ × List GenEvent :=
  if text = [] then (s, [])
  else
    match s with
    | plain => (plain, [.contentDelta (stripSpecialTokens text specials)])
    | buffered parser pending => (buffered parser (pending ++ text), [])
    | streaming a =>
      let (a, evs) := a.routeToolText validJson specials text
      (streaming a, evs)

/-- The events at the end, and whether there was a tool call. -/
def finish : ContentSink τ → List GenEvent × Bool
  | plain => ([], false)
  | buffered parser pending =>
    match parser.bind fun p => FunctionCallParser.parseToolResponse p pending with
    | some (normalText, calls) =>
      let normalText := stripSpecialTokens normalText specials
      ((if normalText = [] then [] else [.contentDelta normalText]) ++ [.toolCallsDelta calls],
        true)
    | none => (if pending = [] then [] else [.contentDelta (stripSpecialTokens pending specials)],
      false)
  | streaming a =>
    let (a, evs) := a.drain validJson specials
    (evs, a.callsEmitted ≠ 0)

end ContentSink

/-- The state of `_generate_events_impl`. -/
structure Generation (ρ τ : Type) where
  reasoningParser : Option ρ
  sink : ContentSink τ
  promptTokens : ℕ := 0
  completionTokens : ℕ := 0
  cachedTokens : ℕ := 0

namespace Generation

variable {ρ τ : Type} [ReasoningParser ρ] [FunctionCallParser τ] (validJson : Text → Bool)
  (specials : List Text)

omit [ReasoningParser ρ] in
/-- The state before the first reply.  `toolParser` is the parser of a request with tools. -/
def init (reasoningParser : Option ρ) (parseTools : Bool) (toolParser : Option τ) :
    Generation ρ τ where
  reasoningParser := reasoningParser
  sink :=
    if parseTools then
      match toolParser with
      | none => .buffered none []
      | some p =>
        if FunctionCallParser.supportsStreaming p then .streaming { parser := p }
        else .buffered (some p) []
    else .plain

omit [ReasoningParser ρ] [FunctionCallParser τ] in
def reasoning (text : Text) : List GenEvent :=
  let stripped := stripSpecialTokens text specials
  if stripped = [] then [] else [.reasoningDelta stripped]

variable (g : Generation ρ τ)

def split (chunk : Text) : Generation ρ τ × Text × Text :=
  match g.reasoningParser with
  | some p =>
    if chunk = [] then (g, [], [])
    else
      let (p, reasoning, content) := ReasoningParser.parseStreamChunk p chunk
      ({ g with reasoningParser := some p }, reasoning, content)
  | none => (g, [], chunk)

/-- One reply of the loop of `_generate_events_impl`. -/
def onReply (ack : UserReply) : Generation ρ τ × List GenEvent :=
  let (g, reasoningDelta, contentDelta) := g.split ack.incrementalOutput
  let (sink, evs) := g.sink.take validJson specials contentDelta
  ({ g with
      sink
      promptTokens := g.promptTokens + ack.promptTokensDelta
      completionTokens := g.completionTokens + ack.completionTokensDelta
      cachedTokens := g.cachedTokens + ack.cachedTokens },
    reasoning specials reasoningDelta ++ evs)

/-- What is left at the end of the replies, and the `GenDone`. -/
def onEnd (finishReason matchedStop : Option Text) : List GenEvent × GenDone :=
  let (flushReasoning, flushContent) :=
    match g.reasoningParser with
    | some p => ReasoningParser.flush p
    | none => ([], [])
  let (sink, evs) := g.sink.take validJson specials flushContent
  let (last, called) := sink.finish validJson specials
  let finishReason := finishReason.getD "stop".toList
  (reasoning specials flushReasoning ++ evs ++ last,
    { finishReason :=
        if called ∧ finishReason ≠ "length".toList then "tool_calls".toList else finishReason
      promptTokens := g.promptTokens
      completionTokens := g.completionTokens
      matchedStop
      cachedTokens := g.cachedTokens })

/-- `_generate_events_impl`: the events, and the end of the stream. -/
def generateEvents : Generation ρ τ → List UserReply → List GenEvent × GenEnd
  | g, [] =>
    let (evs, d) := g.onEnd validJson specials none none
    (evs, .done d)
  | g, ack :: acks =>
    match ack.error with
    | some e => ([], .generationError e ack.errorCode)
    | none =>
      let (g, evs) := g.onReply validJson specials ack
      if ack.finished then
        let (rest, d) := g.onEnd validJson specials ack.finishReason ack.matchedStop
        (evs ++ rest, .done d)
      else
        let (rest, e) := generateEvents g acks
        (evs ++ rest, e)

end Generation

/-! ### Generation in one go -/

/-- The one-shot method of `ReasoningParser`. -/
class ReasoningSplitter (ρ : Type) where
  /-- The reasoning and the normal text of a whole text. -/
  parseNonStream : ρ → Text → Text × Text

/-- What `parse_non_stream` uses of a tool-call parser: whether there are tools, and its detector.
-/
class ToolDetector (τ : Type) where
  hasTools : τ → Bool
  /-- `detect_and_parse`. -/
  detectAndParse : τ → Text → Text × List ToolCallItem
  hasToolCall : τ → Text → Bool
  blockCloseTokens : τ → List Text

def toolsTagList : List Text :=
  ["<|plugin|>".toList, "<|tool_call>".toList, "<|tool_call_begin|>".toList, "<|channel|>".toList,
    "<function=".toList, "<tool_call>".toList, "<minimax:tool_call>".toList,
    "]<]minimax[>[<tool_call>".toList, "<|python_tag|>".toList, "[TOOL_CALLS]".toList,
    "<｜DSML｜function_calls>".toList, "<｜DSML｜tool_calls>".toList, "<｜DSML｜invoke".toList,
    "<atem:function_calls>".toList]

/-- Some tag of `TOOLS_TAG_LIST` occurs. -/
def hasToolsTag (text : Text) : Bool := toolsTagList.any (· <:+: text)

namespace ToolDetector

variable {τ : Type} [ToolDetector τ] (p : τ)

/-- Where the text behind the last tool block starts. -/
def tailStart (text : Text) : Option ℕ :=
  (blockCloseTokens p).foldl (fun best tok =>
    match Text.rfindText tok text with
    | some pos => some (max (best.getD 0) (pos + tok.length))
    | none => best) none

def parseNonStream (text : Text) : Text × List ToolCallItem :=
  if !hasTools p then (text, [])
  else
    let (normal, calls) := detectAndParse p text
    if calls = [] then (text, [])
    else
      match tailStart p text with
      | none => (normal, calls)
      | some start =>
        let tail := text.drop start
        -- plain text behind the last block is kept, as the stream keeps it
        if Text.strip tail ≠ [] ∧ ¬Text.strip tail <:+: normal ∧ hasToolCall p tail = false then
          (normal ++ tail, calls)
        else (normal, calls)

/-- `_parse_tool_response` for a request with tools. -/
def parseToolResponse (text : Text) : Option (Text × List ToolCallItem) :=
  if hasToolsTag text then
    let (normal, calls) := parseNonStream p text
    if calls = [] then none else some (normal, calls)
  else none

end ToolDetector

/-- `_valid_json`, with the verdict of `json.loads`. -/
def validJson (loads : Text → Bool) (text : Text) : Bool := text ≠ [] && loads text

structure GenResult where
  reasoning : Text
  content : Text
  toolCalls : List ToolCallItem
  finishReason : Text
  promptTokens : ℕ
  completionTokens : ℕ
  matchedStop : Option Text := none
  cachedTokens : ℕ := 0
deriving DecidableEq, Repr

/-- The replies that have been put together. -/
structure FullReply where
  content : Text := []
  promptTokens : ℕ := 0
  completionTokens : ℕ := 0
  cachedTokens : ℕ := 0
  finishReason : Option Text := none
  matchedStop : Option Text := none
deriving DecidableEq, Repr

/-- The loop of `_generate_full_impl`. -/
def FullReply.collect (r : FullReply) : List UserReply → Except (Text × Option Text) FullReply
  | [] => .ok r
  | ack :: acks =>
    match ack.error with
    | some e => .error (e, ack.errorCode)
    | none =>
      let r := { r with
        content := r.content ++ ack.incrementalOutput
        promptTokens := r.promptTokens + ack.promptTokensDelta
        completionTokens := r.completionTokens + ack.completionTokensDelta
        cachedTokens := r.cachedTokens + ack.cachedTokens }
      if ack.finished then .ok { r with finishReason := ack.finishReason, matchedStop :=
        ack.matchedStop }
      else collect r acks

section

variable {ρ τ : Type} [ReasoningSplitter ρ] [ToolDetector τ]

def splitReasoning (reasoningParser : Option ρ) (text : Text) : Text × Text :=
  match reasoningParser with
  | none => ([], text)
  | some p => ReasoningSplitter.parseNonStream p text

/-- What `_generate_full_impl` makes of the replies. -/
def FullReply.result (specials : List Text) (reasoningParser : Option ρ) (toolParser : Option τ)
    (r : FullReply) :
    GenResult :=
  let (reasoning, content) := splitReasoning reasoningParser r.content
  let finishReason := r.finishReason.getD "stop".toList
  let parsed := toolParser.bind fun p => ToolDetector.parseToolResponse p content
  { reasoning := Text.strip (stripSpecialTokens reasoning specials)
    content := stripSpecialTokens ((parsed.map (·.1)).getD content) specials
    toolCalls := (parsed.map (·.2)).getD []
    finishReason :=
      if parsed.isSome ∧ finishReason ≠ "length".toList then "tool_calls".toList else finishReason
    promptTokens := r.promptTokens
    completionTokens := r.completionTokens
    matchedStop := r.matchedStop
    cachedTokens := r.cachedTokens }

/-- `_generate_full_impl`, with the tool parser of a request with tools. -/
def generateFull (specials : List Text) (reasoningParser : Option ρ) (toolParser : Option τ)
    (acks : List UserReply) : Except (Text × Option Text) GenResult :=
  (FullReply.collect {} acks).map (FullReply.result specials reasoningParser toolParser)

end

end FreeToken
