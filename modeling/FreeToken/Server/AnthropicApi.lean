import FreeToken.Server.Generation

/-!
# The Anthropic stream

The adapter that formats generation events as the server-sent events of the Messages protocol.
-/

namespace FreeToken

/-! ### Frames -/

structure AnthropicUsage where
  inputTokens : ℕ
  outputTokens : ℕ
  cacheReadInputTokens : Option ℕ := none
deriving DecidableEq, Repr

/-- The `AnthropicContentBlock` of a block that starts. -/
inductive AnthropicContentBlock where
  | text
  | thinking
  | toolUse (id : Text) (name : Option Text)
deriving DecidableEq, Repr

/-- The `AnthropicDelta` inside a block. -/
inductive AnthropicDelta where
  | text (text : Text)
  | thinking (thinking : Text)
  | signature (signature : Text)
  | inputJson (partialJson : Text)
deriving DecidableEq, Repr

inductive AnthropicStreamEvent where
  | messageStart (id model : Text) (usage : AnthropicUsage)
  | ping
  | contentBlockStart (index : ℕ) (contentBlock : AnthropicContentBlock)
  | contentBlockDelta (index : ℕ) (delta : AnthropicDelta)
  | contentBlockStop (index : ℕ)
  | messageDelta (stopReason stopSequence : Option Text) (usage : AnthropicUsage)
  | messageStop
  | error (type message : Text)
deriving DecidableEq, Repr

def stopReasonMap (finishReason : Text) : Option Text :=
  if finishReason = "stop".toList then some "end_turn".toList
  else if finishReason = "length".toList then some "max_tokens".toList
  else if finishReason = "tool_calls".toList then some "tool_use".toList
  else none

def anthropicStop (finishReason : Text) (matchedStop : Option Text) : Option Text × Option Text :=
  match matchedStop with
  | some s => (some "stop_sequence".toList, some s)
  | none => (stopReasonMap (if finishReason = [] then "stop".toList else finishReason), none)

def anthropicUsage (promptTokens completionTokens cachedTokens : ℕ) (cacheReport : Bool) :
    AnthropicUsage :=
  let cached := if cacheReport then cachedTokens else 0
  { inputTokens := promptTokens - cached
    outputTokens := completionTokens
    cacheReadInputTokens := if cached = 0 then none else some cached }

/-- `_tool_use_id`, with a fresh `uuid`. -/
def toolUseId (name : Option Text) (index : ℕ) (uuid : Text) : Text :=
  let name := name.getD []
  let shown := ((if name = [] then "tool".toList else name).map fun c => if c = '_' then '-' else c).take 24
  "toolu_".toList ++ shown ++ "_".toList ++ (toString index).toList ++ "_".toList ++ uuid.take 8

/-! ### The adapter -/

/-- The kind of the open block, `block_open`. -/
inductive BlockOpen where
  | text
  | thinking
  | tool
deriving DecidableEq, Repr

/-- The state of `anthropic_event_stream`. -/
structure AnthropicStream where
  blockIndex : ℕ := 0
  blockOpen : Option BlockOpen := none
  toolArgsSent : Text := []
  toolOrdinal : Option ℤ := none
  toolStable : Bool := true
  /-- The number of uuids that have been drawn. -/
  drawn : ℕ := 0
deriving DecidableEq, Repr

namespace AnthropicStream

variable (uuid : ℕ → Text) (s : AnthropicStream)

def openText : AnthropicStream × List AnthropicStreamEvent :=
  ({ s with blockOpen := some .text }, [.contentBlockStart s.blockIndex .text])

def openThinking : AnthropicStream × List AnthropicStreamEvent :=
  ({ s with blockOpen := some .thinking }, [.contentBlockStart s.blockIndex .thinking])

def stopBlock : AnthropicStream × List AnthropicStreamEvent :=
  ({ s with blockOpen := none, blockIndex := s.blockIndex + 1 },
    -- a thinking block ends with an empty signature
    (if s.blockOpen = some .thinking then [.contentBlockDelta s.blockIndex (.signature [])]
      else []) ++ [.contentBlockStop s.blockIndex])

/-- `if block_open: _stop_block()`. -/
def stopOpen : AnthropicStream × List AnthropicStreamEvent :=
  if s.blockOpen.isSome then s.stopBlock else (s, [])

/-- The start of a `tool_use` block, in `_open_tool`. -/
def startTool (name : Option Text) (ordinal : ℤ) (stable : Bool) :
    AnthropicStream × List AnthropicStreamEvent :=
  ({ s with
      blockOpen := some .tool
      toolArgsSent := []
      toolOrdinal := some ordinal
      toolStable := stable
      drawn := s.drawn + 1 },
    [.contentBlockStart s.blockIndex (.toolUse (toolUseId name s.blockIndex (uuid s.drawn)) name)])

def openTool (name : Option Text) (ordinal : ℤ) (stable : Bool) :
    AnthropicStream × List AnthropicStreamEvent :=
  let (s, stopped) := s.stopOpen
  let (s, started) := s.startTool uuid name ordinal stable
  (s, stopped ++ started)

def toolArgsDelta (fragment : Text) : AnthropicStream × List AnthropicStreamEvent :=
  ({ s with toolArgsSent := s.toolArgsSent ++ fragment },
    [.contentBlockDelta s.blockIndex (.inputJson fragment)])

/-- A block of kind `kind` in which the next delta goes: the open one, or a new one that `start`
opens. -/
def ensureOpen (kind : BlockOpen)
    (start : AnthropicStream → AnthropicStream × List AnthropicStreamEvent) :
    AnthropicStream × List AnthropicStreamEvent :=
  if s.blockOpen = some kind then (s, [])
  else
    let (s, stopped) := s.stopOpen
    let (s, started) := start s
    (s, stopped ++ started)

/-- A `ReasoningDelta`. -/
def onReasoning (text : Text) : AnthropicStream × List AnthropicStreamEvent :=
  if text = [] then (s, [])
  else
    let (s, opened) := s.ensureOpen .thinking openThinking
    (s, opened ++ [.contentBlockDelta s.blockIndex (.thinking text)])

/-- A `ContentDelta`. -/
def onContent (text : Text) : AnthropicStream × List AnthropicStreamEvent :=
  if text = [] then (s, [])
  else
    let (s, opened) := s.ensureOpen .text openText
    (s, opened ++ [.contentBlockDelta s.blockIndex (.text text)])

/-- A `ToolCallArgsDelta`. -/
def onArgs (fragment : Text) : AnthropicStream × List AnthropicStreamEvent :=
  if s.blockOpen = some .tool ∧ s.toolStable then s.toolArgsDelta fragment else (s, [])

/-- What the final arguments have more than the fragments. -/
def topUp (final : Text) : AnthropicStream × List AnthropicStreamEvent :=
  if s.toolArgsSent <+: final ∧ final.drop s.toolArgsSent.length ≠ [] then
    s.toolArgsDelta (final.drop s.toolArgsSent.length)
  else (s, [])

/-- A call of a `ToolCallsDelta`. -/
def onCall (call : ToolCallItem) : AnthropicStream × List AnthropicStreamEvent :=
  if s.blockOpen = some .tool ∧ s.toolOrdinal = some call.toolIndex then
    let (s, added) := s.topUp call.parameters
    let (s, stopped) := s.stopBlock
    (s, added ++ stopped)
  else
    -- a complete call that no `ToolCallStart` has opened
    let (s, opened) := s.openTool uuid call.name call.toolIndex true
    let (s, added) := s.toolArgsDelta call.parameters
    let (s, stopped) := s.stopBlock
    (s, opened ++ added ++ stopped)

/-- A `ToolCallsDelta`. -/
def onCalls : AnthropicStream → List ToolCallItem → AnthropicStream × List AnthropicStreamEvent
  | s, [] => (s, [])
  | s, call :: calls =>
    let (s, first) := s.onCall uuid call
    let (s, rest) := onCalls s calls
    (s, first ++ rest)

def onItem : StreamItem → AnthropicStream × List AnthropicStreamEvent
  | .keepalive => (s, [.ping])
  | .event (.reasoningDelta text) => s.onReasoning text
  | .event (.contentDelta text) => s.onContent text
  | .event (.toolCallStart index name stable) => s.openTool uuid name index stable
  | .event (.toolCallArgsDelta _ fragment) => s.onArgs fragment
  | .event (.toolCallsDelta calls) => s.onCalls uuid calls

/-- The end of the stream: a `GenDone`, or an exception. -/
def onEnd (cacheReport : Bool) : GenEnd → List AnthropicStreamEvent
  | .done d =>
    s.stopOpen.2 ++
      [.messageDelta (anthropicStop d.finishReason d.matchedStop).1
          (anthropicStop d.finishReason d.matchedStop).2
          (anthropicUsage d.promptTokens d.completionTokens d.cachedTokens cacheReport),
        .messageStop]
  | .generationError message _ => s.stopOpen.2 ++ [.error "invalid_request_error".toList message]
  | .exception message => s.stopOpen.2 ++ [.error "internal_error".toList message]

/-- The frames of a stream of events and its end. -/
def frames (cacheReport : Bool) :
    AnthropicStream → List StreamItem → GenEnd → List AnthropicStreamEvent
  | s, [], e => s.onEnd cacheReport e
  | s, item :: items, e =>
    let (s, fs) := s.onItem uuid item
    fs ++ frames cacheReport s items e

end AnthropicStream

def anthropicEventStream (uuid : ℕ → Text) (model : Text) (uid : ℕ) (cacheReport : Bool)
    (items : List StreamItem) (e : GenEnd) : List AnthropicStreamEvent :=
  .messageStart ("msg_".toList ++ (toString uid).toList) model ⟨0, 0, none⟩ ::
    AnthropicStream.frames uuid cacheReport {} items e

end FreeToken
