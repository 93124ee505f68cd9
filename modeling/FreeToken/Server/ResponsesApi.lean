import FreeToken.Server.Generation

/-!
# The Responses stream

The adapter that formats generation events as the server-sent events of the Responses protocol.
-/

namespace FreeToken

/-! ### Frames -/

/-- The `status` of a response or of an item of its output. -/
inductive ResponseStatus where
  | inProgress
  | completed
  | incomplete
  | failed
deriving DecidableEq, Repr

inductive ResponseItem where
  | reasoning (id : Text) (content : List Text) (status : ResponseStatus)
  | message (id : Text) (content : List Text) (status : ResponseStatus)
  | functionCall (id callId name arguments : Text) (status : ResponseStatus)
deriving DecidableEq, Repr

structure ResponseUsage where
  inputTokens : ℕ
  outputTokens : ℕ
  totalTokens : ℕ
  cachedTokens : ℕ
deriving DecidableEq, Repr

/-- `_usage`. -/
def responseUsage (promptTokens completionTokens cachedTokens : ℕ) : ResponseUsage :=
  ⟨promptTokens, completionTokens, promptTokens + completionTokens, cachedTokens⟩

/-- What all snapshots of a response share. -/
structure ResponseInfo where
  responseId : Text
  created : ℕ
  model : Text
deriving DecidableEq, Repr

structure Response where
  info : ResponseInfo
  output : List ResponseItem
  status : ResponseStatus
  usage : Option ResponseUsage := none
  /-- The code and the message of the error. -/
  error : Option (Text × Text) := none
  incompleteReason : Option Text := none
deriving DecidableEq, Repr

/-- The server-sent events, but for their sequence numbers. -/
inductive ResponsesEvent where
  | created (response : Response)
  | inProgress (response : Response)
  | completed (response : Response)
  | incomplete (response : Response)
  | failed (response : Response)
  | outputItemAdded (outputIndex : ℕ) (item : ResponseItem)
  | outputItemDone (outputIndex : ℕ) (item : ResponseItem)
  | contentPartAdded (itemId : Text) (outputIndex contentIndex : ℕ) (text : Text)
  | contentPartDone (itemId : Text) (outputIndex contentIndex : ℕ) (text : Text)
  | outputTextDelta (itemId : Text) (outputIndex contentIndex : ℕ) (delta : Text)
  | outputTextDone (itemId : Text) (outputIndex contentIndex : ℕ) (text : Text)
  | reasoningTextDelta (itemId : Text) (outputIndex contentIndex : ℕ) (delta : Text)
  | reasoningTextDone (itemId : Text) (outputIndex contentIndex : ℕ) (text : Text)
  | functionCallArgumentsDelta (itemId : Text) (outputIndex : ℕ) (delta : Text)
  | functionCallArgumentsDone (itemId : Text) (outputIndex : ℕ) (name arguments : Text)
deriving DecidableEq, Repr

structure ResponsesFrame where
  sequenceNumber : ℕ
  event : ResponsesEvent
deriving DecidableEq, Repr

/-- The frames of some events, numbered from `n` on. -/
def ResponsesFrame.number : ℕ → List ResponsesEvent → List ResponsesFrame
  | _, [] => []
  | n, ev :: evs => ⟨n, ev⟩ :: number (n + 1) evs

/-! ### The adapter -/

/-- The open item, `current`. -/
inductive CurrentItem where
  | reasoning (id text : Text)
  | message (id text : Text)
  | functionCall (id callId name args : Text) (ordinal : ℤ)
deriving DecidableEq, Repr

/-- The state of `responses_stream_generator`, but for the sequence number. -/
structure ResponsesStream where
  outputItems : List ResponseItem := []
  outputIndex : ℕ := 0
  current : Option CurrentItem := none
  /-- The number of uuids that have been drawn. -/
  drawn : ℕ := 0
deriving DecidableEq, Repr

namespace ResponsesStream

variable (uuid : ℕ → Text) (info : ResponseInfo) (s : ResponsesStream)

/-- The end of an item: the events before `response.output_item.done`, and the item there. -/
def closing (finishReason : Text) (outputIndex : ℕ) :
    CurrentItem → List ResponsesEvent × ResponseItem
  | .reasoning id text =>
    ([.reasoningTextDone id outputIndex 0 text], .reasoning id [text] .completed)
  | .message id text =>
    ([.outputTextDone id outputIndex 0 text, .contentPartDone id outputIndex 0 text],
      .message id [text] (if finishReason = "length".toList then .incomplete else .completed))
  | .functionCall id callId name args _ =>
    ([.functionCallArgumentsDone id outputIndex name args],
      .functionCall id callId name args .completed)

/-- `close_current`.  The reason to finish is `stop` until the end. -/
def closeCurrent (finishReason : Text) : ResponsesStream × List ResponsesEvent :=
  match s.current with
  | none => (s, [])
  | some c =>
    let (evs, item) := closing finishReason s.outputIndex c
    ({ s with
        outputItems := s.outputItems ++ [item]
        outputIndex := s.outputIndex + 1
        current := none },
      evs ++ [.outputItemDone s.outputIndex item])

/-- The start of a `function_call`, in `open_function_call`. -/
def startFunctionCall (name : Text) (ordinal : ℤ) : ResponsesStream × List ResponsesEvent :=
  let id := "fc_".toList ++ uuid s.drawn
  let callId := "call_".toList ++ (uuid (s.drawn + 1)).take 24
  ({ s with current := some (.functionCall id callId name [] ordinal), drawn := s.drawn + 2 },
    [.outputItemAdded s.outputIndex (.functionCall id callId name [] .inProgress)])

def openFunctionCall (name : Text) (ordinal : ℤ) : ResponsesStream × List ResponsesEvent :=
  let (s, closed) := s.closeCurrent "stop".toList
  let (s, started) := s.startFunctionCall uuid name ordinal
  (s, closed ++ started)

def startReasoning : ResponsesStream × List ResponsesEvent :=
  let id := "rs_".toList ++ uuid s.drawn
  ({ s with current := some (.reasoning id []), drawn := s.drawn + 1 },
    [.outputItemAdded s.outputIndex (.reasoning id [] .inProgress)])

/-- The start of a message item, and of its only content part. -/
def startMessage : ResponsesStream × List ResponsesEvent :=
  let id := "msg_".toList ++ uuid s.drawn
  ({ s with current := some (.message id []), drawn := s.drawn + 1 },
    [.outputItemAdded s.outputIndex (.message id [] .inProgress),
      .contentPartAdded id s.outputIndex 0 []])

/-- A nonempty `ReasoningDelta` inside a reasoning item. -/
def addReasoning (text : Text) : ResponsesStream × List ResponsesEvent :=
  match s.current with
  | some (.reasoning id t) =>
    ({ s with current := some (.reasoning id (t ++ text)) },
      [.reasoningTextDelta id s.outputIndex 0 text])
  | _ => (s, [])

/-- A nonempty `ContentDelta` inside a message item. -/
def addContent (text : Text) : ResponsesStream × List ResponsesEvent :=
  match s.current with
  | some (.message id t) =>
    ({ s with current := some (.message id (t ++ text)) },
      [.outputTextDelta id s.outputIndex 0 text])
  | _ => (s, [])

/-- Whether the open item is a reasoning item. -/
def inReasoning : Bool :=
  match s.current with
  | some (.reasoning _ _) => true
  | _ => false

def inMessage : Bool :=
  match s.current with
  | some (.message _ _) => true
  | _ => false

/-- A `ReasoningDelta`. -/
def onReasoning (text : Text) : ResponsesStream × List ResponsesEvent :=
  if text = [] then (s, [])
  else if s.inReasoning then s.addReasoning text
  else
    let (s, closed) := s.closeCurrent "stop".toList
    let (s, started) := s.startReasoning uuid
    let (s, added) := s.addReasoning text
    (s, closed ++ started ++ added)

/-- A `ContentDelta`. -/
def onContent (text : Text) : ResponsesStream × List ResponsesEvent :=
  if text = [] then (s, [])
  else if s.inMessage then s.addContent text
  else
    let (s, closed) := s.closeCurrent "stop".toList
    let (s, started) := s.startMessage uuid
    let (s, added) := s.addContent text
    (s, closed ++ started ++ added)

/-- A `ToolCallArgsDelta`, or another fragment of the open call. -/
def onArgs (fragment : Text) : ResponsesStream × List ResponsesEvent :=
  match s.current with
  | some (.functionCall id callId name args ordinal) =>
    ({ s with current := some (.functionCall id callId name (args ++ fragment) ordinal) },
      [.functionCallArgumentsDelta id s.outputIndex fragment])
  | _ => (s, [])

/-- `current["args"] = args`. -/
def setArgs (args : Text) : ResponsesStream :=
  match s.current with
  | some (.functionCall id callId name _ ordinal) =>
    { s with current := some (.functionCall id callId name args ordinal) }
  | _ => s

/-- The end of a call that a `ToolCallStart` has opened, whose fragments so far are `args`. -/
def finishCall (args final : Text) : ResponsesStream × List ResponsesEvent :=
  let (s, added) :=
    if args <+: final ∧ final.drop args.length ≠ [] then s.onArgs (final.drop args.length)
    else (s, [])
  -- the final arguments are reported, whatever has been sent
  let (s, closed) := (s.setArgs final).closeCurrent "stop".toList
  (s, added ++ closed)

/-- A complete call that no `ToolCallStart` has opened. -/
def wholeCall (call : ToolCallItem) : ResponsesStream × List ResponsesEvent :=
  let (s, opened) := s.openFunctionCall uuid (call.name.getD []) call.toolIndex
  let (s, added) := s.onArgs call.parameters
  let (s, closed) := s.closeCurrent "stop".toList
  (s, opened ++ added ++ closed)

/-- A call of a `ToolCallsDelta`. -/
def onCall (call : ToolCallItem) : ResponsesStream × List ResponsesEvent :=
  match s.current with
  | some (.functionCall _ _ _ args ordinal) =>
    if ordinal = call.toolIndex then s.finishCall args call.parameters else s.wholeCall uuid call
  | _ => s.wholeCall uuid call

/-- A `ToolCallsDelta`. -/
def onCalls : ResponsesStream → List ToolCallItem → ResponsesStream × List ResponsesEvent
  | s, [] => (s, [])
  | s, call :: calls =>
    let (s, first) := s.onCall uuid call
    let (s, rest) := onCalls s calls
    (s, first ++ rest)

def onItem : StreamItem → ResponsesStream × List ResponsesEvent
  | .keepalive => (s, [.inProgress { info, output := s.outputItems, status := .inProgress }])
  | .event (.reasoningDelta text) => s.onReasoning uuid text
  | .event (.contentDelta text) => s.onContent uuid text
  | .event (.toolCallStart index name _) => s.openFunctionCall uuid (name.getD []) index
  | .event (.toolCallArgsDelta _ fragment) => s.onArgs fragment
  | .event (.toolCallsDelta calls) => s.onCalls uuid calls

/-- The event of a `GenDone`. -/
def terminal (cacheReport : Bool) (output : List ResponseItem) (d : GenDone) : ResponsesEvent :=
  let usage :=
    some (responseUsage d.promptTokens d.completionTokens
      (if cacheReport then d.cachedTokens else 0))
  if d.finishReason = "length".toList then
    .incomplete
      { info, output, status := .incomplete, usage, incompleteReason := some "max_output_tokens".toList }
  else .completed { info, output, status := .completed, usage }

def failure (output : List ResponseItem) (code message : Text) : ResponsesEvent :=
  .failed
    { info, output, status := .failed, usage := some (responseUsage 0 0 0), error :=
      some (code, message) }

/-- The end of the stream: a `GenDone`, or an exception. -/
def onEnd (cacheReport : Bool) : GenEnd → List ResponsesEvent
  | .done d =>
    let (s, closed) := s.closeCurrent d.finishReason
    closed ++ [terminal info cacheReport s.outputItems d]
  | .generationError message code =>
    let (s, closed) := s.closeCurrent "stop".toList
    let code := code.getD []
    closed ++ [failure info s.outputItems (if code = [] then "server_error".toList else code) message]
  | .exception message =>
    let (s, closed) := s.closeCurrent "stop".toList
    closed ++ [failure info s.outputItems "server_error".toList message]

/-- The events of a stream of generation events and its end. -/
def events (cacheReport : Bool) : ResponsesStream → List StreamItem → GenEnd → List ResponsesEvent
  | s, [], e => s.onEnd info cacheReport e
  | s, item :: items, e =>
    let (s, evs) := s.onItem uuid info item
    evs ++ events cacheReport s items e

end ResponsesStream

def responsesStreamGenerator (uuid : ℕ → Text) (info : ResponseInfo) (cacheReport : Bool)
    (items : List StreamItem) (e : GenEnd) : List ResponsesFrame :=
  ResponsesFrame.number 0 <|
    [.created { info, output := [], status := .inProgress },
      .inProgress { info, output := [], status := .inProgress }] ++
      ResponsesStream.events uuid info cacheReport {} items e

end FreeToken
