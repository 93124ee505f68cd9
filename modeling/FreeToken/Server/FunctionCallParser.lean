import FreeToken.Server.Generation
import FreeToken.Utils.Json

/-!
# Tool-call detectors

What the detectors of tool-call formats share, and the formats whose calls are JSON objects.
-/

namespace FreeToken

/-- A tool of the request, with the properties of its parameters if it has any.  Of a property its
type is kept, stripped and in lower case; `str(type)` of a union type is the text of a list, and a
property that is not a dictionary counts as `string`. -/
structure Tool where
  name : Text
  properties : Option (List (Text × Text)) := none
deriving DecidableEq, Repr

/-- The tools of the request, and `FORWARD_UNKNOWN_TOOLS`. -/
structure ToolTable where
  tools : List Tool
  forwardUnknownTools : Bool := true
deriving DecidableEq, Repr

structure StreamingParseResult where
  normalText : Text := []
  calls : List ToolCallItem := []
deriving DecidableEq, Repr

/-- The streaming methods of a detector.  An increment may raise. -/
class FormatDetector (δ : Type) where
  parseStreamingIncrement : ToolTable → δ → Text → Option (δ × StreamingParseResult)
  finishStreaming : δ → Text

def feedChunks {δ : Type} [FormatDetector δ] (table : ToolTable) (d : δ) :
    List Text → Option (δ × StreamingParseResult)
  | [] => some (d, {})
  | chunk :: chunks => do
    let (d, res) ← FormatDetector.parseStreamingIncrement table d chunk
    let (d, rest) ← feedChunks table d chunks
    pure (d, ⟨res.normalText ++ rest.normalText, res.calls ++ rest.calls⟩)

/-- The normal text of a stream, with what its end adds, and its calls. -/
def streamChunks {δ : Type} [FormatDetector δ] (table : ToolTable) (d : δ) (chunks : List Text) :
    Option (Text × List ToolCallItem) := do
  let (d, res) ← feedChunks table d chunks
  pure (res.normalText ++ FormatDetector.finishStreaming d, res.calls)

namespace ToolTable

variable (table : ToolTable)

/-- `name in self._tool_indices`. -/
def hasTool (name : Text) : Bool := name ≠ [] ∧ table.tools.any fun tool => tool.name = name

def shouldForwardUnknownTool (name : JsonValue) : Bool :=
  table.forwardUnknownTools || match name with
    | .str s => decide (':' ∈ s)
    | _ => false

/-- The names that are called: those of the tools, and those that are forwarded. -/
def accepts (name : Text) : Bool := table.hasTool name || table.shouldForwardUnknownTool (.str name)

def getParamConfig (funcName : Text) : List (Text × Text) :=
  ((table.tools.find? fun tool => tool.name = funcName ∧ tool.properties.isSome).bind
    Tool.properties).getD []

end ToolTable

/-- The length of the shortest end of `buffer` that is a proper start of
`token`. -/
def endsWithPartialToken (buffer token : Text) : ℕ :=
  ((List.range' 1 (min buffer.length (token.length - 1))).find?
    fun i => buffer.drop (buffer.length - i) <+: token).getD 0

/-- `if self.eot_token and self.eot_token in text: text = text.replace(self.eot_token, "")`.
Without the first test nothing else happens, since `replace("", "")` changes nothing. -/
def stripEot (eotToken text : Text) : Text :=
  if eotToken = [] then text else Text.remove eotToken text

def findCommonPrefix : Text → Text → Text
  | a :: s, b :: t => if a = b then a :: findCommonPrefix s t else []
  | _, _ => []

variable [JsonLib]

/-- The object, and how much of the text it takes. -/
def partialJsonLoads (input : Text) (allowStr : Bool) : Except PartialJsonError (JsonValue × ℕ) :=
  match JsonLib.partialLoads input allowStr with
  | .ok v => .ok (v, input.length)
  | .error .extraData =>
    let start := (input.takeWhile fun c => c = ' ' ∨ c = '\t' ∨ c = '\n' ∨ c = '\r').length
    match JsonLib.rawDecode input start with
    | some r => .ok r
    | none => .error .other
  | .error e => .error e

/-! ### `BaseFormatDetector` -/

/-- What a subclass of `BaseFormatDetector` configures. -/
structure JsonFormat where
  botToken : Text := []
  eotToken : Text := []
  toolCallSeparator : Text := ", ".toList
  hasToolCall : Text → Bool

/-- The streaming state of `BaseFormatDetector`. -/
structure BaseFormatDetector where
  buffer : Text := []
  prevToolCallArr : List JsonDict := []
  currentToolId : ℤ := -1
  currentToolNameSent : Bool := false
  streamedArgsForTool : List Text := []

namespace BaseFormatDetector

/-- Write `x` at place `i`, behind as many `pad` as are missing. -/
def setPadded {α : Type} (l : List α) (i : ℕ) (pad x : α) : List α :=
  (l ++ List.replicate (i + 1 - l.length) pad).set i x

variable (fmt : JsonFormat) (table : ToolTable) (s : BaseFormatDetector)

/-- Whether `_buffer` starts a tool call, or goes on after one. -/
def startsToolCall : Bool :=
  fmt.hasToolCall s.buffer || (0 < s.currentToolId ∧ fmt.toolCallSeparator <+: s.buffer)

def idle : BaseFormatDetector × StreamingParseResult :=
  if endsWithPartialToken s.buffer fmt.botToken = 0 then
    ({ s with buffer := [] }, { normalText := stripEot fmt.eotToken s.buffer })
  else (s, {})

def startIdx : ℕ :=
  match Text.find fmt.botToken s.buffer with
  | some pos => pos + fmt.botToken.length
  | none =>
    if 0 < s.currentToolId ∧ fmt.toolCallSeparator <+: s.buffer then fmt.toolCallSeparator.length
    else 0

/-- What `MalformedJSON` leads to. -/
def malformed : BaseFormatDetector × StreamingParseResult :=
  let after := Text.lstrip (s.buffer.drop (s.startIdx fmt))
  if (Text.find fmt.botToken s.buffer).isNone ∧ endsWithPartialToken s.buffer fmt.botToken = 0 ∧
      after ≠ [] ∧ after.head? ≠ some '\x7b' ∧ after.head? ≠ some '[' then
    ({ s with buffer := [] }, { normalText := stripEot fmt.eotToken s.buffer })
  else (s, {})

/-- The check of the name: `none` when `obj["name"]` cannot be hashed. -/
def validName (obj : JsonDict) : Option Bool :=
  match obj.get "name".toList with
  | none => some true
  | some (.arr _) => none
  | some (.obj _) => none
  | some (.str name) => some (table.accepts name)
  | some v => some (table.shouldForwardUnknownTool v)

/-- `obj["arguments"] = obj["parameters"]`, unless both are there. -/
def withArguments (obj : JsonDict) : Option JsonDict :=
  match obj.get "parameters".toList with
  | none => some obj
  | some v => if (obj.get "arguments".toList).isSome then none else some (obj.set "arguments".toList v)

def updatePrev (call : JsonDict) : BaseFormatDetector :=
  if 0 ≤ s.currentToolId then
    { s with prevToolCallArr := setPadded s.prevToolCallArr s.currentToolId.toNat [] call }
  else s

/-- Make room for the arguments of a call. -/
def openTool : BaseFormatDetector :=
  if s.currentToolId = -1 then
    { s with currentToolId := 0, streamedArgsForTool := s.streamedArgsForTool ++ [[]] }
  else
    { s with streamedArgsForTool := s.streamedArgsForTool ++
        List.replicate (s.currentToolId.toNat + 1 - s.streamedArgsForTool.length) [] }

def sendName (call : JsonDict) : BaseFormatDetector × StreamingParseResult :=
  match call.get "name".toList with
  | some v =>
    if v.truthy then
      match v with
      | .str name =>
        let s := s.openTool
        (({ s with currentToolNameSent := true } : BaseFormatDetector).updatePrev call,
          { calls := [⟨s.currentToolId, some name, []⟩] })
      -- `ToolCallItem` refuses a name that is not a string
      | _ => (s.openTool, {})
    else (s.updatePrev call, {})
  | none => (s.updatePrev call, {})

/-- The call is complete: its JSON, and the closing tag behind it, leave the buffer. -/
def completeTool (endIdx : ℕ) : BaseFormatDetector :=
  let id := s.currentToolId.toNat
  let rest := s.buffer.drop (s.startIdx fmt + endIdx)
  let after := Text.lstrip rest
  { s with
    buffer :=
      if fmt.eotToken ≠ [] ∧ fmt.eotToken <+: after then after.drop fmt.eotToken.length else rest
    prevToolCallArr := s.prevToolCallArr.modify id fun _ => []
    currentToolNameSent := false
    streamedArgsForTool := s.streamedArgsForTool.set id []
    currentToolId := s.currentToolId + 1 }

/-- The part of the arguments that no longer changes, when they changed. -/
def argumentDiff (curArgsJson : Text) : Option Text :=
  let id := s.currentToolId.toNat
  match (s.prevToolCallArr[id]?).bind fun d => d.get "arguments".toList with
  | some prev =>
    if prev.truthy ∧ curArgsJson ≠ prev.dumps then
      some ((findCommonPrefix prev.dumps curArgsJson).drop
        (s.streamedArgsForTool.getD id []).length)
    else none
  | none => none

def sendArguments (call : JsonDict) (endIdx : ℕ) : BaseFormatDetector × StreamingParseResult :=
  match call.get "arguments".toList with
  | none => (s.updatePrev call, {})
  | some .null => (s.updatePrev call, {})
  | some args =>
    let curArgsJson := args.dumps
    let id := s.currentToolId.toNat
    if JsonLib.orjsonLoads ((s.buffer.drop (s.startIdx fmt)).take endIdx) then
      ((s.completeTool fmt endIdx).updatePrev call,
        { calls :=
          [⟨s.currentToolId, none, curArgsJson.drop (s.streamedArgsForTool.getD id []).length⟩] })
    else
      match s.argumentDiff curArgsJson with
      | some diff =>
        (({ s with streamedArgsForTool := s.streamedArgsForTool.modify id (· ++ diff) } :
            BaseFormatDetector).updatePrev call,
          { calls := [⟨s.currentToolId, none, diff⟩] })
      | none => (s.updatePrev call, {})

def handleObject (obj : JsonDict) (endIdx : ℕ) : BaseFormatDetector × StreamingParseResult :=
  match validName table obj with
  | none => (s, {})
  | some false =>
    ({ s with
        buffer := [], currentToolId := -1, currentToolNameSent := false
        streamedArgsForTool := s.streamedArgsForTool.dropLast }, {})
  | some true =>
    match withArguments obj with
    | none => (s, {})
    | some call =>
      if call.isEmpty then (s, {})
      else if s.currentToolNameSent then s.sendArguments fmt call endIdx
      else s.sendName call

/-- The text of a tool call.  An exception is logged, and gives nothing. -/
def toolCall : BaseFormatDetector × StreamingParseResult :=
  match Text.find fmt.botToken s.buffer with
  | some (pos + 1) =>
    ({ s with buffer := s.buffer.drop (pos + 1) },
      { normalText := stripEot fmt.eotToken (s.buffer.take (pos + 1)) })
  | _ =>
    if s.buffer.length ≤ s.startIdx fmt then (s, {})
    else
      match partialJsonLoads (s.buffer.drop (s.startIdx fmt)) s.currentToolNameSent with
      | .error .malformedJSON => s.malformed fmt
      | .error _ => (s, {})
      | .ok (.obj obj, endIdx) => s.handleObject fmt table obj endIdx
      | .ok _ => (s, {})

def parseStreamingIncrement (newText : Text) : BaseFormatDetector × StreamingParseResult :=
  let s := { s with buffer := s.buffer ++ newText }
  if s.startsToolCall fmt then s.toolCall fmt table else s.idle fmt

def finishStreaming : Text :=
  if s.buffer = [] ∨ fmt.hasToolCall s.buffer ∨ s.currentToolNameSent then []
  else
    let residual := stripEot fmt.eotToken s.buffer
    if s.prevToolCallArr ≠ [] ∧
        (Text.strip residual = [] ∨ Text.strip residual = Text.strip fmt.toolCallSeparator) then []
    else residual

end BaseFormatDetector

/-! ### `MistralDetector` -/

/-- What `MistralDetector` configures. -/
def mistralFormat : JsonFormat where
  botToken := "[TOOL_CALLS] [".toList
  eotToken := "]".toList
  toolCallSeparator := ", ".toList
  hasToolCall text := "[TOOL_CALLS] [".toList <:+: text

structure MistralDetector extends BaseFormatDetector

instance : FormatDetector MistralDetector where
  parseStreamingIncrement table d newText :=
    let (s, res) := d.toBaseFormatDetector.parseStreamingIncrement mistralFormat table newText
    some (⟨s⟩, res)
  finishStreaming d := d.toBaseFormatDetector.finishStreaming mistralFormat

/-! ### `Llama32Detector` -/

/-- What `Llama32Detector` configures. -/
def llama32Format : JsonFormat where
  botToken := "<|python_tag|>".toList
  toolCallSeparator := ";".toList
  hasToolCall text := "<|python_tag|>".toList <:+: text ∨ ['\x7b'] <+: text

structure Llama32Detector extends BaseFormatDetector

instance : FormatDetector Llama32Detector where
  parseStreamingIncrement table d newText :=
    let (s, res) := d.toBaseFormatDetector.parseStreamingIncrement llama32Format table newText
    some (⟨s⟩, res)
  finishStreaming d := d.toBaseFormatDetector.finishStreaming llama32Format

/-! ### `Qwen25Detector` -/

/-- What `Qwen25Detector` configures. -/
def qwen25Format : JsonFormat where
  botToken := "<tool_call>".toList
  eotToken := "</tool_call>".toList
  toolCallSeparator := "\n".toList
  hasToolCall text := "<tool_call>".toList <:+: text

structure Qwen25Detector extends BaseFormatDetector where
  normalTextBuffer : Text := []

namespace Qwen25Detector

/-- What of the normal text is sent, and what is held as a possible start of the end token. -/
def splitNormalText (text : Text) : Text × Text :=
  if qwen25Format.eotToken <:+: text then (Text.remove qwen25Format.eotToken text, [])
  else
    let partialLen := endsWithPartialToken text qwen25Format.eotToken
    (text.take (text.length - partialLen), text.drop (text.length - partialLen))

def parseStreamingIncrement (table : ToolTable) (d : Qwen25Detector) (newText : Text) :
    Qwen25Detector × StreamingParseResult :=
  let (s, res) := d.toBaseFormatDetector.parseStreamingIncrement qwen25Format table newText
  if res.normalText = [] then (⟨s, d.normalTextBuffer⟩, res)
  else
    let (sent, held) := splitNormalText (d.normalTextBuffer ++ res.normalText)
    (⟨s, held⟩, { res with normalText := sent })

end Qwen25Detector

instance : FormatDetector Qwen25Detector where
  parseStreamingIncrement table d newText :=
    some (Qwen25Detector.parseStreamingIncrement table d newText)
  finishStreaming d := d.normalTextBuffer ++ d.toBaseFormatDetector.finishStreaming qwen25Format

/-! ### `FunctionCallParser` -/

/-- The texts between `start` and the next `stop`: `re.findall` of `start(.*?)stop`. -/
def findBlocks (start stop : Text) : ℕ → Text → List Text
  | 0, _ => []
  | fuel + 1, text =>
    match Text.partition start text with
    | none => []
    | some (_, rest) =>
      match Text.partition stop rest with
      | none => []
      | some (block, rest) => block :: findBlocks start stop fuel rest

/-- `parse_base_json` of one action; `none` is an exception. -/
def ToolTable.parseAction (table : ToolTable) (act : JsonValue) : Option (List ToolCallItem) :=
  match act with
  | .obj fields =>
    let d : JsonDict := fields
    let arguments := (d.get "arguments".toList).getD (.obj [])
    let parameters := ((d.get "parameters".toList).filter JsonValue.truthy).getD arguments
    match (d.get "name".toList).getD .null with
    | .str name =>
      -- of two tools of one name the last one counts
      let index :=
        (table.tools.zipIdx.filter fun x => name ≠ [] ∧ x.1.name = name).getLast?.map (·.2)
      some (if table.accepts name then [⟨(index.map Int.ofNat).getD (-1), some name,
        parameters.dumps⟩] else [])
    | .null => some (if table.shouldForwardUnknownTool .null then [⟨-1, none, parameters.dumps⟩]
      else [])
    | .arr (_ :: _) | .obj (_ :: _) => none
    | v => if table.shouldForwardUnknownTool v then none else some []
  | _ => none

/-- `FunctionCallParser` with a `Qwen25Detector`. -/
structure Qwen25Parser where
  table : ToolTable
  detector : Qwen25Detector := {}

namespace Qwen25Parser

/-- `detect_and_parse`; `none` is an exception. -/
def detectAndParse (table : ToolTable) (text : Text) : Option (Text × List ToolCallItem) :=
  match Text.partition qwen25Format.botToken text with
  | none => some (text, [])
  | some (before, _) =>
    let blocks := findBlocks qwen25Format.botToken qwen25Format.eotToken text.length text
    (blocks.mapM fun block =>
      match JsonLib.loads (Text.strip block) with
      | none => some []
      | some (.arr acts) => (acts.mapM table.parseAction).map List.flatten
      | some act => table.parseAction act).map fun calls => (Text.strip before, List.flatten calls)

/-- The loop of `parse_stream_events`: an increment may use a part of its buffer, so it is fed
again. -/
def drainSegments (table : ToolTable) :
    ℕ → Qwen25Detector → Text → Qwen25Detector × List ParseSegment
  | 0, d, _ => (d, [])
  | rounds + 1, d, text =>
    let (d, res) := Qwen25Detector.parseStreamingIncrement table d text
    let segments := (if res.normalText = [] then [] else [.text res.normalText]) ++
      if res.calls = [] then [] else [.calls res.calls]
    if text = [] ∧ segments = [] then (d, [])
    else
      let (d, rest) := drainSegments table rounds d []
      (d, segments ++ rest)

def recoverTruncatedCall (p : Qwen25Parser) : Qwen25Parser × List ToolCallItem :=
  let buffer := p.detector.buffer
  if buffer = [] ∨ ¬qwen25Format.hasToolCall buffer then (p, [])
  else
    match detectAndParse p.table (buffer ++ qwen25Format.eotToken) with
    | none => (p, [])
    | some (_, calls) =>
      (if calls = [] then p else { p with detector := { p.detector with buffer := [] } }, calls)

end Qwen25Parser

/-- An exception of `detect_and_parse`, which ends the generation, counts as no call. -/
instance : ToolDetector Qwen25Parser where
  hasTools p := p.table.tools ≠ []
  detectAndParse p text := (Qwen25Parser.detectAndParse p.table text).getD (text, [])
  hasToolCall _ text := qwen25Format.hasToolCall text
  blockCloseTokens _ := [qwen25Format.eotToken]

instance : FunctionCallParser Qwen25Parser where
  supportsStreaming _ := true
  argsFragmentsPrefixStable _ := true
  parseStreamEvents p text :=
    if p.table.tools = [] then (p, if text = [] then [] else [.text text])
    else
      let (detector, segments) := Qwen25Parser.drainSegments p.table 16 p.detector text
      ({ p with detector }, segments)
  finalizeStream p := (p, [])
  unstreamedArguments p index :=
    if 0 ≤ index then
      match (p.detector.prevToolCallArr[index.toNat]?).bind fun d => d.get "arguments".toList with
      | none | some .null => none
      | some args => some args.dumps
    else none
  recoverTruncatedCall := Qwen25Parser.recoverTruncatedCall
  finishStream p := (p, FormatDetector.finishStreaming p.detector)
  parseToolResponse p text := ToolDetector.parseToolResponse p text

end FreeToken
