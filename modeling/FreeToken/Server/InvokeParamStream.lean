import FreeToken.Server.FunctionCallParser

/-!
# Invoke and parameter blocks

The streaming machine of the formats in which a call is a block of parameters, and the detector of
the Qwen3-Coder format.
-/

namespace FreeToken

variable [JsonLib]

/-! ### Parameter values -/

/-- `_convert_param_value`, or nothing where it, or `json.dumps` of its value, raises. -/
def convertParamValue (value paramName : Text) (paramConfig : List (Text × Text)) :
    Option JsonValue :=
  if Text.lowerEq value "null".toList then some .null
  else
    match paramConfig.lookup paramName with
    | none => some (.str value)
    | some paramType =>
      if paramType ∈ ["string".toList, "str".toList, "enum".toList] then some (.str value)
      else if "int".toList <+: paramType then
        match JsonLib.parseInt value with
        | some n => some (.int n)
        | none => some (.str value)
      else if paramType ∈ ["number".toList, "float".toList, "double".toList] then
        (JsonLib.parseFloat value).getD (some (.str value))
      else if paramType ∈ ["boolean".toList, "bool".toList] then some (.bool (Text.lowerEq value "true".toList))
      else if paramType ∈ ["object".toList, "array".toList] then
        match JsonLib.loads value with
        | some v => some v
        | none => (JsonLib.literalEval value).getD (some (.str value))
      else some (.str value)

def parseLooseJsonValue (value : Text) : JsonValue :=
  match JsonLib.loads value with
  | some v => v
  | none =>
    if Text.lowerEq value "true".toList then .bool true
    else if Text.lowerEq value "false".toList then .bool false
    else if Text.lowerEq value "null".toList then .null
    else .str value

/-! ### `InvokeParamStreamMixin` -/

/-- The grammar that a detector sets.  A pattern of an opening tag is searched from a place on, and
gives its group and the end of the match. -/
structure InvokeGrammar where
  outerOpen : Text
  outerClose : Text
  invokeOpenPrefix : Text
  invokeOpenRe : Text → ℕ → Option (Text × ℕ)
  invokeClose : Text
  paramOpenPrefix : Text
  paramOpenRe : Text → ℕ → Option (Text × ℕ)
  paramClose : Text
  trim : Text := ['\n']
  trimSingle : Bool := false
  missingType : Text := "string".toList
  canonicalName : ToolTable → Text → Text := fun _ name => name

inductive PsMode where
  | idle
  | block
  | invoke
  | invokeSkip
  | pstr
  | pbuf
  | pskip
deriving DecidableEq, Repr

/-- The state of `InvokeParamStreamMixin`. -/
structure InvokeParamStream where
  buffer : Text := []
  mode : PsMode := .idle
  key : Text := []
  lead : Text := ['\x7b']
  emittedAny : Bool := false
  leadTrimmed : Bool := false
  paramConfig : List (Text × Text) := []
  argsStarted : Bool := false
  prevToolCallArr : List JsonDict := []
  currentToolId : ℤ := -1
  streamedArgsForTool : List Text := []

namespace InvokeParamStream

variable (g : InvokeGrammar) (table : ToolTable)

/-- What an increment has come to, and whether its loop goes on. -/
structure Run where
  state : InvokeParamStream
  res : StreamingParseResult
  goesOn : Bool

variable (s : InvokeParamStream) (res : StreamingParseResult)

/-- `_ps_trim_leading`. -/
def trimLeading (text : Text) : Text :=
  if g.trimSingle then
    match text with
    | c :: rest => if c ∈ g.trim then rest else text
    | [] => text
  else text.dropWhile fun c => c ∈ g.trim

/-- `_ps_trim_trailing`. -/
def trimTrailing (text : Text) : Text := (trimLeading g text.reverse).reverse

/-- `rstrip(self._ps_trim)`. -/
def rstripTrim (text : Text) : Text := (text.reverse.dropWhile fun c => c ∈ g.trim).reverse

/-- `_ps_convert_value`. -/
def convertValue (raw : Text) : Option JsonValue :=
  if (s.paramConfig.lookup s.key).isSome ∨ g.missingType ≠ "loose".toList then
    convertParamValue raw s.key s.paramConfig
  else some (parseLooseJsonValue raw)

/-- `_schema_param_type` of the parameter. -/
def paramType : Text := (s.paramConfig.lookup s.key).getD g.missingType

def emit (fragment : Text) : InvokeParamStream × StreamingParseResult :=
  if fragment = [] then (s, res)
  else
    ({ s with streamedArgsForTool := s.streamedArgsForTool.modify s.currentToolId.toNat (· ++ fragment) },
      { res with calls := res.calls ++ [⟨s.currentToolId, none, fragment⟩] })

/-- The arguments streamed so far, closed if need be. -/
def updatePrev : InvokeParamStream :=
  let id := s.currentToolId.toNat
  let ledger := s.streamedArgsForTool.getD id []
  match (JsonLib.loads ledger).or (JsonLib.loads (ledger ++ ['\x7d'])) with
  | some (.obj parsed) =>
    { s with prevToolCallArr := s.prevToolCallArr.modify id fun d => d.set "arguments".toList (.obj parsed) }
  | _ => s

/-- Hold the end of the buffer that may become one of two tokens, and drop the rest. -/
def holdEnd (a b : Text) : InvokeParamStream :=
  let hold := max (endsWithPartialToken s.buffer a) (endsWithPartialToken s.buffer b)
  { s with buffer := s.buffer.drop (s.buffer.length - hold) }

/-- Text outside of a block.  Text after a call is left to the next increment. -/
def stepIdle : Run :=
  if res.calls ≠ [] then ⟨s, res, false⟩
  else
    match Text.find g.outerOpen s.buffer with
    | none =>
      let release := s.buffer.take (s.buffer.length - endsWithPartialToken s.buffer g.outerOpen)
      ⟨{ s with buffer := s.buffer.drop release.length },
        { res with normalText := res.normalText ++ release }, false⟩
    | some (pos + 1) =>
      ⟨{ s with buffer := s.buffer.drop (pos + 1) },
        { res with normalText := res.normalText ++ s.buffer.take (pos + 1) }, true⟩
    | some 0 => ⟨{ s with buffer := s.buffer.drop g.outerOpen.length, mode := .block }, res, true⟩

def openInvoke (name : Text) (stop : ℕ) : Run :=
  let funcName := g.canonicalName table (Text.strip name)
  let toolId := if s.currentToolId = -1 then 0 else s.currentToolId
  let id := toolId.toNat
  let s := { s with
    currentToolId := toolId
    prevToolCallArr := s.prevToolCallArr ++ List.replicate (id + 1 - s.prevToolCallArr.length) []
    streamedArgsForTool :=
      s.streamedArgsForTool ++ List.replicate (id + 1 - s.streamedArgsForTool.length) []
    buffer := s.buffer.drop stop }
  if table.accepts funcName then
    ⟨{ s with
        prevToolCallArr := s.prevToolCallArr.set id
          [("name".toList, .str funcName), ("arguments".toList, .obj [])]
        argsStarted := false, paramConfig := table.getParamConfig funcName, mode := .invoke },
      { res with calls := res.calls ++ [⟨toolId, some funcName, []⟩] }, true⟩
  else ⟨{ s with mode := .invokeSkip }, res, true⟩

def stepBlock : Run :=
  let inv := Text.find g.invokeOpenPrefix s.buffer
  let close := if g.outerClose = [] then none else Text.find g.outerClose s.buffer
  match close.filter fun c => inv.all fun i => c < i with
  | some c => ⟨{ s with buffer := s.buffer.drop (c + g.outerClose.length), mode := .idle }, res,
    true⟩
  | none =>
    match inv with
    | some i =>
      match g.invokeOpenRe s.buffer i with
      | none => ⟨s, res, false⟩
      | some (name, stop) => s.openInvoke g table res name stop
    | none => ⟨s.holdEnd g.invokeOpenPrefix g.outerClose, res, false⟩

def closeInvoke : InvokeParamStream × StreamingParseResult :=
  let (s, res) := s.emit res (if s.argsStarted then ['\x7d'] else ['\x7b', '\x7d'])
  let s := s.updatePrev
  let toolId := s.currentToolId + 1
  ({ s with
      currentToolId := toolId
      streamedArgsForTool := s.streamedArgsForTool ++
        List.replicate (toolId.toNat + 1 - s.streamedArgsForTool.length) [] }, res)

def openParam (name : Text) : InvokeParamStream × StreamingParseResult :=
  let lead := if s.argsStarted then [','] else ['\x7b']
  let s := { s with key := Text.strip name, argsStarted := true }
  if s.paramType g ∈ ["string".toList, "str".toList, "enum".toList] then
    let (s, res) := s.emit res (lead ++ JsonValue.dumpsStr s.key ++ [':', '"'])
    ({ s with emittedAny := false, leadTrimmed := false, mode := .pstr }, res)
  else ({ s with lead := lead, mode := .pbuf }, res)

/-- Inside of a call, between parameters; `skip` for a call that is not forwarded. -/
def stepInvoke (skip : Bool) : Run :=
  let p := Text.find g.paramOpenPrefix s.buffer
  let e := Text.find g.invokeClose s.buffer
  match e.filter fun e => p.all fun p => e < p with
  | some e =>
    let (s', res) := if skip then (s, res) else s.closeInvoke res
    ⟨{ s' with buffer := s.buffer.drop (e + g.invokeClose.length), mode := .block }, res, true⟩
  | none =>
    match p with
    | some p =>
      match g.paramOpenRe s.buffer p with
      | none => ⟨s, res, false⟩
      | some (name, stop) =>
        if skip then ⟨{ s with buffer := s.buffer.drop stop, mode := .pskip }, res, true⟩
        else
          let (s, res) := { s with buffer := s.buffer.drop stop }.openParam g res name
          ⟨s, res, true⟩
    | none => ⟨s.holdEnd g.paramOpenPrefix g.invokeClose, res, false⟩

/-- The value of a string parameter, behind the trimmed start. -/
def stepStr : Run :=
  match Text.find g.paramClose s.buffer with
  | none =>
    let safe := s.buffer.take (s.buffer.length - endsWithPartialToken s.buffer g.paramClose)
    let emitNow := rstripTrim g safe
    if emitNow = [] then ⟨s, res, false⟩
    else
      let (s', res) := s.emit res (JsonValue.escape emitNow)
      ⟨{ s' with emittedAny := true, buffer := s.buffer.drop emitNow.length }, res, false⟩
  | some stop =>
    let tail := trimTrailing g (s.buffer.take stop)
    let (s', res) := s.emit res (JsonValue.escape tail ++ ['"'])
    ⟨{ s'.updatePrev with buffer := s.buffer.drop (stop + g.paramClose.length), mode := .invoke },
      res, true⟩

def stepPstr : Run :=
  let trimmed := trimLeading g s.buffer
  if s.leadTrimmed then s.stepStr g res
  else if trimmed ≠ s.buffer then
    ⟨{ s with buffer := trimmed, leadTrimmed := trimmed ≠ [] ∨ g.trimSingle }, res, true⟩
  else { s with leadTrimmed := true }.stepStr g res

/-- The value of another parameter is held until it is complete. -/
def stepPbuf : Option Run :=
  match Text.find g.paramClose s.buffer with
  | none => some ⟨s, res, false⟩
  | some stop => do
    let converted ← s.convertValue g (trimTrailing g (trimLeading g (s.buffer.take stop)))
    let (s', res) := s.emit res (s.lead ++ JsonValue.dumpsStr s.key ++ [':'] ++ converted.dumps)
    pure ⟨{ s'.updatePrev with buffer := s.buffer.drop (stop + g.paramClose.length), mode :=
      .invoke }, res, true⟩

/-- The value of a parameter of a call that is not forwarded. -/
def stepPskip : Run :=
  match Text.find g.paramClose s.buffer with
  | none => ⟨s, res, false⟩
  | some stop =>
    ⟨{ s with buffer := s.buffer.drop (stop + g.paramClose.length), mode := .invokeSkip }, res,
      true⟩

def step : Option Run :=
  match s.mode with
  | .idle => some (s.stepIdle g res)
  | .block => some (s.stepBlock g table res)
  | .invoke => some (s.stepInvoke g res false)
  | .invokeSkip => some (s.stepInvoke g res true)
  | .pstr => some (s.stepPstr g res)
  | .pbuf => s.stepPbuf g res
  | .pskip => some (s.stepPskip g res)

def loop :
    ℕ → InvokeParamStream → StreamingParseResult → Option (InvokeParamStream × StreamingParseResult)
  | 0, s, res => some (s, res)
  | fuel + 1, s, res =>
    if s.buffer = [] then some (s, res)
    else do
      let run ← s.step g table res
      if run.goesOn then loop fuel run.state run.res else pure (run.state, run.res)

/-- `parse_streaming_increment`.  Every turn of the loop that is followed by another one shortens
the buffer. -/
def parseStreamingIncrement (newText : Text) : Option (InvokeParamStream × StreamingParseResult) :=
  let s := { s with buffer := s.buffer ++ newText }
  loop g table (s.buffer.length + 1) s {}

def finishStreaming : Text :=
  if s.mode ≠ .idle ∨ (g.outerOpen ≠ [] ∧ g.outerOpen <:+: s.buffer) then []
  else if s.prevToolCallArr ≠ [] ∧ Text.strip s.buffer = [] then []
  else s.buffer

end InvokeParamStream

/-! ### `Qwen3CoderDetector` -/

/-- A character of a pattern with `re.IGNORECASE`: an `i` also stands for its Turkish forms. -/
def matchesIgnoreCase (p c : Char) : Bool :=
  Text.lowerChar c = p ∨ p = 'i' ∧ (c = Char.ofNat 0x130 ∨ c = Char.ofNat 0x131)

/-- A word of a pattern at the start of a text: what it matches, and the rest. -/
def matchWord : Text → Text → Option (Text × Text)
  | [], t => some ([], t)
  | _ :: _, [] => none
  | p :: w, c :: t => if matchesIgnoreCase p c then (matchWord w t).map fun m => (c :: m.1, m.2)
    else none

def matchChar (p : Char) : Text → Option Text
  | [] => none
  | c :: t => if c = p then some t else none

/-- Characters of a class, at least one: the longest run of them, and the rest. -/
def matchSome (p : Char → Bool) (t : Text) : Option (Text × Text) :=
  if t.takeWhile p = [] then none else some (t.takeWhile p, t.dropWhile p)

/-- `_QWEN3_NAME_ATTR` at the start of a text: both groups, and the rest. -/
def matchNameAttr (t : Text) : Option (Text × Text × Text) := do
  let t ← matchChar '<' t
  let (tag, t) ← (matchWord "function".toList t).or (matchWord "parameter".toList t)
  let (_, t) ← matchSome Text.isSpace t
  let (_, t) ← matchWord "name".toList t
  let t ← matchChar '=' (t.dropWhile Text.isSpace)
  let t ← matchChar '"' (t.dropWhile Text.isSpace)
  let (value, t) ← matchSome (· ≠ '"') t
  let t ← matchChar '"' t
  let t ← matchChar '>' (t.dropWhile Text.isSpace)
  pure (tag, value, t)

/-- `lower` of the word that `_QWEN3_NAME_ATTR` matches. -/
def lowerTag (tag : Text) : Text :=
  tag.flatMap fun c => if c = Char.ofNat 0x130 then ['i', Char.ofNat 0x307] else [Text.lowerChar c]

/-- The rest of `_canonical_qwen3_xml` behind a match of which `skip` characters are left. -/
def canonicalFrom : ℕ → Text → Text
  | _, [] => []
  | skip + 1, _ :: t => canonicalFrom skip t
  | 0, c :: t =>
    match matchNameAttr (c :: t) with
    | some (tag, value, rest) =>
      ['<'] ++ lowerTag tag ++ ['='] ++ value ++ ['>'] ++ canonicalFrom (t.length - rest.length) t
    | none => c :: canonicalFrom 0 t

def canonicalQwen3Xml (text : Text) : Text := canonicalFrom 0 text

/-- Strip the closers from the start of a stripped text. -/
def stripClosers : ℕ → Text → Text
  | 0, t => t
  | fuel + 1, t =>
    if "</tool_call>".toList <+: t then stripClosers fuel (Text.lstrip (t.drop "</tool_call>".length)) else t

def promoteBareQwen3Function (text : Text) : Text :=
  let t := stripClosers text.length (Text.lstrip text)
  if "<function=".toList <:+: t ∧ ¬"<tool_call>".toList <:+: t then "<tool_call>".toList ++ t else t

/-- The `search` of a pattern `open([^>]*)>`, from a place on at which `open` occurs. -/
def searchTag (opening buf : Text) (pos : ℕ) : Option (Text × ℕ) :=
  let rest := buf.drop (pos + opening.length)
  let group := rest.takeWhile (· ≠ '>')
  if group.length < rest.length then some (group, pos + opening.length + group.length + 1) else none

/-- What `Qwen3CoderDetector` sets. -/
def qwen3CoderGrammar : InvokeGrammar where
  outerOpen := "<tool_call>".toList
  outerClose := "</tool_call>".toList
  invokeOpenPrefix := "<function=".toList
  invokeOpenRe := searchTag "<function=".toList
  invokeClose := "</function>".toList
  paramOpenPrefix := "<parameter=".toList
  paramOpenRe := searchTag "<parameter=".toList
  paramClose := "</parameter>".toList
  trimSingle := true

structure Qwen3CoderDetector extends InvokeParamStream where
  aliasHold : Text := []

namespace Qwen3CoderDetector

/-- What of `_alias_hold` is emitted, and the incomplete tag at its end that is held. -/
def splitAliasHold (hold : Text) : Text × Text :=
  match Text.rfind '<' hold with
  | some lt => if '>' ∈ hold.drop lt then (hold, []) else (hold.take lt, hold.drop lt)
  | none => (hold, [])

def parseStreamingIncrement (table : ToolTable) (d : Qwen3CoderDetector) (newText : Text) :
    Option (Qwen3CoderDetector × StreamingParseResult) :=
  if newText = [] then do
    let (s, res) ← d.toInvokeParamStream.parseStreamingIncrement qwen3CoderGrammar table []
    pure (⟨s, d.aliasHold⟩, res)
  else
    let (emit, hold) := splitAliasHold (canonicalQwen3Xml (d.aliasHold ++ newText))
    if emit = [] then some (⟨d.toInvokeParamStream, hold⟩, {})
    else do
      let emit := if d.mode = .idle then promoteBareQwen3Function emit else emit
      let (s, res) ← d.toInvokeParamStream.parseStreamingIncrement qwen3CoderGrammar table emit
      pure (⟨s, hold⟩, res)

end Qwen3CoderDetector

instance : FormatDetector Qwen3CoderDetector where
  parseStreamingIncrement := Qwen3CoderDetector.parseStreamingIncrement
  -- what `_alias_hold` holds is not looked at
  finishStreaming d := d.toInvokeParamStream.finishStreaming qwen3CoderGrammar

end FreeToken
