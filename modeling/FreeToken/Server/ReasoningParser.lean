import FreeToken.Server.Generation

/-!
# Reasoning parsers

The parsers that split a completion into the reasoning and the rest.

* `BaseReasoningParser`: the streaming and the one-shot parser, with any markers.
* `MiniMaxM3ReasoningParser`: the parser of a model that may close the thinking before it opens it.
* `GptOssHarmonyReasoningParser`: the whole buffer is scanned with each chunk, and what goes past
  the text that has been sent is sent.
-/

namespace FreeToken

structure BaseReasoningParser where
  thinkStartToken : Text
  thinkEndToken : Text
  toolStartToken : Option Text := none
  streamReasoning : Bool := true
  inReasoning : Bool := false
  buffer : Text := []
  strippedThinkStart : Bool := false
deriving DecidableEq, Repr

namespace BaseReasoningParser

def toolHoldMax : ℕ := 512

variable (p : BaseReasoningParser)

/-- The tokens that `_split_trailing_partial` tracks. -/
def trackedTokens : List Text :=
  [p.thinkEndToken] ++ (if p.strippedThinkStart then [] else [p.thinkStartToken]) ++
    (match p.toolStartToken with
      | some tok => if tok = [] then [] else [tok]
      | none => [])

def splitTrailingPartial (text : Text) : Text × Text :=
  let best := p.trackedTokens.foldl (Text.longestPartial text) 0
  if best = 0 then (text, []) else (text.take (text.length - best), text.drop (text.length - best))

def stripThinkStart (currentText : Text) : BaseReasoningParser × Text :=
  if ¬p.strippedThinkStart ∧ p.thinkStartToken <:+: currentText then
    ({ p with strippedThinkStart := true, inReasoning := true }, Text.removeFirst p.thinkStartToken
      currentText)
  else (p, currentText)

/-- A tool marker inside the reasoning, at `toolIdx`: it is held, or ends the reasoning. -/
def holdTool (currentText : Text) (toolIdx : ℕ) : BaseReasoningParser × Text × Text :=
  let held := currentText.drop toolIdx
  if toolHoldMax < held.length then
    ({ p with buffer := [], inReasoning := false }, currentText.take toolIdx, held)
  else ({ p with buffer := held }, currentText.take toolIdx, [])

def holdPartial (currentText : Text) : BaseReasoningParser × Text × Text :=
  let (safe, held) := p.splitTrailingPartial currentText
  if p.inReasoning ∧ ¬p.streamReasoning then ({ p with buffer := currentText }, [], [])
  else if p.inReasoning then ({ p with buffer := held }, safe, [])
  else ({ p with buffer := held }, [], safe)

/-- The place of the tool marker that ends the reasoning. -/
def toolMarker (currentText : Text) : Option ℕ :=
  match p.toolStartToken with
  | some tok => if p.inReasoning ∧ tok ≠ [] then Text.find tok currentText else none
  | none => none

def parseStreamingIncrement (newText : Text) : BaseReasoningParser × Text × Text :=
  let (p, currentText) := p.stripThinkStart (p.buffer ++ newText)
  match if p.inReasoning then Text.find p.thinkEndToken currentText else none with
  | some endIdx =>
    ({ p with buffer := [], inReasoning := false }, Text.rstrip (currentText.take endIdx),
      currentText.drop (endIdx + p.thinkEndToken.length))
  | none =>
    match p.toolMarker currentText with
    | some toolIdx => p.holdTool currentText toolIdx
    | none => p.holdPartial currentText

def flush : Text × Text :=
  if p.buffer = [] then ([], [])
  else if p.toolStartToken.any fun tok => tok ≠ [] ∧
    tok <+: Text.lstrip p.buffer then ([], p.buffer)
  else if p.inReasoning then (p.buffer, [])
  else ([], p.buffer)

instance : ReasoningParser BaseReasoningParser where
  parseStreamChunk := parseStreamingIncrement
  flush := flush

/-- The reasoning and the normal text of a complete completion. -/
def detectAndParse (text : Text) : Text × Text :=
  if ¬(p.inReasoning ∨ p.thinkStartToken <:+: text) then ([], text)
  else
    let processedText := Text.strip (Text.remove p.thinkStartToken text)
    match Text.partition p.thinkEndToken processedText with
    | some (reasoningText, normalText) => (reasoningText, Text.strip normalText)
    | none =>
      match p.toolStartToken.bind fun tok => Text.find tok processedText with
      | some toolIdx => (Text.strip (processedText.take toolIdx), processedText.drop toolIdx)
      | none => (processedText, [])

instance : ReasoningSplitter BaseReasoningParser where
  parseNonStream := detectAndParse

end BaseReasoningParser

def thinkReasoningParser (forceReasoning : Bool) : BaseReasoningParser where
  thinkStartToken := "<think>".toList
  thinkEndToken := "</think>".toList
  toolStartToken := some "<function=".toList
  inReasoning := forceReasoning

def deepSeekV32ReasoningParser (forceReasoning : Bool) : BaseReasoningParser where
  thinkStartToken := "<think>".toList
  thinkEndToken := "</think>".toList
  toolStartToken := some "<｜DSML｜".toList
  inReasoning := forceReasoning

def gemmaThoughtReasoningParser (forceReasoning : Bool) : BaseReasoningParser where
  thinkStartToken := "<|channel>thought\n".toList
  thinkEndToken := "<channel|>".toList
  inReasoning := forceReasoning

/-- The parsers of `ReasoningParserEnum` that override no method of the base class. -/
def baseReasoningParsers (forceReasoning streamReasoning : Bool) : List BaseReasoningParser :=
  [deepSeekV32ReasoningParser forceReasoning, thinkReasoningParser forceReasoning,
    gemmaThoughtReasoningParser forceReasoning].map fun p => { p with streamReasoning }

/-- `MiniMaxM3ReasoningParser`, with the parser of its base class. -/
structure MiniMaxM3ReasoningParser where
  base : BaseReasoningParser
  forceReasoning : Bool
  leadingCloserPending : Bool
  headBuffer : Text := []
deriving DecidableEq, Repr

namespace MiniMaxM3ReasoningParser

/-- `__init__`. -/
def new (forceReasoning streamReasoning : Bool) : MiniMaxM3ReasoningParser where
  base :=
    { thinkStartToken := "<mm:think>".toList
      thinkEndToken := "</mm:think>".toList
      toolStartToken := some "]<]minimax[>[<tool_call>".toList
      streamReasoning
      inReasoning := forceReasoning }
  forceReasoning
  leadingCloserPending := !forceReasoning

variable (p : MiniMaxM3ReasoningParser)

def findTool (text : Text) : Option ℕ := p.base.toolStartToken.bind fun tok => Text.find tok text

def detectAndParse (text : Text) : Text × Text :=
  let ending := p.base.thinkEndToken
  if p.forceReasoning then
    match Text.partition ending text with
    | some (reasoning, rest) => (reasoning, rest)
    | none =>
      match p.findTool text with
      | some t => (text.take t, text.drop t)
      | none => (text, [])
  else
    let head := Text.lstrip text
    if ending <+: head then ([], head.drop ending.length)
    else
      match Text.partition p.base.thinkStartToken text with
      | none => ([], text)
      | some (before, body) =>
        match Text.partition ending body with
        | some (reasoning, rest) => (reasoning, before ++ rest)
        | none =>
          match p.findTool body with
          | some t => (body.take t, before ++ body.drop t)
          | none => (body, [])

/-- `parse_streaming_increment` of the base class. -/
def superIncrement (newText : Text) : MiniMaxM3ReasoningParser × Text × Text :=
  let (base, out) := p.base.parseStreamingIncrement newText
  ({ p with base }, out)

def parseStreamingIncrement (newText : Text) : MiniMaxM3ReasoningParser × Text × Text :=
  if p.leadingCloserPending then
    let headBuffer := p.headBuffer ++ newText
    let head := Text.lstrip headBuffer
    if p.base.thinkEndToken <+: head then
      let p := { p with
        leadingCloserPending := false, headBuffer := [], base :=
          { p.base with inReasoning := false } }
      let rest := head.drop p.base.thinkEndToken.length
      if rest = [] then (p, [], []) else p.superIncrement rest
    else if head = [] ∨ head <+: p.base.thinkEndToken then ({ p with headBuffer }, [], [])
    else { p with leadingCloserPending := false, headBuffer := [] }.superIncrement headBuffer
  else p.superIncrement newText

def flush : Text × Text :=
  if p.leadingCloserPending ∧ p.headBuffer ≠ [] then
    let (base, reasoning, normal) := p.base.parseStreamingIncrement p.headBuffer
    (reasoning ++ base.flush.1, normal ++ base.flush.2)
  else p.base.flush

instance : ReasoningParser MiniMaxM3ReasoningParser where
  parseStreamChunk := parseStreamingIncrement
  flush := flush

end MiniMaxM3ReasoningParser

/-! ### The Harmony reasoning parser -/

def harmonyChannel : Text := "<|channel|>".toList

def harmonyMessage : Text := "<|message|>".toList

def harmonyBoundaryTokens : List Text :=
  ["<|end|>".toList, "<|return|>".toList, "<|call|>".toList, "<|start|>".toList, "<|channel|>".toList]

def harmonyAllTokens : List Text := [harmonyChannel, harmonyMessage] ++ harmonyBoundaryTokens

def longestHarmonyPartialSuffix (text : Text) : ℕ :=
  harmonyAllTokens.foldl (Text.longestPartial text) 0

structure GptOssHarmonyReasoningParser where
  buffer : Text := []
  emittedReasoning : ℕ := 0
  emittedContent : ℕ := 0
deriving DecidableEq, Repr

namespace GptOssHarmonyReasoningParser

/-- `__init__`. -/
def new : GptOssHarmonyReasoningParser where

def closingBoundaryTokens : List Text := ["<|end|>".toList, "<|return|>".toList, "<|call|>".toList]

/-- A turn of the loop of `_segment_end`. -/
def earlier (text : Text) (best : Option (ℕ × Text)) (tok : Text) : Option (ℕ × Text) :=
  match Text.find tok text with
  | none => best
  | some pos => if best.all fun b => pos < b.1 then some (pos, tok) else best

/-- `_segment_end`, with the text from `start` on. -/
def segmentEnd (text : Text) : ℕ × Option Text :=
  match harmonyBoundaryTokens.foldl (earlier text) none with
  | some (pos, tok) => (pos, some tok)
  | none => (text.length, none)

/-- `parts[0]` of the header, or nothing. -/
def channelOf (header : Text) : Text := (Text.lstrip header).takeWhile fun c => !Text.isSpace c

def isTool (header : Text) : Bool := channelOf header = "commentary".toList ∧ "to=functions".toList <:+: header

/-- The loop of `_scan` on the text from `i` on: what it appends to `reasoning` and to `content`. -/
def scanFrom (holdPartial : Bool) : ℕ → Text → List Text × List Text
  | 0, _ => ([], [])
  | fuel + 1, text =>
    match Text.find harmonyChannel text with
    | none => ([], [])
    | some ch =>
      let afterCh := text.drop (ch + harmonyChannel.length)
      match Text.find harmonyMessage afterCh with
      | none => ([], [])  -- header still streaming
      | some msg =>
        let header := afterCh.take msg
        let fromBody := afterCh.drop (msg + harmonyMessage.length)
        let (ending, matchedToken) := segmentEnd fromBody
        let (reasoning, content) :=
          if matchedToken = none then ([], []) else scanFrom holdPartial fuel (fromBody.drop ending)
        if isTool header then
          -- verbatim, markers included: a closing token belongs to the block
          let sliceEnd :=
            ending + (matchedToken.filter closingBoundaryTokens.contains).elim 0 List.length
          (reasoning, (harmonyChannel ++ header ++ harmonyMessage ++ fromBody.take sliceEnd) ::
            content)
        else
          let body := fromBody.take ending
          let body := if matchedToken = none ∧ holdPartial then
            body.take (body.length - longestHarmonyPartialSuffix body) else body
          if channelOf header = "analysis".toList then (body :: reasoning, content) else (reasoning, body :: content)

def scan (text : Text) (holdPartial : Bool) : Text × Text :=
  let (reasoning, content) := scanFrom holdPartial (text.length + 1) text
  (reasoning.flatten, content.flatten)

variable (p : GptOssHarmonyReasoningParser)

def detectAndParse (text : Text) : Text × Text :=
  if ¬harmonyChannel <:+: text then ([], text)
  else
    let (reasoning, content) := scan text false
    (Text.strip reasoning, Text.strip content)

def parseStreamingIncrement (newText : Text) : GptOssHarmonyReasoningParser × Text × Text :=
  let buffer := p.buffer ++ newText
  let (reasoning, content) := scan buffer true
  ({ buffer, emittedReasoning := reasoning.length, emittedContent := content.length },
    reasoning.drop p.emittedReasoning, content.drop p.emittedContent)

def flush : Text × Text :=
  let (reasoning, content) := scan p.buffer false
  (reasoning.drop p.emittedReasoning, content.drop p.emittedContent)

instance : ReasoningParser GptOssHarmonyReasoningParser where
  parseStreamChunk := parseStreamingIncrement
  flush := flush

end GptOssHarmonyReasoningParser

end FreeToken
