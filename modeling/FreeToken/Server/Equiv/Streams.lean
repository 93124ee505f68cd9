import FreeToken.Server.Equiv.AnthropicApi
import FreeToken.Server.Equiv.ResponsesApi
import FreeToken.Server.Equiv.ToolDelivery
import FreeToken.Server.ReasoningParser

/-!
# The streams of the wire protocols

The two adapters side by side: what keeps their streams well formed, and when they deliver each call
once.
-/

namespace FreeToken

/-! ### Well-formed streams -/

theorem anthropicEventStream_wellFormed (uuid : ℕ → Text) (model : Text) (uid : ℕ)
    (cacheReport : Bool) (items : List StreamItem) (e : GenEnd) :
    AnthropicClient.WellFormed (anthropicEventStream uuid model uid cacheReport items e) := by
  obtain ⟨bs, hread, -⟩ := anthropicEventStream_shows uuid model uid cacheReport items e
  exact ⟨bs, hread⟩

/-- A response is well formed if and only if all calls that close extend their fragments. -/
theorem responsesStreamGenerator_wellFormed_iff (uuid : ℕ → Text) (info : ResponseInfo)
    (cacheReport : Bool) (items : List StreamItem) (e : GenEnd) :
    ResponsesClient.WellFormed (responsesStreamGenerator uuid info cacheReport items e) ↔
      StreamedCall.TopsUp true none items := by
  obtain ⟨hyes, hno⟩ := responsesStreamGenerator_shows uuid info cacheReport items e
  constructor
  · rintro ⟨bs, hread⟩
    by_contra ht
    rw [hno ht] at hread
    cases hread
  · intro ht
    obtain ⟨bs, hread, -⟩ := hyes ht
    exact ⟨bs, hread⟩

/-- Both streams are well formed exactly when the final arguments of all calls that close extend the
fragments that have been forwarded. -/
theorem eventStreams_wellFormed_iff (uuid : ℕ → Text) (model : Text) (uid : ℕ) (info : ResponseInfo)
    (cacheReport : Bool) (items : List StreamItem) (e : GenEnd) :
    (AnthropicClient.WellFormed (anthropicEventStream uuid model uid cacheReport items e) ∧
      ResponsesClient.WellFormed (responsesStreamGenerator uuid info cacheReport items e)) ↔
        StreamedCall.TopsUp true none items := by
  rw [responsesStreamGenerator_wellFormed_iff]
  exact and_iff_right (anthropicEventStream_wellFormed uuid model uid cacheReport items e)

/-- A call that is cut off inside a string: its fragments are no prefix of the arguments that are
recovered. -/
theorem not_responses_wellFormed_of_truncated :
    ¬ResponsesClient.WellFormed
      (responsesStreamGenerator (fun _ => []) ⟨[], 0, []⟩ false
        [.event (.toolCallStart 0 (some "f".toList) true),
          .event (.toolCallArgsDelta 0 "\x7b\"a\":\"".toList),
          .event (.toolCallArgsDelta 0 "x".toList),
          .event (.toolCallsDelta [⟨0, some "f".toList, "{}".toList⟩])]
        (.done ⟨"length".toList, 4, 2, none, 0⟩)) := by
  rintro ⟨bs, hread⟩
  exact absurd hread (by rw [show ResponsesClient.readAll _ _ _ = none from rfl]; simp)

/-! ### Calls -/

/-- The call that a `tool_use` block shows. -/
def AnthropicBlock.toolCall (b : AnthropicBlock) : Option (Option Text × Text) :=
  match b.start with
  | .toolUse _ name => some (name, b.content)
  | _ => none

/-- The call that a `function_call` item shows. -/
def ResponseItem.toolCall : ResponseItem → Option (Text × Text)
  | .functionCall _ _ name arguments _ => some (name, arguments)
  | _ => none

/-- The client reads the stream to its end, and its `tool_use` blocks are the calls that the events
report. -/
def AnthropicClient.DeliversCalls (fs : List AnthropicStreamEvent) (evs : List GenEvent) : Prop :=
  ∃ bs, AnthropicClient.readAll {} fs = some ⟨.ended, ⟨bs, none⟩⟩ ∧
    bs.filterMap AnthropicBlock.toolCall = evs.flatMap (GenEvent.reported id)

/-- The client reads the stream to its end, and its `function_call` items are the calls that the
events report. -/
def ResponsesClient.DeliversCalls (fs : List ResponsesFrame) (evs : List GenEvent) : Prop :=
  ∃ bs, ResponsesClient.readAll 0 {} fs = some ⟨.ended, ⟨bs, none⟩⟩ ∧
    bs.filterMap ResponseItem.toolCall = evs.flatMap (GenEvent.reported (Option.getD · []))

theorem AnthropicBlock.filterMap_toolCall {bs : List AnthropicBlock} {ks : List Block}
    (h : List.Forall₂ AnthropicBlock.Shows bs ks) :
    bs.filterMap AnthropicBlock.toolCall = ks.filterMap (Block.toolCall id) := by
  induction h with
  | nil => rfl
  | @cons b k bs ks hb _ ih =>
    have hcall : b.toolCall = k.toolCall id := by
      cases k with
      | reasoning t => simp [AnthropicBlock.toolCall, Block.toolCall, hb.1]
      | content t => simp [AnthropicBlock.toolCall, Block.toolCall, hb.1]
      | call name ordinal forwards args =>
        obtain ⟨⟨id, hstart⟩, hargs⟩ := hb
        simp [AnthropicBlock.toolCall, Block.toolCall, hstart, hargs]
    rw [List.filterMap_cons, List.filterMap_cons, hcall, ih]

theorem ResponseItem.filterMap_toolCall {bs : List ResponseItem} {ks : List Block}
    (h : List.Forall₂ ResponseItem.Shows bs ks) :
    bs.filterMap ResponseItem.toolCall = ks.filterMap (Block.toolCall (Option.getD · [])) := by
  induction h with
  | nil => rfl
  | @cons b k bs ks hb _ ih =>
    have hcall : b.toolCall = k.toolCall (Option.getD · []) := by
      cases b <;> cases k <;> simp_all [ResponseItem.Shows, ResponseItem.toolCall, Block.toolCall]
    rw [List.filterMap_cons, List.filterMap_cons, hcall, ih]

section Generation

variable {ρ τ : Type} [ReasoningParser ρ] [FunctionCallParser τ] {validJson : Text → Bool}
  {specials : List Text} {reasoningParser : Option ρ} {parseTools : Bool} {toolParser : Option τ}
  {acks : List UserReply} {d : GenDone} {items : List StreamItem} {evs : List GenEvent}

/-- The blocks of a completed generation are the calls that it reports if and only if none is
disturbed. -/
theorem generateEvents_toolCalls_iff {ν : Type} (view : Option Text → ν) (forwardAll : Bool)
    (hgen : (Generation.init reasoningParser parseTools toolParser).generateEvents validJson
      specials acks = (evs, .done d)) (hitems : StreamItem.events items = evs) :
    (Delivery.blocks forwardAll {} items).filterMap (Block.toolCall view) =
        evs.flatMap (GenEvent.reported view) ↔
      StreamedCall.Intact forwardAll none evs := by
  obtain ⟨hnumbered, hstart⟩ := Generation.init_numbered reasoningParser parseTools toolParser
  obtain ⟨n, hn⟩ := Generation.generateEvents_inOrder validJson specials acks hnumbered
    (congrArg Prod.snd hgen)
  rw [hstart, hgen] at hn
  have hstep : Delivery.InStep {} ({} : Delivery) := rfl
  rw [Delivery.blocks, Delivery.foldl_item, hitems]
  exact hstep.run_iff evs hn

theorem anthropic_deliversCalls_iff
    (hgen : (Generation.init reasoningParser parseTools toolParser).generateEvents validJson
      specials acks = (evs, .done d)) (hitems : StreamItem.events items = evs) (uuid : ℕ → Text)
    (model : Text) (uid : ℕ) (cacheReport : Bool) :
    AnthropicClient.DeliversCalls (anthropicEventStream uuid model uid cacheReport items (.done d))
      evs ↔
      StreamedCall.Intact false none evs := by
  obtain ⟨bs, hread, hshows⟩ :=
    anthropicEventStream_shows uuid model uid cacheReport items (.done d)
  have hcalls := AnthropicBlock.filterMap_toolCall hshows
  have hiff := generateEvents_toolCalls_iff id false hgen hitems
  rw [← hcalls] at hiff
  refine Iff.trans ?_ hiff
  constructor
  · rintro ⟨bs', hread', heq⟩
    obtain rfl : bs' = bs := by simpa using hread'.symm.trans hread
    exact heq
  · intro heq
    exact ⟨bs, hread, heq⟩

theorem responses_deliversCalls_iff
    (hgen : (Generation.init reasoningParser parseTools toolParser).generateEvents validJson
      specials acks = (evs, .done d)) (hitems : StreamItem.events items = evs) (uuid : ℕ → Text)
    (info : ResponseInfo) (cacheReport : Bool) :
    ResponsesClient.DeliversCalls (responsesStreamGenerator uuid info cacheReport items (.done d))
      evs ↔
      StreamedCall.Intact true none evs := by
  obtain ⟨hyes, hno⟩ := responsesStreamGenerator_shows uuid info cacheReport items (.done d)
  have hiff := generateEvents_toolCalls_iff (Option.getD · []) true hgen hitems
  constructor
  · rintro ⟨bs, hread, heq⟩
    by_cases ht : StreamedCall.TopsUp true none items
    · obtain ⟨bs', hread', hshows⟩ := hyes ht
      obtain rfl : bs' = bs := by simpa using hread'.symm.trans hread
      apply hiff.mp
      rw [← ResponseItem.filterMap_toolCall hshows]
      exact heq
    · rw [hno ht] at hread
      cases hread
  · intro hi
    have ht : StreamedCall.TopsUp true none items := by
      apply StreamedCall.Intact.topsUp
      rw [hitems]
      exact hi
    obtain ⟨bs, hread, hshows⟩ := hyes ht
    refine ⟨bs, hread, ?_⟩
    rw [ResponseItem.filterMap_toolCall hshows]
    exact hiff.mpr hi

/-- Both streams deliver each call of a completed generation exactly once, if and only if no
reasoning comes between the start and the close of a call and the final arguments of each call
extend its fragments. -/
theorem eventStreams_deliverCalls_iff
    (hgen : (Generation.init reasoningParser parseTools toolParser).generateEvents validJson
      specials acks = (evs, .done d)) (hitems : StreamItem.events items = evs) (uuid : ℕ → Text)
    (model : Text) (uid : ℕ) (info : ResponseInfo) (cacheReport : Bool) :
    (AnthropicClient.DeliversCalls (anthropicEventStream uuid model uid cacheReport items (.done d))
      evs ∧
      ResponsesClient.DeliversCalls (responsesStreamGenerator uuid info cacheReport items (.done d))
        evs) ↔
        StreamedCall.Intact true none evs := by
  rw [anthropic_deliversCalls_iff hgen hitems, responses_deliversCalls_iff hgen hitems]
  have hweaker : StreamedCall.Weaker none none := trivial
  exact and_iff_right_of_imp fun hi => hi.weaken evs hweaker

end Generation

/-- A tool-call parser that returns the segments of a script, one list of them for each piece. -/
structure ScriptedParser where
  script : List (List ParseSegment)

instance : FunctionCallParser ScriptedParser where
  supportsStreaming _ := true
  argsFragmentsPrefixStable _ := true
  parseStreamEvents p _ := (⟨p.script.tail⟩, p.script.headD [])
  finalizeStream p := (p, [])
  unstreamedArguments _ _ := none
  recoverTruncatedCall p := (p, [])
  finishStream p := (p, [])
  parseToolResponse _ _ := none

/-- Two calls, with content and reasoning between them. -/
def twoCalls : List GenEvent :=
  [.toolCallStart 0 (some "f".toList) true, .toolCallArgsDelta 0 "{}".toList,
    .toolCallsDelta [⟨0, some "f".toList, "{}".toList⟩], .contentDelta "a".toList, .reasoningDelta "z".toList,
    .toolCallStart 1 (some "g".toList) true, .toolCallArgsDelta 1 "{}".toList,
    .toolCallsDelta [⟨1, some "g".toList, "{}".toList⟩]]

/-- Both calls are delivered once on both streams. -/
theorem eventStreams_deliverCalls_twoCalls :
    AnthropicClient.DeliversCalls
        (anthropicEventStream (fun _ => []) [] 0 false (.keepalive :: twoCalls.map .event)
          (.done ⟨"tool_calls".toList, 3, 5, none, 0⟩)) twoCalls ∧
      ResponsesClient.DeliversCalls
        (responsesStreamGenerator (fun _ => []) ⟨[], 0, []⟩ false
          (.keepalive :: twoCalls.map .event)
          (.done ⟨"tool_calls".toList, 3, 5, none, 0⟩)) twoCalls := by
  have hgen : (Generation.init (some (thinkReasoningParser false)) true
      (some (⟨[[.calls [⟨0, some "f".toList, []⟩, ⟨0, none, "{}".toList⟩], .text "a".toList],
        [.calls [⟨1, some "g".toList, []⟩, ⟨1, none, "{}".toList⟩]]]⟩ : ScriptedParser))).generateEvents
      (· = "{}".toList) []
      [{ incrementalOutput := "<tool_call><function=f></function></tool_call>a".toList, finished := false },
        { incrementalOutput := "<think>z".toList, finished := false },
        { incrementalOutput := "</think><tool_call><function=g></function></tool_call>".toList,
          finished := true, promptTokensDelta := 3, completionTokensDelta := 5 }] =
      (twoCalls, .done ⟨"tool_calls".toList, 3, 5, none, 0⟩) := rfl
  apply (eventStreams_deliverCalls_iff hgen rfl (fun _ => []) [] 0 ⟨[], 0, []⟩ false).mpr
  simp [twoCalls, StreamedCall.Intact, StreamedCall.Keeps, StreamedCall.Extends, StreamedCall.next]

/-- Reasoning inside a parameter closes the block of the call, and the complete call gets a second
one. -/
theorem not_deliversCalls_of_interrupted :
    (Generation.init (some (thinkReasoningParser true)) true
      (some (⟨[[.calls [⟨0, some "f".toList, []⟩, ⟨0, none, "\x7b\"a\":\"".toList⟩, ⟨0, none, "x".toList⟩]],
        [.calls [⟨0, none, "y\"".toList⟩, ⟨0, none, "\x7d".toList⟩]]]⟩ : ScriptedParser))).generateEvents
      (· = "\x7b\"a\":\"xy\"\x7d".toList) []
      [{ incrementalOutput := "</think>".toList, finished := false },
        { incrementalOutput := "<tool_call><function=f><parameter=a>x".toList, finished := false },
        { incrementalOutput := "<think>z".toList, finished := false },
        { incrementalOutput := "</think>y</parameter></function></tool_call>".toList, finished := true }] =
      ([.toolCallStart 0 (some "f".toList) true, .toolCallArgsDelta 0 "\x7b\"a\":\"".toList,
        .toolCallArgsDelta 0 "x".toList, .reasoningDelta "z".toList, .toolCallArgsDelta 0 "y\"".toList,
        .toolCallArgsDelta 0 "\x7d".toList, .toolCallsDelta [⟨0, some "f".toList, "\x7b\"a\":\"xy\"\x7d".toList⟩]],
        .done ⟨"tool_calls".toList, 0, 0, none, 0⟩) ∧
    ¬AnthropicClient.DeliversCalls
      (anthropicEventStream (fun _ => []) [] 0 false
        [.event (.toolCallStart 0 (some "f".toList) true), .event (.toolCallArgsDelta 0 "\x7b\"a\":\"".toList),
          .event (.toolCallArgsDelta 0 "x".toList), .event (.reasoningDelta "z".toList),
          .event (.toolCallArgsDelta 0 "y\"".toList), .event (.toolCallArgsDelta 0 "\x7d".toList),
          .event (.toolCallsDelta [⟨0, some "f".toList, "\x7b\"a\":\"xy\"\x7d".toList⟩])]
        (.done ⟨"tool_calls".toList, 0, 0, none, 0⟩))
      [.toolCallStart 0 (some "f".toList) true, .toolCallArgsDelta 0 "\x7b\"a\":\"".toList,
        .toolCallArgsDelta 0 "x".toList, .reasoningDelta "z".toList, .toolCallArgsDelta 0 "y\"".toList,
        .toolCallArgsDelta 0 "\x7d".toList, .toolCallsDelta [⟨0, some "f".toList, "\x7b\"a\":\"xy\"\x7d".toList⟩]] := by
  refine ⟨rfl, ?_⟩
  rintro ⟨bs, hread, heq⟩
  have hlen := congrArg
    (Option.map fun c => (c.blocks.closed.filterMap AnthropicBlock.toolCall).length) hread
  rw [Option.map_some, heq] at hlen
  exact absurd hlen (by decide)

end FreeToken
