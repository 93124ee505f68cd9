import FreeToken.Server.Equiv.Answer
import FreeToken.Server.FunctionCallParser
import FreeToken.Server.ReasoningParser

/-!
# Streaming and one-shot generation

If its parsers agree with their one-shot parses, then a stream gives the answer of the path without
streaming.
-/

namespace FreeToken

open List Text

/-! ### The parts of an answer -/

namespace Answer

def reasoningOf (evs : List GenEvent) : Text := evs.flatMap fun
  | .reasoningDelta text => text
  | _ => []

theorem reasoningOf_append (evs evs' : List GenEvent) :
    reasoningOf (evs ++ evs') = reasoningOf evs ++ reasoningOf evs' := flatMap_append

theorem reasoning_addAll (ans : Answer) (evs : List GenEvent) :
    (ans.addAll evs).reasoning = ans.reasoning ++ reasoningOf evs := by
  induction evs generalizing ans with
  | nil => exact (append_nil _).symm
  | cons ev evs ih =>
    show ((ans.add ev).addAll evs).reasoning = _
    rw [ih]
    cases ev with
    | reasoningDelta text =>
      show ans.reasoning ++ text ++ reasoningOf evs = ans.reasoning ++ (text ++ reasoningOf evs)
      rw [append_assoc]
    | _ => rfl

theorem addAll_reasoning (ans : Answer) (reasoning : Text) (evs : List GenEvent) :
    ({ ans with reasoning } : Answer).addAll evs =
      { ans.addAll evs with reasoning := reasoning ++ reasoningOf evs } := by
  induction evs generalizing ans reasoning with
  | nil =>
    show ({ ans with reasoning } : Answer) = { ans with reasoning := reasoning ++ [] }
    rw [append_nil]
  | cons ev evs ih =>
    cases ev with
    | reasoningDelta text =>
      show ({ ans with reasoning := reasoning ++ text } : Answer).addAll evs =
        ({ ({ ans with reasoning := ans.reasoning ++ text } : Answer).addAll evs with
          reasoning := reasoning ++ (text ++ reasoningOf evs) } : Answer)
      rw [ih ans (reasoning ++ text), ih ans (ans.reasoning ++ text), append_assoc]
    | contentDelta text => exact ih { ans with run := ans.run ++ text } reasoning
    | toolCallsDelta calls =>
      exact ih { ans with runs := ans.runs ++ [ans.run], run := [], calls := ans.calls ++ calls }
        reasoning
    | toolCallStart index name stable => exact ih ans reasoning
    | toolCallArgsDelta index fragment => exact ih ans reasoning

end Answer

open Answer

/-! ### The parser of an assembly -/

namespace ToolAssembly

variable {τ : Type} [FunctionCallParser τ] {validJson : Text → Bool} {specials : List Text}

theorem parser_closeOpenCall (a : ToolAssembly τ) :
    (a.closeOpenCall validJson).1.parser = a.parser := by
  unfold closeOpenCall
  split
  · rfl
  · rfl

omit [FunctionCallParser τ] in
theorem parser_addFragment (a : ToolAssembly τ) (fragment : Text) :
    (a.addFragment fragment).1.parser = a.parser := by
  unfold addFragment
  split
  · rfl
  · split
    · rfl
    · rfl

omit [FunctionCallParser τ] in
theorem parser_each {β : Type} {f : ToolAssembly τ → β → ToolAssembly τ × List GenEvent}
    (hf : ∀ a x, (f a x).1.parser = a.parser) (a : ToolAssembly τ) (xs : List β) :
    (each f a xs).1.parser = a.parser := by
  induction xs generalizing a with
  | nil => rfl
  | cons x xs ih => exact (ih (f a x).1).trans (hf a x)

theorem parser_routeFragment (a : ToolAssembly τ) (frag : ToolCallItem) :
    (a.routeFragment validJson frag).1.parser = a.parser := by
  unfold routeFragment
  rw [parser_addFragment]
  have hclose :
      (if a.startsNew frag then a.closeOpenCall validJson else (a, [])).1.parser = a.parser := by
    split
    · exact a.parser_closeOpenCall
    · rfl
  generalize (if a.startsNew frag then a.closeOpenCall validJson else (a, [])) = r at hclose ⊢
  split
  · exact hclose
  · exact hclose

theorem parser_routeSegment (a : ToolAssembly τ) (seg : ParseSegment) :
    (a.routeSegment validJson specials seg).1.parser = a.parser := by
  cases seg with
  | text payload =>
    show ((a.closeOpenCall validJson).1.content specials payload).1.parser = a.parser
    rw [← @parser_closeOpenCall _ _ validJson a]
    unfold content
    dsimp only
    split
    · rfl
    · rfl
  | calls payload => exact parser_each (fun a frag => a.parser_routeFragment frag) a payload

end ToolAssembly

/-! ### Where the content goes -/

namespace ContentSink

variable {τ : Type} [FunctionCallParser τ] {validJson : Text → Bool} {specials : List Text}

/-- Take pieces of content, one after the other. -/
def takeAll (validJson : Text → Bool) (specials : List Text) :
    ContentSink τ → List Text → ContentSink τ × List GenEvent
  | s, [] => (s, [])
  | s, piece :: pieces =>
    let (s, evs) := s.take validJson specials piece
    let (s, rest) := takeAll validJson specials s pieces
    (s, evs ++ rest)

def eventsOf (validJson : Text → Bool) (specials : List Text) (s : ContentSink τ)
    (pieces : List Text) :
    List GenEvent :=
  (s.takeAll validJson specials pieces).2 ++
    ((s.takeAll validJson specials pieces).1.finish validJson specials).1

/-- Whether there has been a call at the end. -/
def called (validJson : Text → Bool) (specials : List Text) (s : ContentSink τ)
    (pieces : List Text) : Bool :=
  ((s.takeAll validJson specials pieces).1.finish validJson specials).2

/-- Content without tools is shown as it comes. -/
theorem addAll_plain (ans : Answer) (pieces : List Text) :
    ans.addAll ((plain : ContentSink τ).eventsOf validJson specials pieces) =
        { ans with run := ans.run ++ (pieces.map (stripSpecialTokens · specials)).flatten } ∧
      (plain : ContentSink τ).called validJson specials pieces = false ∧
      reasoningOf ((plain : ContentSink τ).eventsOf validJson specials pieces) = [] := by
  have htake : (plain : ContentSink τ).takeAll validJson specials pieces =
      (plain, (pieces.filter (· ≠ [])).map fun piece =>
        .contentDelta (stripSpecialTokens piece specials)) := by
    induction pieces with
    | nil => rfl
    | cons piece pieces ih =>
      by_cases hnil : piece = []
      · simp [takeAll, take, hnil, ih]
      · simp [takeAll, take, hnil, ih]
  rw [eventsOf, called, htake]
  refine ⟨?_, rfl, ?_⟩
  · show ans.addAll (_ ++ []) = _
    rw [append_nil]
    clear htake
    induction pieces generalizing ans with
    | nil => simp
    | cons piece pieces ih =>
      by_cases hnil : piece = []
      · simpa [hnil, stripSpecialTokens_nil] using ih ans
      · rw [filter_cons_of_pos (by simpa using hnil), map_cons]
        show (ans.add (.contentDelta (stripSpecialTokens piece specials))).addAll _ = _
        rw [ih, map_cons, flatten_cons, ← append_assoc]
        rfl
  · show reasoningOf (_ ++ []) = []
    rw [append_nil, reasoningOf, flatMap_map]
    exact List.flatMap_eq_nil_iff.mpr fun _ _ => rfl

theorem takeAll_buffered (parser : Option τ) (pending : Text) (pieces : List Text) :
    (buffered parser pending).takeAll validJson specials pieces =
    (buffered parser (pending ++ pieces.flatten), []) := by
  induction pieces generalizing pending with
  | nil => simp [takeAll]
  | cons piece pieces ih =>
    by_cases hnil : piece = []
    · simp [takeAll, take, hnil, ih]
    · simp [takeAll, take, hnil, ih]

theorem takeAll_streaming (a : ToolAssembly τ) (pieces : List Text) :
    ∃ a' evs, (streaming a).takeAll validJson specials pieces = (streaming a', evs) ∧
      a'.parser = (feedPieces a.parser pieces).1 ∧
      ToolAssembly.Steps validJson specials a
        ((feedPieces a.parser pieces).2.flatMap ParseSegment.atoms) a' evs := by
  induction pieces generalizing a with
  | nil => exact ⟨a, [], rfl, rfl, .done a a.parser⟩
  | cons piece pieces ih =>
    by_cases hnil : piece = []
    · obtain ⟨a', evs, htake, hparser, hsteps⟩ := ih a
      refine ⟨a', evs, ?_, ?_, ?_⟩
      · simp [takeAll, take, hnil, htake]
      · simpa [feedPieces, hnil] using hparser
      · simpa [feedPieces, hnil] using hsteps
    · rcases hsegs : FunctionCallParser.parseStreamEvents a.parser piece with ⟨parser, segments⟩
      have hfirst := @ToolAssembly.steps_each _ _ validJson specials { a with parser } segments
      have hkeep := ToolAssembly.parser_each
        (f := fun (a : ToolAssembly τ) seg => a.routeSegment validJson specials seg)
        (fun a seg => ToolAssembly.parser_routeSegment a seg) { a with parser } segments
      generalize hnext : ToolAssembly.each
        (fun (a : ToolAssembly τ) seg => a.routeSegment validJson specials seg)
        { a with parser } segments = next at hfirst hkeep
      obtain ⟨a', evs, htake, hparser, hsteps⟩ := ih next.1
      rw [hkeep] at hparser hsteps
      refine ⟨a', next.2 ++ evs, ?_, ?_, ?_⟩
      · simp [takeAll, take, hnil, ToolAssembly.routeToolText, hsegs, hnext, htake]
      · simpa [feedPieces, hnil, hsegs] using hparser
      · simp only [feedPieces, hnil, hsegs, ↓reduceIte, flatMap_append]
        exact (ToolAssembly.Steps.append hfirst hsteps).of_newParser

/-- The end of a stream in which no call is cut off: the open call is closed, and the rest of the
text is shown. -/
theorem view_drain {a : ToolAssembly τ} {ans : Answer} (h : a.Ready validJson)
    (hempty : validJson [] = false) (hfinal : (FunctionCallParser.finalizeStream a.parser).2 = [])
    (hrecover : (FunctionCallParser.recoverTruncatedCall
      (FunctionCallParser.finalizeStream a.parser).1).2 = []) :
    (a.drain validJson specials).1.openCall = none ∧
      (a.drain validJson specials).1.view (ans.addAll (a.drain validJson specials).2) =
        (a.view ans).text specials
        (FunctionCallParser.finishStream (FunctionCallParser.recoverTruncatedCall
          (FunctionCallParser.finalizeStream a.parser).1).1).2 := by
  rcases hf : FunctionCallParser.finalizeStream a.parser with ⟨parser, frags⟩
  rw [hf] at hfinal hrecover
  obtain rfl : frags = [] := hfinal
  rcases hr : FunctionCallParser.recoverTruncatedCall parser with ⟨parser', items⟩
  rw [hr] at hrecover
  obtain rfl : items = [] := hrecover
  have hready : ToolAssembly.Ready validJson { a with parser } := ⟨h.numbered, h.valid⟩
  -- the call that is open has all its arguments, and closing it shows nothing new
  obtain ⟨hc, hview⟩ := @ToolAssembly.Ready.closeOpenCall _ _ _ _ ans hready hempty
  have hparser : (ToolAssembly.closeOpenCall validJson { a with parser }).1.parser = parser :=
    ToolAssembly.parser_closeOpenCall _
  have hdrain : a.drain validJson specials =
      ((({ (ToolAssembly.closeOpenCall validJson { a with parser }).1 with
          parser := (FunctionCallParser.finishStream parser').1 } : ToolAssembly τ).content specials
            (FunctionCallParser.finishStream parser').2).1,
        (ToolAssembly.closeOpenCall validJson { a with parser }).2 ++
          (({ (ToolAssembly.closeOpenCall validJson { a with parser }).1 with
            parser :=
              (FunctionCallParser.finishStream parser').1 } : ToolAssembly τ).content specials
              (FunctionCallParser.finishStream parser').2).2) := by
    simp only [ToolAssembly.drain, ToolAssembly.finalizeOpen, hf, ToolAssembly.each,
      ToolAssembly.recoverTruncated, hparser, hr, ToolAssembly.releaseResidual, nil_append,
      append_nil]
  have hc' : ({ (ToolAssembly.closeOpenCall validJson { a with parser }).1 with
      parser := (FunctionCallParser.finishStream parser').1 } : ToolAssembly τ).openCall = none :=
        hc
  obtain ⟨hlast, hshown⟩ := @ToolAssembly.view_content _ specials _
    (ans.addAll (ToolAssembly.closeOpenCall validJson { a with parser }).2) hc'
    (FunctionCallParser.finishStream parser').2
  rw [hdrain, addAll_append]
  refine ⟨hlast, hshown.trans ?_⟩
  have hsame : ({ (ToolAssembly.closeOpenCall validJson { a with parser }).1 with
      parser := (FunctionCallParser.finishStream parser').1 } : ToolAssembly τ).view
        (ans.addAll (ToolAssembly.closeOpenCall validJson { a with parser }).2) = a.view ans :=
          hview
  rw [hsame]

theorem reasoning_foldl (found : List Found) (s : Shown) :
    (found.foldl (Shown.found specials) s).ans.reasoning = s.ans.reasoning := by
  induction found generalizing s with
  | nil => rfl
  | cons x found ih =>
    rw [foldl_cons, ih]
    cases x with
    | text payload =>
      show (s.text specials payload).ans.reasoning = _
      unfold Shown.text
      split_ifs
      · rfl
      · rfl
    | call index name first more => rfl

variable [ToolDetector τ]

/-- What the detector finds in the content is shown, with the text that it holds until the end. -/
theorem addAll_streaming {p : τ} {pieces : List Text} (det : ToolDetection validJson p pieces)
    (hempty : validJson [] = false) :
    (({} : Answer).addAll ((streaming { parser := p }).eventsOf validJson specials pieces) =
        ((det.found ++ [Found.text (residualText p pieces)]).foldl (Shown.found specials) {}).ans) ∧
      ((streaming { parser := p }).called validJson specials pieces ↔
        det.found.filterMap Found.nameArgs ≠ []) ∧
      reasoningOf ((streaming { parser := p }).eventsOf validJson specials pieces) = [] := by
  obtain ⟨a', evs, htake, hparser, hsteps⟩ :=
    @takeAll_streaming _ _ validJson specials { parser := p } pieces
  rw [det.segments] at hsteps
  have hready : ToolAssembly.Ready validJson ({ parser := p } : ToolAssembly τ) :=
    ⟨fun _ hmem => absurd hmem (by simp), fun _ hmem => absurd hmem (by simp)⟩
  obtain ⟨hready', hview⟩ := @ToolAssembly.Steps.found _ _ _ _ _ _ {} _ hempty _ hsteps hready
    (fun _ hmem => absurd hmem (by simp)) det.numbered det.valid
  have hfinal := det.finalized
  have hrecover := det.recovered
  rw [← hparser] at hfinal hrecover
  -- the drain at the end finds no open call
  obtain ⟨hc, hdrain⟩ :=
    @view_drain _ _ _ specials _ (({} : Answer).addAll evs) hready' hempty hfinal hrecover
  have hresidual : (FunctionCallParser.finishStream (FunctionCallParser.recoverTruncatedCall
      (FunctionCallParser.finalizeStream a'.parser).1).1).2 = residualText p pieces := by
    rw [hparser]
    rfl
  rw [hview, ToolAssembly.view_none hc, hresidual] at hdrain
  have hevents : (streaming { parser := p }).eventsOf validJson specials pieces =
      evs ++ (a'.drain validJson specials).2 := by
    rw [eventsOf, htake]
    rfl
  have hcalled : (streaming { parser := p }).called validJson specials pieces =
      decide ((a'.drain validJson specials).1.callsEmitted ≠ 0) := by
    rw [called, htake]
    rfl
  have hshown : ∀ residual, (det.found ++ [Found.text residual]).foldl (Shown.found specials) {} =
      (det.found.foldl (Shown.found specials) {}).text specials residual := by
    intro residual
    rw [foldl_append]
    rfl
  rw [hevents, hcalled, hshown, addAll_append]
  have hans : (({} : Answer).addAll evs).addAll (a'.drain validJson specials).2 =
      ((det.found.foldl (Shown.found specials) {}).text specials (residualText p pieces)).ans :=
    congrArg Shown.ans hdrain
  have hcount := congrArg Shown.count hdrain
  refine ⟨hans, ?_, ?_⟩
  · have hlength :=
      (@Shown.calls_foldl specials (det.found ++ [Found.text (residualText p pieces)])).2
    rw [hshown, filterMap_append] at hlength
    have hnone : ∀ residual, [Found.text residual].filterMap Found.nameArgs = [] := fun _ => rfl
    rw [hnone, append_nil] at hlength
    rw [decide_eq_true_iff, ← length_pos_iff, ← hlength, Nat.pos_iff_ne_zero]
    exact not_congr (Eq.congr_left hcount)
  · have hreasoning := congrArg Answer.reasoning hans
    rw [reasoning_addAll, reasoning_addAll, ← hshown, reasoning_foldl] at hreasoning
    rw [reasoningOf_append]
    exact hreasoning

end ContentSink

/-! ### Splitting the reasoning -/

section

variable {ρ : Type} [ReasoningParser ρ]

/-- The reasoning and the content of a chunk. -/
def splitChunk (reasoningParser : Option ρ) (chunk : Text) : Option ρ × Text × Text :=
  match reasoningParser with
  | some p =>
    if chunk = [] then (some p, [], [])
    else
      let (p, reasoning, content) := ReasoningParser.parseStreamChunk p chunk
      (some p, reasoning, content)
  | none => (none, [], chunk)

/-- The reasoning and the content of chunk after chunk, and of the flush behind them. -/
def splitChunks (reasoningParser : Option ρ) : List Text → List (Text × Text)
  | [] =>
    match reasoningParser with
    | some p => [ReasoningParser.flush p]
    | none => []
  | chunk :: chunks =>
    let (reasoningParser, reasoning, content) := splitChunk reasoningParser chunk
    (reasoning, content) :: splitChunks reasoningParser chunks

/-- The pieces of reasoning of a text in chunks. -/
def reasoningPieces (reasoningParser : Option ρ) (chunks : List Text) : List Text :=
  (splitChunks reasoningParser chunks).map (·.1)

/-- The pieces of content of a text in chunks. -/
def contentPieces (reasoningParser : Option ρ) (chunks : List Text) : List Text :=
  (splitChunks reasoningParser chunks).map (·.2)

/-- On a text in chunks, a reasoning parser agrees with its one-shot parse, up to whitespace at the
ends of the reasoning and of the content. -/
def SplitsAlike [ReasoningSplitter ρ] (reasoningParser : Option ρ) (chunks : List Text) : Prop :=
  strip (reasoningPieces reasoningParser chunks).flatten =
    strip (splitReasoning reasoningParser chunks.flatten).1 ∧
    strip (contentPieces reasoningParser chunks).flatten =
      strip (splitReasoning reasoningParser chunks.flatten).2

end

/-! ### The whole stream -/

variable {text : Text}

namespace Generation

variable {ρ τ : Type} [ReasoningParser ρ] [FunctionCallParser τ] {validJson : Text → Bool}
  {specials : List Text}

omit [FunctionCallParser τ] in
theorem split_eq (g : Generation ρ τ) (chunk : Text) : g.split chunk =
    ({ g with reasoningParser := (splitChunk g.reasoningParser chunk).1 },
      (splitChunk g.reasoningParser chunk).2) := by
  rcases g with ⟨reasoningParser, sink, promptTokens, completionTokens, cachedTokens⟩
  unfold split splitChunk
  cases reasoningParser with
  | none => rfl
  | some p =>
    by_cases hnil : chunk = []
    · simp only [hnil, ↓reduceIte]
    · simp only [hnil, ↓reduceIte]

/-- The event of some reasoning adds what is left of it. -/
theorem addAll_reasoningEvent (ans : Answer) (text : Text) :
    ans.addAll (reasoning specials text) =
      { ans with reasoning := ans.reasoning ++ stripSpecialTokens text specials } := by
  unfold reasoning
  dsimp only
  split_ifs with hnil
  · rw [hnil, append_nil]
    rfl
  · rfl

/-- The token counts of a generation are those of the replies that have been put together. -/
structure SameTotals (g : Generation ρ τ) (r : FullReply) : Prop where
  promptTokens : g.promptTokens = r.promptTokens
  completionTokens : g.completionTokens = r.completionTokens
  cachedTokens : g.cachedTokens = r.cachedTokens

/-- The last message of a stream, for the replies that have been put together. -/
def doneOf (r : FullReply) (called : Bool) : GenDone where
  finishReason :=
    if called ∧ r.finishReason.getD "stop".toList ≠ "length".toList then "tool_calls".toList
    else r.finishReason.getD "stop".toList
  promptTokens := r.promptTokens
  completionTokens := r.completionTokens
  matchedStop := r.matchedStop
  cachedTokens := r.cachedTokens

/-- The events of a stream: what is left of the reasoning, and what the sink makes of the content.
-/
structure Streams (validJson : Text → Bool) (specials : List Text) (g : Generation ρ τ)
    (chunks : List Text) (evs : List GenEvent) : Prop where
  addAll : ∀ ans : Answer,
    reasoningOf (g.sink.eventsOf validJson specials (contentPieces g.reasoningParser chunks)) = [] →
    ans.addAll evs =
      { ans.addAll (g.sink.eventsOf validJson specials (contentPieces g.reasoningParser chunks))
        with
        reasoning := ans.reasoning ++
          ((reasoningPieces g.reasoningParser chunks).map (stripSpecialTokens · specials)).flatten }

theorem eventsOf_cons (s : ContentSink τ) (piece : Text) (pieces : List Text) :
    s.eventsOf validJson specials (piece :: pieces) = (s.take validJson specials piece).2 ++
      (s.take validJson specials piece).1.eventsOf validJson specials pieces := by
  show ((s.take validJson specials piece).2 ++ _) ++ _ = _
  rw [append_assoc]
  rfl

/-- The events behind some reasoning. -/
theorem addAll_step {ans : Answer} {first rest evs sinkEvs : List GenEvent} {left : Text}
    (hquiet : reasoningOf (first ++ sinkEvs) = [])
    (hrest : ∀ ans : Answer, reasoningOf sinkEvs = [] →
      ans.addAll rest = { ans.addAll sinkEvs with reasoning := ans.reasoning ++ left })
    (hevs : evs = reasoning specials text ++ first ++ rest) :
    ans.addAll evs = { ans.addAll (first ++ sinkEvs) with
      reasoning := ans.reasoning ++ (stripSpecialTokens text specials ++ left) } := by
  rw [reasoningOf_append, append_eq_nil_iff] at hquiet
  rw [hevs, addAll_append, addAll_append, addAll_reasoningEvent,
    addAll_reasoning ans (ans.reasoning ++ stripSpecialTokens text specials) first, hquiet.1,
    append_nil, hrest _ hquiet.2, addAll_append, append_assoc]
  have hkeep := addAll_reasoning (ans.addAll first)
    (ans.reasoning ++ stripSpecialTokens text specials) sinkEvs
  dsimp only at hkeep ⊢
  rw [hkeep]

theorem onEnd_spec (g : Generation ρ τ) (r : FullReply) (htotals : SameTotals g r) :
    (g.onEnd validJson specials r.finishReason r.matchedStop).2 =
        doneOf r (g.sink.called validJson specials (contentPieces g.reasoningParser [])) ∧
      Streams validJson specials g []
        (g.onEnd validJson specials r.finishReason r.matchedStop).1 := by
  rcases g with ⟨reasoningParser, sink, promptTokens, completionTokens, cachedTokens⟩
  obtain ⟨hprompt, hcompletion, hcached⟩ := htotals
  dsimp only at hprompt hcompletion hcached
  subst hprompt hcompletion hcached
  cases reasoningParser with
  | none =>
    refine ⟨rfl, ⟨fun ans hquiet => ?_⟩⟩
    have hnone : reasoning specials ([] : Text) = [] := by
      unfold reasoning
      rw [stripSpecialTokens_nil]
      rfl
    show ans.addAll (reasoning specials [] ++ [] ++ (sink.finish validJson specials).1) = _
    rw [hnone]
    have hreasoning := reasoning_addAll ans (sink.eventsOf validJson specials [])
    show ans.addAll (sink.eventsOf validJson specials []) = _
    have hquiet' : reasoningOf (sink.eventsOf validJson specials []) = [] := hquiet
    rw [hquiet'] at hreasoning
    show _ = ({ ans.addAll (sink.eventsOf validJson specials []) with reasoning := ans.reasoning ++
        [] } : Answer)
    rw [← hreasoning]
  | some p =>
    refine ⟨rfl, ⟨fun ans hquiet => ?_⟩⟩
    have hcons := @eventsOf_cons _ _ validJson specials sink (ReasoningParser.flush p).2 []
    -- what the reasoning parser holds back is the last piece
    have hpieces : contentPieces (some p) ([] : List Text) = [(ReasoningParser.flush p).2] := rfl
    have hreasoning :
        ((reasoningPieces (some p) ([] : List Text)).map (stripSpecialTokens · specials)).flatten =
        stripSpecialTokens (ReasoningParser.flush p).1 specials ++ [] := rfl
    dsimp only at hquiet ⊢
    rw [hpieces, hcons] at hquiet ⊢
    rw [hreasoning]
    apply addAll_step hquiet
    · intro ans' hquiet'
      have hkeep := reasoning_addAll ans'
        ((sink.take validJson specials (ReasoningParser.flush p).2).1.eventsOf validJson specials
          [])
      rw [hquiet'] at hkeep
      rw [← hkeep]
    · rfl

theorem onReply_eq (g : Generation ρ τ) (ack : UserReply) : g.onReply validJson specials ack =
    ({ reasoningParser := (splitChunk g.reasoningParser ack.incrementalOutput).1
       sink := (g.sink.take validJson specials
         (splitChunk g.reasoningParser ack.incrementalOutput).2.2).1
       promptTokens := g.promptTokens + ack.promptTokensDelta
       completionTokens := g.completionTokens + ack.completionTokensDelta
       cachedTokens := g.cachedTokens + ack.cachedTokens },
      reasoning specials (splitChunk g.reasoningParser ack.incrementalOutput).2.1 ++
        (g.sink.take validJson specials (splitChunk g.reasoningParser ack.incrementalOutput).2.2).2)
        := by
  unfold onReply
  rw [split_eq]

theorem Streams.cons {g : Generation ρ τ} {ack : UserReply} {chunks : List Text}
    {rest : List GenEvent}
    (h : Streams validJson specials (g.onReply validJson specials ack).1 chunks rest) :
    Streams validJson specials g (ack.incrementalOutput :: chunks)
      ((g.onReply validJson specials ack).2 ++ rest) := by
  rw [onReply_eq] at h ⊢
  have hpieces : contentPieces g.reasoningParser (ack.incrementalOutput :: chunks) =
      (splitChunk g.reasoningParser ack.incrementalOutput).2.2 ::
        contentPieces (splitChunk g.reasoningParser ack.incrementalOutput).1 chunks := rfl
  have hreasoning : reasoningPieces g.reasoningParser (ack.incrementalOutput :: chunks) =
      (splitChunk g.reasoningParser ack.incrementalOutput).2.1 ::
        reasoningPieces (splitChunk g.reasoningParser ack.incrementalOutput).1 chunks := rfl
  constructor
  intro ans hquiet
  rw [hpieces, eventsOf_cons] at hquiet ⊢
  rw [hreasoning, map_cons, flatten_cons]
  exact addAll_step hquiet h.addAll rfl

/-- The replies that have been put together, with the last one. -/
def withLast (r : FullReply) (last : UserReply) : FullReply where
  content := r.content ++ last.incrementalOutput
  promptTokens := r.promptTokens + last.promptTokensDelta
  completionTokens := r.completionTokens + last.completionTokensDelta
  cachedTokens := r.cachedTokens + last.cachedTokens
  finishReason := last.finishReason
  matchedStop := last.matchedStop

/-- The two loops: the stream ends for the replies that are put together. -/
theorem generateEvents_spec (g : Generation ρ τ) (r : FullReply) (htotals : SameTotals g r)
    (acks : List UserReply)
    (last : UserReply) (hacks : ∀ ack ∈ acks, ack.error = none ∧ ack.finished = false)
    (hlast : last.error = none ∧ last.finished) :
    ∃ evs full, r.collect (acks ++ [last]) = .ok full ∧
      full.content = r.content ++ ((acks ++ [last]).map (·.incrementalOutput)).flatten ∧
      full.finishReason = last.finishReason ∧
      g.generateEvents validJson specials (acks ++ [last]) =
        (evs, .done (doneOf full (g.sink.called validJson specials
          (contentPieces g.reasoningParser ((acks ++ [last]).map (·.incrementalOutput)))))) ∧
      Streams validJson specials g ((acks ++ [last]).map (·.incrementalOutput)) evs := by
  induction acks generalizing g r with
  | nil =>
    -- the last reply ends both at once
    have htotals' : SameTotals (g.onReply validJson specials last).1 (withLast r last) := by
      rw [onReply_eq]
      exact ⟨congrArg (· + last.promptTokensDelta) htotals.promptTokens,
        congrArg (· + last.completionTokensDelta) htotals.completionTokens,
        congrArg (· + last.cachedTokens) htotals.cachedTokens⟩
    obtain ⟨hdone, hstreams⟩ := @onEnd_spec _ _ _ _ validJson specials _ _ htotals'
    refine ⟨_, withLast r last, ?_, ?_, rfl, ?_, hstreams.cons⟩
    · simp only [nil_append, FullReply.collect, hlast.1, hlast.2, ↓reduceIte]
      rfl
    · simp [withLast]
    · have hreasons :
          (g.onReply validJson specials last).1.onEnd validJson specials last.finishReason
          last.matchedStop =
          (((g.onReply validJson specials last).1.onEnd validJson specials last.finishReason
            last.matchedStop).1,
            doneOf (withLast r last)
              ((g.onReply validJson specials last).1.sink.called validJson specials
              (contentPieces (g.onReply validJson specials last).1.reasoningParser []))) := by
        rw [← hdone]
        rfl
      simp only [nil_append, generateEvents, hlast.1, hlast.2, ↓reduceIte]
      rw [hreasons, onReply_eq]
      rfl
  | cons ack acks ih =>
    obtain ⟨herror, hfinished⟩ := hacks ack mem_cons_self
    -- the counters of the two go together
    have htotals' : SameTotals (g.onReply validJson specials ack).1
        { r with
          content := r.content ++ ack.incrementalOutput
          promptTokens := r.promptTokens + ack.promptTokensDelta
          completionTokens := r.completionTokens + ack.completionTokensDelta
          cachedTokens := r.cachedTokens + ack.cachedTokens } := by
      rw [onReply_eq]
      exact ⟨by rw [htotals.promptTokens], by rw [htotals.completionTokens],
        by rw [htotals.cachedTokens]⟩
    obtain ⟨evs, full, hcollect, hcontent, hreason, hevents, hstreams⟩ :=
      ih _ _ htotals' fun ack' hmem => hacks ack' (mem_cons_of_mem _ hmem)
    refine ⟨_, full, ?_, ?_, hreason, ?_, hstreams.cons⟩
    · rw [cons_append, FullReply.collect]
      simp only [herror, hfinished, Bool.false_eq_true, ↓reduceIte]
      exact hcollect
    · rw [hcontent]
      simp
    · rw [cons_append, generateEvents]
      simp only [herror, hfinished, Bool.false_eq_true, ↓reduceIte, hevents]
      rw [onReply_eq]
      rfl

end Generation

/-! ### The same answer -/

/-- A stream has given the answer of a result. -/
structure SameAnswer (specials : List Text) (ans : Answer) (d : GenDone) (full : GenResult) :
    Prop where
  calls : ans.calls.map (fun c => (c.name, c.parameters)) = full.toolCalls.map fun c =>
    (c.name, c.parameters)
  reasoning : strip ans.reasoning = full.reasoning
  content : UpToSpace ans.contents full.content
  reasoning_noSpecial : NoSpecial specials full.reasoning → NoSpecial specials ans.reasoning
  content_noSpecial : NoSpecial specials full.content → ∀ run ∈ ans.contents, NoSpecial specials run
  finishReason : d.finishReason = full.finishReason
  promptTokens : d.promptTokens = full.promptTokens
  completionTokens : d.completionTokens = full.completionTokens
  cachedTokens : d.cachedTokens = full.cachedTokens

variable {specials runs : List Text}

theorem SolidTokens.noSpecial_run (h : SolidTokens specials)
    (hrel : UpToSpace runs text) (hno : NoSpecial specials text) :
    ∀ run ∈ runs, NoSpecial specials run := by
  obtain ⟨parts, hparts, hflat⟩ := hrel
  rw [← h.noSpecial_strip, hflat, h.noSpecial_strip] at hno
  clear hflat
  intro run hmem
  obtain ⟨part, hpart, heq⟩ : ∃ part ∈ parts, strip part = strip run := by
    induction hparts with
    | nil => exact absurd hmem not_mem_nil
    | cons hhead _ ih =>
      rcases List.mem_cons.mp hmem with rfl | hmem
      · exact ⟨_, mem_cons_self, hhead⟩
      · obtain ⟨part, hpart, heq⟩ := ih (fun s hs hne hin => hno s hs hne (by
          rw [flatten_cons]
          exact hin.trans (suffix_append _ _).isInfix)) hmem
        exact ⟨part, mem_cons_of_mem _ hpart, heq⟩
  rw [← h.noSpecial_strip, ← heq, h.noSpecial_strip]
  intro s hs hne hin
  exact hno s hs hne (hin.trans (infix_of_mem_flatten hpart))

/-- What is shown of some stretches is what is left of the one-shot text. -/
theorem upToSpace_shown (h : SolidTokens specials) {parts : List Text}
    {stretches : List (List Text)} (htext : strip text = strip parts.flatten)
    (hparts : List.Forall₂ (fun part pieces => strip part = strip pieces.flatten) parts stretches)
    (hruns : List.Forall₂ (Shown.LeftOf specials) runs stretches)
    (huncut : ∀ pieces ∈ stretches, Uncut specials pieces) (hwhole : Uncut specials parts) :
    UpToSpace runs (stripSpecialTokens text specials) := by
  refine ⟨parts.map (stripSpecialTokens · specials), ?_, (h.strip_congr htext).trans
    (congrArg strip hwhole)⟩
  clear hwhole htext
  induction hparts generalizing runs with
  | nil =>
    cases hruns
    exact .nil
  | cons hpart _ ih =>
    cases hruns with
    | cons hrun hruns =>
      refine .cons ?_ (ih hruns fun pieces hmem => huncut pieces (mem_cons_of_mem _ hmem))
      obtain ⟨w, hw, hleft⟩ := hrun
      rw [h.strip_congr hpart, huncut _ mem_cons_self, hleft, strip_eq_of_append hw]

section

variable {ρ τ : Type} [ReasoningParser ρ] [ReasoningSplitter ρ] [FunctionCallParser τ]
  [ToolDetector τ] {vj : Text → Bool} {specials : List Text}

/-- What becomes of the content of a stream is what the one-shot parse makes of it. -/
structure SinkSame (vj : Text → Bool) (specials : List Text) (s : ContentSink τ)
    (pieces : List Text) (parsed : Option (Text × List ToolCallItem)) : Prop where
  quiet : reasoningOf (s.eventsOf vj specials pieces) = []
  called : s.called vj specials pieces = parsed.isSome
  calls : (({} : Answer).addAll (s.eventsOf vj specials pieces)).calls.map
    (fun c => (c.name, c.parameters)) =
    ((parsed.map (·.2)).getD []).map fun c => (c.name, c.parameters)
  content : UpToSpace (({} : Answer).addAll (s.eventsOf vj specials pieces)).contents
    (stripSpecialTokens ((parsed.map (·.1)).getD pieces.flatten) specials)

omit [ToolDetector τ] in
theorem sinkSame_plain {pieces : List Text} (huncut : Uncut specials pieces) :
    SinkSame vj specials (.plain : ContentSink τ) pieces none := by
  obtain ⟨hadd, hcalled, hquiet⟩ := @ContentSink.addAll_plain τ _ vj specials {} pieces
  refine ⟨hquiet, hcalled, ?_, ?_⟩
  · rw [hadd]
    rfl
  · rw [hadd]
    refine ⟨[stripSpecialTokens pieces.flatten specials], .cons ?_ .nil, ?_⟩
    · rw [huncut]
      rfl
    · rw [flatten_singleton]
      rfl

omit [FunctionCallParser τ] [ToolDetector τ] in
/-- The gate on the tool tags does not read the whitespace at the ends. -/
theorem hasToolsTag_congr {text' : Text} (h : strip text = strip text') :
    hasToolsTag text = hasToolsTag text' := by
  have hsolid : ∀ tag ∈ toolsTagList, SolidEnds tag := by
    have hends :
        ∀ tag ∈ toolsTagList, (tag.head?.any fun c => !isSpace c) ∧ tag.getLast?.any fun c =>
        !isSpace c := by
      decide
    intro tag hmem
    obtain ⟨hhead, hlast⟩ := hends tag hmem
    obtain ⟨c, hc, hsolid⟩ := (Option.any_eq_true _ _).mp hhead
    obtain ⟨d, hd, hsolid'⟩ := (Option.any_eq_true _ _).mp hlast
    exact ⟨c, d, hc, hd, by simpa using hsolid, by simpa using hsolid'⟩
  rw [Bool.eq_iff_iff, hasToolsTag, hasToolsTag, any_eq_true, any_eq_true]
  refine exists_congr fun tag => and_congr_right fun hmem => ?_
  rw [decide_eq_true_eq, decide_eq_true_eq, ← (hsolid tag hmem).infix_strip, h,
    (hsolid tag hmem).infix_strip]

/-- A one-shot parse reads two texts alike: the same calls, and the same normal text up to
whitespace at its ends. -/
def ParsesAlike (p : τ) (text text' : Text) : Prop :=
  (ToolDetector.parseNonStream p text).2 = (ToolDetector.parseNonStream p text').2 ∧
    strip (ToolDetector.parseNonStream p text).1 = strip (ToolDetector.parseNonStream p text').1

omit [FunctionCallParser τ] in
/-- Texts that are read alike give the same response. -/
theorem ParsesAlike.response {p : τ} {text' : Text} (h : ParsesAlike p text text')
    (hstrip : strip text = strip text') :
    (ToolDetector.parseToolResponse p text).isSome =
    (ToolDetector.parseToolResponse p text').isSome ∧
      ((ToolDetector.parseToolResponse p text).map (·.2)).getD [] =
        ((ToolDetector.parseToolResponse p text').map (·.2)).getD [] ∧
      strip (((ToolDetector.parseToolResponse p text).map (·.1)).getD text) =
        strip (((ToolDetector.parseToolResponse p text').map (·.1)).getD text') := by
  obtain ⟨hcalls, hnormal⟩ := h
  unfold ToolDetector.parseToolResponse
  rw [hasToolsTag_congr hstrip]
  generalize ToolDetector.parseNonStream p text = r at hcalls hnormal ⊢
  generalize ToolDetector.parseNonStream p text' = r' at hcalls hnormal ⊢
  obtain ⟨normal, calls⟩ := r
  obtain ⟨normal', calls'⟩ := r'
  obtain rfl : calls = calls' := hcalls
  dsimp only
  split_ifs
  · exact ⟨rfl, rfl, hstrip⟩
  · exact ⟨rfl, rfl, hnormal⟩
  · exact ⟨rfl, rfl, hstrip⟩

omit [ToolDetector τ] in
theorem sinkSame_buffered (p : τ) (pieces : List Text) :
    SinkSame vj specials (.buffered (some p) []) pieces
      (FunctionCallParser.parseToolResponse p pieces.flatten) := by
  have htake := @ContentSink.takeAll_buffered τ _ vj specials (some p) [] pieces
  rw [nil_append] at htake
  have hevents : (ContentSink.buffered (some p) []).eventsOf vj specials pieces =
      ((ContentSink.buffered (some p) pieces.flatten).finish vj specials).1 := by
    rw [ContentSink.eventsOf, htake]
    rfl
  have hcalled : (ContentSink.buffered (some p) []).called vj specials pieces =
      ((ContentSink.buffered (some p) pieces.flatten).finish vj specials).2 := by
    rw [ContentSink.called, htake]
  have hone : ∀ t : Text, UpToSpace [t] t := fun t => ⟨[t], .cons rfl .nil, by simp⟩
  have htwo : ∀ t : Text, UpToSpace [t, []] t :=
    fun t => ⟨[t, []], .cons rfl (.cons rfl .nil), by simp⟩
  -- all text was held back, so the end sends the whole parse or the text itself
  cases hparse : FunctionCallParser.parseToolResponse p pieces.flatten with
  | none =>
    simp only [ContentSink.finish, Option.bind_some, hparse] at hevents hcalled
    by_cases hnil : pieces.flatten = []
    · rw [if_pos hnil] at hevents
      refine ⟨?_, hcalled, ?_, ?_⟩
      · rw [hevents]
        rfl
      · rw [hevents]
        rfl
      · rw [hevents, hnil]
        show UpToSpace [[]] (stripSpecialTokens [] specials)
        rw [stripSpecialTokens_nil]
        exact hone []
    · rw [if_neg hnil] at hevents
      refine ⟨?_, hcalled, ?_, ?_⟩
      · rw [hevents]
        rfl
      · rw [hevents]
        rfl
      · rw [hevents]
        exact hone _
  | some r =>
    simp only [ContentSink.finish, Option.bind_some, hparse] at hevents hcalled
    by_cases hnil : stripSpecialTokens r.1 specials = []
    · rw [if_pos hnil] at hevents
      refine ⟨?_, hcalled, ?_, ?_⟩
      · rw [hevents]
        rfl
      · rw [hevents]
        rfl
      · rw [hevents]
        show UpToSpace [[], []] (stripSpecialTokens r.1 specials)
        rw [hnil]
        exact htwo []
    · rw [if_neg hnil] at hevents
      refine ⟨?_, hcalled, ?_, ?_⟩
      · rw [hevents]
        rfl
      · rw [hevents]
        rfl
      · rw [hevents]
        exact htwo _

theorem map_numberCalls (calls : List (Option Text × Text)) :
    (numberCalls calls).map (fun c => (c.name, c.parameters)) = calls := by
  apply ext_getElem
  · simp [numberCalls]
  · intro i _ _
    simp [numberCalls]

omit [FunctionCallParser τ] in
theorem parseNonStream_of_calls_eq_nil {p : τ} (h : (ToolDetector.parseNonStream p text).2 = []) :
    (ToolDetector.parseNonStream p text).1 = text := by
  unfold ToolDetector.parseNonStream at h ⊢
  split_ifs at h ⊢ with htools
  · rfl
  · dsimp only at h ⊢
    split_ifs at h ⊢ with hnil
    · rfl
    · exfalso
      apply hnil
      revert h
      split
      · exact id
      · split_ifs
        · exact id
        · exact id

/-- What the detector finds is shown, and it is what the one-shot parse finds, if that is not kept
from it. -/
theorem sinkSame_streaming {p : τ} {pieces : List Text} (det : ToolDetection vj p pieces)
    (hempty : vj [] = false) (hsolid : SolidTokens specials)
    (huncut : ∀ run ∈ Found.stretches (det.found ++ [Found.text (residualText p pieces)]), Uncut
      specials run) (hparts : Uncut specials det.parts)
    (hgate : (ToolDetector.parseNonStream p pieces.flatten).2 = [] ∨ hasToolsTag pieces.flatten) :
    SinkSame vj specials (.streaming { parser := p }) pieces
      (ToolDetector.parseToolResponse p pieces.flatten) ∧
      (({} : Answer).addAll
        ((ContentSink.streaming { parser := p }).eventsOf vj specials pieces)).calls =
        numberCalls (det.found.filterMap Found.nameArgs) := by
  obtain ⟨hadd, hcalled, hquiet⟩ := @ContentSink.addAll_streaming _ _ _ specials _ _ _ det hempty
  have hcalls := (@Shown.calls_foldl specials (det.found ++ [Found.text (residualText p pieces)])).1
  obtain ⟨hruns, hrun, -⟩ :=
    @Shown.runs_foldl specials (det.found ++ [Found.text (residualText p pieces)])
  rw [← hadd] at hcalls hruns hrun
  have hnone : ∀ residual, [Found.text residual].filterMap Found.nameArgs = [] := fun _ => rfl
  rw [filterMap_append, hnone, append_nil] at hcalls
  have hcontents : UpToSpace
      (({} : Answer).addAll
        ((ContentSink.streaming { parser := p }).eventsOf vj specials pieces)).contents
      (stripSpecialTokens det.parts.flatten specials) :=
    upToSpace_shown hsolid rfl det.parts_eq (rel_append hruns (.cons hrun .nil)) huncut hparts
  have hsame : det.found.filterMap Found.nameArgs =
      (ToolDetector.parseNonStream p pieces.flatten).2.map fun item =>
        (item.name, item.parameters) := det.calls
  -- the gate lets the calls of the one-shot parse pass
  have hparsed : ToolDetector.parseToolResponse p pieces.flatten =
      if (ToolDetector.parseNonStream p pieces.flatten).2 = [] then none
      else some (ToolDetector.parseNonStream p pieces.flatten) := by
    unfold ToolDetector.parseToolResponse
    rcases hgate with hnil | htag
    · simp [hnil]
    · simp [htag]
  refine ⟨⟨hquiet, ?_, ?_, ?_⟩, hcalls⟩
  · rw [Bool.eq_iff_iff, hcalled, hsame, hparsed]
    split_ifs with hnil
    · simp [hnil]
    · simp [hnil]
  · rw [hcalls, map_numberCalls, hsame, hparsed]
    split_ifs with hnil
    · rw [hnil]
      rfl
    · rfl
  · rw [hparsed]
    split_ifs with hnil
    · rw [← det.text, parseNonStream_of_calls_eq_nil hnil] at hcontents
      exact hcontents
    · rw [← det.text] at hcontents
      exact hcontents

/-- A stream gives the answer of the path without streaming, if its parsers agree with their
one-shot parses, the one of the tools does not read whitespace at the ends of the content, no
special token is cut, and the gate on the tool tags lets the calls pass. -/
theorem generateEvents_eq_full (loads : Text → Bool) (specials : List Text)
    (reasoningParser : Option ρ)
    (toolParser : Option τ) (acks : List UserReply) (last : UserReply) (chunks : List Text)
    (hacks : ∀ ack ∈ acks, ack.error = none ∧ ack.finished = false)
    (hlast : last.error = none ∧ last.finished)
    (hchunks : (acks ++ [last]).map (·.incrementalOutput) = chunks)
    (hsplit : SplitsAlike reasoningParser chunks)
    (hresponse : ∀ p, toolParser = some p → ∀ text,
      FunctionCallParser.parseToolResponse p text = ToolDetector.parseToolResponse p text)
    (det : ∀ p, toolParser = some p → FunctionCallParser.supportsStreaming p →
      ToolDetection (validJson loads) p (contentPieces reasoningParser chunks))
    (halike : ∀ p, toolParser = some p →
      ParsesAlike p (contentPieces reasoningParser chunks).flatten
      (splitReasoning reasoningParser chunks.flatten).2)
    (hsolid : SolidTokens specials)
    (hreasoning : Uncut specials (reasoningPieces reasoningParser chunks))
    (hplain : toolParser = none → Uncut specials (contentPieces reasoningParser chunks))
    (hstretches : ∀ p (hp : toolParser = some p) (hs : FunctionCallParser.supportsStreaming p),
      ∀ run ∈ Found.stretches ((det p hp hs).found ++
        [Found.text (residualText p (contentPieces reasoningParser chunks))]), Uncut specials run)
    (hparts : ∀ p (hp : toolParser = some p) (hs : FunctionCallParser.supportsStreaming p),
      Uncut specials (det p hp hs).parts)
    (hgate : ∀ p, toolParser = some p → FunctionCallParser.supportsStreaming p →
      (ToolDetector.parseNonStream p (splitReasoning reasoningParser chunks.flatten).2).2 = [] ∨
      hasToolsTag (splitReasoning reasoningParser chunks.flatten).2) :
    ∃ evs d full,
      (Generation.init reasoningParser toolParser.isSome toolParser).generateEvents
      (validJson loads) specials (acks ++ [last]) = (evs, .done d) ∧
      generateFull specials reasoningParser toolParser (acks ++ [last]) = .ok full ∧
      SameAnswer specials (({} : Answer).addAll evs) d full ∧
      (∀ p, toolParser = some p → FunctionCallParser.supportsStreaming p →
        (({} : Answer).addAll evs).calls = numberCalls
        (full.toolCalls.map fun c => (c.name, c.parameters))) := by
  obtain ⟨evs, r, hcollect, hcontent, -, hevents, hstreams⟩ :=
    @Generation.generateEvents_spec _ _ _ _ (validJson loads) specials
      (Generation.init reasoningParser toolParser.isSome toolParser) {} ⟨rfl, rfl, rfl⟩ acks last
        hacks hlast
  have hparser :
      (Generation.init reasoningParser toolParser.isSome toolParser).reasoningParser =
      reasoningParser := rfl
  rw [hparser] at hevents
  rw [hchunks] at hcontent hevents hstreams
  have hfull : r.content = chunks.flatten := hcontent
  obtain ⟨hsplitr, hsplitc⟩ := hsplit
  have hempty : validJson loads [] = false := rfl
  -- the content, for each kind of sink
  have hsink :
      SinkSame (validJson loads) specials
      (Generation.init reasoningParser toolParser.isSome toolParser).sink
        (contentPieces reasoningParser chunks)
        (toolParser.bind fun p => ToolDetector.parseToolResponse p
          (contentPieces reasoningParser chunks).flatten) ∧
      (∀ p, toolParser = some p → FunctionCallParser.supportsStreaming p →
        ∃ calls, (({} : Answer).addAll
          ((Generation.init reasoningParser toolParser.isSome toolParser).sink.eventsOf
          (validJson loads) specials (contentPieces reasoningParser chunks))).calls =
            numberCalls calls) := by
    cases toolParser with
    | none => exact ⟨sinkSame_plain (hplain rfl), fun p hp => absurd hp (by simp)⟩
    | some p =>
      by_cases hs : FunctionCallParser.supportsStreaming p
      · have hgate' := hgate p rfl hs
        rw [← (halike p rfl).1, ← hasToolsTag_congr hsplitc] at hgate'
        obtain ⟨hsame, hcalls⟩ :=
          sinkSame_streaming (det p rfl hs) hempty hsolid (hstretches p rfl hs) (hparts p rfl hs)
            hgate'
        have hinit :
          (Generation.init reasoningParser true (some p)).sink = .streaming { parser := p } :=
          if_pos hs
        rw [Option.isSome_some, hinit]
        refine ⟨hsame, fun q hq _ => ?_⟩
        obtain rfl : p = q := Option.some.inj hq
        exact ⟨_, hcalls⟩
      · have hinit : (Generation.init reasoningParser true (some p)).sink = .buffered (some p) [] :=
          if_neg hs
        rw [Option.isSome_some, hinit, Option.bind_some, ← hresponse p rfl]
        refine ⟨sinkSame_buffered p _, fun q hq hq' => ?_⟩
        obtain rfl : p = q := Option.some.inj hq
        exact absurd hq' hs
  obtain ⟨hsame, hnumbered⟩ := hsink
  -- the response to the one-shot content is that to the content of the stream
  have hparsed : (toolParser.bind fun p => ToolDetector.parseToolResponse p
        (contentPieces reasoningParser chunks).flatten).isSome =
      (toolParser.bind fun p => ToolDetector.parseToolResponse p
        (splitReasoning reasoningParser chunks.flatten).2).isSome ∧
      ((toolParser.bind fun p => ToolDetector.parseToolResponse p
        (contentPieces reasoningParser chunks).flatten).map (·.2)).getD [] =
      ((toolParser.bind fun p => ToolDetector.parseToolResponse p
        (splitReasoning reasoningParser chunks.flatten).2).map (·.2)).getD [] ∧
      strip (((toolParser.bind fun p => ToolDetector.parseToolResponse p
        (contentPieces reasoningParser chunks).flatten).map (·.1)).getD
          (contentPieces reasoningParser chunks).flatten) =
      strip (((toolParser.bind fun p => ToolDetector.parseToolResponse p
        (splitReasoning reasoningParser chunks.flatten).2).map (·.1)).getD
          (splitReasoning reasoningParser chunks.flatten).2) := by
    cases toolParser with
    | none => exact ⟨rfl, rfl, hsplitc⟩
    | some p => exact (halike p rfl).response hsplitc
  generalize toolParser.bind (fun p => ToolDetector.parseToolResponse p
    (contentPieces reasoningParser chunks).flatten) = parsed at hsame hparsed
  obtain ⟨hcalled, hparsedCalls, hparsedText⟩ := hparsed
  have hans := hstreams.addAll {} hsame.quiet
  rw [hparser] at hans
  have hstripped : strip (({} : Answer).addAll evs).reasoning =
      strip (stripSpecialTokens (splitReasoning reasoningParser chunks.flatten).1 specials) := by
    rw [hans]
    show strip ([] ++ _) = _
    rw [nil_append, ← hreasoning]
    exact hsolid.strip_congr hsplitr
  have hcontents :
      UpToSpace (({} : Answer).addAll evs).contents (stripSpecialTokens (((toolParser.bind fun p =>
      ToolDetector.parseToolResponse p (splitReasoning reasoningParser chunks.flatten).2).map
        (·.1)).getD (splitReasoning reasoningParser chunks.flatten).2) specials) := by
    obtain ⟨parts, hruns, htext⟩ := hsame.content
    rw [hans]
    exact ⟨parts, hruns, (hsolid.strip_congr hparsedText).symm.trans htext⟩
  have hcalls : (({} : Answer).addAll evs).calls.map (fun c => (c.name, c.parameters)) =
      (((toolParser.bind fun p => ToolDetector.parseToolResponse p
        (splitReasoning reasoningParser chunks.flatten).2).map (·.2)).getD []).map
          fun c => (c.name, c.parameters) := by
    rw [hans, ← hparsedCalls]
    exact hsame.calls
  refine ⟨evs, _, r.result specials reasoningParser toolParser, hevents, ?_, ?_, ?_⟩
  · rw [generateFull, hcollect]
    rfl
  · unfold FullReply.result
    rw [hfull]
    refine ⟨hcalls, hstripped, hcontents, ?_, hsolid.noSpecial_run hcontents, ?_, rfl, rfl, rfl⟩
    · intro hno
      dsimp only at hno
      rw [← hstripped, hsolid.noSpecial_strip] at hno
      exact hno
    · show (Generation.doneOf r _).finishReason = _
      unfold Generation.doneOf
      rw [hsame.called, hcalled]
  · intro p hp hs
    obtain ⟨calls, hcalls'⟩ := hnumbered p hp hs
    have hnames : calls = (r.result specials reasoningParser toolParser).toolCalls.map
        fun c => (c.name, c.parameters) := by
      unfold FullReply.result
      rw [hfull]
      rw [← hcalls, hans]
      rw [hcalls', map_numberCalls]
    rw [← hnames, hans]
    exact hcalls'

end

/-! ### One call, and where the two paths part -/

def callJson : Text := "\x7b\"name\": \"f\", \"arguments\": \x7b\x7d\x7d".toList

/-- The value of `callJson`. -/
def callValue : JsonValue := .obj [("name".toList, .str "f".toList), ("arguments".toList, .obj [])]

/-- A library that knows `callJson`, and reads it as the real one does. -/
instance oneCallLib : JsonLib where
  loads text := if strip text = callJson then some callValue else none
  rawDecode text start :=
    if callJson <+: text.drop start then some (callValue, start + callJson.length) else none
  orjsonLoads text := strip text = callJson
  partialLoads text _ :=
    if strip text = callJson then .ok callValue
    else .error (if callJson <+: lstrip text then .extraData else .malformedJSON)
  parseInt _ := none
  parseFloat _ := none
  literalEval _ := none

/-- The tool parser of a request with the tools `g` and `f`. -/
def twoTools : Qwen25Parser where
  table := { tools := [⟨"g".toList, none⟩, ⟨"f".toList, none⟩] }

def qwenLeakedSpecials : List Text :=
  ["<|mask_end|>".toList, "<|mask_start|>".toList, "<|fim_prefix|>".toList, "<|fim_middle|>".toList,
    "<|fim_suffix|>".toList, "<|fim_pad|>".toList]

def textReply (text : Text) (finished : Bool) : UserReply where
  incrementalOutput := text
  finished := finished
  finishReason := if finished then some "stop".toList else none

/-- Thoughts that are closed behind a leaked token, text with another one, and a call. -/
def thoughtReplies : List UserReply :=
  [textReply "Plan<|fim_pad|> ".toList false, textReply "it</think>\n\nHi<|fim_pad|> ".toList false]

def callReply : UserReply := textReply ("<tool_call>\n".toList ++ callJson ++ "\n</tool_call>".toList) true

def thoughtChunks : List Text := (thoughtReplies ++ [callReply]).map (·.incrementalOutput)

def callDetection : ToolDetection (validJson fun text => text = "\x7b\x7d".toList) twoTools
    (contentPieces (some (thinkReasoningParser true)) thoughtChunks) where
  found := [.text "\n\nHi<|fim_pad|> ".toList, .call 0 "f".toList [] ["\x7b\x7d".toList]]
  parts := ["Hi<|fim_pad|>".toList, []]
  segments := by decide
  numbered := by decide
  valid := by decide
  finalized := rfl
  recovered := by decide
  calls := by decide
  text := by decide
  parts_eq := .cons (by decide) (.cons (by decide) .nil)

/-- Leaked tokens in the thoughts and in front of a call, in three replies: the stream gives the
same answer. -/
theorem generateEvents_eq_full_call : ∃ evs d full,
    (Generation.init (some (thinkReasoningParser true)) true (some twoTools)).generateEvents
        (validJson fun text => text = "\x7b\x7d".toList) qwenLeakedSpecials
        (thoughtReplies ++ [callReply]) = (evs, .done d) ∧
      generateFull qwenLeakedSpecials (some (thinkReasoningParser true)) (some twoTools)
        (thoughtReplies ++ [callReply]) = .ok full ∧
      SameAnswer qwenLeakedSpecials (({} : Answer).addAll evs) d full ∧
      (∀ p, some twoTools = some p → FunctionCallParser.supportsStreaming p →
        (({} : Answer).addAll evs).calls =
          numberCalls (full.toolCalls.map fun c => (c.name, c.parameters))) := by
  refine generateEvents_eq_full (fun text => text = "\x7b\x7d".toList) qwenLeakedSpecials
    (some (thinkReasoningParser true)) (some twoTools) thoughtReplies callReply thoughtChunks
      (by decide) (by decide)
    rfl ⟨by decide +kernel, by decide +kernel⟩ (fun _ _ _ => rfl)
      (fun p hp _ => Option.some.inj hp ▸ callDetection) (fun p hp => ?_) ?_
    (by decide) (fun h => absurd h (by simp)) ?_ ?_ (fun p hp _ => ?_)
  · obtain rfl : twoTools = p := Option.some.inj hp
    exact ⟨by decide +kernel, by decide +kernel⟩
  · have hends : ∀ s ∈ qwenLeakedSpecials, s.head? = some '<' ∧ s.getLast? = some '>' := by decide
    exact fun s hs _ => ⟨'<', '>', (hends s hs).1, (hends s hs).2, by decide, by decide⟩
  · intro p hp _
    obtain rfl : twoTools = p := Option.some.inj hp
    decide +kernel
  · intro p hp _
    obtain rfl : twoTools = p := Option.some.inj hp
    decide +kernel
  · obtain rfl : twoTools = p := Option.some.inj hp
    exact Or.inr (by decide +kernel)

/-- A tool parser for which a text that starts with a tag is a call. -/
inductive LeadingTag where
  | mk
deriving DecidableEq, Repr

instance : ToolDetector LeadingTag where
  hasTools _ := true
  detectAndParse _ text :=
    if "<tool_call>".toList <+: text then ([], [⟨0, some "f".toList, "\x7b\x7d".toList⟩]) else (text, [])
  hasToolCall _ text := "<tool_call>".toList <+: text
  blockCloseTokens _ := []

instance : FunctionCallParser LeadingTag where
  supportsStreaming _ := false
  argsFragmentsPrefixStable _ := true
  parseStreamEvents p _ := (p, [])
  finalizeStream p := (p, [])
  unstreamedArguments _ _ := none
  recoverTruncatedCall p := (p, [])
  finishStream p := (p, [])
  parseToolResponse p text := ToolDetector.parseToolResponse p text

def answerOf (stream : List GenEvent × GenEnd) : Answer := ({} : Answer).addAll stream.1

/-- Where a stream does not give the same answer: a special token comes together when another is
stripped; one starts with whitespace, which only the one-shot parse drops before it strips; a call
is one only at the start of the content, in front of which only the one-shot parse drops whitespace;
and one-shot calls have the numbers of their tools. -/
theorem generateEvents_ne_full :
    (generateFull ["<|fim_pad|>".toList] (none : Option BaseReasoningParser) (none : Option LeadingTag)
        [textReply "<|fim_<|fim_pad|>pad|>".toList true]).toOption.map (·.content) = some "<|fim_pad|>".toList ∧
    ((answerOf
      ((Generation.init (some (thinkReasoningParser true)) false
      (none : Option LeadingTag)).generateEvents
        (validJson fun _ => true) [" x".toList] [textReply " x".toList true])).reasoning = [] ∧
      (generateFull [" x".toList] (some (thinkReasoningParser true)) (none : Option LeadingTag)
        [textReply " x".toList true]).toOption.map (·.reasoning) = some "x".toList) ∧
    ((answerOf
      ((Generation.init (some (thinkReasoningParser true)) true (some LeadingTag.mk)).generateEvents
        (validJson fun _ => true) [] [textReply "</think>\n<tool_call>".toList true])).calls = [] ∧
      (generateFull [] (some (thinkReasoningParser true)) (some LeadingTag.mk)
        [textReply "</think>\n<tool_call>".toList true]).toOption.map (·.toolCalls) =
          some [⟨0, some "f".toList, "\x7b\x7d".toList⟩]) ∧
    ((answerOf
      ((Generation.init (none : Option BaseReasoningParser) true (some twoTools)).generateEvents
        (validJson fun _ => true) [] [callReply])).calls = [⟨0, some "f".toList, "\x7b\x7d".toList⟩] ∧
      (generateFull [] (none : Option BaseReasoningParser) (some twoTools)
        [callReply]).toOption.map (·.toolCalls) = some [⟨1, some "f".toList, "\x7b\x7d".toList⟩]) :=
  ⟨by decide, ⟨by decide, by decide⟩, ⟨by decide, by decide⟩, by decide, by decide⟩

end FreeToken
