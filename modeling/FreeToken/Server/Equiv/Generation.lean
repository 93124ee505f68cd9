import FreeToken.Server.Generation

/-!
# The events of a generation

The order in which `generate_events` sends its events, whatever its parsers do: a call that has
started is closed, under its number and its name, before content or another call.
-/

namespace FreeToken

/-- How far the events of a generation are: the number of calls that are closed, and the name of an
open one. -/
structure Transcript where
  calls : ℕ := 0
  opened : Option (Option Text) := none
deriving DecidableEq, Repr

namespace Transcript

def accept (t : Transcript) : GenEvent → Option Transcript
  | .reasoningDelta _ => some t
  | .contentDelta _ => if t.opened.isNone then some t else none
  | .toolCallStart index name _ =>
    if t.opened.isNone ∧ index = t.calls then some { t with opened := some name } else none
  | .toolCallArgsDelta index _ => if t.opened.isSome ∧ index = t.calls then some t else none
  | .toolCallsDelta calls =>
    match t.opened with
    | none => some t
    | some name =>
      match calls with
      | [c] => if c.toolIndex = t.calls ∧ c.name = name then some ⟨t.calls + 1, none⟩ else none
      | _ => none

def acceptAll (t : Transcript) (evs : List GenEvent) : Option Transcript := evs.foldlM accept t

@[simp]
theorem acceptAll_nil (t : Transcript) : t.acceptAll [] = some t := rfl

theorem acceptAll_append {t t' t'' : Transcript} {evs evs' : List GenEvent}
    (h : t.acceptAll evs = some t') (h' : t'.acceptAll evs' = some t'') :
    t.acceptAll (evs ++ evs') = some t'' := by
  simp only [acceptAll] at h h' ⊢
  rw [List.foldlM_append, h]
  exact h'

theorem acceptAll_reasoning (t : Transcript) (specials : List Text) (text : Text) :
    t.acceptAll (Generation.reasoning specials text) = some t := by
  unfold Generation.reasoning
  dsimp only
  split
  · rfl
  · rfl

end Transcript

namespace ToolAssembly

variable {τ : Type} [FunctionCallParser τ] (validJson : Text → Bool) (specials : List Text)
  {a : ToolAssembly τ}

omit [FunctionCallParser τ] in
def transcript (a : ToolAssembly τ) : Transcript := ⟨a.callsEmitted, a.openCall.map (·.name)⟩

omit [FunctionCallParser τ] in
def Numbered (a : ToolAssembly τ) : Prop := ∀ c ∈ a.openCall, c.ordinal = a.callsEmitted

def InOrder (a : ToolAssembly τ) (r : ToolAssembly τ × List GenEvent) : Prop :=
  r.1.Numbered ∧ a.transcript.acceptAll r.2 = some r.1.transcript

omit [FunctionCallParser τ] in
theorem Numbered.inOrder (h : a.Numbered) : InOrder a (a, []) := ⟨h, rfl⟩

omit [FunctionCallParser τ] in
theorem InOrder.append {a' a'' : ToolAssembly τ} {evs evs' : List GenEvent}
    (h : InOrder a (a', evs))
    (h' : a'.Numbered → InOrder a' (a'', evs')) : InOrder a (a'', evs ++ evs') :=
  ⟨(h' h.1).1, Transcript.acceptAll_append h.2 (h' h.1).2⟩

/-- Closing the open call leaves none open. -/
theorem Numbered.closeOpenCall (h : a.Numbered) :
    InOrder a (a.closeOpenCall validJson) ∧ (a.closeOpenCall validJson).1.openCall = none := by
  cases hc : a.openCall with
  | none =>
    have hstep : a.closeOpenCall validJson = (a, []) := by simp [ToolAssembly.closeOpenCall, hc]
    rw [hstep]
    exact ⟨h.inOrder, hc⟩
  | some c =>
    have hord : c.ordinal = a.callsEmitted := h c hc
    simp only [ToolAssembly.closeOpenCall, hc]
    refine ⟨⟨?_, ?_⟩, trivial⟩
    · simp [Numbered]
    · simp [transcript, hc, Transcript.acceptAll, Transcript.accept, hord]

omit [FunctionCallParser τ] in
theorem Numbered.content (text : Text) (h : a.Numbered) (hc : a.openCall = none) :
    InOrder a (a.content specials text) ∧ (a.content specials text).1.openCall = none := by
  unfold ToolAssembly.content
  dsimp only
  split
  · exact ⟨h.inOrder, hc⟩
  · refine ⟨⟨h, ?_⟩, hc⟩
    simp [transcript, hc, Transcript.acceptAll, Transcript.accept]

theorem Numbered.openFor (frag : ToolCallItem) (hc : a.openCall = none) :
    InOrder a (a.openFor frag) := by
  refine ⟨?_, ?_⟩
  · simp [Numbered, ToolAssembly.openFor]
  · simp [transcript, hc, ToolAssembly.openFor, Transcript.acceptAll, Transcript.accept]

omit [FunctionCallParser τ] in
theorem Numbered.addFragment (fragment : Text) (h : a.Numbered) :
    InOrder a (a.addFragment fragment) := by
  unfold ToolAssembly.addFragment
  cases hc : a.openCall with
  | none => exact h.inOrder
  | some c =>
    have hord : c.ordinal = a.callsEmitted := h c hc
    dsimp only
    split
    · exact h.inOrder
    · refine ⟨?_, ?_⟩
      · simpa [Numbered] using hord
      · simp [transcript, hc, Transcript.acceptAll, Transcript.accept, hord]

theorem Numbered.routeFragment (frag : ToolCallItem) (h : a.Numbered) :
    InOrder a (a.routeFragment validJson frag) := by
  have hclose : InOrder a (if a.startsNew frag then a.closeOpenCall validJson else (a, [])) := by
    split
    · exact (h.closeOpenCall validJson).1
    · exact h.inOrder
  have hopen : ∀ a' : ToolAssembly τ, a'.Numbered →
      InOrder a' (if a'.openCall.isNone then a'.openFor frag else (a', [])) := by
    intro a' ha'
    split
    · exact Numbered.openFor frag (by simpa using ‹a'.openCall.isNone = true›)
    · exact ha'.inOrder
  exact (hclose.append (hopen _)).append fun h' => h'.addFragment frag.parameters

omit [FunctionCallParser τ] in
theorem Numbered.each {β : Type} {f : ToolAssembly τ → β → ToolAssembly τ × List GenEvent}
    (hf : ∀ a x, Numbered a → InOrder a (f a x)) (xs : List β) (h : a.Numbered) :
    InOrder a (each f a xs) := by
  induction xs generalizing a with
  | nil => exact h.inOrder
  | cons x xs ih => exact (hf a x h).append fun h' => ih h'

theorem Numbered.routeSegment (seg : ParseSegment) (h : a.Numbered) :
    InOrder a (a.routeSegment validJson specials seg) := by
  cases seg with
  | text payload =>
    obtain ⟨hclose, hc⟩ := h.closeOpenCall validJson
    exact hclose.append fun h' => (h'.content specials payload hc).1
  | calls payload => exact h.each (fun a frag ha => ha.routeFragment validJson frag) payload

theorem Numbered.routeToolText (piece : Text) (h : a.Numbered) :
    InOrder a (a.routeToolText validJson specials piece) := by
  unfold ToolAssembly.routeToolText
  split
  · exact h.inOrder
  · -- the parser changes, but not the calls
    have h' :
      Numbered { a with parser := (FunctionCallParser.parseStreamEvents a.parser piece).1 } := h
    exact h'.each (fun a seg ha => ha.routeSegment validJson specials seg) _

omit [FunctionCallParser τ] in
theorem Numbered.recovered (item : ToolCallItem) (hc : a.openCall = none) :
    InOrder a (a.recovered item) ∧ (a.recovered item).1.openCall = none := by
  refine ⟨⟨?_, ?_⟩, hc⟩
  · simp [Numbered, ToolAssembly.recovered, hc]
  · simp [transcript, hc, ToolAssembly.recovered, Transcript.acceptAll, Transcript.accept]

omit [FunctionCallParser τ] in
theorem Numbered.each_recovered (items : List ToolCallItem) (h : a.Numbered)
    (hc : a.openCall = none) :
    InOrder a (ToolAssembly.each ToolAssembly.recovered a items) ∧
      (ToolAssembly.each ToolAssembly.recovered a items).1.openCall = none := by
  induction items generalizing a with
  | nil => exact ⟨h.inOrder, hc⟩
  | cons item items ih =>
    obtain ⟨hfirst, hc'⟩ := Numbered.recovered item hc
    exact ⟨hfirst.append fun h' => (ih h' hc').1, (ih hfirst.1 hc').2⟩

theorem Numbered.finalizeOpen (h : a.Numbered) : InOrder a a.finalizeOpen := by
  -- the parser changes, but not the calls
  have h' : Numbered { a with parser := (FunctionCallParser.finalizeStream a.parser).1 } := h
  exact h'.each (fun a frag ha => ha.addFragment frag.parameters) _

theorem Numbered.recoverTruncated (h : a.Numbered) (hc : a.openCall = none) :
    InOrder a a.recoverTruncated ∧ a.recoverTruncated.1.openCall = none := by
  have h' : Numbered { a with parser := (FunctionCallParser.recoverTruncatedCall a.parser).1 } := h
  exact h'.each_recovered _ hc

theorem Numbered.releaseResidual (h : a.Numbered) (hc : a.openCall = none) :
    InOrder a (a.releaseResidual specials) ∧ (a.releaseResidual specials).1.openCall = none := by
  have h' : Numbered { a with parser := (FunctionCallParser.finishStream a.parser).1 } := h
  exact h'.content specials _ hc

theorem Numbered.drain (h : a.Numbered) :
    InOrder a (a.drain validJson specials) ∧ (a.drain validJson specials).1.openCall = none := by
  have hfinal := h.finalizeOpen
  obtain ⟨hclose, hc⟩ := hfinal.1.closeOpenCall validJson
  obtain ⟨hrecover, hc'⟩ := hclose.1.recoverTruncated hc
  obtain ⟨hrelease, hc''⟩ := hrecover.1.releaseResidual specials hc'
  exact ⟨((hfinal.append fun _ => hclose).append fun _ => hrecover).append fun _ => hrelease, hc''⟩

end ToolAssembly

/-! ### The whole stream -/

namespace ContentSink

variable {τ : Type} [FunctionCallParser τ] (validJson : Text → Bool) (specials : List Text)
  {s : ContentSink τ}

omit [FunctionCallParser τ] in
/-- The transcript behind a sink: without a streaming parser, calls come at the end. -/
def transcript : ContentSink τ → Transcript
  | plain | buffered _ _ => {}
  | streaming a => a.transcript

omit [FunctionCallParser τ] in
/-- The open call of a sink has the next number. -/
def Numbered : ContentSink τ → Prop
  | plain | buffered _ _ => True
  | streaming a => a.Numbered

theorem Numbered.take (text : Text) (h : s.Numbered) :
    (s.take validJson specials text).1.Numbered ∧
      s.transcript.acceptAll (s.take validJson specials text).2 =
        some (s.take validJson specials text).1.transcript := by
  unfold ContentSink.take
  split
  · exact ⟨h, rfl⟩
  · cases s with
    | plain => exact ⟨trivial, rfl⟩
    | buffered parser pending => exact ⟨trivial, rfl⟩
    | streaming a => exact ToolAssembly.Numbered.routeToolText validJson specials text h

/-- The last events are in order, and no call is open behind them. -/
theorem Numbered.finish (h : s.Numbered) :
    ∃ n, s.transcript.acceptAll (s.finish validJson specials).1 = some ⟨n, none⟩ := by
  cases s with
  | plain => exact ⟨0, rfl⟩
  | buffered parser pending =>
    refine ⟨0, ?_⟩
    unfold ContentSink.finish
    dsimp only
    split
    · dsimp only
      split <;> rfl
    · dsimp only
      split <;> rfl
  | streaming a =>
    obtain ⟨hin, hc⟩ := ToolAssembly.Numbered.drain validJson specials h
    refine ⟨(a.drain validJson specials).1.callsEmitted, hin.2.trans ?_⟩
    simp [ToolAssembly.transcript, hc]

end ContentSink

namespace Generation

variable {ρ τ : Type} [ReasoningParser ρ] [FunctionCallParser τ] (validJson : Text → Bool)
  (specials : List Text) {g : Generation ρ τ}

theorem onReply_inOrder (ack : UserReply) (h : g.sink.Numbered) :
    (g.onReply validJson specials ack).1.sink.Numbered ∧
      g.sink.transcript.acceptAll (g.onReply validJson specials ack).2 =
        some (g.onReply validJson specials ack).1.sink.transcript := by
  have hsplit : (g.split ack.incrementalOutput).1.sink = g.sink := by
    unfold split
    cases g.reasoningParser with
    | none => rfl
    | some p =>
      dsimp only
      split <;> rfl
  have htake := h.take validJson specials (g.split ack.incrementalOutput).2.2
  rw [← hsplit] at htake ⊢
  exact ⟨htake.1, Transcript.acceptAll_append (Transcript.acceptAll_reasoning _ _ _) htake.2⟩

theorem onEnd_inOrder (reason stop : Option Text) (h : g.sink.Numbered) :
    ∃ n, g.sink.transcript.acceptAll (g.onEnd validJson specials reason stop).1 =
      some ⟨n, none⟩ := by
  have hevents : ∀ r t : Text, ∃ n, g.sink.transcript.acceptAll
      (Generation.reasoning specials r ++ (g.sink.take validJson specials t).2 ++
        ((g.sink.take validJson specials t).1.finish validJson specials).1) = some ⟨n, none⟩ := by
    intro r t
    have htake := h.take validJson specials t
    obtain ⟨n, hfinish⟩ := htake.1.finish validJson specials
    refine ⟨n, ?_⟩
    exact Transcript.acceptAll_append
      (Transcript.acceptAll_append (Transcript.acceptAll_reasoning _ _ _) htake.2) hfinish
  exact hevents _ _

theorem generateEvents_inOrder (acks : List UserReply) {d : GenDone} (h : g.sink.Numbered)
    (hd : (g.generateEvents validJson specials acks).2 = .done d) :
    ∃ n, g.sink.transcript.acceptAll (g.generateEvents validJson specials acks).1 =
      some ⟨n, none⟩ := by
  induction acks generalizing g with
  | nil => exact onEnd_inOrder validJson specials none none h
  | cons ack acks ih =>
    obtain ⟨hnumbered, hreply⟩ := onReply_inOrder validJson specials ack h
    cases he : ack.error with
    | some e => simp [generateEvents, he] at hd
    | none =>
      by_cases hf : ack.finished
      · obtain ⟨n, hend⟩ :=
          onEnd_inOrder validJson specials ack.finishReason ack.matchedStop hnumbered
        refine ⟨n, ?_⟩
        simp only [generateEvents, he, hf, ↓reduceIte]
        exact Transcript.acceptAll_append hreply hend
      · simp only [generateEvents, he, hf, Bool.false_eq_true, ↓reduceIte] at hd ⊢
        obtain ⟨n, hrest⟩ := ih hnumbered hd
        exact ⟨n, Transcript.acceptAll_append hreply hrest⟩

omit [ReasoningParser ρ] in
theorem init_numbered (reasoningParser : Option ρ) (parseTools : Bool) (toolParser : Option τ) :
    (init reasoningParser parseTools toolParser).sink.Numbered ∧
      (init reasoningParser parseTools toolParser).sink.transcript = {} := by
  unfold init
  cases parseTools with
  | false => exact ⟨trivial, rfl⟩
  | true =>
    cases toolParser with
    | none => exact ⟨trivial, rfl⟩
    | some p =>
      have hnone : ToolAssembly.Numbered ({ parser := p } : ToolAssembly τ) := by
        simp [ToolAssembly.Numbered]
      by_cases hs : FunctionCallParser.supportsStreaming p
      · simp only [↓reduceIte, hs]
        exact ⟨hnone, rfl⟩
      · simp only [↓reduceIte, hs]
        exact ⟨trivial, rfl⟩

end Generation

end FreeToken
