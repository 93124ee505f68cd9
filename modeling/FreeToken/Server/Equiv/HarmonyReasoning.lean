import FreeToken.Server.Equiv.HarmonyScan

/-!
# The Harmony reasoning parser in chunks

* `feed_fst`, `feed_reasoning`, `feed_content`: what has been sent is the scan of the buffer.
* `Agrees`: the stream and the one-shot parse, and what has been sent of it at each time.
* `stream_agrees_iff`: the texts of which all chunkings agree.
-/

namespace FreeToken.GptOssHarmonyReasoningParser

open List

open ReasoningParser (stream)

variable {text : Text}

/-! ### Streams -/

/-- The chunks of a stream, before `flush`: the parser, and what has been sent. -/
def feed : GptOssHarmonyReasoningParser → List Text → GptOssHarmonyReasoningParser × Text × Text
  | p, [] => (p, [], [])
  | p, chunk :: chunks =>
    let (q, reasoning, content) := p.parseStreamingIncrement chunk
    let (q, reasoning', content') := feed q chunks
    (q, reasoning ++ reasoning', content ++ content')

theorem feed_snoc (p : GptOssHarmonyReasoningParser) (chunks : List Text) (chunk : Text) :
    feed p (chunks ++ [chunk]) = (((feed p chunks).1.parseStreamingIncrement chunk).1,
      (feed p chunks).2.1 ++ ((feed p chunks).1.parseStreamingIncrement chunk).2.1,
      (feed p chunks).2.2 ++ ((feed p chunks).1.parseStreamingIncrement chunk).2.2) := by
  induction chunks generalizing p with
  | nil => simp [feed]
  | cons c chunks ih =>
    rw [cons_append]
    simp only [feed, ih, append_assoc]

theorem stream_eq_feed (p : GptOssHarmonyReasoningParser) (chunks : List Text) : stream p chunks =
    ((feed p chunks).2.1 ++ (feed p chunks).1.flush.1, (feed p chunks).2.2 ++
      (feed p chunks).1.flush.2) := by
  induction chunks generalizing p with
  | nil => rfl
  | cons chunk chunks ih =>
    have hstream : stream p (chunk :: chunks) =
        ((p.parseStreamingIncrement chunk).2.1 ++
          (stream (p.parseStreamingIncrement chunk).1 chunks).1,
          (p.parseStreamingIncrement chunk).2.2 ++
            (stream (p.parseStreamingIncrement chunk).1 chunks).2) := rfl
    rw [hstream, ih]
    simp only [feed, append_assoc]

/-- The parser knows the text and how much of its scan has been sent. -/
theorem feed_fst (chunks : List Text) : (feed new chunks).1 =
    { buffer := chunks.flatten
      emittedReasoning := (scan chunks.flatten true).1.length
      emittedContent := (scan chunks.flatten true).2.length } := by
  induction chunks using List.reverseRecOn with
  | nil => rfl
  | append_singleton chunks chunk ih =>
    rw [feed_snoc, ih, flatten_append, flatten_singleton]
    rfl

theorem append_drop_length {u v : Text} (h : u <+: v) : u ++ v.drop u.length = v := by
  obtain ⟨w, rfl⟩ := h
  rw [drop_left]

theorem feed_reasoning (chunks : List Text) :
    (feed new chunks).2.1 = (scan chunks.flatten true).1 := by
  induction chunks using List.reverseRecOn with
  | nil => rfl
  | append_singleton chunks chunk ih =>
    have hpre : (scan chunks.flatten true).1 <+: (scan (chunks.flatten ++ chunk) true).1 :=
      (extends_reasoning _ _ _).flatten
    rw [feed_snoc, feed_fst, ih, flatten_append, flatten_singleton]
    exact append_drop_length hpre

theorem feed_content {chunks : List Text} (h : ClosedTools (segmentsOf chunks.flatten)) :
    (feed new chunks).2.2 = (scan chunks.flatten true).2 := by
  induction chunks using List.reverseRecOn with
  | nil => rfl
  | append_singleton chunks chunk ih =>
    rw [flatten_append, flatten_singleton] at h
    have hpre : (scan chunks.flatten true).2 <+: (scan (chunks.flatten ++ chunk) true).2 :=
      (extends_content h true).flatten
    rw [feed_snoc, feed_fst, ih h.of_append, flatten_append, flatten_singleton]
    exact append_drop_length hpre

theorem extends_whole_reasoning (text : Text) : (scan text true).1 <+: (scan text false).1 := by
  have h := (extends_reasoning text [] false).flatten
  rwa [append_nil] at h

theorem extends_whole_content (h : ClosedTools (segmentsOf text)) :
    (scan text true).2 <+: (scan text false).2 := by
  have h := (extends_content (x := text) (y := []) (by rwa [append_nil]) false).flatten
  rwa [append_nil] at h

theorem stream_reasoning (chunks : List Text) :
    (stream new chunks).1 = (scan chunks.flatten false).1 := by
  rw [stream_eq_feed, feed_reasoning, feed_fst]
  exact append_drop_length (extends_whole_reasoning _)

theorem stream_content {chunks : List Text} (h : ClosedTools (segmentsOf chunks.flatten)) :
    (stream new chunks).2 = (scan chunks.flatten false).2 := by
  rw [stream_eq_feed, feed_content h, feed_fst]
  exact append_drop_length (extends_whole_content h)

/-! ### The parser and itself -/

/-- The parser agrees with itself on these chunks. -/
structure Agrees (chunks : List Text) : Prop where
  reasoning : Text.strip (stream new chunks).1 = Text.strip (detectAndParse chunks.flatten).1
  content : Text.strip (stream new chunks).2 = Text.strip (detectAndParse chunks.flatten).2
  /-- The content that has been sent stays in front of the content of every longer buffer. -/
  kept : ∀ before more after, chunks = before ++ more ++ after →
    (feed new before).2.2 <+: (scan (before ++ more).flatten true).2
  /-- The tool segments and the bodies are those of the whole text, but the last is not complete. -/
  pieces : ∀ before after, chunks = before ++ after →
    Extends (pieces before.flatten true).2 (pieces chunks.flatten false).2
  /-- A body of the whole text has no marker that ends it. -/
  marker : ∀ seg ∈ segmentsOf chunks.flatten, ∀ tok ∈ harmonyBoundaryTokens, ¬tok <:+: seg.body

/-- The texts of which all chunkings agree: a marker is there, or only whitespace, and each tool
segment that is ended is ended by a closing token. -/
def AgreesWhen (text : Text) : Prop :=
  (harmonyChannel <:+: text ∨ Text.Blank text) ∧ ClosedTools (segmentsOf text)

theorem scan_of_not_channel (h : ¬harmonyChannel <:+: text) (hold : Bool) :
    scan text hold = ([], []) := by
  have hopen : opening text = none := by
    unfold opening
    rw [Text.find_eq_none.mpr h]
  rw [scan_eq]
  unfold GptOssHarmonyReasoningParser.pieces
  rw [opening_none _ hopen]
  rfl

theorem agrees_of_agreesWhen {chunks : List Text} (h : AgreesWhen chunks.flatten) :
    Agrees chunks := by
  obtain ⟨hchannel, hclosed⟩ := h
  have hshot :
      Text.strip (scan chunks.flatten false).1 = Text.strip (detectAndParse chunks.flatten).1 ∧
      Text.strip (scan chunks.flatten false).2 = Text.strip (detectAndParse chunks.flatten).2 := by
    unfold detectAndParse
    by_cases hin : harmonyChannel <:+: chunks.flatten
    · rw [if_neg (not_not_intro hin)]
      exact ⟨(Text.strip_strip _).symm, (Text.strip_strip _).symm⟩
    · rw [if_pos hin, scan_of_not_channel hin]
      exact ⟨rfl, (Text.strip_blank (hchannel.resolve_left hin)).symm⟩
  have hsplit :
      ∀ before after, chunks = before ++ after → chunks.flatten = before.flatten ++
      after.flatten := by
    intro before after heq
    rw [heq, flatten_append]
  refine ⟨?_, ?_, ?_, ?_, ?_⟩
  · rw [stream_reasoning]
    exact hshot.1
  · rw [stream_content hclosed]
    exact hshot.2
  · intro before more after heq
    rw [hsplit _ _ heq] at hclosed
    have hmore := hclosed.of_append
    rw [flatten_append] at hmore ⊢
    rw [feed_content hmore.of_append]
    exact (extends_content hmore true).flatten
  · intro before after heq
    rw [hsplit _ _ heq] at hclosed ⊢
    exact extends_content hclosed false
  · intro seg hseg tok htok
    exact body_clean hseg htok

theorem feed_singleton (x : Text) : (feed new [x]).2.2 = (scan x true).2 := by
  have h := feed_snoc new [] x
  rw [nil_append] at h
  rw [h]
  rfl

theorem closedTools_of_agrees (h : ∀ chunks : List Text, chunks.flatten = text → Agrees chunks) :
    ClosedTools (segmentsOf text) := by
  intro seg hseg htool tok hcloser
  by_contra hopen
  obtain ⟨w, tail, before, htext, htok, -, hfirst, hsecond⟩ := exists_before hseg hcloser
  obtain ⟨hone, -⟩ := boundary_ends htok
  -- a chunk ends behind the first character of the token
  have hparts : w ++ ['<'] ++ tok.drop 1 = w ++ tok := by
    rw [append_assoc, ← hone, take_append_drop]
  have hagrees : Agrees [w ++ ['<'], tok.drop 1, tail] := by
    apply h
    rw [htext, ← hparts]
    simp
  have hkept := hagrees.kept [w ++ ['<']] [tok.drop 1] [tail] rfl
  have hflat : ([w ++ ['<']] ++ [tok.drop 1]).flatten = w ++ tok := by
    rw [← hparts]
    simp
  have hpart := hsecond ['<'] _ (Nat.lt_succ_self _) fun t ht => body_part hseg ht
  have hwhole := hfirst _ (Nat.lt_succ_self _)
  have hnormal : isReasoning seg.header = false := by
    unfold isReasoning
    rw [htool]
    rfl
  have hfilter : seg.closer.filter closingBoundaryTokens.contains = none := by
    rw [hcloser, Option.filter_some, if_neg (by simpa using hopen)]
  rw [feed_singleton, hflat, scan_eq, scan_eq] at hkept
  unfold GptOssHarmonyReasoningParser.pieces at hkept
  rw [scanFrom_eq, scanFrom_eq, hpart, hwhole] at hkept
  have hlen := hkept.length_le
  have hshown :
    Segment.shown true seg = harmonyChannel ++ seg.header ++ harmonyMessage ++ seg.body := by
    rw [shown_tool htool, hfilter, Option.getD_none, append_nil]
  have hshown' : Segment.shown true ⟨seg.header, seg.body ++ ['<'], none⟩ =
      harmonyChannel ++ seg.header ++ harmonyMessage ++ (seg.body ++ ['<']) := by
    have h := @shown_tool true ⟨seg.header, seg.body ++ ['<'], none⟩ htool
    rw [h, Option.filter_none, Option.getD_none, append_nil]
  simp only [filter_append, filter_singleton, hnormal, Bool.not_false, cond_true, map_append,
    map_singleton, flatten_append, flatten_singleton, hshown, hshown', length_append,
    length_singleton] at hlen
  omega

theorem channel_of_agrees (h : Agrees [text]) : harmonyChannel <:+: text ∨ Text.Blank text := by
  by_contra hno
  obtain ⟨hchannel, hblank⟩ := not_or.mp hno
  have hcontent := h.content
  have hclosed : ClosedTools (segmentsOf [text].flatten) := by
    intro seg hseg
    rw [flatten_singleton] at hseg
    unfold segmentsOf segments at hseg
    split at hseg
    · exact absurd hseg not_mem_nil
    · rename_i hopen
      exact absurd (channel_of_opening hopen) hchannel
  rw [stream_content hclosed, flatten_singleton, scan_of_not_channel hchannel] at hcontent
  unfold detectAndParse at hcontent
  rw [if_pos hchannel] at hcontent
  apply hblank
  obtain ⟨w, u, hw, hu, htext⟩ := Text.eq_append_strip text
  have hnil : Text.strip text = [] := hcontent.symm
  rw [hnil, append_nil] at htext
  rw [htext]
  exact hw.append hu

/-- All chunkings of a text agree with its one-shot parse, exactly if it is one of these. -/
theorem stream_agrees_iff (text : Text) :
    (∀ chunks : List Text, chunks.flatten = text → Agrees chunks) ↔ AgreesWhen text := by
  constructor
  · intro h
    exact ⟨channel_of_agrees (h [text] flatten_singleton), closedTools_of_agrees h⟩
  · rintro h chunks rfl
    exact agrees_of_agreesWhen h

/-- A text without a marker, and a tool segment that the next one abuts on: the part of the marker
that is sent with it is taken back. -/
theorem not_agrees : ¬Agrees ["hello".toList] ∧
    ¬Agrees ["<|channel|>commentary to=functions.f<|message|>{}<|ch".toList, "annel|>".toList] := by
  constructor
  · intro h
    exact absurd h.content (by decide)
  · intro h
    exact absurd
      (h.kept ["<|channel|>commentary to=functions.f<|message|>{}<|ch".toList] ["annel|>".toList] [] rfl)
      (by decide +kernel)

end FreeToken.GptOssHarmonyReasoningParser
