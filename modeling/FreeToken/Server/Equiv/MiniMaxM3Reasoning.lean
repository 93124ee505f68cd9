import FreeToken.Server.Equiv.ReasoningParser

/-!
# The two modes of the MiniMax-M3 reasoning parser

The one-shot parser splits a completion verbatim (`BaseReasoningParser.verbatim`).  What the
streaming one does is said part by part.

* `stream_verbatim`: the reasoning, where its end has no whitespace and tool markers in it are near.
* `stream_singleton_end`, `stream_cut_end`: chunkings of other reasoning that are not split so.
* `stream_new`: a bare closing marker at the head, in any chunks.
-/

namespace FreeToken

open List

open ReasoningParser (stream)

variable {text body before x y : Text} {chunks : List Text} {e t i : ℕ}

namespace BaseReasoningParser

variable {p : BaseReasoningParser}

/-- The split of the reasoning and what follows, with nothing trimmed. -/
def verbatim (p : BaseReasoningParser) (body : Text) : Text × Text :=
  match Text.partition p.thinkEndToken body with
  | some out => out
  | none =>
    match p.toolStartToken.bind fun tok => Text.find tok body with
    | some t => (body.take t, body.drop t)
    | none => (body, [])

/-- No whitespace is at the end of the reasoning, and tool markers in it are near the closing one.
-/
def BodyOk (p : BaseReasoningParser) (body : Text) : Prop :=
  ∀ e, Text.find p.thinkEndToken body = some e → Text.rstrip (body.take e) = body.take e ∧
    ∀ tok t, p.toolStartToken = some tok → tok <+: body.drop t → t < e →
      e + p.thinkEndToken.length ≤ t + toolHoldMax + 1

theorem verbatim_of_end (h : Text.find p.thinkEndToken body = some e) :
    p.verbatim body = (body.take e, body.drop (e + p.thinkEndToken.length)) := by
  unfold verbatim Text.partition
  rw [h]
  rfl

theorem verbatim_of_tool {tok : Text} (h : Text.find p.thinkEndToken body = none)
    (htok : p.toolStartToken = some tok)
    (ht : Text.find tok body = some t) : p.verbatim body = (body.take t, body.drop t) := by
  unfold verbatim Text.partition
  rw [h, htok]
  simp only [Option.map_none, Option.bind_some, ht]

theorem verbatim_of_none (h : Text.find p.thinkEndToken body = none)
    (htool : ∀ tok, p.toolStartToken = some tok → Text.find tok body = none) :
    p.verbatim body = (body, []) := by
  unfold verbatim Text.partition
  rw [h]
  cases htok : p.toolStartToken with
  | none => rfl
  | some tok => simp only [Option.map_none, Option.bind_some, htool tok htok]

/-- Every chunking of such reasoning is split verbatim. -/
theorem stream_verbatim (hm : p.MarkersOk) (hin : p.inReasoning = true) (hbuf : p.buffer = [])
    (hq : p.Quiet chunks.flatten) (h : p.BodyOk chunks.flatten) :
    stream p chunks = p.verbatim chunks.flatten := by
  have hbuffered := Buffered.of_empty hm hbuf
  have hall : p.buffer ++ chunks.flatten = chunks.flatten := by rw [hbuf, nil_append]
  cases hend : Text.find p.thinkEndToken chunks.flatten with
  | some e =>
    obtain ⟨hsolid, hnear⟩ := h e hend
    obtain ⟨ws, hws, hreasoning, hnormal⟩ := stream_reasoning_end hm hin hbuffered hq
      (by rw [hall]; exact hend) (by rw [hall]; exact hnear)
    rw [hall] at hreasoning hnormal
    have hnil : ws = [] := by
      have hrstrip := Text.rstrip_append_blank (x := (stream p chunks).1) hws
      rw [hreasoning, hsolid, ← hreasoning] at hrstrip
      have hlen := congrArg List.length hrstrip
      have hle : (Text.rstrip (stream p chunks).1).length ≤ (stream p chunks).1.length := by
        obtain ⟨w, -, hw⟩ := Text.exists_rstrip_append (stream p chunks).1
        have hwlen := congrArg List.length hw
        rw [length_append] at hwlen
        omega
      rw [length_append] at hlen
      exact List.length_eq_zero_iff.mp (by omega)
    rw [hnil, append_nil] at hreasoning
    rw [verbatim_of_end hend, ← hreasoning, ← hnormal]
  | none =>
    by_cases htool : ∃ tok t, p.toolStartToken = some tok ∧ Text.find tok chunks.flatten = some t
    · obtain ⟨tok, t, htok, ht⟩ := htool
      rw [verbatim_of_tool hend htok ht, stream_reasoning_tool hm hin hbuffered hq
        (by rw [hall]; exact hend) htok (by rw [hall]; exact ht), hall]
    · have hnone : ∀ tok, p.toolStartToken = some tok → Text.find tok chunks.flatten = none := by
        intro tok htok
        by_contra hsome
        obtain ⟨t, ht⟩ := Option.ne_none_iff_exists'.mp hsome
        exact htool ⟨tok, t, htok, ht⟩
      rw [verbatim_of_none hend hnone, stream_reasoning_open hm hin hbuffered hq
        (by rw [hall]; exact hend) (by rw [hall]; exact hnone), hall]

/-! ### Chunkings that tell the modes apart -/

/-- The whole text up to the end of a closing marker in one chunk: whitespace before the marker is
lost. -/
theorem stream_singleton_end (hin : p.inReasoning = true) (hbuf : p.buffer = []) (hq : p.Quiet text)
    (hend : Text.find p.thinkEndToken text = some e) :
    stream p [text] = (Text.rstrip (text.take e), text.drop (e + p.thinkEndToken.length)) := by
  have hstep : p.parseStreamingIncrement text = p.parseMarkers text := by
    have h := @increment_of_quiet p [] text (by rwa [append_nil])
    rwa [hbuf, nil_append] at h
  rw [stream_cons, hstep, parseMarkers_end hin hend]
  show (_ ++ [], _ ++ []) = _
  rw [append_nil, append_nil]

/-- A chunk that ends inside of a far closing marker: the tool marker ends the reasoning. -/
theorem stream_cut_end {tok : Text} (hm : p.MarkersOk) (hin : p.inReasoning = true)
    (hbuf : p.buffer = [])
    (hq : p.Quiet text) (hend : Text.find p.thinkEndToken text = some e)
    (htok : p.toolStartToken = some tok)
    (hpre : tok <+: text.drop t) (hlt : t < e)
    (hfar : t + toolHoldMax + 1 < e + p.thinkEndToken.length) :
    (stream p
      [text.take (e + p.thinkEndToken.length - 1), text.drop (e + p.thinkEndToken.length - 1)]).1 ≠
      text.take e := by
  have hadd := Text.find_add_le hend
  have hpos := List.length_pos_iff.mpr hm.solid_end.ne_nil
  -- the text is cut one character before the closer ends
  obtain ⟨m, hmval⟩ : ∃ m, e + p.thinkEndToken.length - 1 = m := ⟨_, rfl⟩
  rw [hmval]
  have hsplit : text.take m ++ text.drop m = text := take_append_drop m text
  have hlen : (text.take m).length = m := by
    rw [length_take]
    omega
  have hnone : Text.find p.thinkEndToken (text.take m) = none := by
    by_contra hsome
    obtain ⟨e', he'⟩ := Option.ne_none_iff_exists'.mp hsome
    have hadd' := Text.find_add_le he'
    have heq := Text.find_append (u := text.drop m) he'
    rw [hsplit, hend, Option.some.injEq] at heq
    omega
  have hapart := (hm.tool tok htok).2.2.le_of_starts hpre (Text.find_eq_some hend).1 hlt.le
  have hin' : tok <+: (text.take m).drop t := by
    rw [drop_take]
    apply List.prefix_take_iff.mpr
    exact ⟨hpre, by omega⟩
  obtain ⟨t', ht', hfind⟩ := Text.find_le hin'
  -- too much stands behind the tool marker to be held back
  have hlong : toolHoldMax < ((text.take m).drop t').length := by
    rw [length_drop, hlen]
    omega
  have hstep : p.parseStreamingIncrement (text.take m) =
      ({ p with buffer := [], inReasoning := false }, (text.take m).take t',
        (text.take m).drop t') := by
    have h := @increment_of_quiet p (text.drop m) (text.take m) (by rwa [hsplit])
    rw [hbuf, nil_append] at h
    rw [h, parseMarkers_tool hin hnone htok (hm.solid_tool tok htok).ne_nil hfind]
    unfold holdTool
    simp only [hlong, if_true]
  have hquiet : Quiet { p with buffer := [], inReasoning := false } [text.drop m].flatten := by
    rw [flatten_singleton]
    rcases hq with hq | hq
    · exact Or.inl hq
    · right
      intro hin
      rw [hbuf, nil_append] at hq
      exact hq (hin.trans (drop_suffix m text).isInfix)
  have hrest :=
    @stream_normal { p with buffer := [], inReasoning := false } [text.drop m] rfl hquiet
  rw [stream_cons, hstep, hrest]
  intro heq
  have hlength := congrArg List.length heq
  simp only [append_nil, length_take] at hlength
  omega

/-- Whatever is in the reasoning, nothing is longer than the text, and a closing marker is lost. -/
theorem length_stream_singleton (hm : p.MarkersOk) (hin : p.inReasoning = true)
    (hbuf : p.buffer = []) (hq : p.Quiet text) :
    (stream p [text]).1.length + (stream p [text]).2.length +
      (if p.thinkEndToken <:+: text then p.thinkEndToken.length else 0) ≤ text.length := by
  by_cases hin' : p.thinkEndToken <:+: text
  · obtain ⟨e, he⟩ := Text.find_of_infix hin'
    have hadd := Text.find_add_le he
    obtain ⟨w, -, hw⟩ := Text.exists_rstrip_append (text.take e)
    have hlen := congrArg List.length hw
    rw [length_append, length_take] at hlen
    rw [stream_singleton_end hin hbuf hq he, if_pos hin', length_drop]
    show (Text.rstrip (text.take e)).length + _ + _ ≤ _
    omega
  · have hverbatim := @stream_verbatim [text] p hm hin hbuf (by rwa [flatten_singleton]) (by
      rw [flatten_singleton]
      intro e he
      exact absurd (Text.find_isSome.mp (by rw [he]; rfl)) hin')
    rw [flatten_singleton] at hverbatim
    have hnone := Text.find_eq_none.mpr hin'
    rw [if_neg hin', hverbatim]
    unfold verbatim Text.partition
    rw [hnone]
    simp only [Option.map_none]
    split
    · rw [length_take, length_drop]
      omega
    · simp

theorem stream_of_start {cs : List Text} (hbuf : p.buffer = [])
    (hstrip : p.strippedThinkStart = false) (hfind : Text.find p.thinkStartToken text = some i) :
    stream p (text :: cs) =
      stream p.opened ((text.take i ++ text.drop (i + p.thinkStartToken.length)) :: cs) := by
  have hfind' : Text.find p.thinkStartToken (p.buffer ++ text) = some i := by
    rw [hbuf, nil_append]
    exact hfind
  rw [stream_cons, stream_cons, increment_of_start hstrip hfind', hbuf, nil_append]
  rfl

end BaseReasoningParser

namespace MiniMaxM3ReasoningParser

open BaseReasoningParser

/-! ### The markers -/

def thinkStart : Text := "<mm:think>".toList

def thinkEnd : Text := "</mm:think>".toList

def toolStart : Text := "]<]minimax[>[<tool_call>".toList

variable {f s : Bool}

theorem base_start : (new f s).base.thinkStartToken = thinkStart := rfl

theorem base_end : (new f s).base.thinkEndToken = thinkEnd := rfl

theorem trackedTokens_base : (new f s).base.trackedTokens = [thinkEnd, thinkStart, toolStart] := rfl

theorem solidEnds_start : Text.SolidEnds thinkStart :=
    ⟨'<', '>', by decide, by decide, by decide, by decide⟩

theorem solidEnds_end : Text.SolidEnds thinkEnd :=
    ⟨'<', '>', by decide, by decide, by decide, by decide⟩

theorem solidEnds_tool : Text.SolidEnds toolStart :=
    ⟨']', '>', by decide, by decide, by decide, by decide⟩

theorem markersOk_base : (new f s).base.MarkersOk := by
  refine ⟨solidEnds_start.ne_nil, solidEnds_end, ?_, ⟨?_, ?_⟩, ?_⟩
  · intro tok htok
    obtain rfl := Option.some.inj htok
    exact solidEnds_tool
  · show Apart thinkStart thinkEnd
    decide
  · show Apart thinkEnd thinkStart
    decide
  · intro tok htok
    obtain rfl := Option.some.inj htok
    show (Apart thinkStart toolStart ∧ Apart toolStart thinkStart) ∧ Apart thinkEnd toolStart ∧
      Apart toolStart thinkEnd
    decide

theorem markersOk_opened : (new f s).base.opened.MarkersOk :=
    (@markersOk_base f s).of_eq rfl rfl rfl

theorem noBorder_tool : NoBorder toolStart := by decide

/-! ### A closing marker at the head -/

theorem stream_chunk {p : MiniMaxM3ReasoningParser} (chunk : Text) : stream p (chunk :: chunks) =
    ((p.parseStreamingIncrement chunk).2.1 ++ (stream (p.parseStreamingIncrement chunk).1 chunks).1,
      (p.parseStreamingIncrement chunk).2.2 ++
      (stream (p.parseStreamingIncrement chunk).1 chunks).2) := rfl

theorem stream_of_not_pending {p : MiniMaxM3ReasoningParser} (h : p.leadingCloserPending = false) :
    stream p chunks = stream p.base chunks := by
  induction chunks generalizing p with
  | nil =>
    show p.flush = p.base.flush
    unfold flush
    rw [h, if_neg (by simp)]
  | cons chunk chunks ih =>
    have hstep : p.parseStreamingIncrement chunk = p.superIncrement chunk := by
      unfold parseStreamingIncrement
      rw [h, if_neg (by simp)]
    have hrest := @ih (p.superIncrement chunk).1 h
    rw [stream_chunk, hstep, hrest, stream_cons]
    rfl

def afterHead (text : Text) : Text :=
  if thinkEnd <+: Text.lstrip text then (Text.lstrip text).drop thinkEnd.length else text

theorem set_inReasoning {b : BaseReasoningParser} (h : b.inReasoning = false) :
    { b with inReasoning := false } = b := by
  rw [← h]

theorem stream_pending {p : MiniMaxM3ReasoningParser} (hp : p.leadingCloserPending = true)
    (hend : p.base.thinkEndToken = thinkEnd) (hin : p.base.inReasoning = false)
    (hhead : ¬thinkEnd <+: Text.lstrip p.headBuffer) :
    ∃ chunks', chunks'.flatten = afterHead (p.headBuffer ++ chunks.flatten) ∧
      stream p chunks = stream p.base chunks' := by
  induction chunks generalizing p with
  | nil =>
    rw [flatten_nil, append_nil]
    unfold afterHead
    rw [if_neg hhead]
    by_cases hnil : p.headBuffer = []
    · refine ⟨[], hnil.symm, ?_⟩
      show p.flush = p.base.flush
      unfold flush
      rw [if_neg fun h => h.2 hnil]
    · refine ⟨[p.headBuffer], flatten_singleton, ?_⟩
      show p.flush = _
      unfold flush
      rw [if_pos ⟨hp, hnil⟩, stream_cons]
      rfl
  | cons chunk chunks ih =>
    rw [flatten_cons, ← append_assoc]
    generalize hbuffer : p.headBuffer ++ chunk = buffer
    have hstrip : Text.lstrip buffer ≠ [] →
        Text.lstrip (buffer ++ chunks.flatten) = Text.lstrip buffer ++ chunks.flatten :=
          Text.lstrip_append
    by_cases hcloser : thinkEnd <+: Text.lstrip buffer
    · -- a bare closing marker
      have hne : Text.lstrip buffer ≠ [] := by
        intro hnil
        rw [hnil] at hcloser
        exact solidEnds_end.ne_nil (List.prefix_nil.mp hcloser)
      have hafter : afterHead (buffer ++ chunks.flatten) =
          (Text.lstrip buffer).drop thinkEnd.length ++ chunks.flatten := by
        unfold afterHead
        rw [hstrip hne, if_pos (hcloser.trans (prefix_append _ _)),
          drop_append_of_le_length hcloser.length_le]
      by_cases hrest : (Text.lstrip buffer).drop thinkEnd.length = []
      · -- the marker ends with the chunk, and there is nothing to pass on
        have hstep : p.parseStreamingIncrement chunk =
            ({ p with leadingCloserPending := false, headBuffer := [] }, [], []) := by
          rw [← hend] at hcloser hrest
          unfold parseStreamingIncrement
          rw [if_pos hp]
          rw [hbuffer, if_pos hcloser, if_pos hrest, set_inReasoning hin]
        refine ⟨chunks, ?_, ?_⟩
        · rw [hafter, hrest, nil_append]
        · rw [stream_chunk, hstep]
          have hnext := @stream_of_not_pending chunks
            { p with leadingCloserPending := false, headBuffer := [] } rfl
          rw [hnext]
          rfl
      · -- the text behind the marker is passed on
        have hstep : p.parseStreamingIncrement chunk =
            superIncrement { p with leadingCloserPending := false, headBuffer := [] }
              ((Text.lstrip buffer).drop thinkEnd.length) := by
          rw [← hend] at hcloser hrest ⊢
          unfold parseStreamingIncrement
          rw [if_pos hp]
          rw [hbuffer, if_pos hcloser, if_neg hrest, set_inReasoning hin]
        refine ⟨(Text.lstrip buffer).drop thinkEnd.length :: chunks, ?_, ?_⟩
        · rw [hafter, flatten_cons]
        · rw [stream_chunk, hstep]
          have hnext := @stream_of_not_pending chunks
            (superIncrement { p with leadingCloserPending := false, headBuffer := [] }
              ((Text.lstrip buffer).drop thinkEnd.length)).1 rfl
          rw [hnext, stream_cons]
          rfl
    · by_cases hhold : Text.lstrip buffer = [] ∨ Text.lstrip buffer <+: thinkEnd
      · -- the head may still become one
        have hstep :
          p.parseStreamingIncrement chunk = ({ p with headBuffer := buffer }, [], []) := by
          unfold parseStreamingIncrement
          rw [if_pos hp]
          simp only [hbuffer, hend, hcloser, if_false, hhold, if_true]
        obtain ⟨chunks', hflat, hnext⟩ := @ih { p with headBuffer := buffer } hp hend hin hcloser
        refine ⟨chunks', hflat, ?_⟩
        rw [stream_chunk, hstep, hnext]
        rfl
      · -- no marker can come: the head is passed on as a whole
        have hstep : p.parseStreamingIncrement chunk =
            superIncrement { p with leadingCloserPending := false, headBuffer := [] } buffer := by
          unfold parseStreamingIncrement
          rw [if_pos hp]
          simp only [hbuffer, hend, hcloser, if_false, hhold]
        rw [not_or] at hhold
        have hafter : afterHead (buffer ++ chunks.flatten) = buffer ++ chunks.flatten := by
          unfold afterHead
          rw [hstrip hhold.1, if_neg]
          intro hpre
          rcases prefix_or_prefix_of_prefix hpre (prefix_append _ _) with h | h
          · exact hcloser h
          · exact hhold.2 h
        refine ⟨buffer :: chunks, ?_, ?_⟩
        · rw [hafter, flatten_cons]
        · rw [stream_chunk, hstep]
          have hnext := @stream_of_not_pending chunks
            (superIncrement { p with leadingCloserPending := false, headBuffer := [] } buffer).1 rfl
          rw [hnext, stream_cons]
          rfl

theorem stream_new_cons {chunk : Text} (hcloser : ¬thinkEnd <+: Text.lstrip chunk)
    (hhold : ¬Text.lstrip chunk <+: thinkEnd) : stream (new false s) (chunk :: chunks) =
      stream (new false s).base (chunk :: chunks) := by
  have hne : Text.lstrip chunk ≠ [] := by
    intro hnil
    rw [hnil] at hhold
    exact hhold nil_prefix
  have hstep : (new false s).parseStreamingIncrement chunk =
      superIncrement { new false s with leadingCloserPending := false, headBuffer := [] }
        chunk := by
    unfold parseStreamingIncrement
    rw [if_pos (by rfl)]
    have hbuffer : (new false s).headBuffer ++ chunk = chunk := rfl
    simp only [hbuffer, base_end, hcloser, if_false, hne, hhold, or_self]
  rw [stream_chunk, hstep]
  have hnext := @stream_of_not_pending chunks
    (superIncrement { new false s with leadingCloserPending := false, headBuffer := [] } chunk).1
      rfl
  rw [hnext, stream_cons]
  rfl

theorem stream_new (chunks : List Text) : ∃ chunks', chunks'.flatten = afterHead chunks.flatten ∧
    stream (new false s) chunks = stream (new false s).base chunks' :=
  stream_pending (p := new false s) rfl rfl rfl fun h => solidEnds_end.ne_nil (List.prefix_nil.mp h)

end MiniMaxM3ReasoningParser

end FreeToken
