import FreeToken.Lib.HoldBack
import FreeToken.Server.FunctionCallParser
import FreeToken.Utils.Equiv.Text

/-!
# Text without a tool call

`passesThrough_iff`: when the detectors whose calls are JSON objects pass a text through that has no
tool call.
-/

namespace FreeToken

open List

/-! ### `_ends_with_partial_token` -/

theorem endsWithPartialToken_part (buffer token : Text) :
    endsWithPartialToken buffer token = 0 ∧ ¬EndsInPart token buffer ∨
      endsWithPartialToken buffer token ≤ buffer.length ∧
        IsPart token (buffer.drop (buffer.length - endsWithPartialToken buffer token)) := by
  unfold endsWithPartialToken
  cases hfind : (range' 1 (min buffer.length (token.length - 1))).find?
      fun i => buffer.drop (buffer.length - i) <+: token with
  | none =>
    left
    refine ⟨rfl, ?_⟩
    rintro ⟨p, hp, hsuf⟩
    have hlen := hsuf.length_le
    have hlt := hp.lt
    have hpos := length_pos_iff.mpr hp.ne
    have hno := find?_eq_none.mp hfind p.length (by rw [mem_range'_1]; omega)
    rw [← suffix_iff_eq_drop.mp hsuf] at hno
    exact hno (by simpa using hp.pre)
  | some i =>
    right
    have hmem := mem_of_find?_eq_some hfind
    have hpre := find?_some hfind
    rw [mem_range'_1] at hmem
    have hi : i ≤ buffer.length := by omega
    show i ≤ buffer.length ∧ IsPart token (buffer.drop (buffer.length - i))
    have hlen : (buffer.drop (buffer.length - i)).length = i := by
      rw [length_drop]
      omega
    refine ⟨hi, ?_, ?_, of_decide_eq_true hpre⟩
    · rw [← length_pos_iff, hlen]
      omega
    · rw [hlen]
      omega

theorem endsWithPartialToken_eq_zero {buffer token : Text} :
    endsWithPartialToken buffer token = 0 ↔ ¬EndsInPart token buffer := by
  rcases endsWithPartialToken_part buffer token with ⟨h, hnot⟩ | ⟨hle, hp⟩
  · exact ⟨fun _ => hnot, fun _ => h⟩
  · constructor
    · intro h
      rw [h, Nat.sub_zero, drop_length] at hp
      exact absurd rfl hp.ne
    · intro h
      exact absurd ⟨_, hp, drop_suffix _ buffer⟩ h

instance (token : Text) : DecidablePred (EndsInPart token) := fun buffer =>
  decidable_of_iff (endsWithPartialToken buffer token ≠ 0) (by
    rw [Ne, endsWithPartialToken_eq_zero, not_not])

theorem stripEot_sublist (eotToken text : Text) : (stripEot eotToken text).Sublist text := by
  unfold stripEot
  split_ifs
  · exact List.Sublist.refl text
  · exact Text.remove_sublist eotToken text

/-! ### Streams -/

section Feed

variable {δ : Type} [FormatDetector δ] {table : ToolTable} {d d' : δ} {chunks : List Text}
  {res : StreamingParseResult}

theorem feedChunks_append_singleton (table : ToolTable) (d : δ) (chunks : List Text)
    (chunk : Text) :
    feedChunks table d (chunks ++ [chunk]) = (feedChunks table d chunks).bind fun r =>
      (FormatDetector.parseStreamingIncrement table r.1 chunk).map fun next =>
        (next.1, ⟨r.2.normalText ++ next.2.normalText, r.2.calls ++ next.2.calls⟩) := by
  induction chunks generalizing d with
  | nil => cases hp : FormatDetector.parseStreamingIncrement table d chunk <;> simp [feedChunks, hp]
  | cons c chunks ih =>
    rw [cons_append]
    cases hp : FormatDetector.parseStreamingIncrement table d c with
    | none => simp [feedChunks, hp]
    | some first =>
      cases hf : feedChunks table first.1 chunks with
      | none => simp [feedChunks, hp, ih, hf]
      | some rest =>
        cases hc : FormatDetector.parseStreamingIncrement table rest.1 chunk <;>
          simp [feedChunks, hp, ih, hf, hc]

theorem feedChunks_snoc {d'' : δ} {next : StreamingParseResult} {chunk : Text}
    (h : feedChunks table d chunks = some (d', res))
    (hstep : FormatDetector.parseStreamingIncrement table d' chunk = some (d'', next)) :
    feedChunks table d (chunks ++ [chunk]) =
      some (d'', ⟨res.normalText ++ next.normalText, res.calls ++ next.calls⟩) := by
  rw [feedChunks_append_singleton, h, Option.bind_some, hstep]
  rfl

theorem streamChunks_eq (h : feedChunks table d chunks = some (d', res)) :
    streamChunks table d chunks =
      some (res.normalText ++ FormatDetector.finishStreaming d', res.calls) := by
  simp [streamChunks, h]

end Feed

variable {chunks : List Text}

namespace BaseFormatDetector

variable {fmt : JsonFormat} {s : BaseFormatDetector} {chunk : Text}

/-- No call has been seen, and the buffer is what must be held of the text. -/
structure Idle (fmt : JsonFormat) (chunks : List Text) (s : BaseFormatDetector) : Prop where
  toolId : s.currentToolId = -1
  nameSent : s.currentToolNameSent = false
  prev : s.prevToolCallArr = []
  buffer : s.buffer = held fmt.botToken chunks

theorem Idle.init : Idle fmt [] {} where
  toolId := rfl
  nameSent := rfl
  prev := rfl
  buffer := held_nil.symm

theorem Idle.finishStreaming (h : s.Idle fmt chunks) (hno : fmt.hasToolCall s.buffer = false) :
    s.finishStreaming fmt = stripEot fmt.eotToken s.buffer := by
  by_cases hb : s.buffer = []
  · have hnil : stripEot fmt.eotToken [] = [] := sublist_nil.mp (stripEot_sublist _ _)
    simp [BaseFormatDetector.finishStreaming, hb, hnil]
  · simp [BaseFormatDetector.finishStreaming, hb, hno, h.nameSent, h.prev]

/-- The buffer is an end of the text. -/
theorem Idle.infix_flatten (h : s.Idle fmt chunks) :
    s.buffer ++ chunk <:+ (chunks ++ [chunk]).flatten := by
  rw [h.buffer, flatten_append, ← @released_append_held _ fmt.botToken, append_assoc]
  simp

variable [JsonLib]

theorem Idle.parse_eq (h : s.Idle fmt chunks) (table : ToolTable)
    (hno : fmt.hasToolCall (s.buffer ++ chunk) = false) :
    s.parseStreamingIncrement fmt table chunk =
      if EndsInPart fmt.botToken (chunks.flatten ++ chunk) then
        ({ s with buffer := s.buffer ++ chunk }, {})
      else ({ s with buffer := [] },
        { normalText := stripEot fmt.eotToken (s.buffer ++ chunk) }) := by
  have hstart : startsToolCall fmt { s with buffer := s.buffer ++ chunk } = false := by
    simp [startsToolCall, hno, h.toolId]
  have hend :
      EndsInPart fmt.botToken (chunks.flatten ++ chunk) ↔
      EndsInPart fmt.botToken (s.buffer ++ chunk) := by
    rw [endsInPart_flatten_append, h.buffer]
  simp only [parseStreamingIncrement, hstart, Bool.false_eq_true, if_false, idle,
    endsWithPartialToken_eq_zero, hend]
  split_ifs <;> rfl

theorem Idle.parse (h : s.Idle fmt chunks) (table : ToolTable)
    (hno : fmt.hasToolCall (s.buffer ++ chunk) = false) :
    ∃ s' text, s.parseStreamingIncrement fmt table chunk = (s', { normalText := text }) ∧
      s'.Idle fmt (chunks ++ [chunk]) ∧
      (text = [] ∧ released fmt.botToken (chunks ++ [chunk]) = released fmt.botToken chunks ∨
        text = stripEot fmt.eotToken (s.buffer ++ chunk) ∧
          released fmt.botToken (chunks ++ [chunk]) = released fmt.botToken chunks ++
            (s.buffer ++ chunk)) := by
  rw [h.parse_eq table hno]
  have hheld := @held_snoc _ fmt.botToken _ chunks chunk
  have hreleased := @released_snoc _ fmt.botToken _ chunks chunk
  split_ifs at hheld hreleased ⊢ with hpart
  · refine ⟨_, _, rfl, ⟨h.toolId, h.nameSent, h.prev, ?_⟩, Or.inl ⟨rfl, hreleased⟩⟩
    rw [hheld, h.buffer]
  · refine ⟨_, _, rfl, ⟨h.toolId, h.nameSent, h.prev, hheld.symm⟩, Or.inr ⟨rfl, ?_⟩⟩
    rw [hreleased, h.buffer, ← append_assoc, released_append_held]

end BaseFormatDetector

open BaseFormatDetector

variable [JsonLib]

/-! ### `MistralDetector` -/

omit [JsonLib] in
theorem stripEot_mistral (text : Text) :
    stripEot mistralFormat.eotToken text = text.filter (· ≠ ']') :=
  Text.remove_singleton ']' text

theorem mistral_feed (table : ToolTable) (h : ¬mistralFormat.botToken <:+: chunks.flatten) :
    ∃ d res, feedChunks table (⟨{}⟩ : MistralDetector) chunks = some (d, res) ∧
      d.toBaseFormatDetector.Idle mistralFormat chunks ∧
      res.normalText = (released mistralFormat.botToken chunks).filter (· ≠ ']') := by
  induction chunks using reverseRecOn with
  | nil => exact ⟨⟨{}⟩, {}, rfl, Idle.init, by simp⟩
  | append_singleton chunks chunk ih =>
    have hpre : ¬mistralFormat.botToken <:+: chunks.flatten := fun hin =>
      h (by rw [flatten_append]; exact hin.trans (prefix_append _ _).isInfix)
    obtain ⟨d, res, hfeed, hidle, htext⟩ := ih hpre
    have hno : mistralFormat.hasToolCall (d.buffer ++ chunk) = false :=
      decide_eq_false fun hin => h (hin.trans hidle.infix_flatten.isInfix)
    obtain ⟨s', text, hparse, hidle', hrel⟩ := hidle.parse table hno
    have hstep : FormatDetector.parseStreamingIncrement table d chunk =
        some ((⟨s'⟩ : MistralDetector), { normalText := text }) := by
      simp [FormatDetector.parseStreamingIncrement, hparse]
    refine ⟨⟨s'⟩, _, feedChunks_snoc hfeed hstep, hidle', ?_⟩
    rcases hrel with ⟨rfl, hr⟩ | ⟨rfl, hr⟩
    · rw [hr, htext]
      simp
    · rw [hr, filter_append, ← htext, ← stripEot_mistral]

theorem mistral_stream (table : ToolTable) (h : ¬mistralFormat.botToken <:+: chunks.flatten) :
    ∃ calls, streamChunks table (⟨{}⟩ : MistralDetector) chunks =
      some (chunks.flatten.filter (· ≠ ']'), calls) := by
  obtain ⟨d, res, hfeed, hidle, htext⟩ := mistral_feed table h
  have hno : mistralFormat.hasToolCall d.buffer = false := by
    apply decide_eq_false
    intro hin
    rw [hidle.buffer] at hin
    rw [← @released_append_held _ mistralFormat.botToken] at h
    exact h (hin.trans (suffix_append _ _).isInfix)
  refine ⟨res.calls, ?_⟩
  rw [streamChunks_eq hfeed]
  show some (res.normalText ++ d.toBaseFormatDetector.finishStreaming mistralFormat, res.calls) = _
  rw [hidle.finishStreaming hno, stripEot_mistral, htext, hidle.buffer, ← filter_append,
    released_append_held]

/-! ### `Qwen25Detector` -/

/-- The held end of a text is its part of the end token, if it has one. -/
def HeldEnd (eotToken text heldEnd : Text) : Prop :=
  heldEnd <:+ text ∧ (heldEnd = [] ∧ ¬EndsInPart eotToken text ∨ IsPart eotToken heldEnd)

variable {text : Text}

namespace Qwen25Detector

omit [JsonLib] in
theorem splitNormalText_sublist (text : Text) :
    ((splitNormalText text).1 ++ (splitNormalText text).2).Sublist text := by
  unfold splitNormalText
  split_ifs
  · rw [append_nil]
    exact Text.remove_sublist _ text
  · rw [take_append_drop]

omit [JsonLib] in
theorem splitNormalText_length_lt (h : qwen25Format.eotToken <:+: text) :
    ((splitNormalText text).1 ++ (splitNormalText text).2).length < text.length := by
  rw [splitNormalText, if_pos h, append_nil]
  exact Text.remove_length_lt (by decide) h

omit [JsonLib] in
theorem splitNormalText_eq_self (h : ¬qwen25Format.eotToken <:+: text) :
    (splitNormalText text).1 ++ (splitNormalText text).2 = text ∧
      HeldEnd qwen25Format.eotToken text (splitNormalText text).2 := by
  rw [splitNormalText, if_neg h]
  refine ⟨take_append_drop _ text, drop_suffix _ text, ?_⟩
  rcases endsWithPartialToken_part text qwen25Format.eotToken with ⟨hzero, hnot⟩ | ⟨-, hp⟩
  · left
    exact ⟨by simp [hzero], hnot⟩
  · exact Or.inr hp

/-- What the detector has sent and holds, of the text that `BaseFormatDetector` let through: all of
it, or less if the end token occurred. -/
def Sent (through sent heldEnd : Text) : Prop :=
  ¬qwen25Format.eotToken <:+: through ∧ sent ++ heldEnd = through ∧
      HeldEnd qwen25Format.eotToken through heldEnd ∨
    qwen25Format.eotToken <:+: through ∧ (sent ++ heldEnd).length < through.length

variable {through sent heldEnd : Text}

omit [JsonLib] in
theorem stripEot_qwen25_length_lt (h : qwen25Format.eotToken <:+: text) :
    (stripEot qwen25Format.eotToken text).length < text.length := by
  rw [stripEot, if_neg (by decide)]
  exact Text.remove_length_lt (by decide) h

omit [JsonLib] in
theorem stripEot_eq_self {eotToken : Text} (h : ¬eotToken <:+: text) :
    stripEot eotToken text = text := by
  unfold stripEot
  split_ifs
  · rfl
  · exact Text.remove_eq_self h

omit [JsonLib] in
/-- Text without the end token, behind text without it. -/
private theorem Sent.append_clean (h : Sent through sent heldEnd)
    (hno : ¬qwen25Format.eotToken <:+: through)
    (text : Text) : Sent (through ++ text) (sent ++ (splitNormalText (heldEnd ++ text)).1)
      (splitNormalText (heldEnd ++ text)).2 := by
  obtain ⟨-, happ, hsuf, hend⟩ := h.resolve_right fun hr => hno hr.1
  have hiff :
      qwen25Format.eotToken <:+: through ++ text ↔ qwen25Format.eotToken <:+: heldEnd ++ text :=
    infix_held_append (by decide) hno hsuf hend
  by_cases hin : qwen25Format.eotToken <:+: heldEnd ++ text
  · right
    refine ⟨hiff.mpr hin, ?_⟩
    have hlt := splitNormalText_length_lt hin
    rw [← happ]
    simp only [length_append] at hlt ⊢
    omega
  · left
    obtain ⟨hsplit, hheld, hpart⟩ := splitNormalText_eq_self hin
    refine ⟨fun hin' => hin (hiff.mp hin'), ?_, ?_, ?_⟩
    · rw [append_assoc, hsplit, ← append_assoc, happ]
    · rw [← happ, append_assoc]
      exact hheld.trans (suffix_append sent _)
    · have hends : EndsInPart qwen25Format.eotToken (through ++ text) ↔
          EndsInPart qwen25Format.eotToken (heldEnd ++ text) :=
            endsInPart_held_append (by decide) hsuf hend
      rw [hends]
      exact hpart

omit [JsonLib] in
/-- Once the end token has occurred, less is sent than came through, whatever follows. -/
private theorem Sent.append_lost (hin : qwen25Format.eotToken <:+: through)
    (hlt : (sent ++ heldEnd).length < through.length) {text' : Text}
    (hle : text'.length ≤ text.length) :
    Sent (through ++ text) (sent ++ (splitNormalText (heldEnd ++ text')).1)
      (splitNormalText (heldEnd ++ text')).2 := by
  right
  refine ⟨hin.trans (prefix_append through text).isInfix, ?_⟩
  have hsub := (splitNormalText_sublist (heldEnd ++ text')).length_le
  simp only [length_append] at hsub hlt ⊢
  omega

omit [JsonLib] in
theorem Sent.append (h : Sent through sent heldEnd) (text : Text) : Sent (through ++ text)
    (sent ++ (splitNormalText (heldEnd ++ stripEot qwen25Format.eotToken text)).1)
    (splitNormalText (heldEnd ++ stripEot qwen25Format.eotToken text)).2 := by
  rcases h with h | ⟨hin, hlt⟩
  · by_cases htext : qwen25Format.eotToken <:+: text
    · right
      refine ⟨htext.trans (suffix_append through text).isInfix, ?_⟩
      have hstrip := stripEot_qwen25_length_lt htext
      have hsub :=
        (splitNormalText_sublist (heldEnd ++ stripEot qwen25Format.eotToken text)).length_le
      have happ := congrArg List.length h.2.1
      simp only [length_append] at hsub happ ⊢
      omega
    · rw [stripEot_eq_self htext]
      exact Sent.append_clean (Or.inl h) h.1 text
  · exact Sent.append_lost hin hlt (stripEot_sublist _ text).length_le

omit [JsonLib] in
theorem Sent.append_nil (h : Sent through sent heldEnd)
    (htext : stripEot qwen25Format.eotToken text = []) : Sent (through ++ text) sent heldEnd := by
  by_cases hnil : text = []
  · subst hnil
    simpa using h
  · -- all of the text was end tokens
    have hin : qwen25Format.eotToken <:+: text := by
      by_contra hno
      rw [stripEot_eq_self hno] at htext
      exact hnil htext
    have hpos := length_pos_iff.mpr hnil
    right
    refine ⟨hin.trans (suffix_append through text).isInfix, ?_⟩
    rcases h with ⟨-, happ, -⟩ | ⟨-, hlt⟩
    · rw [happ, length_append]
      omega
    · exact hlt.trans_le (by simp)

end Qwen25Detector

open Qwen25Detector

theorem qwen25_feed (table : ToolTable) (h : ¬qwen25Format.botToken <:+: chunks.flatten) :
    ∃ d res, feedChunks table ({} : Qwen25Detector) chunks = some (d, res) ∧
      d.toBaseFormatDetector.Idle qwen25Format chunks ∧
      Sent (released qwen25Format.botToken chunks) res.normalText d.normalTextBuffer := by
  induction chunks using reverseRecOn with
  | nil =>
    refine ⟨{}, {}, rfl, Idle.init, Or.inl ⟨by decide, rfl, suffix_rfl, Or.inl ⟨rfl, ?_⟩⟩⟩
    exact EndsInPart.not_nil
  | append_singleton chunks chunk ih =>
    have hpre : ¬qwen25Format.botToken <:+: chunks.flatten := fun hin =>
      h (by rw [flatten_append]; exact hin.trans (prefix_append _ _).isInfix)
    obtain ⟨d, res, hfeed, hidle, hsent⟩ := ih hpre
    have hno : qwen25Format.hasToolCall (d.buffer ++ chunk) = false :=
      decide_eq_false fun hin => h (hin.trans hidle.infix_flatten.isInfix)
    obtain ⟨s', text, hparse, hidle', hrel⟩ := hidle.parse table hno
    by_cases htext : text = []
    · have hres :
          Qwen25Detector.parseStreamingIncrement table d chunk =
          (⟨s', d.normalTextBuffer⟩, {}) := by
        simp [Qwen25Detector.parseStreamingIncrement, hparse, htext]
      refine ⟨_, _, feedChunks_snoc hfeed (congrArg some hres), hidle', ?_⟩
      simp only [append_nil]
      rcases hrel with ⟨-, hr⟩ | ⟨ht, hr⟩
      · rw [hr]
        exact hsent
      · rw [hr]
        exact hsent.append_nil (ht.symm.trans htext)
    · have hres : Qwen25Detector.parseStreamingIncrement table d chunk =
          (⟨s', (splitNormalText (d.normalTextBuffer ++ text)).2⟩,
            { normalText := (splitNormalText (d.normalTextBuffer ++ text)).1 }) := by
        simp [Qwen25Detector.parseStreamingIncrement, hparse, htext]
      refine ⟨_, _, feedChunks_snoc hfeed (congrArg some hres), hidle', ?_⟩
      rcases hrel with ⟨ht, -⟩ | ⟨rfl, hr⟩
      · exact absurd ht htext
      · rw [hr]
        exact hsent.append _

theorem qwen25_stream (table : ToolTable) (h : ¬qwen25Format.botToken <:+: chunks.flatten) :
    ∃ text calls, streamChunks table ({} : Qwen25Detector) chunks = some (text, calls) ∧
      (text = chunks.flatten ↔ ¬qwen25Format.eotToken <:+: released qwen25Format.botToken chunks ∧
        ¬qwen25Format.eotToken <:+: held qwen25Format.botToken chunks) := by
  obtain ⟨d, res, hfeed, hidle, hsent⟩ := qwen25_feed table h
  have hno : qwen25Format.hasToolCall d.buffer = false := by
    apply decide_eq_false
    intro hin
    rw [hidle.buffer] at hin
    rw [← @released_append_held _ qwen25Format.botToken] at h
    exact h (hin.trans (suffix_append _ _).isInfix)
  refine ⟨_, res.calls, streamChunks_eq hfeed, ?_⟩
  show res.normalText ++
    (d.normalTextBuffer ++ d.toBaseFormatDetector.finishStreaming qwen25Format) = _ ↔ _
  rw [hidle.finishStreaming hno, hidle.buffer, ← append_assoc, ← @released_append_held _
    qwen25Format.botToken]
  have hstrip :=
    (stripEot_sublist qwen25Format.eotToken (held qwen25Format.botToken chunks)).length_le
  rcases hsent with ⟨hrel, happ, -⟩ | ⟨hrel, hlt⟩
  · rw [happ, append_cancel_left_eq]
    constructor
    · intro heq
      refine ⟨hrel, fun hheld => ?_⟩
      have hlt := stripEot_qwen25_length_lt hheld
      rw [heq] at hlt
      exact absurd hlt (lt_irrefl _)
    · rintro ⟨-, hheld⟩
      exact stripEot_eq_self hheld
  · constructor
    · intro heq
      have hlen := congrArg List.length heq
      simp only [length_append] at hlen hlt hstrip
      omega
    · rintro ⟨hnot, -⟩
      exact absurd hrel hnot

/-! ### `Llama32Detector` -/

namespace BaseFormatDetector

variable {fmt : JsonFormat} {s : BaseFormatDetector}

omit [JsonLib] in
@[simp]
theorem updatePrev_buffer (call : JsonDict) : (s.updatePrev call).buffer = s.buffer := by
  unfold updatePrev
  split_ifs <;> rfl

omit [JsonLib] in
@[simp]
theorem openTool_buffer : s.openTool.buffer = s.buffer := by
  unfold openTool
  split_ifs <;> rfl

omit [JsonLib] in
theorem completeTool_buffer (endIdx : ℕ) : (s.completeTool fmt endIdx).buffer <:+ s.buffer := by
  simp only [completeTool]
  split_ifs
  · apply (drop_suffix _ _).trans
    exact (dropWhile_suffix _).trans (drop_suffix _ s.buffer)
  · exact drop_suffix _ s.buffer

omit [JsonLib] in
theorem sendName_adds (call : JsonDict) :
    (s.sendName call).2.normalText = [] ∧ (s.sendName call).1.buffer <:+ s.buffer := by
  unfold sendName
  split
  · split_ifs
    · split <;> simp
    · simp
  · simp

theorem sendArguments_adds (call : JsonDict) (endIdx : ℕ) :
    (s.sendArguments fmt call endIdx).2.normalText = [] ∧
      (s.sendArguments fmt call endIdx).1.buffer <:+ s.buffer := by
  unfold sendArguments
  split
  · simp
  · simp
  · split_ifs
    · simpa using completeTool_buffer endIdx
    · dsimp only
      split <;> simp

theorem handleObject_adds (table : ToolTable) (obj : JsonDict) (endIdx : ℕ) :
    (s.handleObject fmt table obj endIdx).2.normalText = [] ∧
      (s.handleObject fmt table obj endIdx).1.buffer <:+ s.buffer := by
  unfold handleObject
  split
  · simp
  · simp
  · split
    · simp
    · split_ifs
      · simp
      · exact sendArguments_adds _ endIdx
      · exact sendName_adds _

omit [JsonLib] in
theorem malformed_sublist :
    ((s.malformed fmt).2.normalText ++ (s.malformed fmt).1.buffer).Sublist s.buffer := by
  unfold malformed
  dsimp only
  split_ifs
  · rw [append_nil]
    exact stripEot_sublist _ _
  · simp

omit [JsonLib] in
theorem malformed_of_brace
    (h : (Text.lstrip (s.buffer.drop (s.startIdx fmt))).head? = some '\x7b') :
    s.malformed fmt = (s, {}) := by
  unfold malformed
  rw [if_neg]
  rintro ⟨-, -, -, hhead, -⟩
  exact hhead h

omit [JsonLib] in
private theorem stripEot_append_nil_sublist :
    (stripEot fmt.eotToken s.buffer ++ []).Sublist s.buffer := by
  rw [append_nil]
  exact stripEot_sublist _ _

theorem toolCall_sublist (table : ToolTable) :
    ((s.toolCall fmt table).2.normalText ++ (s.toolCall fmt table).1.buffer).Sublist s.buffer := by
  unfold toolCall
  split
  · rename_i pos _
    calc (stripEot fmt.eotToken (s.buffer.take (pos + 1)) ++ s.buffer.drop (pos + 1)).Sublist
          (s.buffer.take (pos + 1) ++ s.buffer.drop (pos + 1)) :=
            (stripEot_sublist _ _).append (List.Sublist.refl _)
      _ = s.buffer := take_append_drop _ _
  · split_ifs
    · simp
    · split
      · exact malformed_sublist
      · simp
      · obtain ⟨htext, hbuf⟩ := @handleObject_adds _ fmt s table _ _
        rw [htext, nil_append]
        exact hbuf.sublist
      · simp

theorem parse_sublist (table : ToolTable) (chunk : Text) :
    ((s.parseStreamingIncrement fmt table chunk).2.normalText ++
      (s.parseStreamingIncrement fmt table chunk).1.buffer).Sublist (s.buffer ++ chunk) := by
  unfold parseStreamingIncrement
  simp only
  split_ifs
  · exact toolCall_sublist table
  · unfold idle
    split_ifs
    · exact stripEot_append_nil_sublist
    · simp

theorem toolCall_brace (table : ToolTable) (hbrace : ['\x7b'] <+: s.buffer)
    (hbot : ¬llama32Format.botToken <:+: s.buffer) :
    (s.toolCall llama32Format table).2.normalText = [] ∧
    (s.toolCall llama32Format table).1.buffer <:+ s.buffer := by
  have hfind := Text.find_eq_none.mpr hbot
  obtain ⟨rest, hrest⟩ := hbrace
  have hstart : s.startIdx llama32Format = 0 := by
    unfold startIdx
    rw [hfind]
    rw [if_neg]
    rintro ⟨-, hsep⟩
    have hsemicolon : llama32Format.toolCallSeparator = [';'] := rfl
    rw [hsemicolon, ← hrest] at hsep
    simp at hsep
  unfold toolCall
  rw [hfind]
  simp only
  split_ifs
  · simp
  · split
    · have hhead :
        (Text.lstrip (s.buffer.drop (s.startIdx llama32Format))).head? = some '\x7b' := by
        rw [hstart, ← hrest]
        rfl
      rw [malformed_of_brace hhead]
      simp
    · simp
    · exact handleObject_adds table _ _
    · simp

end BaseFormatDetector

/-- Some chunk starts with a brace where the text before it does not end in a part of the opening
token. -/
def OpensWithBrace (chunks : List Text) : Prop :=
  ∃ pre chunk post, chunks = pre ++ chunk :: post ∧ ¬EndsInPart llama32Format.botToken pre.flatten ∧
    ['\x7b'] <+: chunk

omit [JsonLib] in
theorem opensWithBrace_snoc {chunk : Text} : OpensWithBrace (chunks ++ [chunk]) ↔
    OpensWithBrace chunks ∨ ¬EndsInPart llama32Format.botToken chunks.flatten ∧
      ['\x7b'] <+: chunk :=
  exists_cut_snoc

namespace Llama32Detector

/-- What has become of the text before a chunk: it has been sent but for what must be held, or a
brace that opened a chunk is stuck in the buffer, or is lost. -/
inductive Progress (chunks : List Text) (s : BaseFormatDetector) (text : Text) : Prop where
  | passed (none : ¬OpensWithBrace chunks) (idle : s.Idle llama32Format chunks)
      (text_eq : text = released llama32Format.botToken chunks) (no_brace : ¬['\x7b'] <+: s.buffer)
  | stuck (opens : OpensWithBrace chunks) (buffer : s.buffer <:+ chunks.flatten)
      (brace : ['\x7b'] <+: s.buffer)
      (count_le : (text ++ s.buffer).count '\x7b' ≤ chunks.flatten.count '\x7b')
  | lost (opens : OpensWithBrace chunks)
      (count_lt : (text ++ s.buffer).count '\x7b' < chunks.flatten.count '\x7b')

variable {s : BaseFormatDetector} {text chunk : Text}

omit [JsonLib] in
theorem hasToolCall_of_brace (h : ['\x7b'] <+: text) : llama32Format.hasToolCall text = true :=
  decide_eq_true (Or.inr h)

omit [JsonLib] in
theorem hasToolCall_of_not (hbot : ¬llama32Format.botToken <:+: text) (h : ¬['\x7b'] <+: text) :
    llama32Format.hasToolCall text = false :=
  decide_eq_false (not_or.mpr ⟨hbot, h⟩)

omit [JsonLib] in
private theorem suffix_brace {t u : Text} (h : t <:+ u) (hu : ['\x7b'] <+: u) :
    ['\x7b'] <+: t ∨ t.count '\x7b' < u.count '\x7b' := by
  obtain ⟨x, rfl⟩ := h
  cases x with
  | nil => exact Or.inl hu
  | cons c x =>
    obtain ⟨y, hy⟩ := hu
    injection hy with hc
    right
    rw [← hc, cons_append, count_cons_self, count_append]
    omega

/-- A buffer that starts with a brace adds no text. -/
private theorem step_brace (table : ToolTable) (hopens : OpensWithBrace (chunks ++ [chunk]))
    (hbot : ¬llama32Format.botToken <:+: (chunks ++ [chunk]).flatten)
    (hbuf : s.buffer ++ chunk <:+ (chunks ++ [chunk]).flatten)
    (hbrace : ['\x7b'] <+: s.buffer ++ chunk)
    (hcount : (text ++ s.buffer).count '\x7b' ≤ chunks.flatten.count '\x7b') :
    Progress (chunks ++ [chunk]) (s.parseStreamingIncrement llama32Format table chunk).1
      (text ++ (s.parseStreamingIncrement llama32Format table chunk).2.normalText) := by
  have hno : ¬llama32Format.botToken <:+: s.buffer ++ chunk :=
    fun hin => hbot (hin.trans hbuf.isInfix)
  have hparse : s.parseStreamingIncrement llama32Format table chunk =
      toolCall llama32Format table { s with buffer := s.buffer ++ chunk } := by
    unfold BaseFormatDetector.parseStreamingIncrement
    rw [if_pos]
    simp [startsToolCall, hasToolCall_of_brace hbrace]
  obtain ⟨htext, hsuf⟩ :=
    toolCall_brace (s := { s with buffer := s.buffer ++ chunk }) table hbrace hno
  rw [hparse, htext, append_nil]
  have hall :
      (chunks ++ [chunk]).flatten.count '\x7b' = chunks.flatten.count '\x7b' +
      chunk.count '\x7b' := by
    simp
  rw [count_append] at hcount
  rcases suffix_brace hsuf hbrace with hb | hlt
  · apply Progress.stuck hopens (hsuf.trans hbuf) hb
    have hle := (hsuf.sublist.count_le '\x7b')
    rw [count_append] at hle ⊢
    omega
  · apply Progress.lost hopens
    rw [count_append] at hlt ⊢
    omega

private theorem step_lost (table : ToolTable) (hopens : OpensWithBrace chunks)
    (hcount : (text ++ s.buffer).count '\x7b' < chunks.flatten.count '\x7b') :
    Progress (chunks ++ [chunk]) (s.parseStreamingIncrement llama32Format table chunk).1
      (text ++ (s.parseStreamingIncrement llama32Format table chunk).2.normalText) := by
  apply Progress.lost (opensWithBrace_snoc.mpr (Or.inl hopens))
  have hle := (@parse_sublist _ llama32Format s table chunk).count_le '\x7b'
  have hall :
      (chunks ++ [chunk]).flatten.count '\x7b' = chunks.flatten.count '\x7b' +
      chunk.count '\x7b' := by
    simp
  simp only [count_append] at hle hcount ⊢
  omega

theorem Progress.step (h : Progress chunks s text) (table : ToolTable)
    (hbot : ¬llama32Format.botToken <:+: (chunks ++ [chunk]).flatten) :
    Progress (chunks ++ [chunk]) (s.parseStreamingIncrement llama32Format table chunk).1
      (text ++ (s.parseStreamingIncrement llama32Format table chunk).2.normalText) := by
  cases h with
  | passed hnone hidle htext hbrace =>
    have hiff := @opensWithBrace_snoc chunks chunk
    by_cases hb : ['\x7b'] <+: s.buffer ++ chunk
    · -- the brace can only be the chunk's, so nothing was held
      have hnil : s.buffer = [] := by
        by_contra hne
        obtain ⟨c, rest, hc⟩ := exists_cons_of_ne_nil hne
        rw [hc] at hb hbrace
        simp at hb hbrace
        exact hbrace hb
      have hpart : ¬EndsInPart llama32Format.botToken chunks.flatten := fun hends =>
        held_ne_nil hends (hidle.buffer.symm.trans hnil)
      have hopens := hiff.mpr (Or.inr ⟨hpart, by simpa [hnil] using hb⟩)
      apply step_brace table hopens hbot hidle.infix_flatten hb
      rw [htext, hidle.buffer, released_append_held]
    · have hno : llama32Format.hasToolCall (s.buffer ++ chunk) = false :=
        hasToolCall_of_not (fun hin => hbot (hin.trans hidle.infix_flatten.isInfix)) hb
      obtain ⟨s', t, hparse, hidle', hrel⟩ := hidle.parse table hno
      rw [hparse]
      apply Progress.passed
      · rw [hiff, not_or]
        refine ⟨hnone, ?_⟩
        rintro ⟨hpart, hc⟩
        rw [hidle.buffer, held_eq_nil hpart] at hb
        exact hb hc
      · exact hidle'
      · rcases hrel with ⟨rfl, hr⟩ | ⟨rfl, hr⟩
        · rw [hr, htext]
          exact append_nil _
        · rw [hr, htext]
          rfl
      · rw [hidle'.buffer, held_snoc]
        split_ifs
        · rw [← hidle.buffer]
          exact hb
        · simp
  | stuck hopens hbuf hbrace hcount =>
    apply step_brace table (opensWithBrace_snoc.mpr (Or.inl hopens)) hbot
    · rw [flatten_append, flatten_singleton]
      exact suffix_append_self_iff.mpr hbuf
    · exact hbrace.trans (prefix_append _ chunk)
    · exact hcount
  | lost hopens hcount => exact step_lost table hopens hcount

theorem feed (table : ToolTable) (h : ¬llama32Format.botToken <:+: chunks.flatten) :
    ∃ d res, feedChunks table (⟨{}⟩ : Llama32Detector) chunks = some (d, res) ∧
      Progress chunks d.toBaseFormatDetector res.normalText := by
  induction chunks using reverseRecOn with
  | nil =>
    refine ⟨⟨{}⟩, {}, rfl, Progress.passed ?_ Idle.init released_nil.symm (by decide)⟩
    rintro ⟨pre, chunk, post, heq, -⟩
    simp at heq
  | append_singleton chunks chunk ih =>
    have hpre : ¬llama32Format.botToken <:+: chunks.flatten := fun hin =>
      h (by rw [flatten_append]; exact hin.trans (prefix_append _ _).isInfix)
    obtain ⟨d, res, hfeed, hprogress⟩ := ih hpre
    exact ⟨_, _, feedChunks_snoc hfeed rfl, hprogress.step table h⟩

omit [JsonLib] in
private theorem finish_sublist : (s.finishStreaming llama32Format).Sublist s.buffer := by
  unfold BaseFormatDetector.finishStreaming
  split_ifs
  · exact nil_sublist _
  · dsimp only
    split_ifs
    · exact nil_sublist _
    · exact stripEot_sublist _ _

omit [JsonLib] in
theorem Progress.finish (h : Progress chunks s text)
    (hbot : ¬llama32Format.botToken <:+: chunks.flatten) :
    text ++ s.finishStreaming llama32Format = chunks.flatten ↔ ¬OpensWithBrace chunks := by
  cases h with
  | passed hnone hidle htext hbrace =>
    have hbuf : ¬llama32Format.botToken <:+: s.buffer := by
      intro hin
      rw [← @released_append_held _ llama32Format.botToken, ← hidle.buffer] at hbot
      exact hbot (hin.trans (suffix_append _ _).isInfix)
    rw [hidle.finishStreaming (hasToolCall_of_not hbuf hbrace), htext]
    have hall : released llama32Format.botToken chunks ++ stripEot llama32Format.eotToken s.buffer =
        chunks.flatten := by
      rw [hidle.buffer]
      exact released_append_held
    exact ⟨fun _ => hnone, fun _ => hall⟩
  | stuck hopens hbuf hbrace hcount =>
    refine ⟨fun heq => ?_, fun hnone => absurd hopens hnone⟩
    exfalso
    have hfinish : s.finishStreaming llama32Format = [] := by
      simp [BaseFormatDetector.finishStreaming, hasToolCall_of_brace hbrace]
    have hpos : 0 < s.buffer.count '\x7b' :=
      count_pos_iff.mpr (hbrace.subset (mem_singleton.mpr rfl))
    rw [hfinish, append_nil] at heq
    rw [← heq, count_append] at hcount
    omega
  | lost hopens hcount =>
    refine ⟨fun heq => ?_, fun hnone => absurd hopens hnone⟩
    exfalso
    have hle := (@finish_sublist s).count_le '\x7b'
    rw [← heq] at hcount
    simp only [count_append] at hcount
    omega

end Llama32Detector

/-! ### All three -/

/-- The detectors that are built on `BaseFormatDetector.parse_streaming_increment`. -/
inductive JsonDetector where
  | mistral
  | llama32
  | qwen25

namespace JsonDetector

def format : JsonDetector → JsonFormat
  | mistral => mistralFormat
  | llama32 => llama32Format
  | qwen25 => qwen25Format

def stream (table : ToolTable) (chunks : List Text) :
    JsonDetector → Option (Text × List ToolCallItem)
  | mistral => streamChunks table (⟨{}⟩ : MistralDetector) chunks
  | llama32 => streamChunks table (⟨{}⟩ : Llama32Detector) chunks
  | qwen25 => streamChunks table ({} : Qwen25Detector) chunks

def PassesThrough (table : ToolTable) (chunks : List Text) (d : JsonDetector) : Prop :=
  ∃ calls, d.stream table chunks = some (chunks.flatten, calls)

/-- The texts, and their cuts, that leave a detector nothing to remove: the one-character end token
of `MistralDetector` does not occur, no chunk hands `Llama32Detector` a brace at its start, and the
end token of `Qwen25Detector` occurs neither before nor behind the last chunk border that does not
cut a part of the opening token. -/
def Clean (chunks : List Text) : JsonDetector → Prop
  | mistral => ']' ∉ chunks.flatten
  | llama32 => ¬OpensWithBrace chunks
  | qwen25 => ¬qwen25Format.eotToken <:+: released qwen25Format.botToken chunks ∧
      ¬qwen25Format.eotToken <:+: held qwen25Format.botToken chunks

/-- Text without a tool call passes through exactly when there is nothing to remove from it. -/
theorem passesThrough_iff (d : JsonDetector) (table : ToolTable) (chunks : List Text)
    (h : ¬d.format.botToken <:+: chunks.flatten) :
    d.PassesThrough table chunks ↔ d.Clean chunks := by
  have hfirst : ∀ {o : Option (Text × List ToolCallItem)} {text : Text} {calls : List ToolCallItem},
      o = some (text, calls) →
        ((∃ calls, o = some (chunks.flatten, calls)) ↔ text = chunks.flatten) := by
    rintro o text calls rfl
    simp
  cases d with
  | mistral =>
    obtain ⟨calls, hstream⟩ := mistral_stream table h
    refine (hfirst hstream).trans ?_
    rw [filter_eq_self]
    constructor
    · intro hall hmem
      simpa using hall ']' hmem
    · intro hnot c hc
      simpa using fun heq : c = ']' => hnot (heq ▸ hc)
  | llama32 =>
    obtain ⟨d, res, hfeed, hprogress⟩ := Llama32Detector.feed table h
    exact (hfirst (streamChunks_eq hfeed)).trans (hprogress.finish h)
  | qwen25 =>
    obtain ⟨text, calls, hstream, hiff⟩ := qwen25_stream table h
    exact (hfirst hstream).trans hiff

omit [JsonLib] in
/-- Prose with brackets and a `<` at its end. -/
theorem passesThrough_prose :
    (@PassesThrough JsonLib.refusing ⟨[], true⟩ ["see [1".toList, "] <".toList] .mistral ↔
        Clean ["see [1".toList, "] <".toList] .mistral) ∧
      (@PassesThrough JsonLib.refusing ⟨[], true⟩ ["see [1".toList, "] <".toList] .llama32 ↔
        Clean ["see [1".toList, "] <".toList] .llama32) ∧
      (@PassesThrough JsonLib.refusing ⟨[], true⟩ ["see [1".toList, "] <".toList] .qwen25 ↔
        Clean ["see [1".toList, "] <".toList] .qwen25) :=
  ⟨@passesThrough_iff JsonLib.refusing .mistral _ _ (by decide),
    @passesThrough_iff JsonLib.refusing .llama32 _ _ (by decide),
    @passesThrough_iff JsonLib.refusing .qwen25 _ _ (by decide)⟩

omit [JsonLib] in
/-- A closing bracket of the prose is removed. -/
theorem bracket_removed :
    ¬∀ (_ : JsonLib) (d : JsonDetector) (table : ToolTable) (chunks : List Text),
    ¬d.format.botToken <:+: chunks.flatten → d.PassesThrough table chunks := by
  intro hall
  obtain ⟨calls, h⟩ := hall JsonLib.refusing .mistral ⟨[], true⟩ ["a]".toList] (by decide)
  have hstream : @stream JsonLib.refusing ⟨[], true⟩ ["a]".toList] .mistral = some ("a".toList, []) := by decide
  rw [hstream] at h
  simp at h

end JsonDetector

end FreeToken
