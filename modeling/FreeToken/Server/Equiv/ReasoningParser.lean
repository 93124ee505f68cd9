import FreeToken.Server.ReasoningParser
import FreeToken.Utils.Equiv.Strip

/-!
# The streaming of the base reasoning parser

What the parser gives for a completion in chunks, in each of its phases: outside the reasoning
(`stream_normal`), inside (`stream_reasoning_end`, `stream_reasoning_tool`,
`stream_reasoning_open`), and while an opening marker is still to come (`stream_start`).  The buffer
is always an end of the text so far in which every marker that may still be completed lies
(`Holds`), so a marker is found where it is in the whole text.
-/

namespace FreeToken

open List

/-- The reasoning and the normal text of a whole stream. -/
def ReasoningParser.stream {ρ : Type} [ReasoningParser ρ] : ρ → List Text → Text × Text
  | p, [] => flush p
  | p, chunk :: chunks =>
    let (p, reasoning, normal) := parseStreamChunk p chunk
    let rest := stream p chunks
    (reasoning ++ rest.1, normal ++ rest.2)

/-- The text `m` does not start inside of `a`. -/
def Apart (a m : Text) : Prop := ∀ k < a.length, ¬a.drop k <+: m ∧ ¬m <+: a.drop k

instance (a m : Text) : Decidable (Apart a m) :=
  inferInstanceAs (Decidable (∀ k < a.length, ¬a.drop k <+: m ∧ ¬m <+: a.drop k))

theorem Apart.absent {a m : Text} (h : Apart a m) (hm : m ≠ []) : ¬m <:+: a := by
  rintro ⟨s, u, rfl⟩
  have hpos := length_pos_iff.mpr hm
  have hk : s.length < (s ++ m ++ u).length := by
    rw [length_append, length_append]
    omega
  apply (h s.length hk).2
  rw [append_assoc, drop_left]
  exact prefix_append m u

/-- Two occurrences of tokens that are apart do not overlap. -/
theorem Apart.le_of_starts {a m t : Text} {i j : ℕ} (h : Apart a m) (hi : a <+: t.drop i)
    (hj : m <+: t.drop j) (hij : i ≤ j) : i + a.length ≤ j := by
  by_contra hlt
  have hk : j - i < a.length := by omega
  obtain ⟨hone, htwo⟩ := h (j - i) hk
  have hdrop : a.drop (j - i) <+: t.drop j := by
    have hpre := hi.drop (j - i)
    rw [drop_drop, Nat.add_sub_cancel' hij] at hpre
    exact hpre
  rcases prefix_or_prefix_of_prefix hdrop hj with hpre | hpre
  · exact hone hpre
  · exact htwo hpre

namespace BaseReasoningParser

open ReasoningParser (stream)

variable (p : BaseReasoningParser) {current text safe held rest : Text} {chunks : List Text}
  {tok : Text} {e t i : ℕ}

/-! ### One step -/

/-- What follows the opening marker in `parse_streaming_increment`. -/
def parseMarkers (currentText : Text) : BaseReasoningParser × Text × Text :=
  match if p.inReasoning then Text.find p.thinkEndToken currentText else none with
  | some endIdx =>
    ({ p with buffer := [], inReasoning := false }, Text.rstrip (currentText.take endIdx),
      currentText.drop (endIdx + p.thinkEndToken.length))
  | none =>
    match p.toolMarker currentText with
    | some toolIdx => p.holdTool currentText toolIdx
    | none => p.holdPartial currentText

theorem parseStreamingIncrement_eq (newText : Text) :
    p.parseStreamingIncrement newText = (p.stripThinkStart (p.buffer ++ newText)).1.parseMarkers
      (p.stripThinkStart (p.buffer ++ newText)).2 := rfl

def Quiet (rest : Text) : Prop :=
  p.strippedThinkStart = true ∨ ¬p.thinkStartToken <:+: p.buffer ++ rest

variable {p}

theorem increment_of_quiet {newText : Text} (h : p.Quiet (newText ++ rest)) :
    p.parseStreamingIncrement newText = p.parseMarkers (p.buffer ++ newText) := by
  rw [parseStreamingIncrement_eq]
  unfold stripThinkStart
  rw [if_neg]
  rintro ⟨hstripped, hin⟩
  rcases h with h | h
  · exact hstripped h
  · rw [← append_assoc] at h
    exact h (hin.trans (prefix_append _ _).isInfix)

/-- An opening marker is stripped, and what is left is read as reasoning. -/
theorem increment_of_start {newText : Text} (hstrip : p.strippedThinkStart = false)
    (hfind : Text.find p.thinkStartToken (p.buffer ++ newText) = some i) :
    p.parseStreamingIncrement newText =
      { p with strippedThinkStart := true, inReasoning := true, buffer :=
        [] }.parseStreamingIncrement
        ((p.buffer ++ newText).take i ++ (p.buffer ++ newText).drop
          (i + p.thinkStartToken.length)) := by
  have hin : p.thinkStartToken <:+: p.buffer ++ newText := by
    rw [← Text.find_isSome, hfind]
    rfl
  rw [parseStreamingIncrement_eq, parseStreamingIncrement_eq]
  unfold stripThinkStart
  rw [if_pos ⟨by rw [hstrip]; exact Bool.false_ne_true, hin⟩, if_neg (by simp)]
  unfold Text.removeFirst
  rw [hfind]
  rfl

/-! ### What is held back -/

/-- `safe` is let go of, and `held` is kept: no token of `toks` that is incomplete starts in `safe`,
and `held` is a start of one. -/
structure Holds (toks : List Text) (current safe held : Text) : Prop where
  append : safe ++ held = current
  le_of_starts : ∀ tok ∈ toks, ∀ rest i, tok <+: (current ++ rest).drop i → current.length < i +
    tok.length →
    safe.length ≤ i
  part : held = [] ∨ ∃ tok ∈ toks, held <+: tok ∧ held.length < tok.length

theorem holds_splitTrailingPartial (p : BaseReasoningParser) (current : Text) :
    Holds p.trackedTokens current (p.splitTrailingPartial current).1
      (p.splitTrailingPartial current).2 := by
  obtain ⟨-, hpart, hall⟩ := Text.foldl_longestPartial current p.trackedTokens 0
  unfold splitTrailingPartial
  generalize List.foldl (Text.longestPartial current) 0 p.trackedTokens = best at hpart hall ⊢
  -- the two branches are one, with `best = 0` in the first
  have hsplit : (if best = 0 then (current, []) else (current.take (current.length - best),
      current.drop (current.length - best))) =
      (current.take (current.length - best), current.drop (current.length - best)) := by
    split_ifs with h
    · rw [h, Nat.sub_zero, take_length, drop_length]
    · rfl
  rw [hsplit]
  constructor
  · exact take_append_drop _ _
  · intro tok htok rest i hpre hend
    by_contra hlt
    rw [length_take, min_eq_left (Nat.sub_le _ _)] at hlt
    rw [drop_append_of_le_length (by omega)] at hpre
    have hlen : (current.drop i).length = current.length - i := length_drop
    have hstart : current.drop i <+: tok :=
      prefix_of_prefix_length_le (prefix_append _ _) hpre (by omega)
    have htake : tok.take (current.length - i) = current.drop i := by
      rw [← hlen]
      exact (prefix_iff_eq_take.mp hstart).symm
    have hle := hall tok htok (current.length - i) (by omega) (Nat.sub_le _ _) (by
      rw [htake]
      exact drop_suffix i current)
    omega
  · rcases hpart with rfl | ⟨tok, htok, hlt, hle, hsuf⟩
    · left
      rw [Nat.sub_zero, drop_length]
    · right
      refine ⟨tok, htok, ?_⟩
      have hheld : current.drop (current.length - best) = tok.take best := by
        have heq := suffix_iff_eq_drop.mp hsuf
        rw [length_take, min_eq_left hlt.le] at heq
        exact heq.symm
      rw [hheld, length_take, min_eq_left hlt.le]
      exact ⟨List.take_prefix best tok, hlt⟩

/-- What is held, where it is known to be the longest. -/
theorem splitTrailingPartial_eq {x a : Text}
    (hpart : a = [] ∨ ∃ tok ∈ p.trackedTokens, a <+: tok ∧ a.length < tok.length)
    (hmax : ∀ tok ∈ p.trackedTokens, ∀ k < tok.length, tok.take k <:+ x ++ a → k ≤ a.length) :
    p.splitTrailingPartial (x ++ a) = (x, a) := by
  have hholds := holds_splitTrailingPartial p (x ++ a)
  have happ := hholds.append
  generalize p.splitTrailingPartial (x ++ a) = out at *
  have hsuf : out.2 <:+ x ++ a := ⟨_, happ⟩
  -- the held text is not longer than `a`, and not shorter
  have hle : out.2.length ≤ a.length := by
    rcases hholds.part with hnil | ⟨tok, htok, hpre, hlt⟩
    · rw [hnil]
      exact Nat.zero_le _
    · apply hmax tok htok _ hlt
      rw [← prefix_iff_eq_take.mp hpre]
      exact hsuf
  have hge : a.length ≤ out.2.length := by
    rcases hpart with rfl | ⟨tok, htok, ⟨v, rfl⟩, hlt⟩
    · exact Nat.zero_le _
    · have hsafe := hholds.le_of_starts (a ++ v) htok v x.length (by
        rw [append_assoc, drop_left]) (by
        rw [length_append]
        omega)
      have hlen := congrArg List.length happ
      rw [length_append, length_append] at hlen
      omega
  have hlen := congrArg List.length happ
  rw [length_append, length_append] at hlen
  obtain ⟨hx, ha⟩ := append_inj happ (by omega)
  exact Prod.ext hx ha

/-- A token of which nothing has been let go of is found at the same place in what is held. -/
theorem Holds.find_held {toks : List Text} (h : Holds toks current safe held) (htok : tok ∈ toks)
    (hnot : ¬tok <:+: current) (hfind : Text.find tok (current ++ rest) = some i) :
    safe.length ≤ i ∧ Text.find tok (held ++ rest) = some (i - safe.length) := by
  have hle :=
    h.le_of_starts tok htok rest i (Text.find_eq_some hfind).1 (Text.lt_of_find_append hnot hfind)
  refine ⟨hle, ?_⟩
  have hdrop := Text.find_drop hfind hle
  rw [← h.append, append_assoc, drop_left] at hdrop
  exact hdrop

/-! ### The markers -/

/-- The markers have no whitespace at their ends, and no marker starts inside of another one. -/
structure MarkersOk (p : BaseReasoningParser) : Prop where
  start_ne : p.thinkStartToken ≠ []
  solid_end : Text.SolidEnds p.thinkEndToken
  solid_tool : ∀ tok, p.toolStartToken = some tok → Text.SolidEnds tok
  start_end : Apart p.thinkStartToken p.thinkEndToken ∧ Apart p.thinkEndToken p.thinkStartToken
  tool : ∀ tok, p.toolStartToken = some tok →
    (Apart p.thinkStartToken tok ∧ Apart tok p.thinkStartToken) ∧ Apart p.thinkEndToken tok ∧
      Apart tok p.thinkEndToken

theorem MarkersOk.of_eq {p' : BaseReasoningParser} (hm : p.MarkersOk)
    (hstart : p'.thinkStartToken = p.thinkStartToken)
    (hend : p'.thinkEndToken = p.thinkEndToken) (htool : p'.toolStartToken = p.toolStartToken) :
    p'.MarkersOk := by
  constructor
  · rw [hstart]
    exact hm.start_ne
  · rw [hend]
    exact hm.solid_end
  · rw [htool]
    exact hm.solid_tool
  · rw [hstart, hend]
    exact hm.start_end
  · rw [hstart, hend, htool]
    exact hm.tool

theorem end_mem_trackedTokens : p.thinkEndToken ∈ p.trackedTokens := by
  unfold trackedTokens
  simp

theorem start_mem_trackedTokens (h : p.strippedThinkStart = false) :
    p.thinkStartToken ∈ p.trackedTokens := by
  unfold trackedTokens
  simp [h]

theorem tool_mem_trackedTokens (h : p.toolStartToken = some tok) (hne : tok ≠ []) :
    tok ∈ p.trackedTokens := by
  unfold trackedTokens
  rw [h]
  simp [hne]

theorem mem_trackedTokens (h : tok ∈ p.trackedTokens) :
    tok = p.thinkEndToken ∨ tok = p.thinkStartToken ∨ p.toolStartToken = some tok := by
  unfold trackedTokens at h
  rcases mem_append.mp h with h | h
  · rcases mem_append.mp h with h | h
    · exact Or.inl (mem_singleton.mp h)
    · split_ifs at h
      · exact absurd h not_mem_nil
      · exact Or.inr (Or.inl (mem_singleton.mp h))
  · cases htool : p.toolStartToken with
    | none =>
      rw [htool] at h
      exact absurd h not_mem_nil
    | some tok' =>
      rw [htool] at h
      simp only at h
      split_ifs at h
      · exact absurd h not_mem_nil
      · rw [mem_singleton.mp h]
        exact Or.inr (Or.inr rfl)

/-- A proper start of a marker has no marker in it. -/
theorem Holds.not_infix_held (hm : p.MarkersOk) (h : Holds p.trackedTokens current safe held)
    {m : Text}
    (hmarker : m = p.thinkEndToken ∨ m = p.thinkStartToken ∨ p.toolStartToken = some m) :
    ¬m <:+: held := by
  have hne : m ≠ [] := by
    rcases hmarker with rfl | rfl | htool
    · exact hm.solid_end.ne_nil
    · exact hm.start_ne
    · exact (hm.solid_tool m htool).ne_nil
  intro hin
  rcases h.part with rfl | ⟨tok, htok, hpre, hlt⟩
  · exact hne (infix_nil.mp hin)
  · have hself : m ≠ tok := by
      rintro rfl
      have hle := hin.length_le
      omega
    have hintok : m <:+: tok := hin.trans hpre.isInfix
    rcases mem_trackedTokens htok with rfl | rfl | htool'
    · rcases hmarker with rfl | rfl | htool
      · exact hself rfl
      · exact hm.start_end.2.absent hne hintok
      · exact (hm.tool m htool).2.1.absent hne hintok
    · rcases hmarker with rfl | rfl | htool
      · exact hm.start_end.1.absent hne hintok
      · exact hself rfl
      · exact (hm.tool m htool).1.1.absent hne hintok
    · rcases hmarker with rfl | rfl | htool
      · exact (hm.tool tok htool').2.2.absent hne hintok
      · exact (hm.tool tok htool').1.2.absent hne hintok
      · rw [htool, Option.some.injEq] at htool'
        exact hself htool'

theorem MarkersOk.apart (hm : p.MarkersOk) {tok' : Text} (h : tok ∈ p.trackedTokens)
    (h' : tok' ∈ p.trackedTokens) (hne : tok ≠ tok') : Apart tok tok' := by
  rcases mem_trackedTokens h with rfl | rfl | htool
  · rcases mem_trackedTokens h' with rfl | rfl | htool'
    · exact absurd rfl hne
    · exact hm.start_end.2
    · exact (hm.tool tok' htool').2.1
  · rcases mem_trackedTokens h' with rfl | rfl | htool'
    · exact hm.start_end.1
    · exact absurd rfl hne
    · exact (hm.tool tok' htool').1.1
  · rcases mem_trackedTokens h' with rfl | rfl | htool'
    · exact (hm.tool tok htool).2.2
    · exact (hm.tool tok htool).1.2
    · rw [htool, Option.some.injEq] at htool'
      exact absurd htool' hne

/-- No end of the token is a start of it. -/
def NoBorder (tok : Text) : Prop := ∀ k < tok.length, 0 < k → ¬tok.drop k <+: tok

instance (tok : Text) : Decidable (NoBorder tok) :=
  inferInstanceAs (Decidable (∀ k < tok.length, 0 < k → ¬tok.drop k <+: tok))

/-- What is let go of does not end inside of a token. -/
theorem Holds.le_safe (hm : p.MarkersOk) (h : Holds p.trackedTokens current safe held)
    (htok : tok ∈ p.trackedTokens)
    (hborder : NoBorder tok) {j : ℕ} (hpre : tok <+: (current ++ rest).drop j)
    (hj : j < safe.length) :
    j + tok.length ≤ safe.length := by
  by_contra hlt
  by_cases hcur : current.length < j + tok.length
  · have hle := h.le_of_starts tok htok rest j hpre hcur
    omega
  · have hlen := congrArg List.length h.append
    rw [length_append] at hlen
    rw [drop_append_of_le_length (by omega)] at hpre
    have hin : tok <+: current.drop j := by
      apply prefix_of_prefix_length_le hpre (prefix_append _ _)
      rw [length_drop]
      omega
    have hheld := hin.drop (safe.length - j)
    rw [drop_drop, Nat.add_sub_cancel' hj.le, ← h.append, drop_left] at hheld
    rcases h.part with rfl | ⟨tok', htok', hpart, -⟩
    · have hle := hheld.length_le
      rw [length_drop, length_nil] at hle
      omega
    · by_cases hsame : tok = tok'
      · subst hsame
        exact hborder (safe.length - j) (by omega) (by omega) (hheld.trans hpart)
      · exact (hm.apart htok htok' hsame (safe.length - j) (by omega)).1 (hheld.trans hpart)

/-! ### Outside the reasoning -/

theorem stream_nil : stream p [] = p.flush := rfl

theorem stream_cons (chunk : Text) : stream p (chunk :: chunks) =
    ((p.parseStreamingIncrement chunk).2.1 ++ (stream (p.parseStreamingIncrement chunk).1 chunks).1,
      (p.parseStreamingIncrement chunk).2.2 ++
      (stream (p.parseStreamingIncrement chunk).1 chunks).2) := rfl

theorem Quiet.of_suffix {p' : BaseReasoningParser} {newText : Text} (h : p.Quiet (newText ++ rest))
    (hstripped : p'.strippedThinkStart = p.strippedThinkStart)
    (hstart : p'.thinkStartToken = p.thinkStartToken)
    (hbuffer : p'.buffer <:+ p.buffer ++ newText) : p'.Quiet rest := by
  rcases h with h | h
  · exact Or.inl (hstripped.trans h)
  · right
    rw [hstart]
    intro hin
    rw [← append_assoc] at h
    obtain ⟨s, hs⟩ := hbuffer
    rw [← hs, append_assoc] at h
    exact h (hin.trans (suffix_append _ _).isInfix)

theorem parseMarkers_normal (hin : p.inReasoning = false) :
    p.parseMarkers current =
      ({ p with buffer := (p.splitTrailingPartial current).2 }, [],
        (p.splitTrailingPartial current).1) := by
  have htool : p.toolMarker current = none := by
    unfold toolMarker
    rw [hin]
    cases p.toolStartToken with
    | none => rfl
    | some tok => simp
  unfold parseMarkers holdPartial
  rw [htool, hin]
  simp

theorem flush_normal (hin : p.inReasoning = false) : p.flush = ([], p.buffer) := by
  unfold flush
  rw [hin]
  simp only [Bool.false_eq_true, if_false]
  split_ifs with h
  · rw [h]
  · rfl
  · rfl

theorem stream_normal (hin : p.inReasoning = false) (hq : p.Quiet chunks.flatten) :
    stream p chunks = ([], p.buffer ++ chunks.flatten) := by
  induction chunks generalizing p with
  | nil => rw [stream_nil, flush_normal hin, flatten_nil, append_nil]
  | cons chunk chunks ih =>
    rw [flatten_cons] at hq
    have hholds := holds_splitTrailingPartial p (p.buffer ++ chunk)
    have hsuf : (p.splitTrailingPartial (p.buffer ++ chunk)).2 <:+ p.buffer ++ chunk :=
      ⟨_, hholds.append⟩
    have hrest := @ih { p with buffer := (p.splitTrailingPartial (p.buffer ++ chunk)).2 } hin
      (hq.of_suffix rfl rfl hsuf)
    rw [stream_cons, increment_of_quiet hq, parseMarkers_normal hin, hrest, flatten_cons]
    show ([], _) = _
    rw [← append_assoc, hholds.append, append_assoc]

/-! ### Inside the reasoning -/

section Reasoning

theorem parseMarkers_end (hin : p.inReasoning = true)
    (hend : Text.find p.thinkEndToken current = some e) :
    p.parseMarkers current =
      ({ p with buffer := [], inReasoning := false }, Text.rstrip (current.take e),
      current.drop (e + p.thinkEndToken.length)) := by
  unfold parseMarkers
  rw [hin, if_pos rfl, hend]

theorem parseMarkers_tool (hin : p.inReasoning = true)
    (hend : Text.find p.thinkEndToken current = none)
    (htool : p.toolStartToken = some tok) (hne : tok ≠ [])
    (hfind : Text.find tok current = some t) :
    p.parseMarkers current = p.holdTool current t := by
  have hmarker : p.toolMarker current = some t := by
    unfold toolMarker
    rw [htool]
    simp only
    rw [if_pos ⟨hin, hne⟩, hfind]
  unfold parseMarkers
  rw [hin, if_pos rfl, hend]
  simp only
  rw [hmarker]

/-- The next buffer, where there is no complete marker. -/
def nextBuffer (p : BaseReasoningParser) (current : Text) : Text :=
  if p.inReasoning ∧ ¬p.streamReasoning then current else (p.splitTrailingPartial current).2

def released (p : BaseReasoningParser) (current : Text) : Text :=
  if p.inReasoning ∧ ¬p.streamReasoning then [] else (p.splitTrailingPartial current).1

theorem parseMarkers_open (hin : p.inReasoning = true)
    (hend : Text.find p.thinkEndToken current = none)
    (htool : ∀ tok, p.toolStartToken = some tok → Text.find tok current = none) :
    p.parseMarkers current =
      ({ p with buffer := p.nextBuffer current }, p.released current, []) := by
  have hmarker : p.toolMarker current = none := by
    unfold toolMarker
    cases h : p.toolStartToken with
    | none => rfl
    | some tok =>
      simp only
      split_ifs
      · exact htool tok h
      · rfl
  unfold parseMarkers
  rw [hin, if_pos rfl, hend]
  simp only
  rw [hmarker]
  unfold holdPartial nextBuffer released
  simp only [hin, true_and]
  by_cases hs : p.streamReasoning = true
  · simp [hs]
  · simp [hs]

theorem holds_nextBuffer (p : BaseReasoningParser) (current : Text) :
    p.released current ++ p.nextBuffer current = current ∧
      ∀ tok ∈ p.trackedTokens, ¬tok <:+: current →
      ∀ rest i, Text.find tok (current ++ rest) = some i → (p.released current).length ≤ i ∧
        Text.find tok (p.nextBuffer current ++ rest) = some (i - (p.released current).length) := by
  unfold nextBuffer released
  split_ifs
  · exact ⟨rfl, fun tok _ _ rest i hfind => ⟨Nat.zero_le i, hfind⟩⟩
  · have hholds := holds_splitTrailingPartial p current
    exact ⟨hholds.append, fun tok htok hnot rest i hfind => hholds.find_held htok hnot hfind⟩

/-- What the buffer is, inside the reasoning: it has no complete marker but a tool marker that
starts it. -/
structure Buffered (p : BaseReasoningParser) : Prop where
  no_end : ¬p.thinkEndToken <:+: p.buffer
  tool : ∀ tok, p.toolStartToken = some tok → tok <:+: p.buffer → tok <+: p.buffer
  no_start : p.strippedThinkStart = false → ¬p.thinkStartToken <:+: p.buffer

theorem Buffered.of_empty (hm : p.MarkersOk) (h : p.buffer = []) : p.Buffered := by
  constructor
  · rw [h]
    exact fun hin => hm.solid_end.ne_nil (infix_nil.mp hin)
  · intro tok htok hin
    rw [h] at hin
    exact absurd (infix_nil.mp hin) (hm.solid_tool tok htok).ne_nil
  · rw [h]
    exact fun _ hin => hm.start_ne (infix_nil.mp hin)

theorem Buffered.nextBuffer (hm : p.MarkersOk) (hend : Text.find p.thinkEndToken current = none)
    (htool : ∀ tok, p.toolStartToken = some tok → Text.find tok current = none)
    (hstart : p.strippedThinkStart = false → ¬p.thinkStartToken <:+: current) :
    Buffered { p with buffer := p.nextBuffer current } := by
  rw [Text.find_eq_none] at hend
  unfold BaseReasoningParser.nextBuffer
  split_ifs
  · constructor
    · exact hend
    · exact fun tok htok hin => absurd hin (Text.find_eq_none.mp (htool tok htok))
    · exact hstart
  · have hholds := holds_splitTrailingPartial p current
    constructor
    · exact hholds.not_infix_held hm (Or.inl rfl)
    · exact fun tok htok hin => absurd hin (hholds.not_infix_held hm (Or.inr (Or.inr htok)))
    · exact fun _ => hholds.not_infix_held hm (Or.inr (Or.inl rfl))

theorem Buffered.of_find (hend : Text.find p.thinkEndToken current = none)
    (htool : p.toolStartToken = some tok) (hfind : Text.find tok current = some t)
    (hstart : p.strippedThinkStart = false → ¬p.thinkStartToken <:+: current) :
    Buffered { p with buffer := current.drop t } := by
  have hsuf : current.drop t <:+ current := drop_suffix t current
  constructor
  · exact Text.find_eq_none.mp (Text.find_none_of_suffix hend hsuf)
  · intro tok' htok' _
    rw [htool, Option.some.injEq] at htok'
    subst htok'
    exact (Text.find_eq_some hfind).1
  · exact fun hstripped hin => hstart hstripped (hin.trans hsuf.isInfix)

theorem Quiet.absent {newText : Text} (h : p.Quiet (newText ++ rest))
    (hstripped : p.strippedThinkStart = false) :
    ¬p.thinkStartToken <:+: p.buffer ++ newText := by
  rcases h with h | h
  · rw [hstripped] at h
    exact absurd h Bool.false_ne_true
  · rw [← append_assoc] at h
    exact fun hin => h (hin.trans (prefix_append _ _).isInfix)

/-- What has been let go of is in front of what is still to be read. -/
private theorem take_behind {b b' : Text} (hb : safe ++ b' = b) (he : safe.length ≤ e) :
    safe ++ b'.take (e - safe.length) = b.take e := by
  rw [← hb, take_append, take_of_length_le he]

private theorem drop_behind {b b' : Text} {n : ℕ} (hb : safe ++ b' = b) (he : safe.length ≤ e) :
    b'.drop (e - safe.length + n) = b.drop (e + n) := by
  symm
  rw [← hb, drop_append, drop_of_length_le (by omega), nil_append]
  congr 1
  omega

private theorem tool_cases (p : BaseReasoningParser) (current : Text) :
    (∃ tok t, p.toolStartToken = some tok ∧ Text.find tok current = some t) ∨
      ∀ tok, p.toolStartToken = some tok → Text.find tok current = none := by
  cases htool : p.toolStartToken with
  | none => exact Or.inr fun tok h => absurd h (by simp)
  | some tok =>
    cases hfind : Text.find tok current with
    | some t => exact Or.inl ⟨tok, t, rfl, hfind⟩
    | none =>
      right
      intro tok' h
      rw [← Option.some.inj h]
      exact hfind

/-- The closing marker is found where it is, and only whitespace before it is lost.  A tool marker
before it must be near enough, or it ends the reasoning. -/
theorem stream_reasoning_end (hm : p.MarkersOk) (hin : p.inReasoning = true) (hbuf : p.Buffered)
    (hq : p.Quiet chunks.flatten) (hend : Text.find p.thinkEndToken (p.buffer ++ chunks.flatten) =
      some e)
    (hnear : ∀ tok t, p.toolStartToken = some tok → tok <+: (p.buffer ++ chunks.flatten).drop t →
      t < e →
      e + p.thinkEndToken.length ≤ t + toolHoldMax + 1) :
    ∃ ws, Text.Blank ws ∧ (stream p chunks).1 ++ ws = (p.buffer ++ chunks.flatten).take e ∧
      (stream p chunks).2 = (p.buffer ++ chunks.flatten).drop (e + p.thinkEndToken.length) := by
  induction chunks generalizing p e with
  | nil =>
    rw [flatten_nil, append_nil] at hend
    have hinfix := Text.find_isSome.mp (by rw [hend]; rfl)
    exact absurd hinfix hbuf.no_end
  | cons chunk chunks ih =>
    rw [flatten_cons] at hq hend hnear ⊢
    rw [← append_assoc] at hend hnear ⊢
    rw [stream_cons, increment_of_quiet hq]
    have hstart := fun h => hq.absent h
    generalize hcurrent : p.buffer ++ chunk = current at *
    -- no opening marker comes, whatever suffix is held
    have hsufQuiet : ∀ p' : BaseReasoningParser, p'.strippedThinkStart = p.strippedThinkStart →
        p'.thinkStartToken = p.thinkStartToken → p'.buffer <:+ current →
          p'.Quiet chunks.flatten := by
      intro p' hs ht hb
      exact hq.of_suffix hs ht (hcurrent ▸ hb)
    by_cases hcur : p.thinkEndToken <:+: current
    · -- the marker is complete
      obtain ⟨e', he'⟩ := Text.find_of_infix hcur
      have heq := Text.find_append (u := chunks.flatten) he'
      rw [hend, Option.some.injEq] at heq
      subst heq
      have hle := Text.find_add_le he'
      have hnormal := @stream_normal { p with buffer := [], inReasoning := false } chunks rfl
        (hsufQuiet _ rfl rfl (nil_suffix))
      rw [parseMarkers_end hin he', hnormal]
      obtain ⟨ws, hws, happ⟩ := Text.exists_rstrip_append (current.take e)
      refine ⟨ws, hws, ?_, ?_⟩
      · show Text.rstrip (current.take e) ++ [] ++ ws = _
        rw [append_nil, happ, take_append_of_le_length (by omega)]
      · show current.drop (e + p.thinkEndToken.length) ++ ([] ++ chunks.flatten) = _
        rw [nil_append, drop_append_of_le_length hle]
    · have hnone : Text.find p.thinkEndToken current = none := Text.find_eq_none.mpr hcur
      have hlt := Text.lt_of_find_append hcur hend
      rcases tool_cases p current with ⟨tok, t, htool, hfind⟩ | htool
      · -- a tool marker is complete, and held
        have hadd := Text.find_add_le hfind
        have hpre : tok <+: (current ++ chunks.flatten).drop t :=
          (Text.find_eq_some (Text.find_append hfind)).1
        -- a tool marker cannot overlap the closing one
        have hte : t < e := by
          by_contra hge
          have hapart :=
            (hm.tool tok htool).2.1.le_of_starts (Text.find_eq_some hend).1 hpre (not_lt.mp hge)
          omega
        have hclose := hnear tok t htool hpre hte
        -- it is near enough, so it is held and does not end the reasoning
        have hshort : ¬toolHoldMax < (current.drop t).length := by
          rw [length_drop]
          omega
        have hsplit :
            current.take t ++ (current.drop t ++ chunks.flatten) = current ++ chunks.flatten := by
          rw [← append_assoc, take_append_drop]
        have hlen : (current.take t).length = t := by
          rw [length_take]
          omega
        have hdrop : (current ++ chunks.flatten).drop t = current.drop t ++ chunks.flatten :=
          drop_append_of_le_length (by omega)
        have hrest := @ih { p with buffer := current.drop t } (e - t) (hm.of_eq rfl rfl rfl) hin
          (Buffered.of_find hnone htool hfind hstart) (hsufQuiet _ rfl rfl (drop_suffix t current))
          (by
            show Text.find p.thinkEndToken (current.drop t ++ chunks.flatten) = some (e - t)
            rw [← hdrop]
            exact Text.find_drop hend hte.le)
          (by
            intro tok' t' htok' hpre' hlt'
            have hpre' : tok' <+: (current.drop t ++ chunks.flatten).drop t' := hpre'
            rw [← hdrop, drop_drop] at hpre'
            have hnear' := hnear tok' (t + t') htok' hpre' (by omega)
            show e - t + p.thinkEndToken.length ≤ _
            omega)
        obtain ⟨ws, hws, hreasoning, hnormal⟩ := hrest
        rw [parseMarkers_tool hin hnone htool (hm.solid_tool tok htool).ne_nil hfind]
        unfold holdTool
        simp only [hshort, if_false]
        refine ⟨ws, hws, ?_, ?_⟩
        · have htake := take_behind hsplit (hlen.le.trans hte.le)
          rw [hlen] at htake
          rw [append_assoc, hreasoning]
          exact htake
        · have hdropped := @drop_behind _ e _ _ p.thinkEndToken.length hsplit (hlen.le.trans hte.le)
          rw [hlen] at hdropped
          rw [nil_append, hnormal]
          exact hdropped
      · -- only an incomplete marker is held
        obtain ⟨happ, hfound⟩ := holds_nextBuffer p current
        obtain ⟨hle, hfindNext⟩ := hfound _ end_mem_trackedTokens hcur chunks.flatten e hend
        have hsplit :
            p.released current ++ (p.nextBuffer current ++ chunks.flatten) = current ++
            chunks.flatten := by
          rw [← append_assoc, happ]
        have hrest := @ih { p with buffer := p.nextBuffer current }
          (e - (p.released current).length) (hm.of_eq rfl rfl rfl) hin
          (Buffered.nextBuffer hm hnone htool hstart) (hsufQuiet _ rfl rfl ⟨_, happ⟩) hfindNext
          (by
            intro tok' t' htok' hpre' hlt'
            have hpre' : tok' <+: (p.nextBuffer current ++ chunks.flatten).drop t' := hpre'
            have hdrop : (p.nextBuffer current ++ chunks.flatten).drop t' =
                (current ++ chunks.flatten).drop ((p.released current).length + t') := by
              rw [← hsplit, ← drop_drop, drop_left]
            rw [hdrop] at hpre'
            have hnear' := hnear tok' _ htok' hpre' (by omega)
            show e - (p.released current).length + p.thinkEndToken.length ≤ _
            omega)
        obtain ⟨ws, hws, hreasoning, hnormal⟩ := hrest
        rw [parseMarkers_open hin hnone htool]
        refine ⟨ws, hws, ?_, ?_⟩
        · rw [append_assoc, hreasoning]
          exact take_behind hsplit hle
        · rw [nil_append, hnormal]
          exact drop_behind hsplit hle

theorem stream_reasoning_tool (hm : p.MarkersOk) (hin : p.inReasoning = true) (hbuf : p.Buffered)
    (hq : p.Quiet chunks.flatten) (hend : Text.find p.thinkEndToken (p.buffer ++ chunks.flatten) =
      none)
    (htool : p.toolStartToken = some tok)
    (hfind : Text.find tok (p.buffer ++ chunks.flatten) = some t) :
    stream p chunks =
      ((p.buffer ++ chunks.flatten).take t, (p.buffer ++ chunks.flatten).drop t) := by
  have hne : tok ≠ [] := (hm.solid_tool tok htool).ne_nil
  induction chunks generalizing p t with
  | nil =>
    rw [flatten_nil, append_nil] at hfind ⊢
    -- the buffer is the tool block
    have hpre := hbuf.tool tok htool (Text.find_isSome.mp (by rw [hfind]; rfl))
    obtain ⟨j, hj, hfind'⟩ := @Text.find_le tok p.buffer 0 (by rw [drop_zero]; exact hpre)
    obtain rfl : t = 0 := by
      rw [hfind, Option.some.injEq] at hfind'
      omega
    have hlstrip : Text.lstrip p.buffer = p.buffer := by
      obtain ⟨rest, hrest⟩ := hpre
      cases hb : p.buffer with
      | nil => rfl
      | cons c b =>
        apply dropWhile_cons_of_neg
        intro hc
        exact (hm.solid_tool tok htool).not_starts hc (x := b) ⟨rest, by rw [hrest, hb]⟩
    have hnonempty : p.buffer ≠ [] := by
      intro hnil
      rw [hnil] at hpre
      exact hne (prefix_nil.mp hpre)
    rw [stream_nil, take_zero, drop_zero]
    unfold flush
    rw [if_neg hnonempty, htool, hlstrip, if_pos]
    simp [hne, hpre]
  | cons chunk chunks ih =>
    rw [flatten_cons] at hq hend hfind ⊢
    rw [← append_assoc] at hend hfind ⊢
    rw [stream_cons, increment_of_quiet hq]
    have hstart := fun h => hq.absent h
    generalize hcurrent : p.buffer ++ chunk = current at *
    have hsufQuiet : ∀ p' : BaseReasoningParser, p'.strippedThinkStart = p.strippedThinkStart →
        p'.thinkStartToken = p.thinkStartToken → p'.buffer <:+ current →
          p'.Quiet chunks.flatten := by
      intro p' hs ht hb
      exact hq.of_suffix hs ht (hcurrent ▸ hb)
    have hcur : ¬p.thinkEndToken <:+: current := fun h =>
      Text.find_eq_none.mp hend (h.trans (prefix_append _ _).isInfix)
    have hnone : Text.find p.thinkEndToken current = none := Text.find_eq_none.mpr hcur
    rcases tool_cases p current with ⟨tok', t', htool', hfind'⟩ | hopen
    · rw [htool, Option.some.injEq] at htool'
      subst htool'
      have heq := Text.find_append (u := chunks.flatten) hfind'
      rw [hfind, Option.some.injEq] at heq
      subst heq
      have hadd := Text.find_add_le hfind'
      rw [parseMarkers_tool hin hnone htool hne hfind']
      unfold holdTool
      have htake : (current ++ chunks.flatten).take t = current.take t :=
        take_append_of_le_length (by omega)
      have hdrop : (current ++ chunks.flatten).drop t = current.drop t ++ chunks.flatten :=
        drop_append_of_le_length (by omega)
      by_cases hlong : toolHoldMax < (current.drop t).length
      · -- the block is long enough to be a call
        simp only [hlong, if_true]
        rw [@stream_normal { p with buffer := [], inReasoning := false } chunks rfl
          (hsufQuiet _ rfl rfl nil_suffix), htake, hdrop, append_nil]
        rfl
      · simp only [hlong, if_false]
        have hrest := @ih { p with buffer := current.drop t } 0 (hm.of_eq rfl rfl rfl) hin
          (Buffered.of_find hnone htool hfind' hstart) (hsufQuiet _ rfl rfl (drop_suffix t current))
          (by
            show Text.find p.thinkEndToken (current.drop t ++ chunks.flatten) = none
            rw [← hdrop]
            exact Text.find_none_of_suffix hend (drop_suffix _ _))
          htool
          (by
            show Text.find tok (current.drop t ++ chunks.flatten) = some 0
            rw [← hdrop, ← Nat.sub_self t]
            exact Text.find_drop hfind le_rfl)
        rw [hrest, htake, hdrop]
        show (current.take t ++ [], [] ++ (current.drop t ++ chunks.flatten)) = _
        rw [append_nil, nil_append]
    · obtain ⟨happ, hfound⟩ := holds_nextBuffer p current
      obtain ⟨hle, hfindNext⟩ := hfound tok (tool_mem_trackedTokens htool hne)
        (Text.find_eq_none.mp (hopen tok htool)) chunks.flatten t hfind
      have hsplit :
          p.released current ++ (p.nextBuffer current ++ chunks.flatten) = current ++
          chunks.flatten := by
        rw [← append_assoc, happ]
      have hrest := @ih { p with buffer := p.nextBuffer current } (t - (p.released current).length)
        (hm.of_eq rfl rfl rfl) hin
        (Buffered.nextBuffer hm hnone hopen hstart) (hsufQuiet _ rfl rfl ⟨_, happ⟩)
        (Text.find_none_of_suffix hend ⟨_, hsplit⟩) htool hfindNext
      have hdropped := @drop_behind _ t _ _ 0 hsplit hle
      rw [Nat.add_zero, Nat.add_zero] at hdropped
      rw [parseMarkers_open hin hnone hopen, hrest]
      show (p.released current ++ _, [] ++ _) = _
      rw [nil_append, ← hdropped, ← take_behind hsplit hle]

theorem stream_reasoning_open (hm : p.MarkersOk) (hin : p.inReasoning = true) (hbuf : p.Buffered)
    (hq : p.Quiet chunks.flatten) (hend : Text.find p.thinkEndToken (p.buffer ++ chunks.flatten) =
      none)
    (htool : ∀ tok, p.toolStartToken = some tok → Text.find tok (p.buffer ++ chunks.flatten) =
      none) :
    stream p chunks = (p.buffer ++ chunks.flatten, []) := by
  -- by induction on the chunks: what is released and what is held back is the text so far
  induction chunks generalizing p with
  | nil =>
    rw [flatten_nil, append_nil] at htool ⊢
    rw [stream_nil]
    unfold flush
    rw [hin]
    by_cases hnil : p.buffer = []
    · rw [if_pos hnil, hnil]
    · rw [if_neg hnil, if_neg, if_pos rfl]
      cases htok : p.toolStartToken with
      | none => simp
      | some tok =>
        rw [Option.any_some, decide_eq_true_eq]
        rintro ⟨-, hpre⟩
        exact Text.find_eq_none.mp (htool tok htok)
          (hpre.isInfix.trans (dropWhile_suffix _).isInfix)
  | cons chunk chunks ih =>
    rw [flatten_cons] at hq hend htool ⊢
    rw [← append_assoc] at hend htool ⊢
    rw [stream_cons, increment_of_quiet hq]
    have hstart := fun h => hq.absent h
    generalize hcurrent : p.buffer ++ chunk = current at *
    have hcur :
      ∀ m, Text.find m (current ++ chunks.flatten) = none → Text.find m current = none := by
      intro m hm
      rw [Text.find_eq_none] at *
      exact fun h => hm (h.trans (prefix_append _ _).isInfix)
    have hopen : ∀ tok, p.toolStartToken = some tok → Text.find tok current = none :=
      fun tok htok => hcur tok (htool tok htok)
    obtain ⟨happ, -⟩ := holds_nextBuffer p current
    have hsplit :
        p.released current ++ (p.nextBuffer current ++ chunks.flatten) = current ++
        chunks.flatten := by
      rw [← append_assoc, happ]
    have hrest := @ih { p with buffer := p.nextBuffer current } (hm.of_eq rfl rfl rfl) hin
      (Buffered.nextBuffer hm (hcur _ hend) hopen hstart)
      (hq.of_suffix rfl rfl (by
        rw [hcurrent]
        exact ⟨_, happ⟩))
      (Text.find_none_of_suffix hend ⟨_, hsplit⟩)
      (fun tok htok => Text.find_none_of_suffix (htool tok htok) ⟨_, hsplit⟩)
    rw [parseMarkers_open hin (hcur _ hend) hopen, hrest]
    show (p.released current ++ (p.nextBuffer current ++ chunks.flatten), []) = _
    rw [hsplit]

end Reasoning

/-! ### An opening marker to come -/

/-- The parser once the opening marker has been stripped. -/
def opened (p : BaseReasoningParser) : BaseReasoningParser :=
  { p with strippedThinkStart := true, inReasoning := true, buffer := [] }

theorem Holds.buffered (hm : p.MarkersOk) (h : Holds p.trackedTokens current safe held) :
    Buffered { p with buffer := held } := by
  constructor
  · exact h.not_infix_held hm (Or.inl rfl)
  · exact fun tok htok hin => absurd hin (h.not_infix_held hm (Or.inr (Or.inr htok)))
  · exact fun _ => h.not_infix_held hm (Or.inr (Or.inl rfl))

/-- Of the text before an opening marker a first part is let go of, which outside the reasoning does
not end inside of a token.  The rest is reasoning. -/
theorem stream_start (hm : p.MarkersOk) (hstrip : p.strippedThinkStart = false) (hbuf : p.Buffered)
    (hstart : Text.find p.thinkStartToken (p.buffer ++ chunks.flatten) = some i)
    (hend : p.inReasoning = true → ∀ e, Text.find p.thinkEndToken (p.buffer ++ chunks.flatten) =
      some e → i ≤ e) (hnear : p.inReasoning = true → ∀ tok t, p.toolStartToken = some tok →
      tok <+: (p.buffer ++ chunks.flatten).drop t → t < i → i + p.thinkStartToken.length ≤ t +
        toolHoldMax + 1) :
    ∃ first second chunks', first ++ second = (p.buffer ++ chunks.flatten).take i ∧
      chunks'.flatten = second ++ (p.buffer ++ chunks.flatten).drop (i + p.thinkStartToken.length) ∧
      stream p chunks =
        (if p.inReasoning then (first ++ (stream p.opened chunks').1, (stream p.opened chunks').2)
        else ((stream p.opened chunks').1, first ++ (stream p.opened chunks').2)) ∧
      (p.inReasoning = false → ∀ tok ∈ p.trackedTokens, NoBorder tok → ∀ j,
        tok <+: (p.buffer ++ chunks.flatten).drop j → j < first.length → j + tok.length ≤
          first.length) := by
  induction chunks generalizing p i with
  | nil =>
    rw [flatten_nil, append_nil] at hstart
    exact absurd (Text.find_isSome.mp (by rw [hstart]; rfl)) (hbuf.no_start hstrip)
  | cons chunk chunks ih =>
    rw [flatten_cons, ← append_assoc] at hstart hend hnear ⊢
    by_cases hcur : p.thinkStartToken <:+: p.buffer ++ chunk
    · -- the marker is complete
      obtain ⟨j, hj⟩ := Text.find_of_infix hcur
      have heq := Text.find_append (u := chunks.flatten) hj
      rw [hstart, Option.some.injEq] at heq
      subst heq
      have hadd := Text.find_add_le hj
      have hstream : stream p (chunk :: chunks) = stream p.opened
          (((p.buffer ++ chunk).take i ++ (p.buffer ++ chunk).drop
            (i + p.thinkStartToken.length)) :: chunks) := by
        rw [stream_cons, stream_cons, increment_of_start hstrip hj]
        rfl
      refine ⟨[], (p.buffer ++ chunk).take i,
        ((p.buffer ++ chunk).take i ++ (p.buffer ++ chunk).drop (i + p.thinkStartToken.length)) ::
        chunks, ?_, ?_, ?_, ?_⟩
      · rw [nil_append]
        exact (take_append_of_le_length (by omega)).symm
      · rw [flatten_cons, drop_append_of_le_length hadd, append_assoc]
      · rw [hstream]
        split_ifs <;> rfl
      · exact fun _ tok _ _ j _ hj => absurd hj (Nat.not_lt_zero j)
    · have hlt := Text.lt_of_find_append hcur hstart
      have hq : p.parseStreamingIncrement chunk = p.parseMarkers (p.buffer ++ chunk) := by
        rw [parseStreamingIncrement_eq]
        unfold stripThinkStart
        rw [if_neg fun h => hcur h.2]
      generalize hcurrent : p.buffer ++ chunk = current at *
      -- what is let go of in the step, and the run from there
      have hstep :
        ∀ safe b, safe ++ b = current → safe.length ≤ i → Buffered { p with buffer := b } →
          p.parseMarkers current = ({ p with buffer := b },
            if p.inReasoning then (safe, []) else ([], safe)) →
          (p.inReasoning = false → ∀ tok ∈ p.trackedTokens, NoBorder tok → ∀ j,
            tok <+: (current ++ chunks.flatten).drop j → j < safe.length → j + tok.length ≤
              safe.length) →
          ∃ first second chunks', first ++ second = (current ++ chunks.flatten).take i ∧
            chunks'.flatten = second ++ (current ++ chunks.flatten).drop
              (i + p.thinkStartToken.length) ∧
            stream p (chunk :: chunks) =
              (if p.inReasoning then (first ++ (stream p.opened chunks').1,
                (stream p.opened chunks').2)
              else ((stream p.opened chunks').1, first ++ (stream p.opened chunks').2)) ∧
            (p.inReasoning = false → ∀ tok ∈ p.trackedTokens, NoBorder tok → ∀ j,
              tok <+: (current ++ chunks.flatten).drop j → j < first.length → j + tok.length ≤
                first.length) := by
        intro safe b hb hle hbuf' hparse hcross
        have hsplit : safe ++ (b ++ chunks.flatten) = current ++ chunks.flatten := by
          rw [← append_assoc, hb]
        have hdrop :
            ∀ n, (b ++ chunks.flatten).drop n = (current ++ chunks.flatten).drop
            (safe.length + n) := by
          intro n
          rw [← hsplit, ← drop_drop, drop_left]
        have hfind : ∀ tok n, Text.find tok (current ++ chunks.flatten) = some n → safe.length ≤ n →
            Text.find tok (b ++ chunks.flatten) = some (n - safe.length) := by
          intro tok n hn hle
          have hbehind := Text.find_drop hn hle
          rw [← hsplit, drop_left] at hbehind
          exact hbehind
        obtain ⟨first, second, chunks', htake, hflat, hrest, hrestCross⟩ :=
          @ih { p with buffer := b } (i - safe.length) (hm.of_eq rfl rfl rfl) hstrip hbuf'
          (hfind _ i hstart hle) (by
            intro hin e he
            obtain ⟨e', he'⟩ := Text.find_of_infix (t := current ++ chunks.flatten)
              (s := p.thinkEndToken)
              ((Text.find_isSome.mp
              (by rw [show Text.find p.thinkEndToken (b ++ chunks.flatten) = some e from he]; rfl) :
              p.thinkEndToken <:+: b ++ chunks.flatten).trans
              ⟨safe, [], by rw [append_nil]; exact hsplit⟩)
            have hie := hend hin e' he'
            have hfound := hfind _ e' he' (by omega)
            have he : Text.find p.thinkEndToken (b ++ chunks.flatten) = some e := he
            rw [hfound, Option.some.injEq] at he
            omega)
          (by
            intro hin tok t htok hpre hlt'
            have hpre : tok <+: (b ++ chunks.flatten).drop t := hpre
            rw [hdrop t] at hpre
            have hnear' := hnear hin tok _ htok hpre (by omega)
            show i - safe.length + p.thinkStartToken.length ≤ _
            omega)
        refine ⟨safe ++ first, second, chunks', ?_, ?_, ?_, ?_⟩
        · rw [append_assoc, htake]
          exact take_behind hsplit hle
        · rw [hflat]
          congr 1
          exact drop_behind hsplit hle
        · rw [stream_cons, hq, hparse, hrest]
          have hopened : opened { p with buffer := b } = p.opened := rfl
          rw [hopened]
          by_cases hin : p.inReasoning = true
          · simp only [hin, if_true, append_assoc, nil_append]
          · simp only [hin, if_false, Bool.false_eq_true, append_assoc, nil_append]
        · intro hin tok htok hborder j hpre hj
          rw [length_append] at hj ⊢
          by_cases hsafe : j < safe.length
          · exact (hcross hin tok htok hborder j hpre hsafe).trans (Nat.le_add_right _ _)
          · obtain ⟨k, rfl⟩ := Nat.exists_eq_add_of_le (not_lt.mp hsafe)
            rw [← hdrop] at hpre
            have hle := hrestCross hin tok htok hborder k hpre (by omega)
            omega
      by_cases hin : p.inReasoning = true
      · have hcurEnd : ¬p.thinkEndToken <:+: current := by
          intro h
          obtain ⟨e, he⟩ := Text.find_of_infix h
          have hadd := Text.find_add_le he
          have hie := hend hin e (Text.find_append he)
          have hapart := hm.start_end.1.le_of_starts (Text.find_eq_some hstart).1
            (Text.find_eq_some (Text.find_append (u := chunks.flatten) he)).1 hie
          omega
        have hnone : Text.find p.thinkEndToken current = none := Text.find_eq_none.mpr hcurEnd
        rcases tool_cases p current with ⟨tok, t, htool, hfind⟩ | htool
        · have hadd := Text.find_add_le hfind
          have hpre : tok <+: (current ++ chunks.flatten).drop t :=
            (Text.find_eq_some (Text.find_append hfind)).1
          have hti : t < i := by
            by_contra hge
            have hapart := (hm.tool tok htool).1.1.le_of_starts (Text.find_eq_some hstart).1 hpre
              (not_lt.mp hge)
            omega
          have hclose := hnear hin tok t htool hpre hti
          have hshort : ¬toolHoldMax < (current.drop t).length := by
            rw [length_drop]
            omega
          apply hstep (current.take t) (current.drop t) (take_append_drop t current)
          · rw [length_take]
            omega
          · exact Buffered.of_find hnone htool hfind fun _ => hcur
          · rw [parseMarkers_tool hin hnone htool (hm.solid_tool tok htool).ne_nil hfind,
              if_pos hin]
            unfold holdTool
            simp only [hshort, if_false]
          · rw [hin]
            exact fun h => absurd h (by simp)
        · obtain ⟨happ, hfound⟩ := holds_nextBuffer p current
          apply hstep (p.released current) (p.nextBuffer current) happ
          · exact (hfound _ (start_mem_trackedTokens hstrip) hcur chunks.flatten i hstart).1
          · exact Buffered.nextBuffer hm hnone htool fun _ => hcur
          · rw [parseMarkers_open hin hnone htool, if_pos hin]
          · rw [hin]
            exact fun h => absurd h (by simp)
      · have hholds := holds_splitTrailingPartial p current
        apply hstep _ _ hholds.append
        · exact (hholds.find_held (start_mem_trackedTokens hstrip) hcur hstart).1
        · exact hholds.buffered hm
        · rw [parseMarkers_normal (Bool.eq_false_iff.mpr hin), if_neg hin]
        · exact fun _ tok htok hborder j hpre hj => hholds.le_safe hm htok hborder hpre hj

end BaseReasoningParser

end FreeToken
