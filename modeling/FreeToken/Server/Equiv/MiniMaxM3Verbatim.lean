import FreeToken.Server.Equiv.MiniMaxM3Reasoning

/-!
# Where the MiniMax-M3 modes agree

`VerbatimWhen` says of a completion that every chunking is streamed as the one-shot parser splits it
(`stream_eq_detectAndParse_iff`).

* `stream_eq_of_verbatimWhen`: such a completion in any chunks.
* `stream_cut`: a cut behind the start of a marker, before the opening one.
* `Around`: a text with an opening marker, in one chunk and in two.
-/

namespace FreeToken.MiniMaxM3ReasoningParser

open List BaseReasoningParser
open ReasoningParser (stream)

variable {text body before x y u v a z : Text} {chunks : List Text} {e t i c : ℕ} {f s : Bool}

/-- Nothing but copies of the tool marker. -/
inductive Copies : Text → Prop where
  | nil : Copies []
  | append {u : Text} (h : Copies u) : Copies (toolStart ++ u)

/-- The completions that are streamed verbatim in every chunking.  With a template that opens the
thinking: no opening marker, and reasoning that is split verbatim.  Else, behind a bare closing
marker: no opening marker; and otherwise: an opening marker is at the start, with reasoning that is
split verbatim, or only copies of the tool marker are before it, another one comes behind it, and it
is not closed. -/
def VerbatimWhen (forceReasoning : Bool) (text : Text) : Prop :=
  if forceReasoning then ¬thinkStart <:+: text ∧ (new true true).base.BodyOk text
  else if thinkEnd <+: Text.lstrip text then ¬thinkStart <:+: (Text.lstrip text).drop
    thinkEnd.length
  else ∀ i, Text.find thinkStart text = some i →
    i = 0 ∧ (new true true).base.BodyOk (text.drop thinkStart.length) ∨
      Copies (text.take i) ∧ toolStart <+: text.drop (i + thinkStart.length) ∧
        ¬thinkEnd <:+: text.drop (i + thinkStart.length)

/-! ### The one-shot parser -/

/-- The markers are all that the split depends on. -/
theorem verbatim_eq {p q : BaseReasoningParser} (hend : p.thinkEndToken = q.thinkEndToken)
    (htool : p.toolStartToken = q.toolStartToken) : p.verbatim body = q.verbatim body := by
  unfold verbatim
  rw [hend, htool]

theorem detectAndParse_force :
    (new true s).detectAndParse text = (new true s).base.verbatim text := by
  unfold detectAndParse verbatim findTool
  rw [if_pos (by rfl)]
  cases Text.partition (new true s).base.thinkEndToken text with
  | some out => rfl
  | none => rfl

theorem detectAndParse_closer (h : thinkEnd <+: Text.lstrip text) :
    (new false s).detectAndParse text = ([], (Text.lstrip text).drop thinkEnd.length) := by
  have h : (new false s).base.thinkEndToken <+: Text.lstrip text := h
  unfold detectAndParse
  rw [if_neg (show ¬(new false s).forceReasoning = true from Bool.false_ne_true)]
  rw [if_pos h]
  rfl

theorem detectAndParse_plain (h : ¬thinkEnd <+: Text.lstrip text)
    (hstart : Text.find thinkStart text = none) :
    (new false s).detectAndParse text = ([], text) := by
  have h : ¬(new false s).base.thinkEndToken <+: Text.lstrip text := h
  unfold detectAndParse
  rw [if_neg (show ¬(new false s).forceReasoning = true from Bool.false_ne_true)]
  rw [if_neg h, base_start]
  unfold Text.partition
  rw [hstart]
  rfl

/-- Behind an opening marker: the text before it is normal, but where nothing ends the reasoning it
is lost. -/
theorem detectAndParse_start (h : ¬thinkEnd <+: Text.lstrip text)
    (hstart : Text.find thinkStart text = some i) :
    (new false s).detectAndParse text =
      (((new true true).base.verbatim (text.drop (i + thinkStart.length))).1,
        if Text.find thinkEnd (text.drop (i + thinkStart.length)) = none ∧
          Text.find toolStart (text.drop (i + thinkStart.length)) = none then []
        else text.take i ++ ((new true true).base.verbatim (text.drop (i + thinkStart.length))).2)
          := by
  have h : ¬(new false s).base.thinkEndToken <+: Text.lstrip text := h
  unfold detectAndParse
  rw [if_neg (show ¬(new false s).forceReasoning = true from Bool.false_ne_true)]
  rw [if_neg h, base_start]
  have hpart :
      Text.partition thinkStart text = some (text.take i, text.drop (i + thinkStart.length)) := by
    unfold Text.partition
    rw [hstart]
    rfl
  rw [hpart, base_end]
  generalize text.drop (i + thinkStart.length) = body
  -- the reasoning ends at its closer, at a tool call, or not at all
  cases hend : Text.find thinkEnd body with
  | some e =>
    have hpartEnd :
        Text.partition thinkEnd body = some (body.take e, body.drop (e + thinkEnd.length)) := by
      unfold Text.partition
      rw [hend]
      rfl
    rw [verbatim_of_end hend, if_neg (by simp)]
    simp only [hpartEnd]
    rfl
  | none =>
    have hpartEnd : Text.partition thinkEnd body = none := by
      unfold Text.partition
      rw [hend]
      rfl
    cases htool : Text.find toolStart body with
    | some t =>
      have hfind : (new false s).findTool body = some t := htool
      rw [verbatim_of_tool hend rfl htool, if_neg (by simp)]
      simp only [hpartEnd, hfind]
    | none =>
      have hfind : (new false s).findTool body = none := htool
      rw [verbatim_of_none hend (by
        intro tok htok
        obtain rfl := Option.some.inj htok
        exact htool), if_pos ⟨rfl, rfl⟩]
      simp only [hpartEnd, hfind]

/-! ### Texts that are streamed verbatim -/

/-- A marker that does not start inside of the first text, and is not in the second, is in neither.
-/
theorem not_infix_append {m : Text} (hapart : Apart x m) (h : ¬m <:+: y) : ¬m <:+: x ++ y := by
  intro hin
  obtain ⟨k, hk⟩ := Text.find_of_infix hin
  have hpre := (Text.find_eq_some hk).1
  by_cases hkx : k < x.length
  · rw [drop_append_of_le_length hkx.le] at hpre
    rcases prefix_or_prefix_of_prefix hpre (List.prefix_append (x.drop k) y) with hm | hx
    · exact (hapart k hkx).2 hm
    · exact (hapart k hkx).1 hx
  · obtain ⟨j, rfl⟩ := Nat.exists_eq_add_of_le (not_lt.mp hkx)
    rw [← drop_drop, drop_left] at hpre
    exact h (Text.infix_of_prefix_drop hpre)

theorem apart_tool_end : Apart toolStart thinkEnd := by decide

theorem Copies.absent (hu : Copies u) (h : ¬thinkEnd <:+: body) : ¬thinkEnd <:+: u ++ body := by
  induction hu with
  | nil => exact h
  | append _ ih =>
    rw [List.append_assoc]
    exact not_infix_append apart_tool_end ih

theorem Copies.prefix_append (hu : Copies u) (h : toolStart <+: body) :
    toolStart <+: u ++ body := by
  cases hu with
  | nil => exact h
  | append _ =>
    rw [List.append_assoc]
    exact List.prefix_append _ _

theorem Copies.of_append (hu : Copies (x ++ v))
    (hcut : ∀ j, toolStart <+: (x ++ v ++ z).drop j → j < x.length → j + toolStart.length ≤
      x.length) : Copies v := by
  generalize hw : x ++ v = w at *
  induction hu generalizing x with
  | nil =>
    rw [(append_eq_nil_iff.mp hw).2]
    exact Copies.nil
  | @append u hu ih =>
    by_cases hx : x = []
    · rw [hx, nil_append] at hw
      rw [hw]
      exact Copies.append hu
    · have hle := hcut 0 (by
        rw [List.drop_zero, List.append_assoc]
        exact List.prefix_append _ _) (List.length_pos_iff.mpr hx)
      rw [Nat.zero_add] at hle
      obtain ⟨x', rfl⟩ : toolStart <+: x :=
        prefix_of_prefix_length_le (List.prefix_append _ _) (hw ▸ List.prefix_append x v) hle
      rw [List.append_assoc, append_cancel_left_eq] at hw
      apply ih hw
      intro j hpre hj
      have hpre' : toolStart <+: (toolStart ++ u ++ z).drop (toolStart.length + j) := by
        rw [List.append_assoc, ← drop_drop, drop_left]
        exact hpre
      have hle' := hcut _ hpre' (by
        rw [length_append]
        omega)
      rw [length_append] at hle'
      omega

theorem stream_eq_of_verbatimWhen (h : VerbatimWhen f text) (hchunks : chunks.flatten = text) :
    stream (new f s) chunks = (new f s).detectAndParse text := by
  subst hchunks
  unfold VerbatimWhen at h
  split_ifs at h with hf hcloser
  · -- the template has opened the thinking
    subst hf
    rw [stream_of_not_pending rfl, detectAndParse_force]
    exact stream_verbatim markersOk_base rfl rfl (Or.inr h.1) h.2
  · -- a bare closing marker at the head is dropped
    obtain rfl : f = false := Bool.eq_false_iff.mpr hf
    obtain ⟨chunks', hflat, hstream⟩ := @stream_new s chunks
    have hafter : afterHead chunks.flatten = (Text.lstrip chunks.flatten).drop thinkEnd.length := by
      unfold afterHead
      rw [if_pos hcloser]
    rw [hafter] at hflat
    rw [hstream, detectAndParse_closer hcloser, stream_normal rfl (Or.inr (by
      rw [hflat]
      exact h)), hflat]
    rfl
  · -- a thinking block may open later
    obtain rfl : f = false := Bool.eq_false_iff.mpr hf
    obtain ⟨chunks', hflat, hstream⟩ := @stream_new s chunks
    have hafter : afterHead chunks.flatten = chunks.flatten := by
      unfold afterHead
      rw [if_neg hcloser]
    rw [hafter] at hflat
    rw [hstream]
    cases hstart : Text.find thinkStart chunks.flatten with
    | none =>
      rw [detectAndParse_plain hcloser hstart, stream_normal rfl (Or.inr (by
        rw [hflat]
        exact Text.find_eq_none.mp hstart)), hflat]
      rfl
    | some i =>
      have hstart' :
          Text.find (new false s).base.thinkStartToken
          ((new false s).base.buffer ++ chunks'.flatten) = some i := by
        rw [hflat]
        exact hstart
      obtain ⟨first, second, chunks'', htake, hflat', hopened, hcross⟩ :=
        stream_start markersOk_base rfl (Buffered.of_empty markersOk_base rfl) hstart'
        (fun h => absurd h Bool.false_ne_true) (fun h => absurd h Bool.false_ne_true)
      have htake : first ++ second = chunks.flatten.take i := by
        rw [htake, hflat]
        rfl
      have hflat' : chunks''.flatten = second ++ chunks.flatten.drop (i + thinkStart.length) := by
        rw [hflat', hflat]
        rfl
      have hopened : stream (new false s).base chunks' =
          ((stream (new false s).base.opened chunks'').1, first ++
            (stream (new false s).base.opened chunks'').2) :=
        hopened
      rw [hopened, detectAndParse_start hcloser hstart]
      rcases h i hstart with ⟨rfl, hbody⟩ | ⟨hcopies, htool, hend⟩
      · -- the marker is at the start
        rw [take_zero, append_eq_nil_iff] at htake
        obtain ⟨rfl, rfl⟩ := htake
        rw [Nat.zero_add, nil_append] at hflat'
        rw [Nat.zero_add]
        have hverbatim :=
          @stream_verbatim chunks'' (new false s).base.opened markersOk_opened rfl rfl
          (Or.inl rfl) (by
            rw [hflat']
            exact hbody)
        rw [hverbatim, hflat', @verbatim_eq _ (new false s).base.opened (new true true).base rfl
          rfl]
        split_ifs with hnone
        · rw [verbatim_of_none hnone.1 (by
            intro tok htok
            obtain rfl := Option.some.inj htok
            exact hnone.2)]
          rfl
        · rfl
      · -- only copies of the tool marker are before it
        have hcut : Copies second := by
          rw [← htake] at hcopies
          refine @Copies.of_append first second
            (thinkStart ++ chunks.flatten.drop (i + thinkStart.length)) hcopies ?_
          intro j hpre hj
          apply hcross rfl toolStart (by rw [trackedTokens_base]; decide) noBorder_tool j _ hj
          rw [htake] at hpre
          have hsplit :
              chunks.flatten.take i ++ (thinkStart ++ chunks.flatten.drop (i + thinkStart.length)) =
              chunks.flatten := by
            obtain ⟨rest, hrest⟩ := (Text.find_eq_some hstart).1
            rw [← drop_drop, ← hrest, drop_left, hrest, take_append_drop]
          rw [hsplit] at hpre
          rw [hflat]
          exact hpre
        have hnone :
            Text.find thinkEnd (second ++ chunks.flatten.drop (i + thinkStart.length)) = none :=
          Text.find_eq_none.mpr (hcut.absent hend)
        have hzero :
            Text.find toolStart (second ++ chunks.flatten.drop (i + thinkStart.length)) = some 0 :=
          Text.find_of_prefix (hcut.prefix_append htool) fun j hj => absurd hj (Nat.not_lt_zero j)
        have hzero' : Text.find toolStart (chunks.flatten.drop (i + thinkStart.length)) = some 0 :=
          Text.find_of_prefix htool fun j hj => absurd hj (Nat.not_lt_zero j)
        have hverbatim :=
          @stream_verbatim chunks'' (new false s).base.opened markersOk_opened rfl rfl
          (Or.inl rfl) (by
            rw [hflat']
            intro e he
            exact absurd (hnone.symm.trans he) (by simp))
        rw [hverbatim, hflat', verbatim_of_tool hnone rfl hzero, if_neg (by rw [hzero']; simp),
          verbatim_of_tool (Text.find_eq_none.mpr hend) rfl hzero', ← htake]
        simp only [take_zero, List.drop_zero, List.append_assoc]

/-! ### Chunkings -/

variable {p : BaseReasoningParser}

theorem split_of_anchor (hpart : ∃ tok ∈ p.trackedTokens, a <+: tok ∧ a.length < tok.length)
    (hanchor : ∀ tok ∈ p.trackedTokens, ∀ k < tok.length, a <:+ tok.take k → k ≤ a.length) :
    p.splitTrailingPartial (x ++ a) = (x, a) := by
  apply splitTrailingPartial_eq (Or.inr hpart)
  intro tok htok k hk hsuf
  by_contra hlt
  have hlen : (tok.take k).length = k := by
    rw [length_take]
    omega
  have hin : a <:+ tok.take k := suffix_of_suffix_length_le (suffix_append x a) hsuf (by omega)
  exact hlt (hanchor tok htok k hk hin)

/-- A cut behind `x ++ a`, where `a` is held, and the opening marker is still to come: `x` is
normal. -/
theorem stream_cut (hsplit : (new false s).base.splitTrailingPartial (x ++ a) = (x, a))
    (hfind : Text.find thinkStart (x ++ v ++ thinkStart ++ body) = some (x ++ v).length)
    (ha : a <+: v ++ thinkStart ++ body) (hlt : a.length < v.length + thinkStart.length)
    (hcloser : ¬thinkEnd <+: Text.lstrip (x ++ v ++ thinkStart ++ body))
    (hhold : ¬Text.lstrip (x ++ a) <+: thinkEnd) :
    stream (new false s) [x ++ a, (v ++ thinkStart ++ body).drop a.length] =
      ((stream (new false s).base.opened [v ++ body]).1, x ++
        (stream (new false s).base.opened [v ++ body]).2) := by
  obtain ⟨w, hw⟩ := ha
  have hwhole : x ++ v ++ thinkStart ++ body = x ++ a ++ w := by
    rw [List.append_assoc x a w, hw]
    simp only [List.append_assoc]
  have hne : Text.lstrip (x ++ a) ≠ [] := by
    intro hnil
    rw [hnil] at hhold
    exact hhold nil_prefix
  have hcloser' : ¬thinkEnd <+: Text.lstrip (x ++ a) := by
    intro h
    rw [hwhole, Text.lstrip_append hne] at hcloser
    exact hcloser (h.trans (List.prefix_append _ _))
  have hno : ¬thinkStart <:+: x ++ a := by
    intro hin
    obtain ⟨j, hj⟩ := Text.find_of_infix hin
    have hadd := Text.find_add_le hj
    have heq := Text.find_append (u := w) hj
    rw [← hwhole, hfind, Option.some.injEq, length_append] at heq
    rw [length_append] at hadd
    omega
  -- the first chunk is let go of up to `a`, which may still grow to a marker
  have hstep : (new false s).base.parseStreamingIncrement (x ++ a) =
      ({ (new false s).base with buffer := a }, [], x) := by
    rw [parseStreamingIncrement_eq]
    unfold stripThinkStart
    rw [if_neg fun h => hno h.2]
    have hmarkers := @parseMarkers_normal (new false s).base (x ++ a) rfl
    rw [hsplit] at hmarkers
    exact hmarkers
  -- with the second chunk it does
  have hfindNext : Text.find thinkStart (a ++ w) = some v.length := by
    have hdrop := Text.find_drop (k := x.length) hfind (by rw [length_append]; omega)
    rw [hwhole, List.append_assoc, drop_left, length_append, Nat.add_sub_cancel_left] at hdrop
    exact hdrop
  have hnext :
    BaseReasoningParser.parseStreamingIncrement { (new false s).base with buffer := a } w =
      (new false s).base.opened.parseStreamingIncrement
        ((a ++ w).take v.length ++ (a ++ w).drop (v.length + thinkStart.length)) :=
    @increment_of_start { (new false s).base with buffer := a } v.length w rfl hfindNext
  have hcut :
    (a ++ w).take v.length ++ (a ++ w).drop (v.length + thinkStart.length) = v ++ body := by
    rw [hw, List.append_assoc, take_left, ← drop_drop, drop_left, drop_left]
  have hlast :
    stream { (new false s).base with buffer := a } [w] = stream (new false s).base.opened
    [v ++ body] := by
    rw [stream_cons, stream_cons, hnext, hcut]
  have hdrop : (v ++ thinkStart ++ body).drop a.length = w := by
    rw [← hw, drop_left]
  rw [stream_new_cons hcloser' hhold, stream_cons, hstep, hdrop, hlast]
  rfl

theorem stream_whole
    (hfind : Text.find thinkStart (before ++ thinkStart ++ body) = some before.length)
    (hcloser : ¬thinkEnd <+: Text.lstrip (before ++ thinkStart ++ body)) (cs : List Text) :
    stream (new false s) ((before ++ thinkStart ++ body) :: cs) =
      stream (new false s).base.opened ((before ++ body) :: cs) := by
  have hsuf := @Text.SolidEnds.suffix_lstrip thinkStart before solidEnds_start
  have hne : Text.lstrip (before ++ thinkStart) ≠ [] := by
    intro hnil
    rw [hnil] at hsuf
    exact solidEnds_start.ne_nil (suffix_nil.mp hsuf)
  have hhold : ¬Text.lstrip (before ++ thinkStart ++ body) <+: thinkEnd := by
    intro h
    rw [Text.lstrip_append hne] at h
    have hin : thinkStart <:+: thinkEnd :=
      (hsuf.isInfix.trans (List.prefix_append _ body).isInfix).trans h.isInfix
    exact absurd hin (by decide)
  rw [stream_new_cons hcloser hhold, @stream_of_start _ _ (new false s).base cs rfl rfl hfind]
  have hcut : (before ++ thinkStart ++ body).take before.length ++
      (before ++ thinkStart ++ body).drop (before.length + thinkStart.length) = before ++ body := by
    rw [List.append_assoc, take_left, ← drop_drop, drop_left, drop_left]
  show stream _ (((before ++ thinkStart ++ body).take before.length ++
    (before ++ thinkStart ++ body).drop (before.length + thinkStart.length)) :: cs) = _
  rw [hcut]

theorem stream_start_cons (cs : List Text) :
    stream (new false s) ((thinkStart ++ body) :: cs) = stream (new false s).base.opened
      (body :: cs) := by
  have hfind : Text.find thinkStart ([] ++ thinkStart ++ body) = some 0 :=
    Text.find_of_prefix (List.prefix_append _ _) fun j hj => absurd hj (Nat.not_lt_zero j)
  apply @stream_whole body [] s hfind
  rw [nil_append, solidEnds_start.lstrip_of_prefix (List.prefix_append _ _)]
  intro hpre
  rcases prefix_or_prefix_of_prefix hpre (List.prefix_append thinkStart body) with h | h
  · exact absurd h (by decide)
  · exact absurd h (by decide)

theorem stream_closer (hcloser : thinkEnd <+: Text.lstrip text)
    (hrest : (Text.lstrip text).drop thinkEnd.length ≠ []) :
    stream (new false s) [text] = stream (new false s).base
      [(Text.lstrip text).drop thinkEnd.length] := by
  have hstep : (new false s).parseStreamingIncrement text =
      superIncrement { new false s with leadingCloserPending := false, headBuffer := [] }
        ((Text.lstrip text).drop thinkEnd.length) := by
    have hcloser : (new false s).base.thinkEndToken <+: Text.lstrip text := hcloser
    have hrest : (Text.lstrip text).drop (new false s).base.thinkEndToken.length ≠ [] := hrest
    have hbuffer : (new false s).headBuffer ++ text = text := rfl
    unfold parseStreamingIncrement
    rw [if_pos (by rfl)]
    rw [hbuffer, if_pos hcloser, if_neg hrest]
    rfl
  have hnext := @stream_of_not_pending [] (superIncrement
    { new false s with leadingCloserPending := false, headBuffer := [] }
      ((Text.lstrip text).drop thinkEnd.length)).1 rfl
  rw [stream_chunk, hstep, hnext, stream_cons]
  rfl

/-! ### Texts that are not -/

theorem infix_cut {m n : Text} (hmn : Apart m n) (hnm : Apart n m) (h : n <:+: x ++ m ++ y) :
    n <:+: x ++ y := by
  obtain ⟨k, hk⟩ := Text.find_of_infix h
  have hn := (Text.find_eq_some hk).1
  have hm : m <+: (x ++ m ++ y).drop x.length := by
    rw [List.append_assoc, drop_left]
    exact List.prefix_append _ _
  by_cases hkx : k ≤ x.length
  · -- it is before the marker
    have hle := hnm.le_of_starts hn hm hkx
    have hin : n <+: x.drop k := by
      apply prefix_of_prefix_length_le hn
      · rw [List.append_assoc, drop_append_of_le_length hkx]
        exact List.prefix_append _ _
      · rw [length_drop]
        omega
    exact (Text.infix_of_prefix_drop hin).trans (List.prefix_append x y).isInfix
  · have hle := hmn.le_of_starts hm hn (by omega)
    obtain ⟨j, rfl⟩ := Nat.exists_eq_add_of_le hle
    rw [← drop_drop, ← length_append, drop_left] at hn
    exact (Text.infix_of_prefix_drop hn).trans (suffix_append x y).isInfix

theorem apart_start_end : Apart thinkStart thinkEnd := by decide

theorem apart_end_start : Apart thinkEnd thinkStart := by decide

theorem length_verbatim (body : Text) :
    (p.verbatim body).1.length + (p.verbatim body).2.length +
      (if p.thinkEndToken <:+: body then p.thinkEndToken.length else 0) = body.length := by
  cases hend : Text.find p.thinkEndToken body with
  | some e =>
    have hadd := Text.find_add_le hend
    rw [verbatim_of_end hend, if_pos (Text.find_isSome.mp (by rw [hend]; rfl)), length_take,
      length_drop]
    omega
  | none =>
    rw [if_neg (Text.find_eq_none.mp hend)]
    by_cases htool : ∃ tok t, p.toolStartToken = some tok ∧ Text.find tok body = some t
    · obtain ⟨tok, t, htok, ht⟩ := htool
      rw [verbatim_of_tool hend htok ht, length_take, length_drop]
      omega
    · rw [verbatim_of_none hend]
      · rfl
      · intro tok htok
        by_contra hsome
        obtain ⟨t, ht⟩ := Option.ne_none_iff_exists'.mp hsome
        exact htool ⟨tok, t, htok, ht⟩

/-- Reasoning that is split verbatim in one chunk and in two has no whitespace before the closing
marker, and its tool markers are near. -/
theorem bodyOk_of_stream (hm : p.MarkersOk) (hin : p.inReasoning = true)
    (hbuf : p.buffer = []) (hq : p.Quiet body) (hwhole : stream p [body] = p.verbatim body)
    (hcut : ∀ m, stream p [body.take m, body.drop m] = p.verbatim body) : p.BodyOk body := by
  intro e he
  have hverbatim := verbatim_of_end he
  constructor
  · rw [hverbatim, stream_singleton_end hin hbuf hq he] at hwhole
    exact congrArg Prod.fst hwhole
  · intro tok t htok hpre hlt
    by_contra hfar
    apply stream_cut_end hm hin hbuf hq he htok hpre hlt (by omega)
    rw [hcut, hverbatim]

theorem length_opened (before body : Text) :
    (stream (new f s).base.opened [before ++ body]).1.length +
      (stream (new f s).base.opened [before ++ body]).2.length +
        (if thinkEnd <:+: before ++ thinkStart ++ body then thinkEnd.length else 0) ≤
        before.length + body.length := by
  have hlen :=
    @length_stream_singleton (before ++ body) (new f s).base.opened markersOk_opened rfl rfl
    (Or.inl rfl)
  rw [length_append] at hlen
  by_cases hin : thinkEnd <:+: before ++ thinkStart ++ body
  · have hin' : (new f s).base.opened.thinkEndToken <:+: before ++ body :=
      infix_cut apart_start_end apart_end_start hin
    rw [if_pos hin'] at hlen
    rw [if_pos hin]
    exact hlen
  · rw [if_neg hin]
    exact (Nat.le_add_right _ _).trans hlen

/-- A template that opens the thinking, and an opening marker: it is lost in one chunk. -/
theorem not_start_of_force
    (hwhole : stream (new true s) [text] = (new true s).detectAndParse text) :
    ¬thinkStart <:+: text := by
  intro hin
  obtain ⟨i, hi⟩ := Text.find_of_infix hin
  obtain ⟨htext, -⟩ := Text.eq_append_of_find hi
  have hopened := @stream_of_start _ _ (new true s).base [] rfl rfl hi
  have hstream : stream (new true s) [text] = stream (new true s).base [text] :=
    stream_of_not_pending rfl
  have hlen := @length_opened true s (text.take i) (text.drop (i + thinkStart.length))
  rw [← htext] at hlen
  have hsplit := length_verbatim (p := (new true s).base) text
  have heq : stream (new true s).base.opened [text.take i ++ text.drop (i + thinkStart.length)] =
      (new true s).base.verbatim text := by
    rw [← detectAndParse_force, ← hwhole, hstream]
    exact hopened.symm
  rw [heq] at hlen
  have hpos : 0 < thinkStart.length := by decide
  have hlength := congrArg List.length htext
  rw [length_append, length_append] at hlength
  rw [base_end] at hsplit
  omega

/-- A bare closing marker, and an opening one behind it: it is lost in one chunk. -/
theorem not_start_of_closer (hcloser : thinkEnd <+: Text.lstrip text)
    (hwhole : stream (new false s) [text] = (new false s).detectAndParse text) :
    ¬thinkStart <:+: (Text.lstrip text).drop thinkEnd.length := by
  intro hin
  rw [detectAndParse_closer hcloser] at hwhole
  rw [stream_closer hcloser] at hwhole
  · generalize (Text.lstrip text).drop thinkEnd.length = rest at *
    obtain ⟨i, hi⟩ := Text.find_of_infix hin
    obtain ⟨hrest, -⟩ := Text.eq_append_of_find hi
    have hopened := @stream_of_start _ _ (new false s).base [] rfl rfl hi
    have hlen := @length_opened false s (rest.take i) (rest.drop (i + thinkStart.length))
    have heq :
        stream (new false s).base.opened [rest.take i ++ rest.drop (i + thinkStart.length)] =
        ([], rest) := by
      rw [← hwhole]
      exact hopened.symm
    rw [heq] at hlen
    have hpos : 0 < thinkStart.length := by decide
    have hlength := congrArg List.length hrest
    rw [length_append, length_append] at hlength
    simp only [length_nil] at hlen
    omega
  · intro hnil
    rw [hnil] at hin
    exact solidEnds_start.ne_nil (infix_nil.mp hin)

/-- Every chunking of the text is streamed as the one-shot parser splits it. -/
def Agrees (f s : Bool) (text : Text) : Prop :=
  ∀ chunks : List Text, chunks.flatten = text → stream (new f s) chunks = (new f s).detectAndParse
    text

theorem Agrees.whole (h : Agrees f s text) :
    stream (new f s) [text] = (new f s).detectAndParse text :=
  h [text] flatten_singleton

theorem verbatimWhen_of_force (h : Agrees true s text) :
    ¬thinkStart <:+: text ∧ (new true true).base.BodyOk text := by
  have hno := not_start_of_force h.whole
  refine ⟨hno, ?_⟩
  have hbody : (new true s).base.BodyOk text := by
    apply bodyOk_of_stream markersOk_base rfl rfl (Or.inr hno)
    · rw [← detectAndParse_force, ← h.whole]
      exact (stream_of_not_pending rfl).symm
    · intro m
      rw [← detectAndParse_force, ← h [text.take m, text.drop m] (by simp)]
      exact (stream_of_not_pending rfl).symm
  exact hbody

/-- An opening marker at the start. -/
theorem bodyOk_of_start (h : Agrees false s (thinkStart ++ body)) :
    (new true true).base.BodyOk body := by
  have hcloser : ¬thinkEnd <+: Text.lstrip (thinkStart ++ body) := by
    rw [solidEnds_start.lstrip_of_prefix (List.prefix_append _ _)]
    intro hpre
    rcases prefix_or_prefix_of_prefix hpre (List.prefix_append thinkStart body) with h | h
    · exact absurd h (by decide)
    · exact absurd h (by decide)
  have hfind : Text.find thinkStart (thinkStart ++ body) = some 0 :=
    Text.find_of_prefix (List.prefix_append _ _) fun j hj => absurd hj (Nat.not_lt_zero j)
  have hshot :
      (new false s).detectAndParse (thinkStart ++ body) =
      (new false s).base.opened.verbatim body := by
    rw [detectAndParse_start hcloser hfind, Nat.zero_add, drop_left, take_zero, nil_append,
      @verbatim_eq _ (new false s).base.opened (new true true).base rfl rfl]
    split_ifs with hnone
    · rw [verbatim_of_none hnone.1 (by
        intro tok htok
        obtain rfl := Option.some.inj htok
        exact hnone.2)]
    · rfl
  have hbody : (new false s).base.opened.BodyOk body := by
    apply bodyOk_of_stream markersOk_opened rfl rfl (Or.inl rfl)
    · rw [← stream_start_cons, ← hshot]
      exact h.whole
    · intro m
      rw [← stream_start_cons, ← hshot]
      apply h
      simp
  exact hbody

/-- The parts of a text with an opening marker, before which there is no bare closing one. -/
structure Around (before body : Text) : Prop where
  find : Text.find thinkStart (before ++ thinkStart ++ body) = some before.length
  closer : ¬thinkEnd <+: Text.lstrip (before ++ thinkStart ++ body)

section Around

variable (ha : Around before body) (h : Agrees false s (before ++ thinkStart ++ body))

include ha in
theorem Around.detectAndParse : (new false s).detectAndParse (before ++ thinkStart ++ body) =
    (((new true true).base.verbatim body).1,
      if Text.find thinkEnd body = none ∧ Text.find toolStart body = none then []
      else before ++ ((new true true).base.verbatim body).2) := by
  have hbody : (before ++ thinkStart ++ body).drop (before.length + thinkStart.length) = body := by
    rw [List.append_assoc, ← drop_drop, drop_left, drop_left]
  rw [detectAndParse_start ha.closer ha.find, hbody, List.append_assoc, take_left]

include ha h in
/-- The whole text. -/
theorem Around.opened : stream (new false s).base.opened [before ++ body] =
    (new false s).detectAndParse (before ++ thinkStart ++ body) := by
  rw [← h.whole]
  exact (stream_whole ha.find ha.closer []).symm

include ha h in
theorem Around.cut (hbefore : before = x ++ v)
    (hsplit : (new false s).base.splitTrailingPartial (x ++ a) = (x, a))
    (hpre : a <+: v ++ thinkStart ++ body) (hlt : a.length < v.length + thinkStart.length)
    (hhold : ¬Text.lstrip (x ++ a) <+: thinkEnd) :
    ((stream (new false s).base.opened [v ++ body]).1, x ++
      (stream (new false s).base.opened [v ++ body]).2) =
      (new false s).detectAndParse (before ++ thinkStart ++ body) := by
  subst hbefore
  rw [← stream_cut hsplit ha.find hpre hlt ha.closer hhold]
  apply h
  obtain ⟨w, hw⟩ := hpre
  rw [← hw, drop_left, flatten_cons, flatten_singleton, List.append_assoc x a w, hw]
  simp only [List.append_assoc]

theorem not_hold (hsolid : Text.SolidEnds a) (hin : ¬a <:+: thinkEnd) :
    ¬Text.lstrip (x ++ a) <+: thinkEnd := by
  intro hpre
  exact hin (hsolid.suffix_lstrip.isInfix.trans hpre.isInfix)

include ha h in
/-- Reasoning that nothing ends: the text before it is lost by the one-shot parser only. -/
theorem Around.before_eq_nil (hend : Text.find thinkEnd body = none)
    (htool : Text.find toolStart body = none) :
    before = [] := by
  have hcut := ha.cut h (x := before) (v := []) (a := thinkStart.take 2) (append_nil before).symm
    (split_of_anchor (by rw [trackedTokens_base]; decide) (by rw [trackedTokens_base]; decide))
    ((List.take_prefix 2 thinkStart).trans (List.prefix_append _ _)) (by decide)
    (not_hold ⟨'<', 'm', by decide, by decide, by decide, by decide⟩ (by decide))
  rw [ha.detectAndParse, if_pos ⟨hend, htool⟩] at hcut
  exact (append_eq_nil_iff.mp (congrArg Prod.snd hcut)).1

include ha h in
/-- A closing marker behind the opening one, in one chunk: one is there at the same place without
the opening one, and the text before it is moved behind it. -/
theorem Around.whole_end (hend : Text.find thinkEnd body = some e) :
    Text.find thinkEnd (before ++ body) = some e ∧ (before ++ body).take e = body.take e ∧
      (before ++ body).drop (e + thinkEnd.length) = before ++ body.drop (e + thinkEnd.length) := by
  have hin : thinkEnd <:+: before ++ body :=
    (Text.find_isSome.mp (by rw [hend]; rfl)).trans (suffix_append before body).isInfix
  obtain ⟨c, hc⟩ := Text.find_of_infix hin
  have hopened := ha.opened h
  have hwhole :=
    @stream_singleton_end (before ++ body) _ (new false s).base.opened rfl rfl (Or.inl rfl) hc
  have hverbatim := verbatim_of_end (p := (new true true).base) hend
  rw [ha.detectAndParse, if_neg (by rw [hend]; simp), hverbatim, hwhole] at hopened
  have hreasoning : Text.rstrip ((before ++ body).take c) = body.take e := congrArg Prod.fst hopened
  have hnormal :
      (before ++ body).drop (c + thinkEnd.length) = before ++ body.drop (e + thinkEnd.length) :=
    congrArg Prod.snd hopened
  have hbody := Text.find_add_le hend
  have hall := Text.find_add_le hc
  have hce : c = e := by
    have hlen := congrArg List.length hnormal
    rw [length_append] at hall
    rw [length_drop, length_append, length_append, length_drop] at hlen
    omega
  subst hce
  refine ⟨hc, ?_, hnormal⟩
  obtain ⟨w, -, hw⟩ := Text.exists_rstrip_append ((before ++ body).take c)
  rw [hreasoning] at hw
  have hlen := congrArg List.length hw
  rw [length_append, length_take, length_take] at hlen
  rw [length_append] at hall hlen
  have hnil : w = [] := length_eq_zero_iff.mp (by omega)
  rw [← hw, hnil, append_nil]

theorem getLast_not_mem {k : ℕ} (hk : k < thinkEnd.length) : '>' ∉ thinkEnd.take k := by
  revert k
  decide

/-- What is held of the text that ends in a start of a closing marker is that start. -/
theorem lstrip_of_hold (hpre : Text.lstrip (x ++ thinkEnd.take 2) <+: thinkEnd) :
    Text.lstrip (x ++ thinkEnd.take 2) = thinkEnd.take 2 := by
  have hsolid : Text.SolidEnds (thinkEnd.take 2) :=
    ⟨'<', '/', by decide, by decide, by decide, by decide⟩
  have hsuf := @Text.SolidEnds.suffix_lstrip (thinkEnd.take 2) x hsolid
  have hanchor : ∀ k < thinkEnd.length + 1, thinkEnd.take 2 <:+ thinkEnd.take k → k ≤ 2 := by decide
  have hk :=
    hanchor (Text.lstrip (x ++ thinkEnd.take 2)).length (Nat.lt_succ_of_le hpre.length_le) (by
    rw [← prefix_iff_eq_take.mp hpre]
    exact hsuf)
  exact (hsuf.eq_of_length_le hk).symm

include ha h in
/-- A closing marker before the opening one ends the reasoning before it starts, where it is cut. -/
theorem Around.not_end_before (hend : Text.find thinkEnd body = some e) :
    ¬thinkEnd <+: before.drop e := by
  intro hin
  have hsplit : before = before.take e ++ before.drop e := (take_append_drop e before).symm
  have hpre : thinkEnd.take 2 <+: before.drop e ++ thinkStart ++ body := by
    rw [List.append_assoc]
    exact ((List.take_prefix 2 thinkEnd).trans hin).trans (List.prefix_append _ _)
  have hfirst :
    Text.find (new false s).base.opened.thinkEndToken (before.drop e ++ body) = some 0 :=
    Text.find_of_prefix (hin.trans (List.prefix_append _ _)) fun j hj =>
      absurd hj (Nat.not_lt_zero j)
  by_cases hhold : Text.lstrip (before.take e ++ thinkEnd.take 2) <+: thinkEnd
  · -- only whitespace is before it
    apply ha.closer
    have hstrip := lstrip_of_hold hhold
    obtain ⟨w, hw⟩ := hpre
    have htext : before ++ thinkStart ++ body = before.take e ++ thinkEnd.take 2 ++ w := by
      rw [List.append_assoc (before.take e), hw, ← List.append_assoc, ← List.append_assoc, ← hsplit]
    have hne : Text.lstrip (before.take e ++ thinkEnd.take 2) ≠ [] := by
      rw [hstrip]
      decide
    rw [htext, Text.lstrip_append hne, hstrip, hw, List.append_assoc]
    exact hin.trans (List.prefix_append _ _)
  · have hcut := ha.cut h hsplit (split_of_anchor (by rw [trackedTokens_base]; decide)
      (by rw [trackedTokens_base]; decide)) hpre (by
        have hlen := hin.length_le
        have htwo : (thinkEnd.take 2).length ≤ thinkEnd.length := length_take_le' 2 thinkEnd
        have hpos : 0 < thinkStart.length := by decide
        omega) hhold
    rw [ha.detectAndParse, if_neg (by rw [hend]; simp), verbatim_of_end (p := (new true true).base)
      hend, stream_singleton_end (p := (new false s).base.opened) rfl rfl (Or.inl rfl) hfirst]
      at hcut
    have hreasoning : [] = body.take e := congrArg Prod.fst hcut
    have hadd := Text.find_add_le hend
    have hlen := congrArg List.length hreasoning
    rw [length_nil, length_take] at hlen
    have hpos : 0 < thinkEnd.length := by decide
    obtain rfl : e = 0 := by omega
    apply ha.closer
    rw [List.drop_zero] at hin
    rw [List.append_assoc, solidEnds_end.lstrip_of_prefix (hin.trans (List.prefix_append _ _))]
    exact hin.trans (List.prefix_append _ _)

theorem getLast?_of_commute (hne : before ≠ []) {w : Text}
    (hcomm : before ++ (w ++ thinkEnd) = w ++ thinkEnd ++ before) : before.getLast? = some '>' := by
  have hlast := congrArg List.getLast? hcomm
  rw [← List.append_assoc, getLast?_append, getLast?_append (l := w ++ thinkEnd)] at hlast
  cases hb : before.getLast? with
  | none => exact absurd (getLast?_eq_none_iff.mp hb) hne
  | some c =>
    rw [hb] at hlast
    exact hlast.symm

include ha h in
theorem Around.before_eq_nil_of_end (hend : Text.find thinkEnd body = some e) : before = [] := by
  by_contra hne
  have hpos := List.length_pos_iff.mpr hne
  obtain ⟨hc, htake, hdrop⟩ := ha.whole_end h hend
  have hpre := (Text.find_eq_some hc).1
  have hadd := Text.find_add_le hend
  rcases lt_or_ge e before.length with hlt | hge
  · by_cases hin : e + thinkEnd.length ≤ before.length
    · apply ha.not_end_before h hend
      apply prefix_of_prefix_length_le hpre
      · rw [drop_append_of_le_length hlt.le]
        exact List.prefix_append _ _
      · rw [length_drop]
        omega
    · -- the marker is across the place of the opening one
      have hcomm : before ++ (body.take e ++ thinkEnd) = body.take e ++ thinkEnd ++ before := by
        have hbody := (Text.eq_append_of_find hend).1
        have hall := (Text.eq_append_of_find hc).1
        rw [htake, hdrop] at hall
        apply @append_cancel_right _ _ (body.drop (e + thinkEnd.length))
        rw [List.append_assoc, ← hbody, hall]
        simp only [List.append_assoc]
      have hlast := getLast?_of_commute hne hcomm
      have hpart : before.drop e <+: thinkEnd := by
        apply @prefix_of_prefix_length_le _ _ _ ((before ++ body).drop e)
        · rw [drop_append_of_le_length hlt.le]
          exact List.prefix_append _ _
        · exact hpre
        · rw [length_drop]
          omega
      have hmem : '>' ∈ before.drop e := by
        rw [← take_append_drop e before, getLast?_append_of_ne_nil] at hlast
        · exact mem_of_getLast? hlast
        · intro hnil
          have hlen := congrArg List.length hnil
          rw [length_drop, length_nil] at hlen
          omega
      rw [prefix_iff_eq_take.mp hpart] at hmem
      apply getLast_not_mem _ hmem
      rw [length_drop]
      omega
  · -- the marker would be earlier in the reasoning
    obtain ⟨j, rfl⟩ := Nat.exists_eq_add_of_le hge
    rw [← drop_drop, drop_left] at hpre
    exact (Text.find_eq_some hend).2 j (by omega) hpre

include ha h in
/-- A tool marker behind the opening one, and no closing one, in one chunk: one is there at the same
place without the opening one, and the text before it is moved behind it. -/
theorem Around.whole_tool (hend : Text.find thinkEnd body = none)
    (htool : Text.find toolStart body = some t) :
    Text.find thinkEnd (before ++ body) = none ∧ Text.find toolStart (before ++ body) = some t ∧
      (before ++ body).take t = body.take t ∧ (before ++ body).drop t = before ++ body.drop t := by
  have hopened := ha.opened h
  rw [ha.detectAndParse, if_neg (by rw [htool]; simp), verbatim_of_tool (p := (new true true).base)
    hend rfl htool] at hopened
  have hbody := Text.find_add_le htool
  have hend' : Text.find thinkEnd (before ++ body) = none := by
    rw [Text.find_eq_none]
    intro hin
    obtain ⟨c, hc⟩ := Text.find_of_infix hin
    have hadd := Text.find_add_le hc
    rw [stream_singleton_end (p := (new false s).base.opened) rfl rfl (Or.inl rfl) hc] at hopened
    have hreasoning := congrArg (fun out => List.length out.1) hopened
    have hnormal := congrArg (fun out => List.length out.2) hopened
    have hpos : 0 < thinkEnd.length := by decide
    obtain ⟨w, -, hw⟩ := Text.exists_rstrip_append ((before ++ body).take c)
    have hlen := congrArg List.length hw
    have htoken : (new false s).base.opened.thinkEndToken = thinkEnd := rfl
    simp only [length_take, length_drop, length_append, htoken] at *
    omega
  obtain ⟨t', ht'⟩ : ∃ t', Text.find toolStart (before ++ body) = some t' :=
    Text.find_of_infix
      ((Text.find_isSome.mp (by rw [htool]; rfl)).trans (suffix_append before body).isInfix)
  have hadd := Text.find_add_le ht'
  have hverbatim := @stream_verbatim [before ++ body] (new false s).base.opened markersOk_opened rfl
    rfl (Or.inl rfl) (by
      rw [flatten_singleton]
      intro e he
      exact absurd (hend'.symm.trans he) (by simp))
  rw [flatten_singleton, verbatim_of_tool (p := (new false s).base.opened) hend' rfl ht',
    hopened] at hverbatim
  have hreasoning : body.take t = (before ++ body).take t' := congrArg Prod.fst hverbatim
  have hnormal : before ++ body.drop t = (before ++ body).drop t' := congrArg Prod.snd hverbatim
  have hlen := congrArg List.length hreasoning
  rw [length_take, length_take] at hlen
  rw [length_append] at hadd hlen
  obtain rfl : t = t' := by omega
  exact ⟨hend', ht', hreasoning.symm, hnormal.symm⟩

theorem eq_nil_of_tool (hpre : toolStart <+: u ++ y) (hy : toolStart <+: y)
    (hlt : u.length < toolStart.length) :
    u = [] := by
  by_contra hne
  apply noBorder_tool u.length hlt (List.length_pos_iff.mpr hne)
  obtain ⟨w, hw⟩ := hpre
  have hdrop : toolStart.drop u.length ++ w = y := by
    rw [← drop_append_of_le_length hlt.le, hw, drop_left]
  apply @prefix_of_prefix_length_le _ _ _ y
  · rw [← hdrop]
    exact List.prefix_append _ _
  · exact hy
  · rw [length_drop]
    omega

include ha h in
theorem Around.tool_eq_zero (hend : Text.find thinkEnd body = none)
    (htool : Text.find toolStart body = some t) (hne : before ≠ []) : t = 0 := by
  by_contra hpos
  obtain ⟨-, hfind, htake, hdrop⟩ := ha.whole_tool h hend htool
  have hpre := (Text.find_eq_some hfind).1
  have hbody := (Text.find_eq_some htool).1
  rcases lt_or_ge t before.length with hlt | hge
  · have hpre' : toolStart <+: before ++ body.drop t := hdrop ▸ hpre
    by_cases hlong : toolStart.length ≤ before.length
    · have hin : toolStart <+: before :=
        prefix_of_prefix_length_le hpre' (List.prefix_append before _) hlong
      exact (Text.find_eq_some hfind).2 0 (Nat.pos_of_ne_zero hpos)
        (hin.trans (List.prefix_append _ _))
    · exact hne (eq_nil_of_tool hpre' hbody (not_le.mp hlong))
  · obtain ⟨j, rfl⟩ := Nat.exists_eq_add_of_le hge
    rw [← drop_drop, drop_left] at hpre
    have hbefore := List.length_pos_iff.mpr hne
    exact (Text.find_eq_some htool).2 j (by omega) hpre

theorem split_of_tool (htracked : p.trackedTokens = [thinkEnd, thinkStart, toolStart]) :
    p.splitTrailingPartial (x ++ toolStart ++ []) = (x ++ toolStart, []) := by
  apply splitTrailingPartial_eq (Or.inl rfl)
  intro tok htok k hk hsuf
  rw [htracked] at htok
  have hnone :
      ∀ tok ∈ [thinkEnd, thinkStart, toolStart], ∀ k < tok.length, tok.take k <:+ toolStart →
      k ≤ 0 := by
    decide
  have hle : ∀ tok ∈ [thinkEnd, thinkStart, toolStart], tok.length ≤ toolStart.length := by decide
  apply hnone tok htok k hk
  rw [append_nil] at hsuf
  apply suffix_of_suffix_length_le hsuf (suffix_append x toolStart)
  rw [length_take]
  exact (min_le_left _ _).trans (hk.le.trans (hle tok htok))

include ha h in
theorem Around.tool_next (hend : Text.find thinkEnd body = none)
    (htool : Text.find toolStart body = some 0)
    (hbefore : before = x ++ (toolStart ++ v)) : toolStart <+: v ++ body := by
  have hcut :=
    ha.cut h (x := x ++ toolStart) (v := v) (a := []) (by rw [hbefore, List.append_assoc])
    (split_of_tool trackedTokens_base) nil_prefix (by
      have hpos : 0 < thinkStart.length := by decide
      rw [length_nil]
      omega) (by
      rw [append_nil]
      exact not_hold solidEnds_tool (by decide))
  rw [ha.detectAndParse, if_neg (by rw [htool]; simp), verbatim_of_tool (p := (new true true).base)
    hend rfl htool] at hcut
  have hend' : Text.find thinkEnd (v ++ body) = none := by
    apply Text.find_none_of_suffix (ha.whole_tool h hend htool).1
    rw [hbefore, List.append_assoc, List.append_assoc]
    exact (suffix_append _ _).trans (suffix_append _ _)
  obtain ⟨t, ht⟩ : ∃ t, Text.find toolStart (v ++ body) = some t :=
    Text.find_of_infix
      ((Text.find_isSome.mp (by rw [htool]; rfl)).trans (suffix_append v body).isInfix)
  have hverbatim := @stream_verbatim [v ++ body] (new false s).base.opened markersOk_opened rfl
    rfl (Or.inl rfl) (by
      rw [flatten_singleton]
      intro e he
      exact absurd (hend'.symm.trans he) (by simp))
  rw [flatten_singleton, verbatim_of_tool (p := (new false s).base.opened) hend' rfl ht]
    at hverbatim
  rw [hverbatim] at hcut
  have hreasoning : (v ++ body).take t = body.take 0 := congrArg Prod.fst hcut
  have hlen := congrArg List.length hreasoning
  have hadd := Text.find_add_le ht
  rw [length_take, take_zero, length_nil] at hlen
  have hpos : 0 < toolStart.length := by decide
  obtain rfl : t = 0 := by omega
  exact (Text.find_eq_some ht).1

include ha h in
theorem Around.copies (hend : Text.find thinkEnd body = none)
    (htool : Text.find toolStart body = some 0)
    (hbefore : before = x ++ v) (hv : toolStart <+: v ++ body) : Copies v := by
  induction hn : v.length using Nat.strong_induction_on generalizing x v with
  | _ n ih =>
    by_cases hlong : toolStart.length ≤ v.length
    · obtain ⟨v', rfl⟩ : toolStart <+: v :=
        prefix_of_prefix_length_le hv (List.prefix_append v body) hlong
      have hnext := ha.tool_next h hend htool hbefore
      have hlt : v'.length < n := by
        rw [← hn, length_append]
        have hpos : 0 < toolStart.length := by decide
        omega
      exact Copies.append
        (ih v'.length hlt (x := x ++ toolStart) (by rw [hbefore, List.append_assoc]) hnext rfl)
    · rw [eq_nil_of_tool hv (Text.find_eq_some htool).1 (not_le.mp hlong)]
      exact Copies.nil

include ha h in
theorem Around.copies_of_ne_nil (hne : before ≠ []) :
    Copies before ∧ toolStart <+: body ∧ ¬thinkEnd <:+: body := by
  cases hend : Text.find thinkEnd body with
  | some e => exact absurd (ha.before_eq_nil_of_end h hend) hne
  | none =>
    cases htool : Text.find toolStart body with
    | none => exact absurd (ha.before_eq_nil h hend htool) hne
    | some t =>
      obtain rfl := ha.tool_eq_zero h hend htool hne
      obtain ⟨-, hfind, -, -⟩ := ha.whole_tool h hend htool
      refine ⟨?_, (Text.find_eq_some htool).1, Text.find_eq_none.mp hend⟩
      exact ha.copies h hend htool (nil_append before).symm (Text.find_eq_some hfind).1

end Around

theorem verbatimWhen_of_agrees (h : Agrees f s text) : VerbatimWhen f text := by
  unfold VerbatimWhen
  split_ifs with hf hcloser
  · subst hf
    exact verbatimWhen_of_force h
  · obtain rfl : f = false := Bool.eq_false_iff.mpr hf
    exact not_start_of_closer hcloser h.whole
  · obtain rfl : f = false := Bool.eq_false_iff.mpr hf
    intro i hi
    obtain ⟨htext, hlen⟩ := Text.eq_append_of_find hi
    generalize text.take i = before at *
    generalize hbody : text.drop (i + thinkStart.length) = body at *
    subst hlen htext
    have ha : Around before body := ⟨hi, hcloser⟩
    by_cases hnil : before = []
    · left
      subst hnil
      refine ⟨rfl, ?_⟩
      rw [nil_append, drop_left]
      exact bodyOk_of_start h
    · right
      exact ha.copies_of_ne_nil h hnil

/-- Every chunking of a completion is streamed as the one-shot parser splits it, exactly if it is
one of these. -/
theorem stream_eq_detectAndParse_iff (f s : Bool) (text : Text) :
    (∀ chunks : List Text, chunks.flatten = text → stream (new f s) chunks =
      (new f s).detectAndParse text) ↔
      VerbatimWhen f text :=
  ⟨verbatimWhen_of_agrees, fun h _ => stream_eq_of_verbatimWhen h⟩

/-- Whitespace before the closing marker, and text before the opening one of reasoning that is cut
off: both are what the modes differ in. -/
theorem not_stream_eq_detectAndParse :
    stream (new true true) ["a </mm:think>b".toList] ≠ (new true true).detectAndParse "a </mm:think>b".toList ∧
      stream (new false true) ["x<mm:".toList, "think>y".toList] ≠
        (new false true).detectAndParse "x<mm:think>y".toList := by
  decide

end FreeToken.MiniMaxM3ReasoningParser
