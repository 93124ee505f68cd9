import FreeToken.Server.Equiv.ReasoningParser

/-!
# Streaming and one-shot reasoning

Without the opening marker a completion that is reasoned about is `reasoning ++ closing marker ++
normal text`, for the streaming parser in every chunking, and for the one-shot parser (`Outcome`).
The two then differ in whitespace only.

* `stream_agrees`: the same channels, and nothing lost.
* `not_stream_agrees`: texts on which they differ more.
-/

namespace FreeToken.BaseReasoningParser

open List

open ReasoningParser (stream)

variable {p : BaseReasoningParser} {text x y m : Text} {chunks : List Text} {e i k : ℕ}

/-! ### The text without its opening marker -/

/-- No occurrence of `m` goes across place `i`. -/
def NoSeam (m text : Text) (i : ℕ) : Prop := ∀ k < i, i < k + m.length → ¬m <+: text.drop k

theorem drop_append_of_le (h : k ≤ x.length) : (x ++ y).drop k = x.drop k ++ y :=
    drop_append_of_le_length h

/-- Whitespace has no seam with what follows. -/
theorem noSeam_of_blank (hm : Text.SolidEnds m) (hx : Text.Blank x) :
    NoSeam m (x ++ y) x.length := by
  intro k hk _ hpre
  have hle := hm.le_of_prefix_drop hx hpre
  omega

section Cut

variable {start : Text}

theorem occurs_of_cut (hseam : NoSeam m (x ++ y) x.length) (h : m <+: (x ++ y).drop k) :
    k + m.length ≤ x.length ∧ m <+: (x ++ start ++ y).drop k ∨
      x.length ≤ k ∧ m <+: (x ++ start ++ y).drop (k + start.length) := by
  by_cases hk : x.length ≤ k
  · right
    refine ⟨hk, ?_⟩
    obtain ⟨j, rfl⟩ := Nat.exists_eq_add_of_le hk
    rw [← drop_drop, drop_left] at h
    have hadd : x.length + j + start.length = (x ++ start).length + j := by
      rw [length_append]
      omega
    rw [hadd, ← drop_drop, drop_left]
    exact h
  · left
    have hle : k + m.length ≤ x.length := by
      by_contra hlt
      exact hseam k (by omega) (by omega) h
    refine ⟨hle, ?_⟩
    rw [drop_append_of_le (by omega)] at h
    rw [append_assoc, drop_append_of_le (by omega)]
    have hx : m <+: x.drop k := by
      apply prefix_of_prefix_length_le h (prefix_append _ _)
      rw [length_drop]
      omega
    exact hx.trans (prefix_append _ _)

theorem occurs_behind (h : m <+: (x ++ start ++ y).drop k) (hk : x.length + start.length ≤ k) :
    m <+: (x ++ y).drop (k - start.length) := by
  obtain ⟨j, rfl⟩ := Nat.exists_eq_add_of_le hk
  have hadd : x.length + start.length + j = (x ++ start).length + j := by rw [length_append]
  have hsub : x.length + start.length + j - start.length = x.length + j := by omega
  rw [hadd, ← drop_drop, drop_left] at h
  rw [hsub, ← drop_drop, drop_left]
  exact h

/-- The closing marker that comes first behind the opening one is the first without it. -/
theorem find_cut (hseam : NoSeam m (x ++ y) x.length)
    (hfind : Text.find m (x ++ start ++ y) = some e)
    (hle : x.length + start.length ≤ e) : Text.find m (x ++ y) = some (e - start.length) := by
  apply Text.find_of_prefix (occurs_behind (Text.find_eq_some hfind).1 hle)
  intro j hj hpre
  rcases occurs_of_cut hseam hpre with ⟨-, h⟩ | ⟨-, h⟩
  · exact (Text.find_eq_some hfind).2 j (by omega) h
  · exact (Text.find_eq_some hfind).2 (j + start.length) (by omega) h

theorem find_cut_none (hseam : NoSeam m (x ++ y) x.length)
    (hfind : Text.find m (x ++ start ++ y) = none) :
    Text.find m (x ++ y) = none := by
  rw [Text.find_eq_none] at *
  intro hin
  obtain ⟨k, hk⟩ := Text.find_of_infix hin
  rcases occurs_of_cut hseam (Text.find_eq_some hk).1 with ⟨-, h⟩ | ⟨-, h⟩
  · exact hfind (Text.infix_of_prefix_drop h)
  · exact hfind (Text.infix_of_prefix_drop h)

end Cut

/-! ### Texts that can be split -/

/-- Any tool marker is followed by a closing marker, and near enough if it is before the first one.
-/
def ToolClosed (p : BaseReasoningParser) (text : Text) : Prop :=
  ∀ tok t, p.toolStartToken = some tok → tok <+: text.drop t →
    ∃ e, Text.find p.thinkEndToken text = some e ∧
      (t < e → e + p.thinkEndToken.length ≤ t + toolHoldMax + 1)

/-- The opening marker, where it occurs in the reasoning: before the closing one, and it keeps no
two parts of a marker apart. -/
structure OpensInside (p : BaseReasoningParser) (text : Text) (i : ℕ) : Prop where
  le_end : ∀ e, Text.find p.thinkEndToken text = some e → i ≤ e
  noSeam : ∀ m, m = p.thinkEndToken ∨ p.toolStartToken = some m →
    NoSeam m (Text.removeFirst p.thinkStartToken text) i

/-- The completions that both parsers split the same way. -/
structure Splittable (p : BaseReasoningParser) (text : Text) : Prop where
  once : ∀ i, Text.find p.thinkStartToken text = some i →
    ¬p.thinkStartToken <:+: text.drop (i + p.thinkStartToken.length)
  opening : ∀ i, Text.find p.thinkStartToken text = some i →
    if p.inReasoning then p.OpensInside text i else Text.Blank (text.take i)
  tool : p.ToolClosed text

/-- What is read as reasoning, what is lost, and what is read as normal text. -/
inductive Outcome (p : BaseReasoningParser) (text : Text) : Text × Text → Prop where
  | closed {ws reasoning normal : Text} (hblank : Text.Blank ws)
      (hfind : Text.find p.thinkEndToken text = some (reasoning ++ ws).length)
      (htext : text = reasoning ++ ws ++ p.thinkEndToken ++ normal) :
      Outcome p text (reasoning, normal)
  | truncated (hfind : Text.find p.thinkEndToken text = none) : Outcome p text (text, [])

theorem find_split (hfind : Text.find m text = some e) :
    text = text.take e ++ m ++ text.drop (e + m.length) := by
  obtain ⟨rest, hrest⟩ := (Text.find_eq_some hfind).1
  have hdrop : text.drop (e + m.length) = rest := by
    rw [← drop_drop, ← hrest, drop_left]
  rw [hdrop, append_assoc, hrest, take_append_drop]

/-- The streaming parser, inside the reasoning and with no opening marker to come. -/
theorem outcome_stream (hm : p.MarkersOk) (hin : p.inReasoning = true) (hbuf : p.buffer = [])
    (hq : p.Quiet chunks.flatten) (htool : p.ToolClosed chunks.flatten) :
    p.Outcome chunks.flatten (stream p chunks) := by
  have hbuffered := Buffered.of_empty hm hbuf
  have hall : p.buffer ++ chunks.flatten = chunks.flatten := by rw [hbuf, nil_append]
  cases hfind : Text.find p.thinkEndToken chunks.flatten with
  | some e =>
    obtain ⟨ws, hws, hreasoning, hnormal⟩ :=
      stream_reasoning_end hm hin hbuffered hq (by rw [hall]; exact hfind) (by
      intro tok t htok hpre hlt
      rw [hall] at hpre
      obtain ⟨e', he', hnear⟩ := htool tok t htok hpre
      rw [hfind, Option.some.injEq] at he'
      subst he'
      exact hnear hlt)
    rw [hall] at hreasoning hnormal
    have hlen : ((stream p chunks).1 ++ ws).length = e := by
      rw [hreasoning, length_take, min_eq_left (Text.find_le_length hfind)]
    refine Outcome.closed hws (by rw [hlen]; exact hfind) ?_
    rw [hreasoning, hnormal]
    exact find_split hfind
  | none =>
    have hopen := stream_reasoning_open hm hin hbuffered hq (by rw [hall]; exact hfind) (by
      intro tok htok
      rw [hall, Text.find_eq_none]
      intro hinfix
      obtain ⟨t, ht⟩ := Text.find_of_infix hinfix
      obtain ⟨e, he, -⟩ := htool tok t htok (Text.find_eq_some ht).1
      rw [hfind] at he
      exact absurd he (by simp))
    rw [hopen, hall]
    exact Outcome.truncated hfind

theorem append_outcome {out : Text × Text} {q : BaseReasoningParser}
    (hq : q.thinkEndToken = p.thinkEndToken)
    (h : q.Outcome y out) (hle : ∀ e, Text.find p.thinkEndToken (x ++ y) = some e → x.length ≤ e) :
    p.Outcome (x ++ y) (x ++ out.1, out.2) := by
  have hnone : Text.find p.thinkEndToken y = none → Text.find p.thinkEndToken (x ++ y) = none := by
    intro hnone
    by_contra hsome
    obtain ⟨e, he⟩ := Option.ne_none_iff_exists'.mp hsome
    have hdrop := Text.find_drop he (hle e he)
    rw [drop_left, hnone] at hdrop
    exact absurd hdrop (by simp)
  cases h with
  | @closed ws reasoning normal hblank hfind htext =>
    rw [hq] at hfind htext
    refine Outcome.closed hblank ?_ ?_
    · have hin : p.thinkEndToken <:+: x ++ y :=
        (Text.infix_of_prefix_drop (Text.find_eq_some hfind).1).trans (suffix_append x y).isInfix
      obtain ⟨e, he⟩ := Text.find_of_infix hin
      have hxe := hle e he
      have hdrop := Text.find_drop he hxe
      rw [drop_left, hfind, Option.some.injEq] at hdrop
      rw [he, Option.some.injEq, append_assoc, length_append, hdrop]
      omega
    · simp only [append_assoc] at htext ⊢
      rw [← htext]
  | truncated hfind =>
    rw [hq] at hfind
    exact Outcome.truncated (hnone hfind)

/-! ### The one-shot parser -/

/-- The one-shot parser reads the same channels, but for the whitespace around them. -/
theorem detectAndParse_outcome {out : Text × Text} (hm : p.MarkersOk)
    (hin : p.inReasoning = true ∨ p.thinkStartToken <:+: text)
    (hremove : Text.remove p.thinkStartToken text = y) (htool : p.ToolClosed y)
    (h : p.Outcome y out) :
    Text.strip (p.detectAndParse text).1 = Text.strip out.1 ∧ Text.strip (p.detectAndParse text).2 =
      Text.strip out.2 := by
  unfold detectAndParse
  rw [if_neg (not_not.mpr hin), hremove]
  cases h with
  | @closed ws reasoning normal hblank hfind htext =>
    obtain ⟨w, u, k, hw, hu, hk, htake, hdrop⟩ := hm.solid_end.find_strip hfind
    have hreasoning : y.take (reasoning ++ ws).length = reasoning ++ ws := by
      rw [htext, append_assoc, take_left]
    have hnormal : y.drop ((reasoning ++ ws).length + p.thinkEndToken.length) = normal := by
      rw [htext, ← length_append, drop_left]
    rw [hreasoning] at htake
    rw [hnormal] at hdrop
    unfold Text.partition
    simp only [hk, Option.map_some]
    constructor
    · rw [← Text.strip_append_blank (x := reasoning) hblank, htake, Text.strip_eq_of_append hw]
    · rw [Text.strip_strip, hdrop, Text.strip_append_blank hu]
  | truncated hfind =>
    have hnone : Text.find p.thinkEndToken (Text.strip y) = none := by
      rw [Text.find_eq_none] at *
      rwa [hm.solid_end.infix_strip]
    have htoolNone : (p.toolStartToken.bind fun tok => Text.find tok (Text.strip y)) = none := by
      cases htok : p.toolStartToken with
      | none => rfl
      | some tok =>
        show Text.find tok (Text.strip y) = none
        rw [Text.find_eq_none, (hm.solid_tool tok htok).infix_strip]
        intro hinfix
        obtain ⟨t, ht⟩ := Text.find_of_infix hinfix
        obtain ⟨e, he, -⟩ := htool tok t htok (Text.find_eq_some ht).1
        rw [hfind] at he
        exact absurd he (by simp)
    unfold Text.partition
    simp only [hnone, Option.map_none, htoolNone]
    exact ⟨Text.strip_strip y, trivial⟩

/-! ### Near markers, and nothing lost -/

theorem end_behind_start (hm : p.MarkersOk)
    (he : Text.find p.thinkEndToken (x ++ p.thinkStartToken ++ y) = some e)
    (hle : x.length ≤ e) : x.length + p.thinkStartToken.length ≤ e := by
  have hstart : p.thinkStartToken <+: (x ++ p.thinkStartToken ++ y).drop x.length := by
    rw [append_assoc, drop_left]
    exact prefix_append _ _
  exact hm.start_end.1.le_of_starts hstart (Text.find_eq_some he).1 hle

theorem ToolClosed.cut (hm : p.MarkersOk) (h : p.ToolClosed (x ++ p.thinkStartToken ++ y))
    (hle : ∀ e, Text.find p.thinkEndToken (x ++ p.thinkStartToken ++ y) = some e → x.length ≤ e)
    (hseam : ∀ m, m = p.thinkEndToken ∨ p.toolStartToken = some m → NoSeam m (x ++ y) x.length) :
    p.ToolClosed (x ++ y) := by
  intro tok t htok hpre
  have hclosed :
      ∀ t', tok <+: (x ++ p.thinkStartToken ++ y).drop t' → t' ≤ t + p.thinkStartToken.length →
      ∃ e, Text.find p.thinkEndToken (x ++ y) = some e ∧
        (t < e → t' < e + p.thinkStartToken.length → e + p.thinkEndToken.length ≤ t + toolHoldMax +
          1) := by
    intro t' hpre' ht'
    obtain ⟨e, he, hnear⟩ := h tok t' htok hpre'
    have hbehind := end_behind_start hm he (hle e he)
    refine ⟨_, find_cut (hseam _ (Or.inl rfl)) he hbehind, fun _ hlt => ?_⟩
    have hclose := hnear (by omega)
    omega
  rcases @occurs_of_cut _ _ _ _ p.thinkStartToken (hseam tok (Or.inr htok)) hpre with ⟨-, hpre'⟩ |
    ⟨-, hpre'⟩
  · obtain ⟨e, he, hnear⟩ := hclosed t hpre' (by omega)
    exact ⟨e, he, fun hlt => hnear hlt (by omega)⟩
  · obtain ⟨e, he, hnear⟩ := hclosed (t + p.thinkStartToken.length) hpre' le_rfl
    exact ⟨e, he, fun hlt => hnear hlt (by omega)⟩

theorem ToolClosed.behind (h : p.ToolClosed (x ++ y))
    (hle : ∀ e, Text.find p.thinkEndToken (x ++ y) = some e → x.length ≤ e) : p.ToolClosed y := by
  intro tok t htok hpre
  have hpre' : tok <+: (x ++ y).drop (x.length + t) := by
    rw [← drop_drop, drop_left]
    exact hpre
  obtain ⟨e, he, hnear⟩ := h tok _ htok hpre'
  have hxe := hle e he
  have hdrop := Text.find_drop he hxe
  rw [drop_left] at hdrop
  refine ⟨_, hdrop, fun hlt => ?_⟩
  have hclose := hnear (by omega)
  omega

/-- Every character but those of the markers, and whitespace before the closing one, is in one of
the channels. -/
def Lossless (p : BaseReasoningParser) (text : Text) (out : Text × Text) : Prop :=
  ∃ pre ws normal, Text.Blank pre ∧ Text.Blank ws ∧ out.2 = pre ++ normal ∧
    (Text.removeFirst p.thinkStartToken text = pre ++ out.1 ++ ws ++ p.thinkEndToken ++ normal ∨
      Text.removeFirst p.thinkStartToken text = pre ++ out.1 ++ normal)

theorem Outcome.lossless {pre reasoning normal : Text} (h : p.Outcome y (pre ++ reasoning, normal))
    (hpre : Text.Blank pre) (hy : Text.removeFirst p.thinkStartToken text = y) :
    p.Lossless text (reasoning, pre ++ normal) := by
  unfold Lossless
  rw [hy]
  generalize hout : (pre ++ reasoning, normal) = out at h
  cases h with
  | @closed ws r n hblank hfind htext =>
    rw [Prod.mk.injEq] at hout
    obtain ⟨rfl, rfl⟩ := hout
    exact ⟨pre, ws, normal, hpre, hblank, rfl, Or.inl htext⟩
  | truncated hfind =>
    rw [Prod.mk.injEq] at hout
    obtain ⟨rfl, rfl⟩ := hout
    exact ⟨pre, [], [], hpre, rfl, rfl, Or.inr (append_nil _).symm⟩

/-! ### The parsers as they are made -/

theorem markersOk_deepSeekV32 : (deepSeekV32ReasoningParser false).MarkersOk := by
  refine ⟨by decide, ⟨'<', '>', by decide, by decide, by decide, by decide⟩, ?_,
    ⟨by decide, by decide⟩, ?_⟩
  · intro tok htok
    obtain rfl := Option.some.inj htok
    exact ⟨'<', '｜', by decide, by decide, by decide, by decide⟩
  · intro tok htok
    obtain rfl := Option.some.inj htok
    exact ⟨⟨by decide, by decide⟩, by decide, by decide⟩

theorem markersOk_think : (thinkReasoningParser false).MarkersOk := by
  refine ⟨by decide, ⟨'<', '>', by decide, by decide, by decide, by decide⟩, ?_,
    ⟨by decide, by decide⟩, ?_⟩
  · intro tok htok
    obtain rfl := Option.some.inj htok
    exact ⟨'<', '=', by decide, by decide, by decide, by decide⟩
  · intro tok htok
    obtain rfl := Option.some.inj htok
    exact ⟨⟨by decide, by decide⟩, by decide, by decide⟩

theorem markersOk_gemmaThought : (gemmaThoughtReasoningParser false).MarkersOk := by
  refine ⟨by decide, ⟨'<', '>', by decide, by decide, by decide, by decide⟩, ?_,
    ⟨by decide, by decide⟩, ?_⟩
  · exact fun tok htok => absurd (show none = some tok from htok) (by simp)
  · exact fun tok htok => absurd (show none = some tok from htok) (by simp)

theorem fresh_of_mem {forceReasoning streamReasoning : Bool}
    (hp : p ∈ baseReasoningParsers forceReasoning streamReasoning) :
    p.MarkersOk ∧ p.buffer = [] ∧ p.strippedThinkStart = false := by
  unfold baseReasoningParsers at hp
  obtain ⟨q, hq, rfl⟩ := mem_map.mp hp
  rcases mem_cons.mp hq with rfl | hq
  · exact ⟨markersOk_deepSeekV32.of_eq rfl rfl rfl, rfl, rfl⟩
  · rcases mem_cons.mp hq with rfl | hq
    · exact ⟨markersOk_think.of_eq rfl rfl rfl, rfl, rfl⟩
    · obtain rfl := mem_singleton.mp hq
      exact ⟨markersOk_gemmaThought.of_eq rfl rfl rfl, rfl, rfl⟩

/-! ### Both parsers -/

/-- An opening marker that is stripped. -/
theorem stream_opened (hm : p.MarkersOk) (hbuf : p.buffer = [])
    (hstrip : p.strippedThinkStart = false)
    (hfind : Text.find p.thinkStartToken chunks.flatten = some i)
    (h : p.Splittable chunks.flatten) :
    ∃ pre reasoning normal, p.ToolClosed (Text.removeFirst p.thinkStartToken chunks.flatten) ∧
      p.Outcome (Text.removeFirst p.thinkStartToken chunks.flatten) (pre ++ reasoning, normal) ∧
      if p.inReasoning then stream p chunks = (pre ++ reasoning, normal)
      else Text.Blank pre ∧ stream p chunks = (reasoning, pre ++ normal) := by
  have hopening := h.opening i hfind
  have hsplit := find_split hfind
  have hxlen : (chunks.flatten.take i).length = i := by
    rw [length_take, min_eq_left (Text.find_le_length hfind)]
  have hcut : Text.removeFirst p.thinkStartToken chunks.flatten =
      chunks.flatten.take i ++ chunks.flatten.drop (i + p.thinkStartToken.length) := by
    unfold Text.removeFirst
    rw [hfind]
  -- what is known of the text before the marker
  have hle : ∀ e, Text.find p.thinkEndToken chunks.flatten = some e → i ≤ e := by
    intro e he
    split_ifs at hopening with hin
    · exact hopening.le_end e he
    · have hpre := (Text.find_eq_some he).1
      rw [hsplit, append_assoc] at hpre
      rw [← hxlen]
      exact hm.solid_end.le_of_prefix_drop hopening hpre
  have hseam : ∀ m, m = p.thinkEndToken ∨ p.toolStartToken = some m →
      NoSeam m (Text.removeFirst p.thinkStartToken chunks.flatten) i := by
    intro m hmarker
    split_ifs at hopening with hin
    · exact hopening.noSeam m hmarker
    · have hsolid : Text.SolidEnds m := by
        rcases hmarker with rfl | htok
        · exact hm.solid_end
        · exact hm.solid_tool m htok
      rw [hcut]
      have hnoSeam :=
        noSeam_of_blank (y := chunks.flatten.drop (i + p.thinkStartToken.length)) hsolid hopening
      rw [hxlen] at hnoSeam
      exact hnoSeam
  obtain ⟨first, second, chunks', htake, hflat, hstream, -⟩ := @stream_start p chunks i hm hstrip
    (Buffered.of_empty hm hbuf) (by rw [hbuf, nil_append]; exact hfind) (by
      rw [hbuf, nil_append]
      exact fun _ => hle)
    (by
      rw [hbuf, nil_append]
      intro _ tok t htok hpre hlt
      obtain ⟨e, he, hnear⟩ := h.tool tok t htok hpre
      have hie := hle e he
      have hclose := hnear (by omega)
      have hbehind :=
        hm.start_end.1.le_of_starts (Text.find_eq_some hfind).1 (Text.find_eq_some he).1 hie
      omega)
  rw [hbuf, nil_append] at htake hflat
  generalize hx : chunks.flatten.take i = x at *
  generalize hy : chunks.flatten.drop (i + p.thinkStartToken.length) = y at *
  have htool := h.tool
  rw [hsplit] at htool hle
  rw [hcut] at hseam ⊢
  rw [← hxlen] at hseam hle
  have hcutTool := htool.cut hm hle hseam
  have hcutLe : ∀ e, Text.find p.thinkEndToken (x ++ y) = some e → x.length ≤ e := by
    intro e he
    cases hfindEnd : Text.find p.thinkEndToken (x ++ p.thinkStartToken ++ y) with
    | none =>
      rw [find_cut_none (hseam _ (Or.inl rfl)) hfindEnd] at he
      exact absurd he (by simp)
    | some e' =>
      have hbehind := end_behind_start hm hfindEnd (hle e' hfindEnd)
      rw [find_cut (hseam _ (Or.inl rfl)) hfindEnd hbehind, Option.some.injEq] at he
      omega
  have hall : first ++ (second ++ y) = x ++ y := by rw [← append_assoc, htake]
  have hfirstLe :
      ∀ e, Text.find p.thinkEndToken (first ++ (second ++ y)) = some e → first.length ≤ e := by
    intro e he
    rw [hall] at he
    have hxe := hcutLe e he
    have hlen := congrArg List.length htake
    rw [length_append] at hlen
    omega
  have htoolBehind : p.ToolClosed (second ++ y) := by
    apply ToolClosed.behind (x := first) _ hfirstLe
    rw [hall]
    exact hcutTool
  have hout := @outcome_stream p.opened chunks' (hm.of_eq rfl rfl rfl) rfl rfl (Or.inl rfl) (by
    rw [hflat]
    exact htoolBehind)
  rw [hflat] at hout
  have hwhole := append_outcome (p := p) (q := p.opened) (x := first) rfl hout hfirstLe
  rw [hall] at hwhole
  refine ⟨first, (stream p.opened chunks').1, (stream p.opened chunks').2, hcutTool, hwhole, ?_⟩
  split_ifs at hopening hstream ⊢ with hin
  · exact hstream
  · refine ⟨?_, hstream⟩
    rw [Text.blank_iff] at *
    intro c hc
    exact hopening c (htake ▸ mem_append_left _ hc)

/-- The two parsers agree, but for whitespace around the channels, and the streaming one loses
nothing. -/
theorem stream_agrees {forceReasoning streamReasoning : Bool}
    (hp : p ∈ baseReasoningParsers forceReasoning streamReasoning) (h : p.Splittable text)
    (hchunks : chunks.flatten = text) :
    Text.strip (stream p chunks).2 = Text.strip (p.detectAndParse text).2 ∧
      Text.strip (stream p chunks).1 = Text.strip (p.detectAndParse text).1 ∧
        p.Lossless text (stream p chunks) := by
  obtain ⟨hm, hbuf, hstrip⟩ := fresh_of_mem hp
  subst hchunks
  cases hfind : Text.find p.thinkStartToken chunks.flatten with
  | none =>
    have hnot : ¬p.thinkStartToken <:+: chunks.flatten := Text.find_eq_none.mp hfind
    have hquiet : p.Quiet chunks.flatten := Or.inr (by rw [hbuf, nil_append]; exact hnot)
    have hremoveFirst : Text.removeFirst p.thinkStartToken chunks.flatten = chunks.flatten := by
      unfold Text.removeFirst
      rw [hfind]
    -- without an opener it matters whether the reasoning is open from the start
    by_cases hin : p.inReasoning = true
    · have hout := outcome_stream hm hin hbuf hquiet h.tool
      obtain ⟨hreasoning, hnormal⟩ := @detectAndParse_outcome p chunks.flatten _ _ hm (Or.inl hin)
        (Text.remove_eq_self hnot) h.tool hout
      exact ⟨hnormal.symm, hreasoning.symm, @Outcome.lossless _ _ _ [] _ _ hout rfl hremoveFirst⟩
    · rw [stream_normal (Bool.eq_false_iff.mpr hin) hquiet, hbuf]
      have hdetect : p.detectAndParse chunks.flatten = ([], chunks.flatten) := by
        unfold detectAndParse
        rw [if_pos (not_or.mpr ⟨hin, hnot⟩)]
      rw [hdetect]
      exact ⟨rfl, rfl, [], [], chunks.flatten, rfl, rfl, rfl, Or.inr hremoveFirst⟩
  | some i =>
    obtain ⟨pre, reasoning, normal, htool, hout, hstream⟩ := stream_opened hm hbuf hstrip hfind h
    -- the only opener is taken out
    have hremove : Text.remove p.thinkStartToken chunks.flatten =
        Text.removeFirst p.thinkStartToken chunks.flatten := by
      rw [Text.remove_eq_removeFirst hm.start_ne hfind (h.once i hfind)]
      unfold Text.removeFirst
      rw [hfind]
    obtain ⟨hreasoning, hnormal⟩ := @detectAndParse_outcome p chunks.flatten _ _ hm
      (Or.inr (Text.find_isSome.mp (by rw [hfind]; rfl))) hremove htool hout
    split_ifs at hstream with hin
    · rw [hstream]
      exact ⟨hnormal.symm, hreasoning.symm, @Outcome.lossless _ _ _ [] _ _ hout rfl rfl⟩
    · obtain ⟨hblank, hstream⟩ := hstream
      rw [hstream]
      refine ⟨?_, ?_, hout.lossless hblank rfl⟩
      · rw [Text.strip_eq_of_append hblank]
        exact hnormal.symm
      · rw [hreasoning, Text.strip_eq_of_append hblank]

theorem ToolClosed.of_absent {tok : Text} (htok : p.toolStartToken = some tok)
    (h : ¬tok <:+: text) :
    p.ToolClosed text := by
  intro tok' t htok' hpre
  rw [htok, Option.some.injEq] at htok'
  subst htok'
  exact absurd (Text.infix_of_prefix_drop hpre) h

theorem stream_agrees_split :
    Text.strip (stream (thinkReasoningParser false) ["<thi".toList, "nk>a </th".toList, "ink> b".toList]).2 =
        Text.strip ((thinkReasoningParser false).detectAndParse "<think>a </think> b".toList).2 ∧
      Text.strip (stream (thinkReasoningParser false) ["<thi".toList, "nk>a </th".toList, "ink> b".toList]).1 =
        Text.strip ((thinkReasoningParser false).detectAndParse "<think>a </think> b".toList).1 ∧
      (thinkReasoningParser false).Lossless "<think>a </think> b".toList
        (stream (thinkReasoningParser false) ["<thi".toList, "nk>a </th".toList, "ink> b".toList]) := by
  refine @stream_agrees (thinkReasoningParser false) _ _ false true
    (mem_cons_of_mem _ mem_cons_self) ⟨?_, ?_, ?_⟩ (by decide)
  · intro i hi
    obtain rfl : 0 = i := Option.some.inj ((show _ = some 0 by decide).symm.trans hi)
    decide
  · intro i hi
    obtain rfl : 0 = i := Option.some.inj ((show _ = some 0 by decide).symm.trans hi)
    exact show Text.Blank [] from rfl
  · exact ToolClosed.of_absent rfl (by decide)

/-- The two parsers differ in whitespace.  Where the opening marker is behind other text, behind the
reasoning, or between two parts of a closing marker, they differ in more, and how depends on the
chunks. -/
theorem not_stream_agrees :
    (¬∀ (forceReasoning : Bool) (text : Text) (chunks : List Text), chunks.flatten = text →
      (∀ i, Text.find "<think>".toList text = some i →
        ¬"<think>".toList <:+: text.drop (i + "<think>".toList.length)) →
      (thinkReasoningParser forceReasoning).ToolClosed text →
      (stream (thinkReasoningParser forceReasoning) chunks).2 =
        ((thinkReasoningParser forceReasoning).detectAndParse text).2) ∧
      stream (thinkReasoningParser false) ["a".toList, "<think>b</think>c".toList] = ("b".toList, "ac".toList) ∧
      (thinkReasoningParser false).detectAndParse "a<think>b</think>c".toList = ("ab".toList, "c".toList) ∧
      stream (thinkReasoningParser true) ["r</think>".toList, "c<think>s".toList] = ("rcs".toList, []) ∧
      (thinkReasoningParser true).detectAndParse "r</think>c<think>s".toList = ("r".toList, "cs".toList) ∧
      stream (thinkReasoningParser true) ["a</th<".toList, "think>ink>b".toList] = ("a</think>b".toList, []) ∧
      (thinkReasoningParser true).detectAndParse "a</th<think>ink>b".toList = ("a".toList, "b".toList) := by
  refine ⟨fun h => ?_, by decide, by decide, by decide, by decide, by decide, by decide⟩
  have heq := h true "a</think> b".toList ["a</think> b".toList] (by decide)
    (fun i hi => absurd ((show _ = none by decide).symm.trans hi) (by simp))
      (ToolClosed.of_absent rfl (by decide))
  exact absurd heq (by decide)

end FreeToken.BaseReasoningParser
