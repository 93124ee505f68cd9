import FreeToken.Server.Equiv.FunctionCallParser
import FreeToken.Server.Equiv.InvokeParamStream

/-!
# Text without a call in the Qwen3-Coder format

`Qwen3CoderDetector.passthrough_iff`: when the detector passes a text through that has no tool call.
What a rewrite, a strip or a forgotten hold takes from the text is counted in characters that
nothing puts back.
-/

namespace FreeToken

open List Qwen3CoderDetector

variable {t u : Text} {q : Char}

/-! ### The held tag -/

variable {c : Char}

theorem rfind_of_not_mem (h : c ∉ t) : Text.rfind c t = none := by
  induction t with
  | nil => rfl
  | cons d t ih =>
    rw [mem_cons, not_or] at h
    rw [Text.rfind, ih h.2]
    exact if_neg (Ne.symm h.1)

theorem rfind_append_cons (h : c ∉ u) : Text.rfind c (t ++ c :: u) = some t.length := by
  induction t with
  | nil =>
    rw [nil_append, Text.rfind, rfind_of_not_mem h]
    exact if_pos rfl
  | cons d t ih =>
    rw [cons_append, Text.rfind, ih]
    rfl

theorem exists_last_of_mem (h : c ∈ t) : ∃ a b, t = a ++ c :: b ∧ c ∉ b := by
  obtain ⟨a, b, heq, hno⟩ := eq_append_cons_of_mem (mem_reverse.mpr h)
  refine ⟨b.reverse, a.reverse, ?_, fun hmem => hno (mem_reverse.mp hmem)⟩
  have hrev := congrArg List.reverse heq
  rw [reverse_reverse] at hrev
  simpa using hrev

theorem splitAliasHold_of_not_mem (h : '<' ∉ t) : splitAliasHold t = (t, []) := by
  rw [splitAliasHold, rfind_of_not_mem h]

theorem splitAliasHold_append_cons (h : '<' ∉ u) : splitAliasHold (t ++ '<' :: u) =
    if '>' ∈ u then (t ++ '<' :: u, []) else (t, '<' :: u) := by
  rw [splitAliasHold, rfind_append_cons h]
  simp only [drop_left, take_left, mem_cons]
  by_cases hu : '>' ∈ u <;> simp [hu]

theorem splitAliasHold_append_eq (t : Text) : (splitAliasHold t).1 ++ (splitAliasHold t).2 = t := by
  unfold splitAliasHold
  split
  · split_ifs
    · exact append_nil t
    · exact take_append_drop _ t
  · exact append_nil t

theorem splitAliasHold_append (t u : Text) :
    splitAliasHold (t ++ u) =
      ((splitAliasHold t).1 ++ (splitAliasHold ((splitAliasHold t).2 ++ u)).1,
        (splitAliasHold ((splitAliasHold t).2 ++ u)).2) := by
  have hsplit := splitAliasHold_append_eq t
  by_cases hu : '<' ∈ u
  · -- the last tag starts in `u`
    obtain ⟨a, b, rfl, hb⟩ := exists_last_of_mem hu
    have hassoc : ∀ x : Text, x ++ (a ++ '<' :: b) = (x ++ a) ++ '<' :: b := fun x =>
      (append_assoc x a _).symm
    rw [hassoc, hassoc, splitAliasHold_append_cons hb, splitAliasHold_append_cons hb]
    split_ifs
    · simp only [← append_assoc, hsplit]
    · simp only [← append_assoc, hsplit]
  · by_cases ht : '<' ∈ t
    · obtain ⟨a, b, rfl, hb⟩ := exists_last_of_mem ht
      have hbu : '<' ∉ b ++ u := by
        rw [mem_append, not_or]
        exact ⟨hb, hu⟩
      rw [append_assoc, cons_append, splitAliasHold_append_cons hbu, splitAliasHold_append_cons hb]
      by_cases hclosed : '>' ∈ b
      · simp only [hclosed, if_true, nil_append, mem_append, true_or, splitAliasHold_of_not_mem hu]
        simp
      · have hheld := @splitAliasHold_append_cons [] _ hbu
        rw [nil_append] at hheld
        simp only [hclosed, if_false, cons_append, hheld]
        split_ifs <;> simp
    · have htu : '<' ∉ t ++ u := by
        rw [mem_append, not_or]
        exact ⟨ht, hu⟩
      rw [splitAliasHold_of_not_mem htu, splitAliasHold_of_not_mem ht, nil_append,
        splitAliasHold_of_not_mem hu]

/-! ### The characters that nothing puts back -/

def Irreplaceable (c : Char) : Prop := c = '"' ∨ c = '/' ∨ Text.isSpace c = true

private theorem not_irreplaceable_of_all {w : Text}
    (h : w.all (fun c => c != '"' && c != '/' && !Text.isSpace c) = true) : ∀ c ∈ w, ¬Irreplaceable c := by
  intro c hc hirr
  have hall := all_eq_true.mp h c hc
  simp only [Bool.and_eq_true, bne_iff_ne, Bool.not_eq_true'] at hall
  obtain ⟨⟨hquote, hslash⟩, hspace⟩ := hall
  rcases hirr with h | h | h
  · exact hquote h
  · exact hslash h
  · exact Bool.false_ne_true (hspace.symm.trans h)

/-- What `lowerTag` writes. -/
private def tagChars : Text :=
  "functionparametername".toList ++ ['i', Char.ofNat 0x131, Char.ofNat 0x307]

private theorem tag_not_irreplaceable : ∀ c ∈ tagChars, ¬Irreplaceable c :=
  not_irreplaceable_of_all (by decide)

private theorem punct_not_irreplaceable : ∀ c ∈ ['<', '=', '>'], ¬Irreplaceable c :=
  not_irreplaceable_of_all (by decide)

private theorem toolCall_not_irreplaceable : ∀ c ∈ "<tool_call>".toList, ¬Irreplaceable c :=
  not_irreplaceable_of_all (by decide)

variable {rest : Text}

theorem matchWord_eq {w m : Text} (h : matchWord w t = some (m, rest)) :
    t = m ++ rest ∧ ∀ c ∈ m, ∃ p ∈ w, matchesIgnoreCase p c = true := by
  induction w generalizing t m with
  | nil =>
    simp only [matchWord, Option.some.injEq, Prod.mk.injEq] at h
    obtain ⟨rfl, rfl⟩ := h
    simp
  | cons p w ih =>
    cases t with
    | nil => cases h
    | cons c t =>
      rw [matchWord] at h
      split_ifs at h with hc
      obtain ⟨⟨m', rest'⟩, hm, heq⟩ := Option.map_eq_some_iff.mp h
      simp only [Prod.mk.injEq] at heq
      obtain ⟨rfl, rfl⟩ := heq
      obtain ⟨rfl, hall⟩ := ih hm
      refine ⟨rfl, fun d hd => ?_⟩
      rcases mem_cons.mp hd with rfl | hd
      · exact ⟨p, mem_cons_self, hc⟩
      · obtain ⟨p', hp', hd'⟩ := hall d hd
        exact ⟨p', mem_cons_of_mem p hp', hd'⟩

theorem matchChar_eq (h : matchChar c t = some rest) : t = c :: rest := by
  cases t with
  | nil => cases h
  | cons d t =>
    rw [matchChar] at h
    split_ifs at h with hd
    rw [hd, Option.some.inj h]

theorem matchSome_eq {p : Char → Bool} {m : Text} (h : matchSome p t = some (m, rest)) :
    t = m ++ rest := by
  unfold matchSome at h
  split_ifs at h
  obtain ⟨rfl, rfl⟩ := Prod.mk.inj (Option.some.inj h)
  exact takeWhile_append_dropWhile.symm

theorem lowerTag_not_irreplaceable {w tag : Text} (hw : w ⊆ "functionparametername".toList)
    (h : ∀ c ∈ tag, ∃ p ∈ w, matchesIgnoreCase p c = true) : ∀ x ∈ lowerTag tag, ¬Irreplaceable
      x := by
  intro x hx
  obtain ⟨c, hc, hxc⟩ := mem_flatMap.mp hx
  obtain ⟨p, hp, hpc⟩ := h c hc
  refine tag_not_irreplaceable x (mem_append.mpr ?_)
  split_ifs at hxc with hdot
  · right
    rcases mem_pair.mp hxc with rfl | rfl <;> simp
  · rw [mem_singleton] at hxc
    have hcases : Text.lowerChar c = p ∨ p = 'i' ∧ (c = Char.ofNat 0x130 ∨ c = Char.ofNat 0x131) :=
      of_decide_eq_true hpc
    rcases hcases with hlow | ⟨-, hd | hi⟩
    · left
      rw [hxc, hlow]
      exact hw hp
    · exact absurd hd hdot
    · right
      rw [hxc, hi]
      decide

/-- The shape of what `_QWEN3_NAME_ATTR` matches. -/
theorem matchNameAttr_eq {tag value : Text} (h : matchNameAttr t = some (tag, value, rest)) :
    ∃ mid fin, t = '<' :: (tag ++ (mid ++ '"' :: (value ++ '"' :: (fin ++ '>' :: rest)))) ∧
      ∀ x ∈ lowerTag tag, ¬Irreplaceable x := by
  simp only [matchNameAttr, Option.bind_eq_bind, Option.bind_eq_some_iff, Option.pure_def,
    Option.some.injEq, Prod.mk.injEq] at h
  obtain ⟨t₁, h₁, ⟨tag', t₂⟩, h₂, ⟨space, t₃⟩, h₃, ⟨name, t₄⟩, h₄, t₅, h₅, t₆, h₆, ⟨value', t₇⟩, h₇,
    t₈, h₈, t₉, h₉, rfl, rfl, rfl⟩ := h
  have htag : t₁ = tag' ++ t₂ ∧ ∀ x ∈ lowerTag tag', ¬Irreplaceable x := by
    rcases Option.or_eq_some_iff.mp h₂ with h₂ | ⟨-, h₂⟩
    · exact ⟨(matchWord_eq h₂).1, lowerTag_not_irreplaceable (by decide) (matchWord_eq h₂).2⟩
    · exact ⟨(matchWord_eq h₂).1, lowerTag_not_irreplaceable (by decide) (matchWord_eq h₂).2⟩
  have hname : t₃ = name ++ (t₄.takeWhile Text.isSpace ++ '=' :: t₅) := by
    rw [← matchChar_eq h₅, takeWhile_append_dropWhile]
    exact (matchWord_eq h₄).1
  have hquote : t₅ = t₅.takeWhile Text.isSpace ++ '"' :: t₆ := by
    rw [← matchChar_eq h₆, takeWhile_append_dropWhile]
  have hvalue : t₆ = value' ++ '"' :: t₈ := by
    rw [← matchChar_eq h₈]
    exact matchSome_eq h₇
  have hend : t₈ = t₈.takeWhile Text.isSpace ++ '>' :: t₉ := by
    rw [← matchChar_eq h₉, takeWhile_append_dropWhile]
  refine ⟨space ++ name ++ t₄.takeWhile Text.isSpace ++ '=' :: t₅.takeWhile Text.isSpace,
    t₈.takeWhile Text.isSpace, ?_, htag.2⟩
  rw [matchChar_eq h₁, htag.1]
  congr 2
  -- the rest is put together from its pieces
  calc t₂ = space ++ t₃ := matchSome_eq h₃
    _ = space ++ (name ++ (t₄.takeWhile Text.isSpace ++ '=' :: t₅)) := by rw [← hname]
    _ = space ++ (name ++ (t₄.takeWhile Text.isSpace ++ '=' :: (t₅.takeWhile Text.isSpace ++ '"' ::
          (value' ++ '"' :: (t₈.takeWhile Text.isSpace ++ '>' :: t₉))))) := by
        rw [← hend, ← hvalue, ← hquote]
    _ = _ := by simp

/-! ### `_canonical_qwen3_xml` -/

/-- Somewhere in the text a tag has a `name` attribute. -/
def HasNameAttr (t : Text) : Prop := ∃ u, u <:+ t ∧ (matchNameAttr u).isSome

private theorem rest_eq_drop {tag value : Text}
    (h : matchNameAttr (c :: t) = some (tag, value, rest)) :
    t.drop (t.length - rest.length) = rest := by
  obtain ⟨mid, fin, heq, -⟩ := matchNameAttr_eq h
  injection heq with _ ht
  have hsuf : rest <:+ t := ⟨tag ++ (mid ++ '"' :: (value ++ '"' :: (fin ++ ['>']))), by simp [ht]⟩
  exact (suffix_iff_eq_drop.mp hsuf).symm

/-- The rewritten tag has the irreplaceable characters of the value, and the tag has two quotes
more. -/
private theorem count_tag (hq : Irreplaceable q) {tag value : Text}
    (h : matchNameAttr t = some (tag, value, rest)) :
    (['<'] ++ lowerTag tag ++ ['='] ++ value ++ ['>']).count q + rest.count q +
      (if q = '"' then 2 else 0) ≤ t.count q := by
  obtain ⟨mid, fin, rfl, htag⟩ := matchNameAttr_eq h
  have htag0 : (lowerTag tag).count q = 0 := List.count_eq_zero.mpr fun hmem => htag q hmem hq
  have hpunct : ∀ c ∈ ['<', '=', '>'], c ≠ q := by
    rintro c hc rfl
    exact punct_not_irreplaceable c hc hq
  have hlt := hpunct '<' (by simp)
  have heq := hpunct '=' (by simp)
  have hgt := hpunct '>' (by simp)
  simp only [count_append, count_cons, count_nil, htag0, beq_iff_eq, hlt, heq, hgt, if_false]
  have hquote : (if '"' = q then 1 else 0) = if q = '"' then 1 else 0 := by simp only [eq_comm]
  rw [hquote]
  split_ifs <;> omega

theorem canonicalFrom_count_le (hq : Irreplaceable q) (skip : ℕ) (t : Text) :
    (canonicalFrom skip t).count q ≤ (t.drop skip).count q := by
  induction t generalizing skip with
  | nil => cases skip <;> simp [canonicalFrom]
  | cons c t ih =>
    cases skip with
    | succ skip => exact ih skip
    | zero =>
      rw [canonicalFrom, drop_zero]
      split
      · rename_i tag value rest hmatch
        have htag := count_tag hq hmatch
        have hrest := ih (t.length - rest.length)
        rw [rest_eq_drop hmatch] at hrest
        rw [count_append]
        omega
      · have htail := ih 0
        rw [drop_zero] at htail
        rw [count_cons, count_cons]
        omega

theorem canonical_count_le (hq : Irreplaceable q) (t : Text) :
    (canonicalQwen3Xml t).count q ≤ t.count q :=
  canonicalFrom_count_le hq 0 t

theorem canonical_count_lt (h : HasNameAttr t) : (canonicalQwen3Xml t).count '"' < t.count '"' := by
  unfold canonicalQwen3Xml
  induction t with
  | nil =>
    obtain ⟨u, hu, hs⟩ := h
    rw [List.suffix_nil.mp hu] at hs
    cases hs
  | cons c t ih =>
    rw [canonicalFrom]
    split
    · rename_i tag value rest hmatch
      have htag := count_tag (Or.inl rfl) hmatch
      have hrest := canonicalFrom_count_le (Or.inl rfl) (t.length - rest.length) t
      rw [rest_eq_drop hmatch] at hrest
      rw [if_pos rfl] at htag
      rw [count_append]
      omega
    · rename_i hnone
      obtain ⟨u, hu, hs⟩ := h
      have htail : HasNameAttr t := by
        rcases List.suffix_cons_iff.mp hu with rfl | hu
        · rw [hnone] at hs
          cases hs
        · exact ⟨u, hu, hs⟩
      have hlt := ih htail
      rw [count_cons, count_cons]
      omega

theorem canonical_eq_self (h : ¬HasNameAttr t) : canonicalQwen3Xml t = t := by
  unfold canonicalQwen3Xml
  induction t with
  | nil => rfl
  | cons c t ih =>
    have hhead : matchNameAttr (c :: t) = none := by
      rw [← Option.not_isSome_iff_eq_none]
      exact fun hs => h ⟨c :: t, suffix_rfl, hs⟩
    have htail : ¬HasNameAttr t := by
      rintro ⟨u, hu, hs⟩
      exact h ⟨u, hu.trans (suffix_cons c t), hs⟩
    rw [canonicalFrom, hhead]
    simp only
    rw [ih htail]

/-! ### `_promote_bare_qwen3_function` -/

/-- A text whose start the promotion leaves alone. -/
def PlainStart (t : Text) : Prop := (∀ c ∈ t.head?, Text.isSpace c = false) ∧ ¬"</tool_call>".toList <+: t

theorem lstrip_suffix (t : Text) : Text.lstrip t <:+ t := dropWhile_suffix _

theorem stripClosers_suffix (fuel : ℕ) (t : Text) : stripClosers fuel t <:+ t := by
  induction fuel generalizing t with
  | zero => exact suffix_rfl
  | succ fuel ih =>
    rw [stripClosers]
    split_ifs
    · exact ((ih _).trans (lstrip_suffix _)).trans (drop_suffix _ t)
    · exact suffix_rfl

theorem lstrip_of_plainStart (h : ∀ c ∈ t.head?, Text.isSpace c = false) : Text.lstrip t = t := by
  cases t with
  | nil => rfl
  | cons c t => exact dropWhile_cons_of_neg (by simp [h c rfl])

theorem stripClosers_of_not {fuel : ℕ} (h : ¬"</tool_call>".toList <+: t) : stripClosers fuel t = t := by
  cases fuel with
  | zero => rfl
  | succ fuel => rw [stripClosers, if_neg h]

theorem promote_eq_self (h : PlainStart t) (hfun : ¬"<function=".toList <:+: t) :
    promoteBareQwen3Function t = t := by
  unfold promoteBareQwen3Function
  rw [lstrip_of_plainStart h.1, stripClosers_of_not h.2]
  exact if_neg fun hcond => hfun hcond.1

private theorem promote_count (hq : Irreplaceable q) (t : Text) :
    (promoteBareQwen3Function t).count q = (stripClosers t.length (Text.lstrip t)).count q := by
  have htok : "<tool_call>".toList.count q = 0 :=
    List.count_eq_zero.mpr fun hmem => toolCall_not_irreplaceable q hmem hq
  unfold promoteBareQwen3Function
  dsimp only
  split_ifs
  · rw [count_append, htok, Nat.zero_add]
  · rfl

theorem promote_count_le (hq : Irreplaceable q) (t : Text) :
    (promoteBareQwen3Function t).count q ≤ t.count q := by
  rw [promote_count hq]
  exact ((stripClosers_suffix _ _).trans (lstrip_suffix t)).sublist.count_le q

/-- What the promotion strips has a irreplaceable character. -/
theorem promote_count_lt (h : ¬PlainStart t) :
    ∃ q, Irreplaceable q ∧ (promoteBareQwen3Function t).count q < t.count q := by
  by_cases hspace : ∀ c ∈ t.head?, Text.isSpace c = false
  · -- a closer, whose slash is lost
    have hclose : "</tool_call>".toList <+: t := by
      by_contra hno
      exact h ⟨hspace, hno⟩
    refine ⟨'/', Or.inr (Or.inl rfl), ?_⟩
    rw [promote_count (Or.inr (Or.inl rfl)), lstrip_of_plainStart hspace]
    obtain ⟨u, rfl⟩ := hclose
    have hlen : ("</tool_call>".toList ++ u).length = (u.length + 11) + 1 := by simp
    rw [hlen, stripClosers, if_pos (prefix_append _ u)]
    have hdrop : ("</tool_call>".toList ++ u).drop "</tool_call>".length = u := drop_left
    rw [hdrop]
    have hle :=
      ((stripClosers_suffix (u.length + 11) _).trans (lstrip_suffix u)).sublist.count_le '/'
    have hone : "</tool_call>".toList.count '/' = 1 := by decide
    rw [count_append, hone]
    omega
  · cases t with
    | nil => exact absurd (by simp) hspace
    | cons c t =>
      have hc : Text.isSpace c = true := by simpa using hspace
      refine ⟨c, Or.inr (Or.inr hc), ?_⟩
      rw [promote_count (Or.inr (Or.inr hc))]
      have hstrip : Text.lstrip (c :: t) = Text.lstrip t := dropWhile_cons_of_pos hc
      rw [hstrip]
      have hle :=
        ((stripClosers_suffix (c :: t).length _).trans (lstrip_suffix t)).sublist.count_le c
      rw [count_cons_self]
      omega

/-! ### Runs -/

namespace Qwen3CoderDetector

/-- The incomplete tag at the end of a text. -/
def openTag (t : Text) : Text := (splitAliasHold t).2

/-- Some chunk completes a tag with a `name` attribute, or lets text go that starts with whitespace
or with a closer. -/
def Touched (chunks : List Text) : Prop :=
  ∃ pre chunk post, chunks = pre ++ chunk :: post ∧ (HasNameAttr (openTag pre.flatten ++ chunk) ∨
    ¬PlainStart (splitAliasHold (openTag pre.flatten ++ chunk)).1)

theorem touched_snoc {chunks : List Text} {chunk : Text} :
    Touched (chunks ++ [chunk]) ↔ Touched chunks ∨
    (HasNameAttr (openTag chunks.flatten ++ chunk) ∨
      ¬PlainStart (splitAliasHold (openTag chunks.flatten ++ chunk)).1) :=
  exists_cut_snoc

theorem not_mem_openTag (t : Text) : '>' ∉ openTag t := by
  unfold openTag
  by_cases ht : '<' ∈ t
  · obtain ⟨a, b, rfl, hb⟩ := exists_last_of_mem ht
    rw [splitAliasHold_append_cons hb]
    split_ifs with hclosed
    · exact not_mem_nil
    · simpa using hclosed
  · rw [splitAliasHold_of_not_mem ht]
    exact not_mem_nil

theorem not_hasNameAttr (h : '>' ∉ t) : ¬HasNameAttr t := by
  rintro ⟨u, hu, hs⟩
  obtain ⟨⟨tag, value, rest⟩, hmatch⟩ := Option.isSome_iff_exists.mp hs
  obtain ⟨mid, fin, rfl, -⟩ := matchNameAttr_eq hmatch
  exact h (hu.subset (by simp))

variable [JsonLib] {d d' : Qwen3CoderDetector} {chunk : Text} {chunks : List Text}
  {table : ToolTable} {res : StreamingParseResult}

def passedOn (d : Qwen3CoderDetector) (emit : Text) : Text :=
  if d.mode = .idle then promoteBareQwen3Function emit else emit

/-- Of a chunk, the mixin sees what the split lets through. -/
theorem parse_sublist (hne : chunk ≠ [])
    (h : parseStreamingIncrement table d chunk = some (d', res)) :
    (res.normalText ++ d'.buffer).Sublist
        (d.buffer ++ d.passedOn (splitAliasHold (canonicalQwen3Xml (d.aliasHold ++ chunk))).1) ∧
      d'.aliasHold = (splitAliasHold (canonicalQwen3Xml (d.aliasHold ++ chunk))).2 := by
  unfold parseStreamingIncrement at h
  rw [if_neg hne] at h
  dsimp only at h
  split_ifs at h with hemit hmode
  · obtain ⟨rfl, rfl⟩ := Prod.mk.inj (Option.some.inj h)
    exact ⟨sublist_append_left d.buffer _, rfl⟩
  · obtain ⟨⟨s, r⟩, hparse, h⟩ := Option.bind_eq_some_iff.mp h
    obtain ⟨rfl, rfl⟩ := Prod.mk.inj (Option.some.inj h)
    rw [passedOn, if_pos hmode]
    exact ⟨InvokeParamStream.parse_sublist InvokeParamStream.qwen3CoderGrammar_goesForward hparse,
      rfl⟩
  · obtain ⟨⟨s, r⟩, hparse, h⟩ := Option.bind_eq_some_iff.mp h
    obtain ⟨rfl, rfl⟩ := Prod.mk.inj (Option.some.inj h)
    rw [passedOn, if_neg hmode]
    exact ⟨InvokeParamStream.parse_sublist InvokeParamStream.qwen3CoderGrammar_goesForward hparse,
      rfl⟩

theorem parse_nil_sublist (h : parseStreamingIncrement table d [] = some (d', res)) :
    (res.normalText ++ d'.buffer).Sublist d.buffer ∧ d'.aliasHold = d.aliasHold := by
  unfold parseStreamingIncrement at h
  rw [if_pos rfl] at h
  obtain ⟨⟨s, r⟩, hparse, h⟩ := Option.bind_eq_some_iff.mp h
  obtain ⟨rfl, rfl⟩ := Prod.mk.inj (Option.some.inj h)
  have hsub :=
    InvokeParamStream.parse_sublist InvokeParamStream.qwen3CoderGrammar_goesForward hparse
  rw [append_nil] at hsub
  exact ⟨hsub, rfl⟩

omit [JsonLib] in
theorem passedOn_count_le (hq : Irreplaceable q) (emit : Text) :
    (d.passedOn emit).count q ≤ emit.count q := by
  unfold passedOn
  split_ifs
  · exact promote_count_le hq emit
  · exact le_rfl

omit [JsonLib] in
private theorem count_split (q : Char) (t : Text) :
    (splitAliasHold t).1.count q + (splitAliasHold t).2.count q = t.count q := by
  rw [← count_append, splitAliasHold_append_eq]

theorem parse_count_le (hq : Irreplaceable q)
    (h : parseStreamingIncrement table d chunk = some (d', res)) :
    (res.normalText ++ d'.buffer ++ d'.aliasHold).count q ≤ (d.buffer ++ d.aliasHold ++ chunk).count
    q := by
  by_cases hne : chunk = []
  · subst hne
    obtain ⟨hsub, hhold⟩ := parse_nil_sublist h
    have hle := hsub.count_le q
    rw [hhold]
    simp only [count_append] at hle ⊢
    omega
  · obtain ⟨hsub, hhold⟩ := parse_sublist hne h
    have hle := hsub.count_le q
    have hpassed :=
      @passedOn_count_le _ d hq (splitAliasHold (canonicalQwen3Xml (d.aliasHold ++ chunk))).1
    have hsplit := count_split q (canonicalQwen3Xml (d.aliasHold ++ chunk))
    have hcanonical := canonical_count_le hq (d.aliasHold ++ chunk)
    rw [hhold]
    simp only [count_append] at hle hcanonical ⊢
    omega

/-- Outside of a block, a rewritten tag or a stripped start loses a irreplaceable character. -/
theorem parse_count_lt (hmode : d.mode = .idle) (hne : chunk ≠ [])
    (htouch : HasNameAttr (d.aliasHold ++ chunk) ∨
      ¬PlainStart (splitAliasHold (d.aliasHold ++ chunk)).1)
    (h : parseStreamingIncrement table d chunk = some (d', res)) : ∃ q, Irreplaceable q ∧
      (res.normalText ++ d'.buffer ++ d'.aliasHold).count q <
      (d.buffer ++ d.aliasHold ++ chunk).count q := by
  obtain ⟨hsub, hhold⟩ := parse_sublist hne h
  by_cases hattr : HasNameAttr (d.aliasHold ++ chunk)
  · refine ⟨'"', Or.inl rfl, ?_⟩
    have hle := hsub.count_le '"'
    have hpassed := @passedOn_count_le _ d (Or.inl rfl)
      (splitAliasHold (canonicalQwen3Xml (d.aliasHold ++ chunk))).1
    have hsplit := count_split '"' (canonicalQwen3Xml (d.aliasHold ++ chunk))
    have hcanonical := canonical_count_lt hattr
    rw [hhold]
    simp only [count_append] at hle hcanonical ⊢
    omega
  · have hplain := htouch.resolve_left hattr
    rw [canonical_eq_self hattr] at hsub hhold
    obtain ⟨q, hq, hlt⟩ := promote_count_lt hplain
    refine ⟨q, hq, ?_⟩
    have hle := hsub.count_le q
    have hsplit := count_split q (d.aliasHold ++ chunk)
    rw [passedOn, if_pos hmode] at hle
    rw [hhold]
    simp only [count_append] at hle hsplit ⊢
    omega

/-- What has become of the text before a chunk: it has been sent but for the held tag and what the
mixin holds, or a character is lost for good. -/
inductive Progress (chunks : List Text) (d : Qwen3CoderDetector) (res : StreamingParseResult) :
    Prop where
  | passed (untouched : ¬Touched chunks) (mode : d.mode = .idle) (prev : d.prevToolCallArr = [])
      (hold : d.aliasHold = openTag chunks.flatten) (calls : res.calls = [])
      (text : res.normalText ++ d.buffer = (splitAliasHold chunks.flatten).1)
  | lost (touched : Touched chunks) (q : Char) (irreplaceable : Irreplaceable q)
      (count_lt : (res.normalText ++ d.buffer ++ d.aliasHold).count q < chunks.flatten.count q)

omit [JsonLib] in
theorem splitAliasHold_snoc (chunks : List Text) (chunk : Text) :
    splitAliasHold (chunks ++ [chunk]).flatten =
      ((splitAliasHold chunks.flatten).1 ++ (splitAliasHold (openTag chunks.flatten ++ chunk)).1,
        (splitAliasHold (openTag chunks.flatten ++ chunk)).2) := by
  rw [flatten_append, flatten_singleton]
  exact splitAliasHold_append chunks.flatten chunk

/-- A chunk that is left alone passes, as far as no tag is open. -/
theorem parse_untouched (hmode : d.mode = .idle) (hattr : ¬HasNameAttr (d.aliasHold ++ chunk))
    (hplain : PlainStart (splitAliasHold (d.aliasHold ++ chunk)).1)
    (hfun : ¬"<function=".toList <:+: (splitAliasHold (d.aliasHold ++ chunk)).1)
    (hopen : ¬"<tool_call>".toList <:+: d.buffer ++ (splitAliasHold (d.aliasHold ++ chunk)).1)
    (hne : chunk ≠ []) : ∃ text buffer,
      parseStreamingIncrement table d chunk =
        some ({ d with buffer := buffer, aliasHold := openTag (d.aliasHold ++ chunk) },
          { normalText := text }) ∧
      text ++ buffer = d.buffer ++ (splitAliasHold (d.aliasHold ++ chunk)).1 := by
  unfold parseStreamingIncrement
  rw [if_neg hne, canonical_eq_self hattr]
  dsimp only
  split_ifs with hemit
  · exact ⟨[], d.buffer, rfl, by rw [hemit, append_nil, nil_append]⟩
  · rw [promote_eq_self hplain hfun]
    obtain ⟨text, buffer, hparse, htext⟩ :=
      InvokeParamStream.parse_idle qwen3CoderGrammar table hmode hopen
    refine ⟨text, buffer, ?_, htext⟩
    rw [hparse]
    rfl

theorem parse_nil (hmode : d.mode = .idle) (hopen : ¬"<tool_call>".toList <:+: d.buffer) : ∃ text buffer,
    parseStreamingIncrement table d [] =
      some ({ d with buffer := buffer }, { normalText := text }) ∧
      text ++ buffer = d.buffer := by
  have hopen' : ¬qwen3CoderGrammar.outerOpen <:+: d.buffer ++ [] := by
    rw [append_nil]
    exact hopen
  obtain ⟨text, buffer, hparse, htext⟩ :=
    InvokeParamStream.parse_idle qwen3CoderGrammar table hmode hopen'
  refine ⟨text, buffer, ?_, htext.trans (append_nil _)⟩
  unfold parseStreamingIncrement
  rw [if_pos rfl, hparse]
  rfl

omit [JsonLib] in
theorem splitAliasHold_openTag (t : Text) : (splitAliasHold (openTag t)).1 = [] := by
  have happ := congrArg Prod.fst (splitAliasHold_append t [])
  rw [append_nil, append_nil] at happ
  exact self_eq_append_right.mp happ

omit [JsonLib] in
theorem plainStart_nil : PlainStart [] := ⟨by simp, by decide⟩

/-- Text without a call and without an opener goes on as it came, or has lost a character. -/
theorem Progress.step (h : Progress chunks d res)
    (hopen : ¬"<tool_call>".toList <:+: (chunks ++ [chunk]).flatten)
    (hfun : ¬"<function=".toList <:+: (chunks ++ [chunk]).flatten) :
    parseStreamingIncrement table d chunk = none ∧ Touched (chunks ++ [chunk]) ∨
      ∃ d' next, parseStreamingIncrement table d chunk = some (d', next) ∧
        Progress (chunks ++ [chunk]) d' ⟨res.normalText ++ next.normalText, res.calls ++
          next.calls⟩ := by
  have hflat :
    ∀ q, (chunks ++ [chunk]).flatten.count q = chunks.flatten.count q + chunk.count q := by simp
  cases h with
  | lost htouched q hq hlt =>
    have htouched' : Touched (chunks ++ [chunk]) := touched_snoc.mpr (Or.inl htouched)
    cases hparse : parseStreamingIncrement table d chunk with
    | none => exact Or.inl ⟨rfl, htouched'⟩
    | some r =>
      right
      refine ⟨r.1, r.2, rfl, ?_⟩
      apply Progress.lost htouched' q hq
      have hle := parse_count_le hq hparse
      have hsnoc := hflat q
      simp only [count_append] at hle hlt hsnoc ⊢
      omega
  | passed huntouched hmode hprev hhold hcalls htext =>
    have hsplit := splitAliasHold_snoc chunks chunk
    have hpre : (splitAliasHold (chunks ++ [chunk]).flatten).1 <+: (chunks ++ [chunk]).flatten :=
      ⟨_, splitAliasHold_append_eq _⟩
    by_cases htouch : HasNameAttr (d.aliasHold ++ chunk) ∨
      ¬PlainStart (splitAliasHold (d.aliasHold ++ chunk)).1
    · -- the first chunk that is not left alone
      have htouched : Touched (chunks ++ [chunk]) := touched_snoc.mpr (Or.inr (hhold ▸ htouch))
      have hne : chunk ≠ [] := by
        rintro rfl
        rw [hhold, append_nil] at htouch
        rcases htouch with hattr | hplain
        · exact not_hasNameAttr (not_mem_openTag _) hattr
        · rw [splitAliasHold_openTag] at hplain
          exact hplain plainStart_nil
      cases hparse : parseStreamingIncrement table d chunk with
      | none => exact Or.inl ⟨rfl, htouched⟩
      | some r =>
        right
        refine ⟨r.1, r.2, rfl, ?_⟩
        obtain ⟨q, hq, hlt⟩ := parse_count_lt hmode hne htouch hparse
        apply Progress.lost htouched q hq
        have hsnoc := hflat q
        have hall := count_split q chunks.flatten
        have hcount := congrArg (List.count q) htext
        have hholdq := congrArg (List.count q) hhold
        unfold openTag at hholdq
        simp only [count_append] at hlt hsnoc hcount ⊢
        omega
    · rw [not_or, not_not] at htouch
      obtain ⟨hattr, hplain⟩ := htouch
      have huntouched' : ¬Touched (chunks ++ [chunk]) := by
        rw [touched_snoc, ← hhold]
        exact not_or.mpr ⟨huntouched, not_or.mpr ⟨hattr, not_not.mpr hplain⟩⟩
      rw [← hhold] at hsplit
      -- what the mixin has to look at is a part of the text
      have hseen :
          d.buffer ++ (splitAliasHold (d.aliasHold ++ chunk)).1 <:+:
          (chunks ++ [chunk]).flatten := by
        refine List.IsInfix.trans (List.IsSuffix.isInfix ⟨res.normalText, ?_⟩) hpre.isInfix
        rw [hsplit, ← htext, append_assoc]
      right
      by_cases hne : chunk = []
      · subst hne
        rw [append_nil] at hseen
        have hbuf : ¬"<tool_call>".toList <:+: d.buffer := fun hin =>
          hopen (hin.trans ((prefix_append d.buffer _).isInfix.trans hseen))
        obtain ⟨text, buffer, hparse, heq⟩ := @parse_nil _ d table hmode hbuf
        have hflat' : (chunks ++ [[]]).flatten = chunks.flatten := by simp
        refine ⟨_, _, hparse, Progress.passed huntouched' hmode hprev ?_ ?_ ?_⟩
        · rw [hflat']
          exact hhold
        · exact (append_nil _).trans hcalls
        · rw [hflat', append_assoc, heq, htext]
      · have hemit : ¬"<function=".toList <:+: (splitAliasHold (d.aliasHold ++ chunk)).1 := fun hin =>
          hfun (hin.trans ((suffix_append d.buffer _).isInfix.trans hseen))
        obtain ⟨text, buffer, hparse, heq⟩ :=
          @parse_untouched _ d chunk table hmode hattr hplain hemit
            (fun hin => hopen (hin.trans hseen)) hne
        refine ⟨_, _, hparse, Progress.passed huntouched' hmode hprev ?_ ?_ ?_⟩
        · unfold openTag
          rw [hsplit]
        · exact (append_nil _).trans hcalls
        · rw [hsplit, append_assoc, heq, ← append_assoc, htext]

theorem feed {chunks : List Text} (table : ToolTable) (hopen : ¬"<tool_call>".toList <:+: chunks.flatten)
    (hfun : ¬"<function=".toList <:+: chunks.flatten) :
    feedChunks table ({} : Qwen3CoderDetector) chunks = none ∧ Touched chunks ∨
      ∃ d res, feedChunks table ({} : Qwen3CoderDetector) chunks = some (d, res) ∧
        Progress chunks d res := by
  induction chunks using reverseRecOn with
  | nil =>
    right
    refine ⟨{}, {}, rfl, Progress.passed ?_ rfl rfl rfl rfl rfl⟩
    rintro ⟨pre, chunk, post, heq, -⟩
    simp at heq
  | append_singleton chunks chunk ih =>
    have hprev : chunks.flatten <:+: (chunks ++ [chunk]).flatten := by
      rw [flatten_append]
      exact (prefix_append _ _).isInfix
    rcases ih (fun hin => hopen (hin.trans hprev)) (fun hin => hfun (hin.trans hprev)) with
      ⟨hnone, htouched⟩ | ⟨d, res, hfeed, hprogress⟩
    · left
      refine ⟨?_, touched_snoc.mpr (Or.inl htouched)⟩
      rw [feedChunks_append_singleton, hnone]
      rfl
    · rcases hprogress.step hopen hfun with ⟨hnone, htouched⟩ | ⟨d', next, hstep, hnext⟩
      · left
        refine ⟨?_, htouched⟩
        rw [feedChunks_append_singleton, hfeed]
        show (parseStreamingIncrement table d chunk).map _ = none
        rw [hnone]
        rfl
      · right
        exact ⟨d', _, feedChunks_snoc hfeed hstep, hnext⟩

omit [JsonLib] in
/-- The whole text has come out, without a call, exactly when nothing was touched and no tag is
open. -/
theorem Progress.finish (h : Progress chunks d res) (hopen : ¬"<tool_call>".toList <:+: chunks.flatten) :
    (res.normalText ++ d.toInvokeParamStream.finishStreaming qwen3CoderGrammar = chunks.flatten ∧
      res.calls = []) ↔
      ¬Touched chunks ∧ openTag chunks.flatten = [] := by
  have hsplit := splitAliasHold_append_eq chunks.flatten
  cases h with
  | passed huntouched hmode hprev hhold hcalls htext =>
    have hbuf : ¬"<tool_call>".toList <:+: d.buffer := fun hin =>
      hopen (hin.trans (List.IsInfix.trans (List.IsSuffix.isInfix ⟨res.normalText, htext⟩)
        (List.IsPrefix.isInfix ⟨_, hsplit⟩)))
    have hfinish : d.toInvokeParamStream.finishStreaming qwen3CoderGrammar = d.buffer := by
      unfold InvokeParamStream.finishStreaming
      rw [if_neg (not_or.mpr ⟨not_not.mpr hmode, fun hand => hbuf hand.2⟩), if_neg fun hand =>
        hand.1 hprev]
    rw [hfinish, htext]
    constructor
    · rintro ⟨heq, -⟩
      refine ⟨huntouched, ?_⟩
      rw [heq] at hsplit
      exact append_right_eq_self.mp hsplit
    · rintro ⟨-, hclosed⟩
      unfold openTag at hclosed
      rw [hclosed, append_nil] at hsplit
      exact ⟨hsplit, hcalls⟩
  | lost htouched q hq hlt =>
    constructor
    · rintro ⟨heq, -⟩
      exfalso
      have hle :
          (d.toInvokeParamStream.finishStreaming qwen3CoderGrammar).count q ≤ d.buffer.count q := by
        unfold InvokeParamStream.finishStreaming
        split_ifs <;> simp
      rw [← heq] at hlt
      simp only [count_append] at hlt
      omega
    · rintro ⟨huntouched, -⟩
      exact absurd htouched huntouched

/-- Text without a call passes through exactly when no chunk completes a tag with a `name` attribute
or lets text go that starts with whitespace or a closer, and no tag is open at its end. -/
theorem passthrough_iff (table : ToolTable) (chunks : List Text)
    (hopen : ¬"<tool_call>".toList <:+: chunks.flatten) (hfun : ¬"<function=".toList <:+: chunks.flatten) :
    streamChunks table ({} : Qwen3CoderDetector) chunks = some (chunks.flatten, []) ↔
      ¬Touched chunks ∧ openTag chunks.flatten = [] := by
  rcases feed table hopen hfun with ⟨hnone, htouched⟩ | ⟨d, res, hfeed, hprogress⟩
  · have hstream : streamChunks table ({} : Qwen3CoderDetector) chunks = none := by
      simp [streamChunks, hnone]
    rw [hstream]
    constructor
    · intro h
      cases h
    · rintro ⟨huntouched, -⟩
      exact absurd htouched huntouched
  · rw [streamChunks_eq hfeed, Option.some.injEq, Prod.mk.injEq]
    exact hprogress.finish hopen

omit [JsonLib] in
/-- A stray `<` that a later chunk closes. -/
theorem passthrough_stray :
    @streamChunks _ (@instFormatDetectorQwen3CoderDetector JsonLib.refusing) ⟨[], true⟩
      ({} : Qwen3CoderDetector)
        ["a <".toList, "b> c".toList] = some ("a <b> c".toList, []) ↔
      ¬Touched ["a <".toList, "b> c".toList] ∧ openTag "a <b> c".toList = [] :=
  @passthrough_iff JsonLib.refusing ⟨[], true⟩ ["a <".toList, "b> c".toList] (by decide) (by decide)

omit [JsonLib] in
/-- The space at the start of a chunk is stripped. -/
theorem space_stripped :
    ¬∀ (_ : JsonLib) (table : ToolTable) (chunks : List Text), (∀ chunk ∈ chunks, chunk ≠ []) →
    ¬"<tool_call>".toList <:+: chunks.flatten → ¬"<function".toList <:+: chunks.flatten →
      streamChunks table ({} : Qwen3CoderDetector) chunks = some (chunks.flatten, []) := by
  intro hall
  have h := hall JsonLib.refusing ⟨[], true⟩ ["a".toList, " b".toList] (by decide) (by decide) (by decide)
  have hstream : @streamChunks _ (@instFormatDetectorQwen3CoderDetector JsonLib.refusing) ⟨[], true⟩
      ({} : Qwen3CoderDetector) ["a".toList, " b".toList] = some ("ab".toList, []) := by decide
  rw [hstream] at h
  simp at h

end Qwen3CoderDetector

end FreeToken
