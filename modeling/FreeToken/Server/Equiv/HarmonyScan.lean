import FreeToken.Server.Equiv.ReasoningParser

/-!
# The scan of the Harmony reasoning parser

The scan of a buffer is compared with that of a longer one.

* `segmentEnd_append`, `segmentEnd_open`: the end of a segment, when more text comes.
* `segments`: what the scan finds, with `scanFrom_eq`.
* `continues_segments`: the segments of a buffer go on in those of a longer one.
* `extends_reasoning`, `extends_content`: so do the texts that it appends.
* `exists_before`: the text up to the end of a segment, with other text behind it.
-/

namespace FreeToken.GptOssHarmonyReasoningParser

open List Option

variable {text x y body header : Text} {tok tok' : Text} {e e' n m : ℕ} {hold : Bool}

/-! ### The end of a segment -/

theorem boundary_ne_nil (h : tok ∈ harmonyBoundaryTokens) : tok ≠ [] := by
  revert tok
  decide

theorem boundary_apart (h : tok ∈ harmonyBoundaryTokens) (h' : tok' ∈ harmonyBoundaryTokens) :
    tok = tok' ∨ Apart tok tok' := by
  have hall :
      ∀ tok ∈ harmonyBoundaryTokens, ∀ tok' ∈ harmonyBoundaryTokens, tok = tok' ∨
      Apart tok tok' := by decide
  exact hall tok h tok' h'

/-- The first place where one of the tokens is, and that token. -/
def Earliest (text : Text) (toks : List Text) : Option (ℕ × Text) → Prop
  | none => ∀ tok ∈ toks, Text.find tok text = none
  | some (e, tok) =>
    tok ∈ toks ∧ Text.find tok text = some e ∧ ∀ tok' ∈ toks, ∀ e', Text.find tok' text = some e' →
      e ≤ e'

theorem Earliest.earlier {toks : List Text} {best : Option (ℕ × Text)}
    (h : Earliest text toks best) :
    Earliest text (toks ++ [tok]) (earlier text best tok) := by
  -- a later marker replaces the best one only if it starts before it
  cases hfind : Text.find tok text with
  | none =>
    have heq : GptOssHarmonyReasoningParser.earlier text best tok = best := by
      unfold GptOssHarmonyReasoningParser.earlier
      rw [hfind]
    rw [heq]
    cases best with
    | none =>
      intro t ht
      rcases mem_append.mp ht with ht | ht
      · exact h t ht
      · rw [mem_singleton.mp ht]
        exact hfind
    | some best =>
      obtain ⟨hmem, hbest, hmin⟩ := h
      refine ⟨mem_append_left _ hmem, hbest, ?_⟩
      intro t ht e he
      rcases mem_append.mp ht with ht | ht
      · exact hmin t ht e he
      · rw [mem_singleton.mp ht, hfind] at he
        exact absurd he (by simp)
  | some pos =>
    have heq : GptOssHarmonyReasoningParser.earlier text best tok =
        if best.all fun b => pos < b.1 then some (pos, tok) else best := by
      unfold GptOssHarmonyReasoningParser.earlier
      rw [hfind]
    rw [heq]
    split_ifs with hlt
    · refine ⟨by simp, hfind, ?_⟩
      intro t ht e he
      rcases mem_append.mp ht with ht | ht
      · cases best with
        | none => exact absurd (he.symm.trans (h t ht)) (by simp)
        | some best =>
          have hle := h.2.2 t ht e he
          have hlt' : pos < best.1 := of_decide_eq_true hlt
          omega
      · rw [mem_singleton.mp ht, hfind, Option.some.injEq] at he
        exact he.le
    · cases best with
      | none => exact absurd rfl hlt
      | some best =>
        obtain ⟨hmem, hbest, hmin⟩ := h
        refine ⟨mem_append_left _ hmem, hbest, ?_⟩
        intro t ht e he
        rcases mem_append.mp ht with ht | ht
        · exact hmin t ht e he
        · rw [mem_singleton.mp ht, hfind, Option.some.injEq] at he
          have hge : ¬pos < best.1 := fun hpos => hlt (decide_eq_true hpos)
          show best.1 ≤ e
          omega

theorem earliest_foldl (toks : List Text) :
    Earliest text toks (toks.foldl (earlier text) none) := by
  induction toks using reverseRecOn with
  | nil => exact fun tok htok => absurd htok not_mem_nil
  | append_singleton toks tok ih =>
    rw [foldl_append, foldl_cons, foldl_nil]
    exact ih.earlier

/-- A segment that no token ends. -/
theorem segmentEnd_none (h : ∀ tok ∈ harmonyBoundaryTokens, ¬tok <:+: text) :
    segmentEnd text = (text.length, none) := by
  have hearliest := @earliest_foldl text harmonyBoundaryTokens
  unfold segmentEnd
  cases hbest : harmonyBoundaryTokens.foldl (earlier text) none with
  | none => rfl
  | some best =>
    rw [hbest] at hearliest
    exact absurd (hearliest.2.1.symm.trans (Text.find_eq_none.mpr (h best.2 hearliest.1))) (by simp)

theorem segmentEnd_some (h : ∃ tok ∈ harmonyBoundaryTokens, tok <:+: text) : ∃ e tok,
    segmentEnd text = (e, some tok) ∧ tok ∈ harmonyBoundaryTokens ∧ Text.find tok text = some e ∧
      ∀ tok' ∈ harmonyBoundaryTokens, ∀ e', Text.find tok' text = some e' → e ≤ e' := by
  obtain ⟨tok, htok, hin⟩ := h
  have hearliest := @earliest_foldl text harmonyBoundaryTokens
  unfold segmentEnd
  cases hbest : harmonyBoundaryTokens.foldl (earlier text) none with
  | none =>
    rw [hbest] at hearliest
    exact absurd hin (Text.find_eq_none.mp (hearliest tok htok))
  | some best =>
    rw [hbest] at hearliest
    exact ⟨best.1, best.2, rfl, hearliest⟩

theorem segmentEnd_append (hin : ∃ tok ∈ harmonyBoundaryTokens, tok <:+: x) :
    segmentEnd (x ++ y) = segmentEnd x := by
  obtain ⟨e, tok, hx, htok, hfind, hmin⟩ := segmentEnd_some hin
  obtain ⟨e', tok', hxy, htok', hfind', hmin'⟩ := @segmentEnd_some (x ++ y) (by
    obtain ⟨t, ht, hin⟩ := hin
    exact ⟨t, ht, hin.trans (prefix_append x y).isInfix⟩)
  have hle := hmin' tok htok e (Text.find_append hfind)
  have hpre := (Text.find_eq_some (Text.find_append (u := y) hfind)).1
  have hpre' := (Text.find_eq_some hfind').1
  have hadd := Text.find_add_le hfind
  rw [hx, hxy]
  rcases boundary_apart htok' htok with rfl | hapart
  · rw [Text.find_append hfind] at hfind'
    rw [Option.some.inj hfind']
  · -- another token would be before it as a whole
    have hend := hapart.le_of_starts hpre' hpre hle
    have hin' : tok' <+: x.drop e' := by
      apply prefix_of_prefix_length_le hpre'
      · rw [drop_append_of_le_length (by omega)]
        exact prefix_append _ _
      · rw [length_drop]
        omega
    obtain ⟨j, hj, hfindx⟩ := Text.find_le hin'
    have hle' := hmin tok' htok' j hfindx
    have hpos := length_pos_iff.mpr (boundary_ne_nil htok')
    omega

/-- Where the end of an open segment comes: behind all the text of it that no token can start in. -/
theorem segmentEnd_open (hx : ∀ tok ∈ harmonyBoundaryTokens, ¬tok <:+: x)
    (h : segmentEnd (x ++ y) = (e, some tok)) :
    tok ∈ harmonyBoundaryTokens ∧ x <+: (x ++ y).take e ++ tok ∧ x.length < e + tok.length ∧
      e + tok.length ≤ (x ++ y).length := by
  obtain ⟨e', tok', heq, htok, hfind, -⟩ := @segmentEnd_some (x ++ y) (by
    by_contra hnone
    rw [segmentEnd_none fun t ht hin => hnone ⟨t, ht, hin⟩] at h
    exact absurd (congrArg Prod.snd h) (by simp))
  rw [heq] at h
  obtain ⟨rfl, htok''⟩ := Prod.mk.inj h
  obtain rfl := Option.some.inj htok''
  have hlt := Text.lt_of_find_append (hx tok' htok) hfind
  have hadd := Text.find_add_le hfind
  obtain ⟨rest, hrest⟩ := (Text.find_eq_some hfind).1
  refine ⟨htok, ?_, hlt, hadd⟩
  apply prefix_of_prefix_length_le (prefix_append x y)
  · refine ⟨rest, ?_⟩
    rw [append_assoc, hrest, take_append_drop]
  · rw [length_append, length_take]
    omega

/-! ### Segments -/

/-- A channel with its message, and the token that ends it. -/
structure Segment where
  header : Text
  body : Text
  closer : Option Text
deriving DecidableEq, Repr

/-- The header of the next segment, and the text from its body on. -/
def opening (text : Text) : Option (Text × Text) :=
  match Text.find harmonyChannel text with
  | none => none
  | some ch =>
    match Text.find harmonyMessage (text.drop (ch + harmonyChannel.length)) with
    | none => none
    | some msg => some ((text.drop (ch + harmonyChannel.length)).take msg,
        (text.drop (ch + harmonyChannel.length)).drop (msg + harmonyMessage.length))

def segments : ℕ → Text → List Segment
  | 0, _ => []
  | fuel + 1, text =>
    match opening text with
    | none => []
    | some (header, fromBody) =>
      ⟨header, fromBody.take (segmentEnd fromBody).1, (segmentEnd fromBody).2⟩ ::
        if (segmentEnd fromBody).2 = none then []
          else segments fuel (fromBody.drop (segmentEnd fromBody).1)

def Segment.shown (hold : Bool) (seg : Segment) : Text :=
  if isTool seg.header then
    harmonyChannel ++ seg.header ++ harmonyMessage ++ seg.body ++
      (seg.closer.filter closingBoundaryTokens.contains).getD []
  else if seg.closer = none ∧ hold then seg.body.take
    (seg.body.length - longestHarmonyPartialSuffix seg.body)
  else seg.body

def isReasoning (header : Text) : Bool := !isTool header && channelOf header = "analysis".toList

variable {out : Text × Text}

theorem opening_eq_some (h : opening text = some out) : ∃ ch msg,
    Text.find harmonyChannel text = some ch ∧
      Text.find harmonyMessage (text.drop (ch + harmonyChannel.length)) = some msg ∧
        out = ((text.drop (ch + harmonyChannel.length)).take msg,
          (text.drop (ch + harmonyChannel.length)).drop (msg + harmonyMessage.length)) := by
  unfold opening at h
  cases hch : Text.find harmonyChannel text with
  | none =>
    rw [hch] at h
    exact absurd h (by simp)
  | some ch =>
    rw [hch] at h
    dsimp only at h
    cases hmsg : Text.find harmonyMessage (text.drop (ch + harmonyChannel.length)) with
    | none =>
      rw [hmsg] at h
      exact absurd h (by simp)
    | some msg =>
      rw [hmsg, Option.some.injEq] at h
      exact ⟨ch, msg, rfl, hmsg, h.symm⟩

theorem opening_eq_none (h : opening text = none) : Text.find harmonyChannel text = none ∨
    ∃ ch, Text.find harmonyChannel text = some ch ∧
      Text.find harmonyMessage (text.drop (ch + harmonyChannel.length)) = none := by
  unfold opening at h
  cases hch : Text.find harmonyChannel text with
  | none => exact Or.inl rfl
  | some ch =>
    right
    rw [hch] at h
    dsimp only at h
    cases hmsg : Text.find harmonyMessage (text.drop (ch + harmonyChannel.length)) with
    | none => exact ⟨ch, rfl, hmsg⟩
    | some msg =>
      rw [hmsg] at h
      exact absurd h (by simp)

theorem opening_append (h : opening x = some out) :
    opening (x ++ y) = some (out.1, out.2 ++ y) := by
  obtain ⟨ch, msg, hch, hmsg, rfl⟩ := opening_eq_some h
  have hadd := Text.find_add_le hch
  have hadd' := Text.find_add_le hmsg
  unfold opening
  rw [Text.find_append hch]
  dsimp only
  rw [drop_append_of_le_length hadd, Text.find_append hmsg]
  dsimp only
  rw [take_append_of_le_length (by omega), drop_append_of_le_length hadd']

theorem opening_length (h : opening x = some out) : out.2.length < x.length := by
  obtain ⟨ch, msg, hch, hmsg, rfl⟩ := opening_eq_some h
  have hadd := Text.find_add_le hch
  have hpos : 0 < harmonyChannel.length := by decide
  simp only [length_drop]
  omega

/-- A tool segment is shown as it is in the text, with the token that closes it. -/
theorem take_sliceEnd (fromBody : Text) : fromBody.take ((segmentEnd fromBody).1 +
      ((segmentEnd fromBody).2.filter closingBoundaryTokens.contains).elim 0 List.length) =
    fromBody.take (segmentEnd fromBody).1 ++
      ((segmentEnd fromBody).2.filter closingBoundaryTokens.contains).getD [] := by
  by_cases hin : ∃ tok ∈ harmonyBoundaryTokens, tok <:+: fromBody
  · obtain ⟨e, tok, hend, -, hfind, -⟩ := segmentEnd_some hin
    rw [hend]
    by_cases hclosing : tok ∈ closingBoundaryTokens
    · have hfilter : (some tok).filter closingBoundaryTokens.contains = some tok := by
        rw [filter_some, if_pos (contains_iff_mem.mpr hclosing)]
      rw [hfilter, take_add, elim_some, getD_some,
        ← prefix_iff_eq_take.mp (Text.find_eq_some hfind).1]
    · have hfilter : (some tok).filter closingBoundaryTokens.contains = none := by
        rw [filter_some, if_neg (by simpa using hclosing)]
      rw [hfilter, Option.elim_none, Nat.add_zero, Option.getD_none, append_nil]
  · have hend := @segmentEnd_none fromBody fun tok htok hin' => hin ⟨tok, htok, hin'⟩
    rw [hend]
    simp

variable {fromBody : Text}

theorem scanFrom_succ (fuel : ℕ) (h : opening text = some (header, fromBody)) :
    scanFrom hold (fuel + 1) text =
      (let shown :=
        Segment.shown hold ⟨header, fromBody.take (segmentEnd fromBody).1, (segmentEnd fromBody).2⟩
      let rest := if (segmentEnd fromBody).2 = none then ([], [])
        else scanFrom hold fuel (fromBody.drop (segmentEnd fromBody).1)
      if isReasoning header then (shown :: rest.1, rest.2) else (rest.1, shown :: rest.2)) := by
  have hslice := take_sliceEnd fromBody
  obtain ⟨ch, msg, hch, hmsg, hout⟩ := opening_eq_some h
  obtain ⟨rfl, rfl⟩ := Prod.mk.inj hout
  rw [scanFrom]
  unfold Segment.shown isReasoning
  rw [hch]
  dsimp only
  rw [hmsg]
  dsimp only
  generalize (text.drop (ch + harmonyChannel.length)).take msg = header at *
  generalize (text.drop (ch + harmonyChannel.length)).drop (msg + harmonyMessage.length) =
    fromBody at *
  cases htool : isTool header with
  | true =>
    have hno : ¬(!true && decide (channelOf header = "analysis".toList)) = true := Bool.false_ne_true
    rw [if_pos rfl, if_pos rfl, if_neg hno, hslice]
    simp only [append_assoc]
  | false =>
    simp only [Bool.false_eq_true, if_false]
    by_cases hreasoning : channelOf header = "analysis".toList
    · have hyes : (!false && decide (channelOf header = "analysis".toList)) = true := decide_eq_true hreasoning
      rw [if_pos hreasoning, if_pos hyes]
    · have hno : ¬(!false && decide (channelOf header = "analysis".toList)) = true := fun h =>
        hreasoning (of_decide_eq_true h)
      rw [if_neg hreasoning, if_neg hno]

theorem opening_none (fuel : ℕ) (h : opening text = none) : scanFrom hold fuel text = ([], []) := by
  cases fuel with
  | zero => rfl
  | succ fuel =>
    rw [scanFrom]
    rcases opening_eq_none h with hch | ⟨ch, hch, hmsg⟩
    · rw [hch]
    · rw [hch]
      dsimp only
      rw [hmsg]

theorem scanFrom_eq (hold : Bool) (fuel : ℕ) (text : Text) : scanFrom hold fuel text =
    (((segments fuel text).filter fun seg => isReasoning seg.header).map (Segment.shown hold),
      ((segments fuel text).filter fun seg => !isReasoning seg.header).map
      (Segment.shown hold)) := by
  induction fuel generalizing text with
  | zero => rfl
  | succ fuel ih =>
    unfold segments
    cases hopen : opening text with
    | none =>
      rw [opening_none _ hopen]
      rfl
    | some out =>
      rw [scanFrom_succ fuel hopen]
      dsimp only
      by_cases hclosed : (segmentEnd out.2).2 = none
      · rw [if_pos hclosed, if_pos hclosed]
        cases hreasoning : isReasoning out.1 with
        | true => simp [hreasoning]
        | false => simp [hreasoning]
      · rw [if_neg hclosed, if_neg hclosed, ih]
        cases hreasoning : isReasoning out.1 with
        | true => simp [hreasoning]
        | false => simp [hreasoning]

/-! ### A buffer that grows -/

/-- How the segments of a buffer go on when `y` comes: only the last may be open. -/
inductive Continues (y : Text) : List Segment → List Segment → Prop where
  | nil (more : List Segment) : Continues y [] more
  | cons (seg : Segment) (hclosed : seg.closer ≠ none) {rest rest' : List Segment}
      (h : Continues y rest rest') :
      Continues y (seg :: rest) (seg :: rest')
  | goesOn (header body : Text) : Continues y [⟨header, body, none⟩] [⟨header, body ++ y, none⟩]
  | closes (header : Text) {body body' tok : Text} (more : List Segment)
      (htok : tok ∈ harmonyBoundaryTokens)
      (hpre : body <+: body' ++ tok) (hlt : body.length < body'.length + tok.length) :
      Continues y [⟨header, body, none⟩] (⟨header, body', some tok⟩ :: more)

theorem continues_segments (hn : x.length < n) (hm : (x ++ y).length < m) :
    Continues y (segments n x) (segments m (x ++ y)) := by
  induction n generalizing x m with
  | zero => exact absurd hn (Nat.not_lt_zero _)
  | succ n ih =>
    obtain ⟨m, rfl⟩ := Nat.exists_eq_succ_of_ne_zero (ne_of_gt (Nat.zero_lt_of_lt hm))
    unfold segments
    cases hopen : opening x with
    | none => exact Continues.nil _
    | some out =>
      have hlen := opening_length hopen
      have hlen' := opening_length (opening_append (y := y) hopen)
      rw [opening_append hopen]
      dsimp only
      by_cases hin : ∃ tok ∈ harmonyBoundaryTokens, tok <:+: out.2
      · -- the segment is closed already
        have hend := segmentEnd_append (y := y) hin
        obtain ⟨e, tok, heq, -, hfind, -⟩ := segmentEnd_some hin
        have hadd := Text.find_add_le hfind
        rw [hend, heq]
        dsimp only
        rw [if_neg (by simp), if_neg (by simp), take_append_of_le_length (by omega),
          drop_append_of_le_length (by omega)]
        apply Continues.cons _ (by simp)
        apply ih
        · rw [length_drop]
          omega
        · rw [length_append, length_drop]
          rw [length_append] at hlen' hm
          rw [length_append] at hlen'
          omega
      · have hnone : ∀ tok ∈ harmonyBoundaryTokens, ¬tok <:+: out.2 :=
          fun tok htok hin' => hin ⟨tok, htok, hin'⟩
        have hend := segmentEnd_none hnone
        rw [hend, if_pos rfl, take_length]
        by_cases hin' : ∃ tok ∈ harmonyBoundaryTokens, tok <:+: out.2 ++ y
        · obtain ⟨e, tok, heq, -, -, -⟩ := segmentEnd_some hin'
          obtain ⟨htok, hpre, hlt, hle⟩ := segmentEnd_open hnone heq
          rw [heq, if_neg (by simp)]
          apply Continues.closes _ _ htok hpre
          rw [length_take]
          omega
        · have hend' := @segmentEnd_none (out.2 ++ y) fun tok htok hin'' => hin' ⟨tok, htok, hin''⟩
          rw [hend', if_pos rfl, take_length]
          exact Continues.goesOn _ _

/-! ### What is shown -/

theorem le_longestHarmonyPartialSuffix {k : ℕ} (htok : tok ∈ harmonyAllTokens) (hk : k < tok.length)
    (hle : k ≤ body.length) (hsuf : tok.take k <:+ body) : k ≤ longestHarmonyPartialSuffix body :=
  (Text.foldl_longestPartial body harmonyAllTokens 0).2.2 tok htok k hk hle hsuf

/-- More text does not make less of an open body shown. -/
theorem shown_le_append (body y : Text) : body.length - longestHarmonyPartialSuffix body ≤
    (body ++ y).length - longestHarmonyPartialSuffix (body ++ y) := by
  obtain ⟨-, hpart, -⟩ := Text.foldl_longestPartial (body ++ y) harmonyAllTokens 0
  have hdef : harmonyAllTokens.foldl (Text.longestPartial (body ++ y)) 0 =
      longestHarmonyPartialSuffix (body ++ y) := rfl
  rw [hdef] at hpart
  rw [length_append]
  generalize longestHarmonyPartialSuffix (body ++ y) = h at hpart
  rcases hpart with rfl | ⟨tok, htok, hlt, hle, hsuf⟩
  · omega
  · by_cases hy : h ≤ y.length
    · omega
    · -- what is held is held of the shorter body already
      obtain ⟨k, hk⟩ := Nat.exists_eq_add_of_le (not_le.mp hy).le
      obtain ⟨w, hw⟩ := hsuf
      have hwlen := congrArg List.length hw
      rw [length_append, length_append, length_take] at hwlen
      rw [length_append] at hle
      have hbody : w ++ tok.take k = body := by
        have htake := congrArg (List.take body.length) hw
        have hmin : min (body.length - w.length) h = k := by omega
        rw [take_left, take_append, take_take, take_of_length_le (by omega), hmin] at htake
        exact htake
      have hheld := le_longestHarmonyPartialSuffix (k := k) htok (by omega) (by omega) ⟨w, hbody⟩
      omega

theorem shown_le_closes {body' : Text} (htok : tok ∈ harmonyBoundaryTokens)
    (hpre : body <+: body' ++ tok) (hlt : body.length < body'.length + tok.length) :
    body.length - longestHarmonyPartialSuffix body ≤ body'.length := by
  by_cases hle : body.length ≤ body'.length
  · omega
  · obtain ⟨k, hk⟩ := Nat.exists_eq_add_of_le (not_le.mp hle).le
    have hbody : body' ++ tok.take k = body := by
      have htake := prefix_iff_eq_take.mp hpre
      rw [hk, take_append, take_of_length_le (Nat.le_add_right _ _), Nat.add_sub_cancel_left]
        at htake
      exact htake.symm
    have hheld :=
      le_longestHarmonyPartialSuffix (k := k) (mem_append_right _ htok) (by omega) (by omega)
      ⟨body', hbody⟩
    omega

variable {seg : Segment}

theorem shown_closed (h : seg.closer ≠ none) (hold hold' : Bool) :
    seg.shown hold = seg.shown hold' := by
  unfold Segment.shown
  simp only [h, false_and, if_false]

theorem shown_tool {seg : Segment} (h : isTool seg.header = true) : seg.shown hold =
    harmonyChannel ++ seg.header ++ harmonyMessage ++ seg.body ++
      (seg.closer.filter closingBoundaryTokens.contains).getD [] := by
  unfold Segment.shown
  rw [if_pos h]

theorem shown_open (h : isTool header = false) (body : Text) :
    Segment.shown true ⟨header, body, none⟩ =
    body.take (body.length - longestHarmonyPartialSuffix body) := by
  unfold Segment.shown
  rw [h, if_neg Bool.false_ne_true, if_pos ⟨rfl, rfl⟩]

theorem shown_whole (h : isTool header = false) (body : Text) (closer : Option Text) :
    Segment.shown false ⟨header, body, closer⟩ = body := by
  unfold Segment.shown
  rw [h, if_neg Bool.false_ne_true, if_neg fun hand => Bool.false_ne_true hand.2]

theorem shown_goesOn (header body y : Text) (hold : Bool) :
    Segment.shown true ⟨header, body, none⟩ <+: Segment.shown hold ⟨header, body ++ y, none⟩ := by
  cases htool : isTool header with
  | true =>
    rw [shown_tool htool, shown_tool htool, ← append_assoc _ body y]
    simp only [filter_none, Option.getD_none, append_nil]
    exact prefix_append _ _
  | false =>
    rw [shown_open htool]
    have hpre : body.take (body.length - longestHarmonyPartialSuffix body) <+: body ++ y :=
      (List.take_prefix _ _).trans (prefix_append _ _)
    cases hold with
    | true =>
      rw [shown_open htool]
      apply prefix_of_prefix_length_le hpre (List.take_prefix _ _)
      rw [length_take, length_take]
      have hle := shown_le_append body y
      rw [length_append] at hle ⊢
      omega
    | false =>
      rw [shown_whole htool]
      exact hpre

theorem shown_closes {body' : Text} (htok : tok ∈ harmonyBoundaryTokens)
    (hpre : body <+: body' ++ tok)
    (hlt : body.length < body'.length + tok.length)
    (hclosing : isTool header = true → tok ∈ closingBoundaryTokens)
    (hold : Bool) :
    Segment.shown true ⟨header, body, none⟩ <+: Segment.shown hold ⟨header, body', some tok⟩ := by
  cases htool : isTool header with
  | true =>
    have hfilter : (some tok).filter closingBoundaryTokens.contains = some tok := by
      rw [filter_some, if_pos (contains_iff_mem.mpr (hclosing htool))]
    rw [shown_tool htool, shown_tool htool, hfilter]
    simp only [filter_none, Option.getD_none, append_nil, getD_some, append_assoc]
    simp only [prefix_append_right_inj]
    exact hpre
  | false =>
    have hclosed : Segment.shown hold ⟨header, body', some tok⟩ = body' :=
      (shown_closed (some_ne_none tok) hold false).trans (shown_whole htool body' (some tok))
    rw [hclosed, shown_open htool]
    apply @prefix_of_prefix_length_le _ _ _ (body' ++ tok)
    · exact (List.take_prefix _ _).trans hpre
    · exact prefix_append _ _
    · rw [length_take]
      exact (min_le_left _ _).trans (shown_le_closes htok hpre hlt)

/-- Pieces of text that have more to come: only the last one may become longer. -/
inductive Extends : List Text → List Text → Prop where
  | nil (more : List Text) : Extends [] more
  | cons (u : Text) {us vs : List Text} (h : Extends us vs) : Extends (u :: us) (u :: vs)
  | last {u v : Text} (more : List Text) (h : u <+: v) : Extends [u] (v :: more)

theorem Extends.flatten {us vs : List Text} (h : Extends us vs) : us.flatten <+: vs.flatten := by
  induction h with
  | nil => exact nil_prefix
  | cons u _ ih =>
    rw [flatten_cons, flatten_cons]
    exact (prefix_append_right_inj u).mpr ih
  | last more h =>
    rw [flatten_singleton, flatten_cons]
    exact h.trans (prefix_append _ _)

/-- No tool segment is ended by the token of the next segment. -/
def ClosedTools (segs : List Segment) : Prop :=
  ∀ seg ∈ segs, isTool seg.header = true → ∀ tok, seg.closer = some tok →
    tok ∈ closingBoundaryTokens

theorem Continues.extends_shown {segs segs' : List Segment} (h : Continues y segs segs')
    (q : Text → Bool)
    (hclosed : ∀ seg ∈ segs', q seg.header = true → isTool seg.header = true → ∀ tok, seg.closer =
      some tok →
      tok ∈ closingBoundaryTokens) (hold : Bool) :
    Extends ((segs.filter fun seg => q seg.header).map (Segment.shown true))
      ((segs'.filter fun seg => q seg.header).map (Segment.shown hold)) := by
  induction h with
  | nil => exact Extends.nil _
  | cons seg hne _ ih =>
    have hrest := ih fun s hs => hclosed s (mem_cons_of_mem _ hs)
    cases hq : q seg.header with
    | true =>
      simp only [filter_cons, hq, if_true, map_cons]
      rw [shown_closed hne true hold]
      exact Extends.cons _ hrest
    | false =>
      simp only [filter_cons, hq, Bool.false_eq_true, if_false]
      exact hrest
  | goesOn header body =>
    cases hq : q header with
    | true =>
      simp only [filter_cons, hq, if_true, map_cons]
      exact Extends.last _ (shown_goesOn header body y hold)
    | false =>
      simp only [filter_cons, hq, Bool.false_eq_true, if_false]
      exact Extends.nil _
  | closes header more htok hpre hlt =>
    cases hq : q header with
    | true =>
      simp only [filter_cons, hq, if_true, map_cons]
      exact Extends.last _ (shown_closes htok hpre hlt
        (fun htool => hclosed _ mem_cons_self hq htool _ rfl) hold)
    | false =>
      simp only [filter_cons, hq, Bool.false_eq_true, if_false]
      exact Extends.nil _

def segmentsOf (text : Text) : List Segment := segments (text.length + 1) text

/-- What `_scan` joins. -/
def pieces (text : Text) (hold : Bool) : List Text × List Text :=
  scanFrom hold (text.length + 1) text

theorem scan_eq (text : Text) (hold : Bool) :
    scan text hold = ((pieces text hold).1.flatten, (pieces text hold).2.flatten) := rfl

theorem extends_reasoning (x y : Text) (hold : Bool) :
    Extends (pieces x true).1 (pieces (x ++ y) hold).1 := by
  unfold pieces
  rw [scanFrom_eq, scanFrom_eq]
  apply (continues_segments (Nat.lt_succ_self _) (Nat.lt_succ_self _)).extends_shown isReasoning
  intro seg _ hreasoning htool
  unfold isReasoning at hreasoning
  rw [htool] at hreasoning
  exact absurd hreasoning Bool.false_ne_true

theorem extends_content (h : ClosedTools (segmentsOf (x ++ y))) (hold : Bool) :
    Extends (pieces x true).2 (pieces (x ++ y) hold).2 := by
  unfold pieces
  rw [scanFrom_eq, scanFrom_eq]
  apply (continues_segments (Nat.lt_succ_self _) (Nat.lt_succ_self _)).extends_shown fun header =>
    !isReasoning header
  intro seg hseg _ htool tok htok
  exact h seg hseg htool tok htok

/-- A longer buffer has what ends the tool segments of the shorter one. -/
theorem ClosedTools.of_append (h : ClosedTools (segmentsOf (x ++ y))) :
    ClosedTools (segmentsOf x) := by
  have hcontinues : Continues y (segmentsOf x) (segmentsOf (x ++ y)) :=
    continues_segments (Nat.lt_succ_self _) (Nat.lt_succ_self _)
  generalize segmentsOf x = segs at *
  generalize segmentsOf (x ++ y) = segs' at *
  induction hcontinues with
  | nil => exact fun seg hseg => absurd hseg not_mem_nil
  | cons seg _ _ ih =>
    intro s hs
    rcases mem_cons.mp hs with rfl | hs
    · exact h _ mem_cons_self
    · exact ih (fun s hs => h s (mem_cons_of_mem _ hs)) s hs
  | goesOn =>
    intro s hs _ tok htok
    rw [mem_singleton.mp hs] at htok
    exact absurd htok (by simp)
  | closes =>
    intro s hs _ tok htok
    rw [mem_singleton.mp hs] at htok
    exact absurd htok (by simp)

variable {fuel : ℕ}

theorem body_clean (hseg : seg ∈ segments fuel text) (htok : tok ∈ harmonyBoundaryTokens) :
    ¬tok <:+: seg.body := by
  induction fuel generalizing text with
  | zero => exact absurd hseg not_mem_nil
  | succ fuel ih =>
    unfold segments at hseg
    split at hseg
    · exact absurd hseg not_mem_nil
    · rename_i header fromBody hopen
      rcases mem_cons.mp hseg with rfl | hseg
      · dsimp only
        by_cases hin : ∃ tok ∈ harmonyBoundaryTokens, tok <:+: fromBody
        · obtain ⟨e, tok', hend, -, -, hmin⟩ := segmentEnd_some hin
          rw [hend]
          intro hbody
          obtain ⟨j, hj⟩ := Text.find_of_infix hbody
          have hadd := Text.find_add_le hj
          have hpos := length_pos_iff.mpr (boundary_ne_nil htok)
          have hfind : Text.find tok fromBody = some j := by
            rw [← take_append_drop e fromBody]
            exact Text.find_append hj
          have hle := hmin tok htok j hfind
          rw [length_take] at hadd
          dsimp only at hadd
          omega
        · intro hbody
          exact hin ⟨tok, htok, hbody.trans (List.take_prefix _ _).isInfix⟩
      · split_ifs at hseg
        · exact absurd hseg not_mem_nil
        · exact ih hseg

/-! ### The text up to the end of a segment -/

theorem opening_split (h : opening text = some (header, fromBody)) :
    ∃ u, text = u ++ fromBody ∧ ∀ z, opening (u ++ z) = some (header, z) := by
  obtain ⟨ch, msg, hch, hmsg, hout⟩ := opening_eq_some h
  obtain ⟨rfl, rfl⟩ := Prod.mk.inj hout
  have hadd := Text.find_add_le hch
  obtain ⟨lead, hlead⟩ : ∃ lead, text.take (ch + harmonyChannel.length) = lead := ⟨_, rfl⟩
  obtain ⟨rest, hrest⟩ : ∃ rest, text.drop (ch + harmonyChannel.length) = rest := ⟨_, rfl⟩
  have htext : text = lead ++ rest := by rw [← hlead, ← hrest, take_append_drop]
  have hleadLen : lead.length = ch + harmonyChannel.length := by
    rw [← hlead, length_take]
    omega
  have hch' : Text.find harmonyChannel lead = some ch := by
    rw [htext] at hch
    exact Text.find_of_append hch hleadLen.ge
  rw [hrest] at hmsg ⊢
  -- the header ends with the first message marker behind the first channel marker
  obtain ⟨inner, hinner⟩ : ∃ inner, rest.take (msg + harmonyMessage.length) = inner := ⟨_, rfl⟩
  have hsplit : rest = inner ++ rest.drop (msg + harmonyMessage.length) := by
    rw [← hinner, take_append_drop]
  have hadd' := Text.find_add_le hmsg
  have hinnerLen : inner.length = msg + harmonyMessage.length := by
    rw [← hinner, length_take]
    omega
  have hmsg' : Text.find harmonyMessage inner = some msg := by
    rw [hsplit] at hmsg
    exact Text.find_of_append hmsg hinnerLen.ge
  refine ⟨lead ++ inner, ?_, ?_⟩
  · rw [htext, append_assoc, ← hsplit]
  · intro z
    unfold opening
    have hdrop : (lead ++ inner ++ z).drop (ch + harmonyChannel.length) = inner ++ z := by
      rw [append_assoc, ← hleadLen, drop_left]
    have hheader : (inner ++ z).take msg = rest.take msg := by
      rw [← hinner, take_append_of_le_length (by rw [hinner]; omega), take_take]
      congr 1
      omega
    have hfind : Text.find harmonyChannel (lead ++ inner ++ z) = some ch := by
      rw [append_assoc]
      exact Text.find_append hch'
    rw [hfind]
    dsimp only
    rw [hdrop, Text.find_append hmsg']
    dsimp only
    rw [hheader, ← hinnerLen, drop_left]

theorem channel_mem : harmonyChannel ∈ harmonyBoundaryTokens := by decide

theorem opening_boundary (htok : tok ∈ harmonyBoundaryTokens) : opening tok = none := by
  revert tok
  decide

theorem channel_of_opening (h : opening text = some out) : harmonyChannel <:+: text := by
  obtain ⟨ch, msg, hch, -, -⟩ := opening_eq_some h
  exact Text.find_isSome.mp (by rw [hch]; rfl)

theorem segments_succ {u : Text} (hopening : opening (u ++ fromBody) = some (header, fromBody))
    (hn : (u ++ fromBody).length < n) :
    ∃ n', n = n' + 1 ∧ fromBody.length < n' ∧ segments n (u ++ fromBody) =
      ⟨header, fromBody.take (segmentEnd fromBody).1, (segmentEnd fromBody).2⟩ ::
        if (segmentEnd fromBody).2 = none then []
          else segments n' (fromBody.drop (segmentEnd fromBody).1) := by
  obtain ⟨n', rfl⟩ := Nat.exists_eq_succ_of_ne_zero (ne_of_gt (Nat.zero_lt_of_lt hn))
  have hlen := opening_length hopening
  refine ⟨n', rfl, lt_of_lt_of_le hlen (Nat.lt_succ_iff.mp hn), ?_⟩
  rw [segments, hopening]

/-- The text up to the end of a segment, and what the scan finds if other text comes there. -/
theorem exists_before (hseg : seg ∈ segments fuel text) (htok : seg.closer = some tok) :
    ∃ w tail before, text = w ++ tok ++ tail ∧ tok ∈ harmonyBoundaryTokens ∧ harmonyChannel <:+: w ∧
      (∀ n, (w ++ tok).length < n → segments n (w ++ tok) = before ++ [seg]) ∧
      ∀ z n, (w ++ z).length < n → (∀ t ∈ harmonyBoundaryTokens, ¬t <:+: seg.body ++ z) →
        segments n (w ++ z) = before ++ [⟨seg.header, seg.body ++ z, none⟩] := by
  induction fuel generalizing text with
  | zero => exact absurd hseg not_mem_nil
  | succ fuel ih =>
    unfold segments at hseg
    split at hseg
    · exact absurd hseg not_mem_nil
    · rename_i header fromBody hopen
      obtain ⟨u, hu, hopening⟩ := opening_split hopen
      have hchannel : harmonyChannel <:+: u := by
        have h := channel_of_opening (hopening [])
        rwa [append_nil] at h
      have hin : ∃ t ∈ harmonyBoundaryTokens, t <:+: fromBody := by
        by_contra hno
        rw [segmentEnd_none fun t ht hin => hno ⟨t, ht, hin⟩, if_pos rfl] at hseg
        rw [mem_singleton.mp hseg] at htok
        exact absurd htok (by simp)
      obtain ⟨e, tok', hend, hmem, hfind, -⟩ := segmentEnd_some hin
      obtain ⟨hsplit, hlen⟩ := Text.eq_append_of_find hfind
      rw [hend] at hseg
      rcases mem_cons.mp hseg with rfl | hseg
      · -- it is the first one
        obtain rfl := Option.some.inj htok
        generalize fromBody.take e = body at *
        generalize fromBody.drop (e + tok'.length) = tail at *
        subst hsplit
        refine ⟨u ++ body, tail, [], ?_, hmem, hchannel.trans (prefix_append _ _).isInfix, ?_, ?_⟩
        · rw [hu]
          simp only [append_assoc]
        · intro n hn
          have hend' : segmentEnd (body ++ tok') = (e, some tok') := by
            rw [← hend]
            exact (segmentEnd_append ⟨tok', hmem, (suffix_append _ _).isInfix⟩).symm
          rw [append_assoc] at hn ⊢
          obtain ⟨n', -, -, hsegments⟩ := segments_succ (hopening _) hn
          rw [hsegments, hend', if_neg (by simp), ← hlen, take_left, drop_left]
          cases n' with
          | zero => rfl
          | succ n' =>
            rw [segments, opening_boundary hmem]
            rfl
        · intro z n hn hnone
          rw [append_assoc] at hn ⊢
          obtain ⟨n', -, -, hsegments⟩ := segments_succ (hopening _) hn
          rw [hsegments, segmentEnd_none hnone, if_pos rfl, take_length]
          rfl
      · rw [if_neg (by simp)] at hseg
        obtain ⟨w, tail, before, htext, htok', hw, hfirst, hsecond⟩ := ih hseg
        -- the token that ends this segment is in front of the next one
        have hpre : tok' <+: w := by
          obtain ⟨c, hc⟩ := Text.find_of_infix hw
          have hadd := Text.find_add_le hc
          have hchan : harmonyChannel <+: (w ++ tok ++ tail).drop c := by
            rw [append_assoc]
            exact (Text.find_eq_some (Text.find_append hc)).1
          have hhead : tok' <+: (w ++ tok ++ tail).drop 0 := by
            rw [← htext]
            exact (Text.find_eq_some hfind).1
          have hle : tok'.length ≤ w.length := by
            rcases boundary_apart hmem channel_mem with rfl | hapart
            · omega
            · have hle := hapart.le_of_starts hhead hchan (Nat.zero_le c)
              omega
          rw [drop_zero, append_assoc] at hhead
          exact prefix_of_prefix_length_le hhead (prefix_append _ _) hle
        have hbody : fromBody = fromBody.take e ++ (w ++ tok ++ tail) := by
          rw [← htext, take_append_drop]
        have hend' : ∀ z, segmentEnd (fromBody.take e ++ (w ++ z)) = (e, some tok') := by
          intro z
          have hin' : ∃ t ∈ harmonyBoundaryTokens, t <:+: fromBody.take e ++ w :=
            ⟨tok', hmem, hpre.isInfix.trans (suffix_append _ _).isInfix⟩
          have hwhole := segmentEnd_append (y := tok ++ tail) hin'
          rw [append_assoc, ← append_assoc w, ← hbody, hend] at hwhole
          rw [← append_assoc, segmentEnd_append hin', ← hwhole]
        have hturn :
            ∀ z n, (u ++ (fromBody.take e ++ (w ++ z))).length < n → ∃ n', (w ++ z).length < n' ∧
            segments n (u ++ (fromBody.take e ++ (w ++ z))) =
              ⟨header, fromBody.take e, some tok'⟩ :: segments n' (w ++ z) := by
          intro z n hn
          obtain ⟨n', -, hn', hsegments⟩ := segments_succ (hopening _) hn
          refine ⟨n', ?_, ?_⟩
          · rw [length_append] at hn'
            omega
          · rw [hsegments, hend' z, if_neg (by simp)]
            rw [take_append_of_le_length hlen.ge, take_of_length_le hlen.le,
              drop_append_of_le_length hlen.ge, drop_of_length_le hlen.le, nil_append]
        refine ⟨u ++ (fromBody.take e ++ w), tail, ⟨header, fromBody.take e, some tok'⟩ :: before,
          ?_, htok', hchannel.trans (prefix_append _ _).isInfix, ?_, ?_⟩
        · rw [hu]
          nth_rewrite 1 [hbody]
          simp only [append_assoc]
        · intro n hn
          rw [append_assoc, append_assoc] at hn ⊢
          obtain ⟨n', hn', hsegments⟩ := hturn tok n hn
          rw [hsegments, hfirst n' hn', cons_append]
        · intro z n hn hnone
          rw [append_assoc, append_assoc] at hn ⊢
          obtain ⟨n', hn', hsegments⟩ := hturn z n hn
          rw [hsegments, hsecond z n' hn' hnone, cons_append]

theorem boundary_ends (htok : tok ∈ harmonyBoundaryTokens) :
    tok.take 1 = ['<'] ∧ tok.getLast? = some '>' := by
  revert tok
  decide

theorem body_part (hseg : seg ∈ segments fuel text) (htok : tok ∈ harmonyBoundaryTokens) :
    ¬tok <:+: seg.body ++ ['<'] := by
  intro hin
  rcases infix_concat_iff.mp hin with hsuf | hin
  · obtain ⟨w, hw⟩ := hsuf
    have hlast := congrArg List.getLast? hw
    rw [getLast?_append, (boundary_ends htok).2, getLast?_concat] at hlast
    exact absurd hlast (by simp)
  · exact body_clean hseg htok hin

end FreeToken.GptOssHarmonyReasoningParser
