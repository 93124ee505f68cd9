import FreeToken.Scheduler.Equiv.Reply
import FreeToken.Tokenizer.Equiv.Shown

/-!
# Stop strings

The scheduler looks for stop strings in the text of the last few tokens, and the detokenizer cuts
the text at the one that it names.  `stop_strings_iff` says for which tokens a request gets its text
up to the earliest stop string.
-/

namespace FreeToken

open List Utf8Lossy

variable {stops : List Text} {text : Text}

/-! ### The earliest stop string -/

def Occurs (stops : List Text) (text : Text) : Prop := ∃ s ∈ stops, s <:+: text

def StartsWithStop (stops : List Text) (text : Text) : Prop := ∃ s ∈ stops, s <+: text

instance (stops : List Text) (text : Text) : Decidable (Occurs stops text) :=
  inferInstanceAs (Decidable (∃ s ∈ stops, s <:+: text))

instance (stops : List Text) (text : Text) : Decidable (StartsWithStop stops text) :=
  inferInstanceAs (Decidable (∃ s ∈ stops, s <+: text))

/-- Where the earliest occurrence of a stop string starts, or the end of the text. -/
def earliestStop (stops : List Text) : Text → ℕ
  | [] => 0
  | c :: t => if StartsWithStop stops (c :: t) then 0 else earliestStop stops t + 1

/-- The text before the earliest stop string, or the whole text. -/
def beforeStop (stops : List Text) (text : Text) : Text := text.take (earliestStop stops text)

theorem earliestStop_le_length : earliestStop stops text ≤ text.length := by
  induction text with
  | nil => exact le_rfl
  | cons c t ih =>
    rw [earliestStop]
    split_ifs
    · exact Nat.zero_le _
    · exact Nat.succ_le_succ ih

theorem occurs_cons {c : Char} :
    Occurs stops (c :: text) ↔ StartsWithStop stops (c :: text) ∨ Occurs stops text := by
  constructor
  · rintro ⟨s, hs, hin⟩
    rcases List.infix_cons_iff.mp hin with h | h
    · exact Or.inl ⟨s, hs, h⟩
    · exact Or.inr ⟨s, hs, h⟩
  · rintro (⟨s, hs, h⟩ | ⟨s, hs, h⟩)
    · exact ⟨s, hs, h.isInfix⟩
    · exact ⟨s, hs, List.infix_cons_iff.mpr (Or.inr h)⟩

theorem earliestStop_of_not_occurs (h : ¬Occurs stops text) :
    earliestStop stops text = text.length := by
  induction text with
  | nil => rfl
  | cons c t ih =>
    rw [occurs_cons, not_or] at h
    rw [earliestStop, if_neg h.1, ih h.2, length_cons]

theorem beforeStop_of_not_occurs (h : ¬Occurs stops text) : beforeStop stops text = text := by
  rw [beforeStop, earliestStop_of_not_occurs h, take_length]

theorem startsWithStop_drop_earliestStop (h : Occurs stops text) :
    StartsWithStop stops (text.drop (earliestStop stops text)) := by
  induction text with
  | nil =>
    obtain ⟨s, hs, hin⟩ := h
    obtain rfl := List.infix_nil.mp hin
    exact ⟨[], hs, nil_prefix⟩
  | cons c t ih =>
    rw [earliestStop]
    split_ifs with hstart
    · exact hstart
    · exact ih ((occurs_cons.mp h).resolve_left hstart)

theorem earliestStop_le {s : Text} (hs : s ∈ stops) {i : ℕ} (hi : i ≤ text.length)
    (h : s <+: text.drop i) :
    earliestStop stops text ≤ i := by
  induction text generalizing i with
  | nil => exact Nat.zero_le _
  | cons c t ih =>
    rw [earliestStop]
    split_ifs with hstart
    · exact Nat.zero_le _
    · cases i with
      | zero => exact absurd ⟨s, hs, h⟩ hstart
      | succ i => exact Nat.succ_le_succ (ih (Nat.le_of_succ_le_succ hi) h)

theorem Occurs.of_infix {t : Text} (h : Occurs stops t) (ht : t <:+: text) : Occurs stops text := by
  obtain ⟨s, hs, hin⟩ := h
  exact ⟨s, hs, hin.trans ht⟩

/-! ### The text that is held back -/

private theorem foldl_max_spec {α : Type} (f : α → ℕ) (l : List α) (n : ℕ) :
    n ≤ l.foldl (fun hold a => max hold (f a)) n ∧
      (∀ a ∈ l, f a ≤ l.foldl (fun hold a => max hold (f a)) n) ∧
      (l.foldl (fun hold a => max hold (f a)) n = n ∨
        ∃ a ∈ l, f a = l.foldl (fun hold a => max hold (f a)) n) := by
  induction l generalizing n with
  | nil => simp
  | cons a l ih =>
    obtain ⟨hle, hmem, hmax⟩ := ih (max n (f a))
    rw [foldl_cons]
    refine ⟨(le_max_left n (f a)).trans hle, fun b hb => ?_, ?_⟩
    · rcases List.mem_cons.mp hb with rfl | hb
      · exact (le_max_right n (f b)).trans hle
      · exact hmem b hb
    · rcases hmax with heq | ⟨b, hb, heq⟩
      · rw [heq]
        exact (max_choice n (f a)).imp id fun h => ⟨a, mem_cons_self, h.symm⟩
      · exact .inr ⟨b, mem_cons_of_mem a hb, heq⟩

theorem longestPartial_le_stopPrefixHoldback {s : Text} (hs : s ∈ stops) :
    Text.longestPartial text 0 s ≤ stopPrefixHoldback text stops :=
  (foldl_max_spec (Text.longestPartial text 0) stops 0).2.1 s hs

/-- Where a stop string starts that is not yet complete, the text is held back. -/
theorem length_sub_holdback_le (hno : ¬Occurs stops text) {more s : Text} (hs : s ∈ stops)
    (hpre : text <+: more)
    {i : ℕ} (h : s <+: more.drop i) : text.length - stopPrefixHoldback text stops ≤ i := by
  by_cases hi : text.length ≤ i
  · omega
  have hdrop : text.drop i <+: more.drop i := by
    obtain ⟨rest, rfl⟩ := hpre
    rw [drop_append_of_le_length (by omega)]
    exact prefix_append _ rest
  have hlen : (text.drop i).length = text.length - i := length_drop
  have hlt : (text.drop i).length < s.length := by
    by_contra hge
    have hpre' : s <+: text.drop i := prefix_of_prefix_length_le h hdrop (by omega)
    exact hno ⟨s, hs, Text.infix_of_prefix_drop hpre'⟩
  have htake : s.take (text.length - i) = text.drop i := by
    have hsub : text.drop i <+: s := prefix_of_prefix_length_le hdrop h hlt.le
    rw [← hlen]
    exact (List.prefix_iff_eq_take.mp hsub).symm
  have hpartial : text.length - i ≤ Text.longestPartial text 0 s := by
    apply Text.le_longestPartial
    · omega
    · omega
    · rw [htake]
      exact drop_suffix i text
  have hhold := @longestPartial_le_stopPrefixHoldback stops text s hs
  omega

theorem le_length_sub_holdback {e : ℕ} (he : e ≤ text.length)
    (h : ∀ s ∈ stops, ∀ i < e, ¬text.drop i <+: s) :
    e ≤ text.length - stopPrefixHoldback text stops := by
  have hhold : stopPrefixHoldback text stops ≤ text.length - e := by
    rcases (foldl_max_spec (Text.longestPartial text 0) stops 0).2.2 with hzero | ⟨s, hs, hmax⟩
    · exact hzero.le.trans (Nat.zero_le _)
    rw [stopPrefixHoldback, ← hmax]
    rcases Text.longestPartial_cases text s 0 with hzero | ⟨-, hlt, hle, hsuf⟩
    · omega
    · generalize Text.longestPartial text 0 s = k at hlt hle hsuf ⊢
      by_contra hgt
      have hdrop := List.suffix_iff_eq_drop.mp hsuf
      rw [length_take, min_eq_left hlt.le] at hdrop
      exact h s hs (text.length - k) (by omega) (hdrop ▸ take_prefix k s)
  omega

variable {bytes : Token → List UInt8} {ids : List Token}

/-- Text that is released before a stop string occurs is not behind the start of the earliest one.
-/
theorem releasedLength_le_earliestStop (rest : List Token)
    (hno : ¬Occurs stops (decodeIds bytes ids)) :
    releasedLength bytes stops ids ≤ earliestStop stops (decodeIds bytes (ids ++ rest)) := by
  have hpre : shown bytes ids <+: decodeIds bytes (ids ++ rest) := shown_prefix_append rest
  by_cases hoccurs : Occurs stops (decodeIds bytes (ids ++ rest))
  · obtain ⟨s, hs, hstart⟩ := startsWithStop_drop_earliestStop hoccurs
    have hshown : ¬Occurs stops (shown bytes ids) :=
      fun h => hno (h.of_infix shown_prefix_decodeIds.isInfix)
    exact length_sub_holdback_le hshown hs hpre hstart
  · rw [earliestStop_of_not_occurs hoccurs]
    exact (Nat.sub_le _ _).trans hpre.length_le

/-- Nothing of a stop string is sent before the last message, if none has occurred. -/
theorem sentLength_le_earliestStop (rest : List Token)
    (hno : ∀ l, l <+: ids → ¬Occurs stops (decodeIds bytes l)) :
    sentLength bytes stops ids ≤ earliestStop stops (decodeIds bytes (ids ++ rest)) := by
  induction ids using List.reverseRecOn generalizing rest with
  | nil =>
    rw [sentLength_nil]
    exact Nat.zero_le _
  | append_singleton ids t ih =>
    rw [sentLength_snoc]
    apply max_le
    · have hprev := ih ([t] ++ rest) fun l hl => hno l (hl.trans (prefix_append ids [t]))
      rwa [← append_assoc] at hprev
    · exact releasedLength_le_earliestStop rest (hno _ (prefix_refl _))

/-- An earlier token has let the text through up to `e`: no stop string could start before. -/
def LetThrough (bytes : Token → List UInt8) (stops : List Text) (ids : List Token) (e : ℕ) : Prop :=
  ∃ l, l <+: ids ∧ e ≤ (shown bytes l).length ∧ ∀ s ∈ stops, ∀ i < e, ¬(shown bytes l).drop i <+: s

theorem releasedLength_eq_iff {l : List Token} {e : ℕ}
    (hno : ¬Occurs stops (decodeIds bytes l)) (hle : releasedLength bytes stops l ≤ e) :
    releasedLength bytes stops l = e ↔
      e ≤ (shown bytes l).length ∧ ∀ s ∈ stops, ∀ i < e, ¬(shown bytes l).drop i <+: s := by
  have hshown : ¬Occurs stops (shown bytes l) :=
    fun h => hno (h.of_infix shown_prefix_decodeIds.isInfix)
  constructor
  · rintro rfl
    refine ⟨Nat.sub_le _ _, fun s hs i hi hpre => ?_⟩
    -- a text that goes on with the whole stop string
    have hlen : i ≤ (shown bytes l).length := hi.le.trans (Nat.sub_le _ _)
    have hmore : shown bytes l <+: (shown bytes l).take i ++ s := by
      obtain ⟨rest, hrest⟩ := hpre
      exact ⟨rest, by rw [← hrest, ← append_assoc, take_append_drop]⟩
    have hstart : s <+: ((shown bytes l).take i ++ s).drop i := by
      rw [drop_left' (by rw [length_take, min_eq_left hlen])]
    exact absurd (length_sub_holdback_le hshown hs hmore hstart) (Nat.not_le.mpr hi)
  · rintro ⟨hlen, hpart⟩
    exact le_antisymm hle (le_length_sub_holdback hlen hpart)

variable {rest : List Token}

/-- The text has been sent up to the earliest stop string if an earlier token has let it through. -/
theorem sentLength_eq_iff
    (hno : ∀ l, l <+: ids → ¬Occurs stops (decodeIds bytes l)) :
    sentLength bytes stops ids = earliestStop stops (decodeIds bytes (ids ++ rest)) ↔
      LetThrough bytes stops ids (earliestStop stops (decodeIds bytes (ids ++ rest))) := by
  have hle : ∀ l, l <+: ids →
      releasedLength bytes stops l ≤ earliestStop stops (decodeIds bytes (ids ++ rest)) := by
    rintro l hl
    obtain ⟨more, rfl⟩ := hl
    rw [append_assoc]
    exact releasedLength_le_earliestStop (more ++ rest) (hno l (prefix_append l more))
  have hsent := sentLength_le_earliestStop rest hno
  have hfold :
      sentLength bytes stops ids = ids.inits.foldl (fun n l => max n (releasedLength bytes stops l))
      0 :=
    foldl_map
  obtain ⟨-, hall, hmax⟩ := foldl_max_spec (releasedLength bytes stops) ids.inits 0
  rw [← hfold] at hall hmax
  constructor
  · intro heq
    rcases hmax with hzero | ⟨l, hl, hmax⟩
    · refine ⟨[], nil_prefix, ?_, fun s hs i hi => ?_⟩ <;> omega
    · have hpre : l <+: ids := (mem_inits l ids).mp hl
      exact ⟨l, hpre, (releasedLength_eq_iff (hno l hpre) (hle l hpre)).mp (hmax.trans heq)⟩
  · rintro ⟨l, hl, hthrough⟩
    rw [← releasedLength_eq_iff (hno l hl) (hle l hl)] at hthrough
    exact le_antisymm hsent (hthrough ▸ hall l ((mem_inits l ids).mpr hl))

/-! ### What a request gets -/

/-- Where the text of a request is cut that the stop string ends. -/
def cutAt (stop : Option Text) (text : Text) : ℕ :=
  match stop with
  | some s => (Text.find s text).getD text.length
  | none => text.length

namespace DecodeStatus

variable {decode : List Token → Text} {eosTokenIds : List Token} {msg : DetokenizeMsg}
  {msgs : List DetokenizeMsg}

theorem emitEnd_finished {outputStr : Text} (hfin : msg.finished)
    (hne : msg.matchedStop ≠ some []) :
    emitEnd msg outputStr = cutAt msg.matchedStop outputStr := by
  unfold emitEnd cutAt
  rw [if_pos hfin]
  cases hstop : msg.matchedStop with
  | none => rfl
  | some s =>
    have hs : s ≠ [] := fun h => hne (by rw [hstop, h])
    exact if_neg hs

/-- The status after messages none of which is the last. -/
def served (decode : List Token → Text) (eosTokenIds : List Token) (s : DecodeStatus)
    (msgs : List DetokenizeMsg) :
    DecodeStatus :=
  msgs.foldl (fun s msg => (s.advance decode eosTokenIds msg).1) s

theorem serve_snoc (s : DecodeStatus) (h : ∀ msg ∈ msgs, msg.finished = false) :
    s.serve decode eosTokenIds (msgs ++ [msg]) = s.serve decode eosTokenIds msgs ++
      ((s.served decode eosTokenIds msgs).advance decode eosTokenIds msg).2 := by
  induction msgs generalizing s with
  | nil =>
    show (s.advance decode eosTokenIds msg).2 ++ [] = [] ++ _
    rw [append_nil]
    rfl
  | cons m msgs ih =>
    have hm : m.finished = false := h m mem_cons_self
    have hrest := ih (s.advance decode eosTokenIds m).1 fun m' hm' => h m' (mem_cons_of_mem _ hm')
    rw [cons_append, serve, serve, hm, append_assoc]
    simp only [Bool.false_eq_true, ↓reduceIte]
    rw [hrest]
    rfl

end DecodeStatus

open DecodeStatus

/-- The tokens that messages bring, without an EOS at the end. -/
def seenTokens (eosTokenIds : List Token) (msgs : List DetokenizeMsg) : List Token :=
  msgs.foldl (pushed eosTokenIds) []

theorem seenTokens_snoc (eosTokenIds : List Token) (msgs : List DetokenizeMsg)
    (msg : DetokenizeMsg) :
    seenTokens eosTokenIds (msgs ++ [msg]) = pushed eosTokenIds (seenTokens eosTokenIds msgs)
      msg := by
  rw [seenTokens, foldl_append]
  rfl

variable {msgs : List DetokenizeMsg}

theorem seenTokens_unfinished {eosTokenIds : List Token}
    (h : ∀ msg ∈ msgs, msg.finished = false) :
    seenTokens eosTokenIds msgs = msgs.map (·.nextToken) := by
  induction msgs using List.reverseRecOn with
  | nil => rfl
  | append_singleton msgs msg ih =>
    have hmsg : msg.finished = false := h msg (by simp)
    have hmsgs := ih fun m hm => h m (mem_append_left _ hm)
    rw [seenTokens_snoc, hmsgs, pushed, hmsg]
    simp

/-- The text that a request has got for its messages is the text before the earliest stop string,
all of it once the request has finished; and it has been finished by a stop string exactly if one
occurs. -/
structure StopsHold (bytes : Token → List UInt8) (eosTokenIds : List Token) (stops : List Text)
    (msgs : List DetokenizeMsg) (text : Text) : Prop where
  text_prefix : text <+: beforeStop stops (decodeIds bytes (seenTokens eosTokenIds msgs))
  text_eq : (∃ msg ∈ msgs, msg.finished) →
    text = beforeStop stops (decodeIds bytes (seenTokens eosTokenIds msgs))
  matched : (∃ msg ∈ msgs, msg.matchedStop.isSome) ↔
    Occurs stops (decodeIds bytes (seenTokens eosTokenIds msgs))

section

variable (bytes : Token → List UInt8) (eosTokenIds : List Token) (params : SamplingParams)

/-- The text of the last tokens when token `x` comes after `ids`, as many as the longest stop string
has characters and one more. -/
def lastText (ids : List Token) (x : ℕ × Token) : Text :=
  decodeIds bytes (stopWindow params (ids ++ [x.2]))

/-- The tokens of a request when token `x` comes after `ids`, without an EOS at the end: the request
ends if `x` is its EOS, if it has no room for more, or if a stop string occurs in the last text. -/
def seenWith (maxDeviceLen : ℕ) (ids : List Token) (x : ℕ × Token) : List Token :=
  if x.2 ∈ eosTokenIds ∧
    (hitsEos eosTokenIds params x.2 ∨ maxDeviceLen ≤ x.1 ∨
      Occurs params.stopStrs (lastText bytes params ids x)) then ids
  else ids ++ [x.2]

def seenText (maxDeviceLen : ℕ) (ids : List Token) (x : ℕ × Token) : Text :=
  decodeIds bytes (seenWith bytes eosTokenIds params maxDeviceLen ids x)

/-- The stop strings, the bytes of the tokens and the text are such that token `x` after `ids` is
answered rightly. -/
structure StopsAt (maxDeviceLen : ℕ) (ids : List Token) (x : ℕ × Token) : Prop where
  /-- A stop string occurs in the last text exactly if one occurs in the whole text. -/
  window : hitsEos eosTokenIds params x.2 = false →
    (Occurs params.stopStrs (lastText bytes params ids x) ↔
      Occurs params.stopStrs (seenText bytes eosTokenIds params maxDeviceLen ids x))
  /-- A text that ends without a stop string does not end within a character. -/
  whole : hitsEos eosTokenIds params x.2 ∨ maxDeviceLen ≤ x.1 →
    ¬Occurs params.stopStrs (seenText bytes eosTokenIds params maxDeviceLen ids x) →
    (seenText bytes eosTokenIds params maxDeviceLen ids x).getLast? ≠ some '\uFFFD'
  /-- The first stop string of the list that occurs in the last text starts where the earliest stop
  string of the text starts, within what is printable of the text; or it is not within that, which
  ends there, or before and an earlier token has let the text through. -/
  first : hitsEos eosTokenIds params x.2 = false → ∀ s,
    params.stopStrs.find? (fun s => s <:+: lastText bytes params ids x) = some s →
    let printable := shown bytes (seenWith bytes eosTokenIds params maxDeviceLen ids x)
    let earliest :=
      earliestStop params.stopStrs (seenText bytes eosTokenIds params maxDeviceLen ids x)
    s <+: printable.drop earliest ∨ ¬s <:+: printable ∧ printable.length ≤ earliest ∧
      (printable.length = earliest ∨ LetThrough bytes params.stopStrs ids earliest)

/-- What the scheduler and the detokenizer have to find for token `x` after `ids`. -/
structure CutsAt (maxDeviceLen : ℕ) (ids : List Token) (x : ℕ × Token) : Prop where
  window : hitsEos eosTokenIds params x.2 = false ∧
      Occurs params.stopStrs (decodeIds bytes (stopWindow params (ids ++ [x.2]))) ↔
    Occurs params.stopStrs (decodeIds bytes (seenWith bytes eosTokenIds params maxDeviceLen ids x))
  cut : endsWith (decodeIds bytes) eosTokenIds params maxDeviceLen x.1 ids x.2 →
    cutAt (matchedBy (decodeIds bytes) eosTokenIds params ids x.2)
        (shown bytes (seenWith bytes eosTokenIds params maxDeviceLen ids x)) ≤
      earliestStop params.stopStrs
        (decodeIds bytes (seenWith bytes eosTokenIds params maxDeviceLen ids x)) ∧
    (cutAt (matchedBy (decodeIds bytes) eosTokenIds params ids x.2)
        (shown bytes (seenWith bytes eosTokenIds params maxDeviceLen ids x)) =
      earliestStop params.stopStrs
        (decodeIds bytes (seenWith bytes eosTokenIds params maxDeviceLen ids x)) ∨
      sentLength bytes params.stopStrs ids = earliestStop params.stopStrs
        (decodeIds bytes (seenWith bytes eosTokenIds params maxDeviceLen ids x)))

end

variable {η : Type} {bytes : Token → List UInt8} {eosTokenIds : List Token}
  {params : SamplingParams} {req r : Req η} {steps : List (ℕ × Token)} {x : ℕ × Token}

theorem matchedBy_isSome {ids : List Token} {t : Token} :
    (matchedBy (decodeIds bytes) eosTokenIds params ids t).isSome ↔ hitsEos eosTokenIds params t =
    false ∧
      Occurs params.stopStrs (decodeIds bytes (stopWindow params (ids ++ [t]))) := by
  unfold matchedBy Occurs
  by_cases heos : hitsEos eosTokenIds params t
  · simp [heos]
  · simp [heos, List.find?_isSome]

theorem endsWith_iff {maxDeviceLen : ℕ} {ids : List Token} :
    endsWith (decodeIds bytes) eosTokenIds params maxDeviceLen x.1 ids x.2 ↔
      hitsEos eosTokenIds params x.2 ∨ maxDeviceLen ≤ x.1 ∨
        Occurs params.stopStrs (lastText bytes params ids x) := by
  rw [endsWith, Bool.or_eq_true, Bool.or_eq_true, decide_eq_true_eq, matchedBy_isSome]
  unfold lastText
  cases hitsEos eosTokenIds params x.2 <;> simp

theorem Fresh.pushed_replyAt (h : Fresh req) :
    pushed eosTokenIds (stepTokens steps)
      (replyAt (decodeIds bytes) eosTokenIds params req steps x) =
      seenWith bytes eosTokenIds params req.maxDeviceLen (stepTokens steps) x := by
  unfold pushed seenWith
  simp only [h.replyAt_finished, endsWith_iff, and_comm]
  rfl

variable {msg : DetokenizeMsg}

theorem emitEnd_unfinished (hfin : msg.finished = false)
    (hstops : msg.stopStrs = if stops = [] then none else some stops) :
    emitEnd msg (shown bytes ids) = releasedLength bytes stops ids := by
  unfold emitEnd releasedLength
  rw [hfin, hstops]
  by_cases hnil : stops = []
  · subst hnil
    rfl
  · rw [if_neg hnil]
    rfl

/-- A request that is running has got as much of its text as the stop strings let through. -/
theorem Fresh.shows (hfresh : Fresh req)
    (hreq : (replyTokens (decodeIds bytes) eosTokenIds params req steps).req = some r) :
    Shows bytes (stepTokens steps) (sentLength bytes params.stopStrs (stepTokens steps))
      (({} : DecodeStatus).served (decodeIds bytes) eosTokenIds
        (replyTokens (decodeIds bytes) eosTokenIds params req steps).msgs)
      (({} : DecodeStatus).serve (decodeIds bytes) eosTokenIds
        (replyTokens (decodeIds bytes) eosTokenIds params req steps).msgs) := by
  induction steps using List.reverseRecOn generalizing r with
  | nil =>
    have hzero : sentLength bytes params.stopStrs (stepTokens []) = 0 := sentLength_nil _
    rw [hzero]
    exact Shows.fresh bytes
  | append_singleton steps x ih =>
    cases hprev : (replyTokens (decodeIds bytes) eosTokenIds params req steps).req with
    | none =>
      rw [replyTokens_finished hprev, hprev] at hreq
      simp at hreq
    | some r' =>
      have hrun := running_of_req hfresh hprev
      rw [token_running hfresh hrun hprev] at hreq ⊢
      -- the last token of a reply leaves no request behind
      by_cases hlt : steps.length < req.outputLen
      · rw [if_pos hlt] at hreq ⊢
        have hfin :
          (replyAt (decodeIds bytes) eosTokenIds params req steps x).finished = false := by
          by_contra hne
          rw [Bool.not_eq_false] at hne
          simp [hne] at hreq
        have hadvance := (ih hprev).advance eosTokenIds
          (replyAt (decodeIds bytes) eosTokenIds params req steps x)
        have hpushed : pushed eosTokenIds (stepTokens steps)
            (replyAt (decodeIds bytes) eosTokenIds params req steps x) = stepTokens steps ++
              [x.2] := by
          rw [pushed, hfin]
          simp only [Bool.false_eq_true, false_and, ↓reduceIte]
          rfl
        rw [hpushed, emitEnd_unfinished hfin rfl, ← sentLength_snoc] at hadvance
        rw [serve_snoc _ hrun.unfinished, served, foldl_append, stepTokens_snoc]
        exact hadvance
      · simp [hlt] at hreq

theorem exists_mem_snoc {P : DetokenizeMsg → Prop}
    (h : ∀ m ∈ msgs, ¬P m) : (∃ m ∈ msgs ++ [msg], P m) ↔ P msg := by
  constructor
  · rintro ⟨m, hmem, hm⟩
    rcases List.mem_append.mp hmem with hmem | hmem
    · exact absurd hm (h m hmem)
    · rwa [← List.mem_singleton.mp hmem]
  · exact fun hm => ⟨msg, mem_append_right _ (mem_singleton_self _), hm⟩

/-! ### The condition on the tokens and the stop strings -/

theorem exists_seenWith (maxDeviceLen : ℕ) (ids : List Token) :
    ∃ rest, seenWith bytes eosTokenIds params maxDeviceLen ids x = ids ++ rest := by
  unfold seenWith
  split_ifs
  · exact ⟨[], (append_nil ids).symm⟩
  · exact ⟨[x.2], rfl⟩

/-- The whole text is sent at the end exactly if it does not end within a character. -/
theorem sent_whole_iff :
    (shown bytes (ids ++ rest)).length = (decodeIds bytes (ids ++ rest)).length ∨
        sentLength bytes stops ids = (decodeIds bytes (ids ++ rest)).length ↔
      (decodeIds bytes (ids ++ rest)).getLast? ≠ some '\uFFFD' := by
  constructor
  · intro h hlast
    have hne : decodeIds bytes (ids ++ rest) ≠ [] := by
      intro hnil
      rw [hnil] at hlast
      cases hlast
    -- a text that ends in a replacement character is settled without it
    have hsettled :
        (settled ((ids ++ rest).flatMap bytes)).length <
        (decodeIds bytes (ids ++ rest)).length := by
      have hdrop :
        settled ((ids ++ rest).flatMap bytes) = (decodeIds bytes (ids ++ rest)).dropLast :=
        if_pos hlast
      rw [hdrop, length_dropLast]
      exact Nat.sub_lt (List.length_pos_iff.mpr hne) Nat.one_pos
    -- and so is everything that has been released
    have hreleased :
        ∀ l, l <+: ids → releasedLength bytes stops l ≤
        (settled ((ids ++ rest).flatMap bytes)).length := by
      rintro l ⟨more, rfl⟩
      have hmono : shown bytes l <+: settled ((l ++ more ++ rest).flatMap bytes) := by
        rw [append_assoc, flatMap_append]
        exact shown_prefix_settled.trans (settled_mono _ _)
      exact (Nat.sub_le _ _).trans hmono.length_le
    have hshown := (@shown_prefix_settled bytes (ids ++ rest)).length_le
    have hfold :
        sentLength bytes stops ids = ids.inits.foldl
        (fun n l => max n (releasedLength bytes stops l)) 0 :=
      foldl_map
    rcases h with h | h
    · omega
    · rcases (foldl_max_spec (releasedLength bytes stops) ids.inits 0).2.2 with hzero |
        ⟨l, hl, hmax⟩
      · omega
      · have := hreleased l ((mem_inits l ids).mp hl)
        omega
  · exact fun hends => .inl (congrArg List.length (shown_eq hends))

/-- The text is cut in the right place exactly if the stop string is found there, or what is sent
ends there. -/
theorem cutAt_iff {s : Text} (hs : s ∈ stops)
    (hno : ∀ l, l <+: ids → ¬Occurs stops (decodeIds bytes l)) :
    cutAt (some s) (shown bytes (ids ++ rest)) ≤
      earliestStop stops (decodeIds bytes (ids ++ rest)) ∧
        (cutAt (some s) (shown bytes (ids ++ rest)) =
          earliestStop stops (decodeIds bytes (ids ++ rest)) ∨
          sentLength bytes stops ids = earliestStop stops (decodeIds bytes (ids ++ rest))) ↔
      s <+: (shown bytes (ids ++ rest)).drop (earliestStop stops (decodeIds bytes (ids ++ rest))) ∨
        ¬s <:+: shown bytes (ids ++ rest) ∧
          (shown bytes (ids ++ rest)).length ≤ earliestStop stops (decodeIds bytes (ids ++ rest)) ∧
          ((shown bytes (ids ++ rest)).length = earliestStop stops (decodeIds bytes (ids ++ rest)) ∨
            LetThrough bytes stops ids (earliestStop stops (decodeIds bytes (ids ++ rest)))) := by
  rw [← sentLength_eq_iff hno]
  have hpre : shown bytes (ids ++ rest) <+: decodeIds bytes (ids ++ rest) := shown_prefix_decodeIds
  -- `partition` cuts where the shown text has the string first, or not at all
  cases hfind : Text.find s (shown bytes (ids ++ rest)) with
  | none =>
    have hnot := Text.find_eq_none.mp hfind
    have hdrop :
        ¬s <+: (shown bytes (ids ++ rest)).drop
        (earliestStop stops (decodeIds bytes (ids ++ rest))) :=
      fun h => hnot (Text.infix_of_prefix_drop h)
    simp only [cutAt, hfind, Option.getD_none, hdrop, hnot, not_false_eq_true, true_and, false_or]
  | some i =>
    have hin : s <:+: shown bytes (ids ++ rest) := Text.find_isSome.mp (by rw [hfind]; rfl)
    have hle : earliestStop stops (decodeIds bytes (ids ++ rest)) ≤ i := by
      have hi := Text.find_le_length hfind
      refine earliestStop_le hs (hi.trans hpre.length_le) ?_
      obtain ⟨more, hmore⟩ := hpre
      rw [← hmore, drop_append_of_le_length hi]
      exact (Text.find_eq_some hfind).1.trans (prefix_append _ _)
    simp only [cutAt, hfind, Option.getD_some, hin, not_true_eq_false, false_and, or_false]
    constructor
    · rintro ⟨hge, -⟩
      rw [le_antisymm hle hge]
      exact (Text.find_eq_some hfind).1
    · intro hstart
      obtain ⟨j, hj, hfind'⟩ := Text.find_le hstart
      obtain rfl : i = j := Option.some.inj (hfind.symm.trans hfind')
      exact ⟨hj, .inl (le_antisymm hj hle)⟩

/-- **The condition is one on the inputs**, as long as no stop string has occurred. -/
theorem cutsAt_iff {maxDeviceLen : ℕ}
    (hno : ∀ l, l <+: ids → ¬Occurs params.stopStrs (decodeIds bytes l)) :
    CutsAt bytes eosTokenIds params maxDeviceLen ids x ↔
      StopsAt bytes eosTokenIds params maxDeviceLen ids x := by
  have hends := @endsWith_iff bytes eosTokenIds params x maxDeviceLen ids
  have hmatched := @matchedBy_isSome bytes eosTokenIds params ids x.2
  -- an end token is not in the text that is searched
  have heosSeen : hitsEos eosTokenIds params x.2 = true →
      ¬Occurs params.stopStrs (seenText bytes eosTokenIds params maxDeviceLen ids x) := by
    intro heos
    have hmem : x.2 ∈ eosTokenIds := by
      rw [hitsEos, Bool.and_eq_true, decide_eq_true_eq] at heos
      exact heos.2
    rw [seenText, seenWith, if_pos ⟨hmem, .inl heos⟩]
    exact hno ids (prefix_refl ids)
  have hfound : hitsEos eosTokenIds params x.2 = false →
      matchedBy (decodeIds bytes) eosTokenIds params ids x.2 =
        params.stopStrs.find? (fun s => s <:+: lastText bytes params ids x) := by
    intro heos
    rw [matchedBy, heos]
    rfl
  obtain ⟨rest, hrest⟩ := @exists_seenWith bytes eosTokenIds params x maxDeviceLen ids
  -- without a stop string the earliest stop is the end of the text
  have hlength : ¬Occurs params.stopStrs (seenText bytes eosTokenIds params maxDeviceLen ids x) →
      earliestStop params.stopStrs (decodeIds bytes (ids ++ rest)) =
        (decodeIds bytes (ids ++ rest)).length := by
    intro hnot
    rw [seenText, hrest] at hnot
    exact earliestStop_of_not_occurs hnot
  constructor
  · rintro ⟨hwindow, hcut⟩
    rw [← hmatched] at hwindow
    refine ⟨fun heos => ?_, fun hend hnot => ?_, fun heos s hs => ?_⟩
    · rw [hmatched] at hwindow
      simpa [heos, lastText, seenText] using hwindow
    -- the reply ends and nothing is cut off
    · have hnone : matchedBy (decodeIds bytes) eosTokenIds params ids x.2 = none :=
        Option.not_isSome_iff_eq_none.mp fun h => hnot (hwindow.mp h)
      obtain ⟨-, hcut⟩ := hcut (hends.mpr (hend.imp id .inl))
      rw [hnone, hrest, hlength hnot] at hcut
      rw [seenText, hrest]
      exact sent_whole_iff.mp hcut
    · have hsome : matchedBy (decodeIds bytes) eosTokenIds params ids x.2 = some s :=
        (hfound heos).trans hs
      have hoccurs := (hmatched.mp (by rw [hsome]; rfl)).2
      have hcut := hcut (hends.mpr (.inr (.inr hoccurs)))
      rw [hsome, hrest] at hcut
      simp only [seenText, hrest]
      exact (cutAt_iff (mem_of_find?_eq_some hs) hno).mp hcut
  · rintro ⟨hwindow, hwhole, hfirst⟩
    have hiff :
        hitsEos eosTokenIds params x.2 = false ∧
        Occurs params.stopStrs (lastText bytes params ids x) ↔
        Occurs params.stopStrs (seenText bytes eosTokenIds params maxDeviceLen ids x) := by
      cases heos : hitsEos eosTokenIds params x.2 with
      | true => simp [heosSeen heos]
      | false => simp [hwindow heos]
    refine ⟨hiff, fun hend => ?_⟩
    -- the two conditions on what is sent are for an unmatched end and for a match
    cases hsome : matchedBy (decodeIds bytes) eosTokenIds params ids x.2 with
    | none =>
      have hnot :
        ¬Occurs params.stopStrs (seenText bytes eosTokenIds params maxDeviceLen ids x) := by
        intro h
        have := hmatched.mpr (hiff.mpr h)
        rw [hsome] at this
        cases this
      have hroom : hitsEos eosTokenIds params x.2 ∨ maxDeviceLen ≤ x.1 := by
        rcases hends.mp hend with heos | hroom | hoccurs
        · exact .inl heos
        · exact .inr hroom
        · cases heos : hitsEos eosTokenIds params x.2 with
          | true => exact .inl rfl
          | false => exact absurd (hiff.mp ⟨heos, hoccurs⟩) hnot
      have hlast := hwhole hroom hnot
      rw [seenText, hrest] at hlast
      rw [hrest, hlength hnot]
      exact ⟨shown_prefix_decodeIds.length_le, sent_whole_iff.mpr hlast⟩
    | some s =>
      obtain ⟨heos, -⟩ := hmatched.mp (by rw [hsome]; rfl)
      have hs := (hfound heos).symm.trans hsome
      have hfirst := hfirst heos s hs
      simp only [seenText, hrest] at hfirst
      rw [hrest]
      exact (cutAt_iff (mem_of_find?_eq_some hs) hno).mpr hfirst

/-- The text of a token for a request that is running, with no stop string so far: it is right if
and only if the window and the cut are. -/
theorem Fresh.stopsHold_iff (hfresh : Fresh req) (hne : [] ∉ params.stopStrs)
    (hreq : (replyTokens (decodeIds bytes) eosTokenIds params req steps).req = some r)
    (hlt : steps.length < req.outputLen)
    (hno : ∀ l, l <+: stepTokens steps → ¬Occurs params.stopStrs (decodeIds bytes l)) :
    StopsHold bytes eosTokenIds params.stopStrs
        (replyTokens (decodeIds bytes) eosTokenIds params req (steps ++ [x])).msgs
        (({} : DecodeStatus).serve (decodeIds bytes) eosTokenIds
          (replyTokens (decodeIds bytes) eosTokenIds params req (steps ++ [x])).msgs) ↔
      CutsAt bytes eosTokenIds params req.maxDeviceLen (stepTokens steps) x := by
  have hrun := running_of_req hfresh hreq
  have hshows := (hfresh.shows hreq).advance eosTokenIds
    (replyAt (decodeIds bytes) eosTokenIds params req steps x)
  have hseen :
      seenTokens eosTokenIds (replyTokens (decodeIds bytes) eosTokenIds params req steps).msgs =
      stepTokens steps := by
    rw [seenTokens_unfinished hrun.unfinished, hrun.nextToken]
  have hfinished : (∃ msg ∈ (replyTokens (decodeIds bytes) eosTokenIds params req steps).msgs ++
      [replyAt (decodeIds bytes) eosTokenIds params req steps x], msg.finished) ↔
      endsWith (decodeIds bytes) eosTokenIds params req.maxDeviceLen x.1 (stepTokens steps)
        x.2 := by
    rw [← hfresh.replyAt_finished]
    apply exists_mem_snoc
    intro msg hmem
    rw [hrun.unfinished msg hmem]
    exact Bool.false_ne_true
  have hmatched : (∃ msg ∈ (replyTokens (decodeIds bytes) eosTokenIds params req steps).msgs ++
      [replyAt (decodeIds bytes) eosTokenIds params req steps x], msg.matchedStop.isSome) ↔
      (matchedBy (decodeIds bytes) eosTokenIds params (stepTokens steps) x.2).isSome := by
    rw [← hfresh.replyAt_matchedStop]
    apply exists_mem_snoc
    intro msg hmem
    rw [hrun.unmatched msg hmem]
    exact Bool.false_ne_true
  rw [token_running hfresh hrun hreq, if_pos hlt]
  simp only
  rw [serve_snoc _ hrun.unfinished]
  rw [hfresh.pushed_replyAt] at hshows
  generalize hD : seenWith bytes eosTokenIds params req.maxDeviceLen (stepTokens steps) x =
    ids at hshows
  have hids :
      seenTokens eosTokenIds ((replyTokens (decodeIds bytes) eosTokenIds params req steps).msgs ++
      [replyAt (decodeIds bytes) eosTokenIds params req steps x]) = ids := by
    rw [seenTokens_snoc, hseen, hfresh.pushed_replyAt, hD]
  have hlength := hshows.length_sent
  have htext := hshows.sent_prefix
  generalize ({} : DecodeStatus).serve (decodeIds bytes) eosTokenIds
      (replyTokens (decodeIds bytes) eosTokenIds params req steps).msgs ++
    ((({} : DecodeStatus).served (decodeIds bytes) eosTokenIds
      (replyTokens (decodeIds bytes) eosTokenIds params req steps).msgs).advance (decodeIds bytes)
        eosTokenIds
        (replyAt (decodeIds bytes) eosTokenIds params req steps x)).2 = text at hlength htext
  -- what was let through before is before any stop string, so the cut can still be made
  have hsent : sentLength bytes params.stopStrs (stepTokens steps) ≤
      earliestStop params.stopStrs (decodeIds bytes ids) := by
    rw [← hD, seenWith]
    split_ifs
    · have hle := sentLength_le_earliestStop [] hno
      rwa [append_nil] at hle
    · exact sentLength_le_earliestStop [x.2] hno
  have hearliest := @earliestStop_le_length params.stopStrs (decodeIds bytes ids)
  by_cases hends : endsWith (decodeIds bytes) eosTokenIds params req.maxDeviceLen x.1
    (stepTokens steps) x.2
  · -- the last message: the text is cut
    have hfin : (replyAt (decodeIds bytes) eosTokenIds params req steps x).finished := by
      rwa [hfresh.replyAt_finished]
    have hstop :
      (replyAt (decodeIds bytes) eosTokenIds params req steps x).matchedStop ≠ some [] := by
      rw [hfresh.replyAt_matchedStop, matchedBy]
      split_ifs
      · simp
      · exact fun h => hne (mem_of_find?_eq_some h)
    rw [emitEnd_finished hfin hstop, hfresh.replyAt_matchedStop] at hlength
    have hiff : text = beforeStop params.stopStrs (decodeIds bytes ids) ↔
        text.length = earliestStop params.stopStrs (decodeIds bytes ids) := by
      constructor
      · intro h
        rw [h, beforeStop, length_take]
        omega
      · intro h
        rw [beforeStop, ← h]
        exact List.prefix_iff_eq_take.mp htext
    constructor
    · intro h
      refine ⟨?_, fun _ => ?_⟩
      · rw [← matchedBy_isSome, ← hmatched, h.matched, hids, hD]
      · have heq := hiff.mp (hids ▸ h.text_eq (hfinished.mpr hends))
        rw [hD]
        omega
    · intro h
      have hcut := h.cut hends
      rw [hD] at hcut
      have heq : text = beforeStop params.stopStrs (decodeIds bytes ids) := by
        apply hiff.mpr
        omega
      refine ⟨?_, fun _ => ?_, ?_⟩
      · rw [hids, ← heq]
      · rw [hids, heq]
      · rw [hmatched, matchedBy_isSome, h.window, hids, hD]
  · -- another message: what it lets through is before any stop string
    constructor
    · intro h
      refine ⟨?_, fun hends' => absurd hends' hends⟩
      rw [← matchedBy_isSome, ← hmatched, h.matched, hids, hD]
    · intro h
      have hwindow := h.window
      rw [hD, ← matchedBy_isSome] at hwindow
      have hnone :
        ¬(matchedBy (decodeIds bytes) eosTokenIds params (stepTokens steps) x.2).isSome := by
        intro hsome
        apply hends
        rw [endsWith, hsome, Bool.or_true]
      refine ⟨?_, fun hfin => absurd (hfinished.mp hfin) hends, ?_⟩
      · rw [hids, beforeStop_of_not_occurs (fun ho => hnone (hwindow.mpr ho))]
        exact htext
      · rw [hmatched, hwindow, hids]

/-! ### Every run -/

open DetokenizeManager

/-- After the first tokens of a request, whatever the batches that carry its messages, it has got
what the stop strings ask for. -/
def StopsHoldAfter (bytes : Token → List UInt8) (eosTokenIds : List Token) (params : SamplingParams)
    (req : Req η) (steps : List (ℕ × Token)) : Prop :=
  ∀ (m : DecodeMap) (batches : List (List DetokenizeMsg)), (∀ batch ∈
    batches, (batch.map (·.uid)).Nodup) →
    m.lookup req.uid = none →
    batches.flatten.filter (·.uid = req.uid) =
      (replyTokens (decodeIds bytes) eosTokenIds params req steps).msgs →
    ∃ m' outs, replies (decodeIds bytes) eosTokenIds m batches = some (m', outs) ∧
      StopsHold bytes eosTokenIds params.stopStrs
        (replyTokens (decodeIds bytes) eosTokenIds params req steps).msgs (received req.uid outs)

/-- A request that starts afresh is served by itself. -/
theorem received_fresh {m : DecodeMap} {batches : List (List DetokenizeMsg)} {uid : ℕ}
    {msgs : List DetokenizeMsg}
    (hbatches : ∀ batch ∈ batches, (batch.map (·.uid)).Nodup) (hm : m.lookup uid = none)
    (hmsgs : batches.flatten.filter (·.uid = uid) = msgs) :
    ∃ m' outs, replies (decodeIds bytes) eosTokenIds m batches = some (m', outs) ∧
      received uid outs = ({} : DecodeStatus).serve (decodeIds bytes) eosTokenIds msgs := by
  obtain ⟨m', outs, hreplies, hserve⟩ :=
    replies_spec (decodeIds bytes) eosTokenIds m batches hbatches
  refine ⟨m', outs, hreplies, ?_⟩
  have hstatus : status m uid = {} := by rw [status, hm, Option.getD_none]
  rw [hserve, hstatus, hmsgs]

theorem Fresh.stopsHoldAfter_iff (hfresh : Fresh req) :
    StopsHoldAfter bytes eosTokenIds params req steps ↔
    StopsHold bytes eosTokenIds params.stopStrs
      (replyTokens (decodeIds bytes) eosTokenIds params req steps).msgs
      (({} : DecodeStatus).serve (decodeIds bytes) eosTokenIds
        (replyTokens (decodeIds bytes) eosTokenIds params req steps).msgs) := by
  constructor
  · intro h
    -- a batch for each message
    have huid := @replyTokens_uid _ (decodeIds bytes) eosTokenIds params req steps hfresh
    unfold StopsHoldAfter at h
    generalize (replyTokens (decodeIds bytes) eosTokenIds params req steps).msgs = msgs at huid h ⊢
    have hflatten : (msgs.map fun msg => [msg]).flatten = msgs := by
      rw [← flatMap_def, flatMap_singleton']
    have hbatches : ∀ batch ∈ msgs.map fun msg => [msg], (batch.map (·.uid)).Nodup := by
      intro batch hmem
      obtain ⟨msg, -, rfl⟩ := List.mem_map.mp hmem
      simp
    have hfilter : (msgs.map fun msg => [msg]).flatten.filter (·.uid = req.uid) = msgs := by
      rw [hflatten, filter_eq_self]
      intro msg hmem
      exact decide_eq_true (huid msg hmem)
    obtain ⟨m', outs, hreplies, hholds⟩ := h ∅ _ hbatches rfl hfilter
    obtain ⟨m'', outs', hreplies', hserve⟩ :=
      @received_fresh bytes eosTokenIds ∅ _ req.uid msgs hbatches rfl hfilter
    rw [hreplies', Option.some.injEq, Prod.mk.injEq] at hreplies
    rwa [← hreplies.2, hserve] at hholds
  · intro h m batches hbatches hm hmsgs
    obtain ⟨m', outs, hreplies, hserve⟩ := received_fresh hbatches hm hmsgs
    refine ⟨m', outs, hreplies, ?_⟩
    rwa [hserve]

/-- Before a request has finished, right replies mean that no stop string has occurred. -/
theorem Fresh.not_occurs (hfresh : Fresh req)
    (hreq : (replyTokens (decodeIds bytes) eosTokenIds params req steps).req = some r)
    (hholds : StopsHoldAfter bytes eosTokenIds params req steps) :
    ¬Occurs params.stopStrs (decodeIds bytes (stepTokens steps)) := by
  have hrun := running_of_req hfresh hreq
  have hmatched := (hfresh.stopsHoldAfter_iff.mp hholds).matched
  rw [seenTokens_unfinished hrun.unfinished, hrun.nextToken] at hmatched
  intro hoccurs
  obtain ⟨msg, hmem, hsome⟩ := hmatched.mpr hoccurs
  rw [hrun.unmatched msg hmem] at hsome
  simp at hsome

theorem req_of_prefix {pre : List (ℕ × Token)} (hpre : pre <+: steps)
    (hreq : (replyTokens (decodeIds bytes) eosTokenIds params req steps).req = some r) :
    ∃ r', (replyTokens (decodeIds bytes) eosTokenIds params req pre).req = some r' := by
  induction steps using List.reverseRecOn generalizing r with
  | nil =>
    rw [List.prefix_nil.mp hpre]
    exact ⟨r, hreq⟩
  | append_singleton steps x ih =>
    rcases List.prefix_concat_iff.mp hpre with rfl | hpre
    · exact ⟨r, hreq⟩
    · cases hprev : (replyTokens (decodeIds bytes) eosTokenIds params req steps).req with
      | none =>
        rw [replyTokens_finished hprev, hprev] at hreq
        simp at hreq
      | some r' => exact ih hpre hprev

/-- If the replies are right up to the tokens of a running request, then those for the next token
are right if and only if the window and the cut are. -/
theorem Fresh.stopsHoldAfter_snoc (hfresh : Fresh req) (hne : [] ∉ params.stopStrs)
    (hreq : (replyTokens (decodeIds bytes) eosTokenIds params req steps).req = some r)
    (hlt : steps.length < req.outputLen)
    (hholds : ∀ pre, pre <+: steps → StopsHoldAfter bytes eosTokenIds params req pre) :
    StopsHoldAfter bytes eosTokenIds params req (steps ++ [x]) ↔
      StopsAt bytes eosTokenIds params req.maxDeviceLen (stepTokens steps) x := by
  have hno : ∀ l, l <+: stepTokens steps → ¬Occurs params.stopStrs (decodeIds bytes l) := by
    intro l hl
    have htake : l = stepTokens (steps.take l.length) := by
      rw [stepTokens, map_take]
      exact List.prefix_iff_eq_take.mp hl
    obtain ⟨r', hreq'⟩ := req_of_prefix (List.take_prefix l.length steps) hreq
    rw [htake]
    exact hfresh.not_occurs hreq' (hholds _ (List.take_prefix _ _))
  rw [hfresh.stopsHoldAfter_iff, hfresh.stopsHold_iff hne hreq hlt hno, cutsAt_iff hno]

/-- **Stop strings never leak** if and only if, at every token that a request gets, the last tokens
tell what the whole text tells, the text does not end within a character, and of the stop strings in
it the first of the list starts where the earliest one does. -/
theorem stop_strings_iff (bytes : Token → List UInt8) (eosTokenIds : List Token)
    (params : SamplingParams)
    (req : Req η) (steps : List (ℕ × Token)) (hfresh : Fresh req) (hne : [] ∉ params.stopStrs) :
    (∀ pre, pre <+: steps → StopsHoldAfter bytes eosTokenIds params req pre) ↔
      ∀ pre x, pre ++ [x] <+: steps → pre.length < req.outputLen →
        (replyTokens (decodeIds bytes) eosTokenIds params req pre).req.isSome →
        StopsAt bytes eosTokenIds params req.maxDeviceLen (stepTokens pre) x := by
  constructor
  · intro h pre x hpre hlt hsome
    obtain ⟨r, hreq⟩ := Option.isSome_iff_exists.mp hsome
    have hall : ∀ pre', pre' <+: pre → StopsHoldAfter bytes eosTokenIds params req pre' :=
      fun pre' hpre' => h pre' (hpre'.trans ((prefix_append pre [x]).trans hpre))
    exact (hfresh.stopsHoldAfter_snoc hne hreq hlt hall).mp (h _ hpre)
  · intro h
    induction steps using List.reverseRecOn with
    | nil =>
      intro pre hpre
      rw [List.prefix_nil.mp hpre, hfresh.stopsHoldAfter_iff]
      refine ⟨List.nil_prefix, fun _ => rfl, ?_⟩
      constructor
      · rintro ⟨msg, hmem, -⟩
        exact absurd hmem not_mem_nil
      · rintro ⟨s, hs, hin⟩
        exact absurd (List.infix_nil.mp hin ▸ hs) hne
    | append_singleton steps x ih =>
      have hall := ih fun pre y hpre => h pre y (hpre.trans (prefix_append steps [x]))
      intro pre hpre
      rcases List.prefix_concat_iff.mp hpre with rfl | hpre
      · cases hreq : (replyTokens (decodeIds bytes) eosTokenIds params req steps).req with
        | none =>
          -- the request has finished
          have hholds := hall steps (prefix_refl _)
          rw [hfresh.stopsHoldAfter_iff] at hholds ⊢
          rwa [replyTokens_finished hreq]
        | some r =>
          by_cases hlt : steps.length < req.outputLen
          · apply (hfresh.stopsHoldAfter_snoc hne hreq hlt hall).mpr
            exact h steps x (prefix_refl _) hlt (Option.isSome_iff_exists.mpr ⟨r, hreq⟩)
          · -- it has all its tokens
            have hholds := hall steps (prefix_refl _)
            rw [hfresh.stopsHoldAfter_iff] at hholds ⊢
            rw [token_running hfresh (running_of_req hfresh hreq) hreq, if_neg hlt]
            exact hholds
      · exact hall pre hpre

/-- A request for eight tokens behind a prompt of one. -/
def shortReq : Req Unit where
  inputIds := [0]
  tableIdx := 0
  cachedLen := 0
  outputLen := 8
  uid := 5
  cacheHandle := ()
  deviceLen := 1
  maxDeviceLen := 9

theorem shortReq_fresh : Fresh shortReq := ⟨rfl, rfl⟩

def splitBytes (t : Token) : List UInt8 := if t = 7 then [0x61, 0x62] else [0x63, 0x64]

/-- A stop string in two tokens: the part of it in the first one is held back, and the text before
it is sent. -/
theorem stop_strings_hold_one :
    StopsHoldAfter splitBytes [] { stopStrs := ["bc".toList] } shortReq [(2, 7), (3, 8)] := by
  have hiff := stop_strings_iff splitBytes [] { stopStrs := ["bc".toList] } shortReq [(2, 7), (3, 8)]
    shortReq_fresh (by decide)
  refine hiff.mpr ?_ [(2, 7), (3, 8)] (prefix_refl _)
  intro pre x hpre _ _
  rcases List.prefix_concat_iff.mp (show pre ++ [x] <+: [(2, 7)] ++ [(3, 8)] from hpre) with h | h
  · -- the second token completes the stop string
    obtain ⟨rfl, hx⟩ := append_inj' h rfl
    obtain rfl := List.singleton_inj.mp hx
    refine ⟨by decide, by decide, fun _ s hs => .inl ?_⟩
    have hfind : [("bc".toList : Text)].find? (fun s =>
        s <:+: lastText splitBytes { stopStrs := ["bc".toList] } [7] (3, 8)) = some "bc".toList := by decide
    obtain rfl := Option.some.inj (hfind.symm.trans hs)
    decide
  · rcases List.prefix_concat_iff.mp (show pre ++ [x] <+: [] ++ [(2, 7)] from h) with h | h
    · obtain ⟨rfl, hx⟩ := append_inj' h rfl
      obtain rfl := List.singleton_inj.mp hx
      refine ⟨by decide, by decide, fun _ s hs => ?_⟩
      have hfind : [("bc".toList : Text)].find? (fun s =>
          s <:+: lastText splitBytes { stopStrs := ["bc".toList] } [] (2, 7)) = none := by decide
      cases hfind.symm.trans hs
    · simp at h

/-- A stop string of one character that takes three tokens is not found, and it is sent.  Of two
stop strings in one token, the one that is first in the list is found, and a part of the other is
sent. -/
theorem stop_strings_leak :
    ¬StopsHoldAfter (fun t => [UInt8.ofNat t]) [] { stopStrs := [['你']] } shortReq
      [(2, 228), (3, 189), (4, 160)] ∧
      ¬StopsHoldAfter (fun _ => [0x68, 0x65, 0x6C, 0x6C, 0x6F]) [] { stopStrs := ["lo".toList, "hel".toList] }
        shortReq [(2, 7)] := by
  rw [shortReq_fresh.stopsHoldAfter_iff, shortReq_fresh.stopsHoldAfter_iff]
  constructor
  · intro h
    exact absurd h.matched (by decide)
  · intro h
    exact absurd h.text_prefix (by decide)

end FreeToken
