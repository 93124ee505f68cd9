import FreeToken.Lib.HoldBack
import FreeToken.Tokenizer.Equiv.Detokenize
import FreeToken.Utils.Equiv.Text

/-!
# The text that may be shown

What the detokenizer may show of a request depends on the tokens alone, not on how its windows have
moved.
-/

namespace FreeToken

open List Utf8Lossy

variable {bytes : Token → List UInt8} {ids : List Token}

/-! ### The text of the tokens -/

/-- The text ends with a whole character. -/
def EndsWhole (bytes : Token → List UInt8) (ids : List Token) : Prop :=
  (decodeIds bytes ids).getLast? ≠ some '\uFFFD'

instance (bytes : Token → List UInt8) : DecidablePred (EndsWhole bytes) := fun ids =>
  inferInstanceAs (Decidable ((decodeIds bytes ids).getLast? ≠ some '\uFFFD'))

/-- The text up to the last token that ended it with a whole character. -/
def wholeText (bytes : Token → List UInt8) (ids : List Token) : Text :=
  decodeIds bytes (lastPrefix (EndsWhole bytes) ids)

/-- The text that may be shown of the tokens. -/
def shown (bytes : Token → List UInt8) (ids : List Token) : Text :=
  wholeText bytes ids ++ findPrintableText ((decodeIds bytes ids).drop (wholeText bytes ids).length)

theorem endsWhole_nil : EndsWhole bytes [] := by
  show ([] : Text).getLast? ≠ _
  simp

theorem EndsWhole.decodeIds_append (h : EndsWhole bytes ids) (rest : List Token) :
    decodeIds bytes (ids ++ rest) = decodeIds bytes ids ++ decodeIds bytes rest := by
  unfold decodeIds
  rw [flatMap_append]
  exact decode_append_of_after (after_eq_none h) _

theorem wholeText_eq (h : EndsWhole bytes ids) : wholeText bytes ids = decodeIds bytes ids := by
  rw [wholeText, lastPrefix_eq_self h]

theorem wholeText_snoc (t : Token) (h : ¬EndsWhole bytes (ids ++ [t])) :
    wholeText bytes (ids ++ [t]) = wholeText bytes ids := by
  rw [wholeText, lastPrefix_snoc, if_neg h, wholeText]

theorem wholeText_prefix : wholeText bytes ids <+: decodeIds bytes ids := by
  have hspec : EndsWhole bytes (lastPrefix (EndsWhole bytes) ids) := lastPrefix_spec endsWhole_nil
  have happend := hspec.decodeIds_append (ids.drop (lastPrefixLength (EndsWhole bytes) ids))
  rw [lastPrefix, take_append_drop] at happend
  rw [happend]
  exact prefix_append _ _

theorem shown_eq (h : EndsWhole bytes ids) : shown bytes ids = decodeIds bytes ids := by
  rw [shown, wholeText_eq h, drop_length, findPrintableText_nil, append_nil]

@[simp]
theorem shown_nil : shown bytes [] = [] := shown_eq endsWhole_nil

/-- Text that may be shown is there to stay. -/
theorem shown_prefix_settled : shown bytes ids <+: settled (ids.flatMap bytes) := by
  by_cases hends : EndsWhole bytes ids
  · rw [shown_eq hends, settled_eq_decode hends]
    exact prefix_refl _
  have hlast : (decodeIds bytes ids).getLast? = some '\uFFFD' := not_not.mp hends
  have hwhole : wholeText bytes ids <+: decodeIds bytes ids := wholeText_prefix
  obtain ⟨rest, hrest⟩ := hwhole
  have hne : rest ≠ [] := by
    rintro rfl
    rw [append_nil] at hrest
    have hspec : EndsWhole bytes (lastPrefix (EndsWhole bytes) ids) := lastPrefix_spec endsWhole_nil
    apply hspec
    show (wholeText bytes ids).getLast? = _
    rw [hrest]
    exact hlast
  have hlast' : rest.getLast? = some '\uFFFD' := by
    rwa [← hrest, List.getLast?_append_of_ne_nil _ hne] at hlast
  have hsettled : settled (ids.flatMap bytes) = wholeText bytes ids ++ rest.dropLast := by
    have hdrop : settled (ids.flatMap bytes) = (decodeIds bytes ids).dropLast := if_pos hlast
    rw [hdrop, ← hrest, dropLast_append_of_ne_nil hne]
  rw [hsettled, shown, ← hrest, drop_left, prefix_append_right_inj]
  exact findPrintableText_prefix hlast'

theorem shown_prefix_decodeIds : shown bytes ids <+: decodeIds bytes ids :=
  shown_prefix_settled.trans (settled_prefix_decode _)

theorem shown_prefix_append (rest : List Token) :
    shown bytes ids <+: decodeIds bytes (ids ++ rest) := by
  apply shown_prefix_settled.trans
  apply (settled_mono _ (rest.flatMap bytes)).trans
  rw [decodeIds, flatMap_append]
  exact settled_prefix_decode _

/-! ### How much of it has been sent -/

/-- How much of the text may be sent before the last message. -/
def releasedLength (bytes : Token → List UInt8) (stops : List Text) (ids : List Token) : ℕ :=
  (shown bytes ids).length - stopPrefixHoldback (shown bytes ids) stops

/-- How much of the text has been sent before the last message. -/
def sentLength (bytes : Token → List UInt8) (stops : List Text) (ids : List Token) : ℕ :=
  (ids.inits.map (releasedLength bytes stops)).foldl max 0

@[simp]
theorem sentLength_nil (stops : List Text) : sentLength bytes stops [] = 0 := by
  simp [sentLength, releasedLength]

theorem sentLength_snoc (stops : List Text) (t : Token) : sentLength bytes stops (ids ++ [t]) =
    max (sentLength bytes stops ids) (releasedLength bytes stops (ids ++ [t])) := by
  simp [sentLength, inits_append]

/-! ### One request -/

namespace DecodeStatus

variable {eosTokenIds : List Token} {s s' : DecodeStatus} {sent : Text} {msg : DetokenizeMsg}
  {outputStr : Text}

/-- Reading the window gives the text that may be shown. -/
theorem Follows.read_shown (h : Follows bytes s sent)
    (hwhole : ¬EndsWhole bytes s.decodedIds → s.decodedStr = wholeText bytes s.decodedIds)
    (hread : s.read (decodeIds bytes s.readIds) (decodeIds bytes s.surrIds) = (s', outputStr)) :
    outputStr = shown bytes s.decodedIds ∧ s'.decodedStr = wholeText bytes s.decodedIds ∧
      s'.sentOffset = s.sentOffset := by
  simp only [DecodeStatus.read, h.newText] at hread
  have hall := h.decode_eq
  generalize decodeIds bytes (s.decodedIds.drop s.readOffset) = newText at hall hread
  by_cases hnew : newText ≠ [] ∧ newText.getLast? ≠ some '\uFFFD'
  · rw [if_pos hnew, Prod.mk.injEq] at hread
    obtain ⟨rfl, rfl⟩ := hread
    have hends : EndsWhole bytes s.decodedIds := by
      rw [EndsWhole, hall, List.getLast?_append_of_ne_nil _ hnew.1]
      exact hnew.2
    rw [shown_eq hends, wholeText_eq hends, ← hall]
    exact ⟨rfl, rfl, rfl⟩
  · rw [if_neg hnew, Prod.mk.injEq] at hread
    obtain ⟨rfl, rfl⟩ := hread
    have hstr : s.decodedStr = wholeText bytes s.decodedIds := by
      by_cases hends : EndsWhole bytes s.decodedIds
      · -- the window is empty, or the text would end in a replacement character
        have hnil : newText = [] := by
          by_contra hne
          apply hnew
          refine ⟨hne, ?_⟩
          rwa [EndsWhole, hall, List.getLast?_append_of_ne_nil _ hne] at hends
        rw [wholeText_eq hends, hall, hnil, append_nil]
      · exact hwhole hends
    refine ⟨?_, hstr, rfl⟩
    rw [shown, ← hstr, hall, drop_left]

theorem emitEnd_le : emitEnd msg outputStr ≤ outputStr.length := by
  have hfind : ∀ stop, (Text.find stop outputStr).getD outputStr.length ≤ outputStr.length := by
    intro stop
    cases hs : Text.find stop outputStr with
    | none => exact le_rfl
    | some i => exact Text.find_le_length hs
  unfold emitEnd
  split_ifs
  · split
    · split_ifs
      · exact le_rfl
      · exact hfind _
    · exact le_rfl
  · split
    · exact Nat.sub_le _ _
    · exact le_rfl

theorem Follows.send_keeps (h : Follows bytes s sent)
    (hout : outputStr <+: settled (s.decodedIds.flatMap bytes)) :
    Follows bytes (s.send msg outputStr).1 (sent ++ (s.send msg outputStr).2) := by
  have hs : ∀ t : Text, t <+: settled (s.decodedIds.flatMap bytes) →
      t.length = max s.sentOffset (emitEnd msg outputStr) →
        Follows bytes (s.send msg outputStr).1 t := by
    intro t ht hlen
    exact { h with length_sent := hlen, sent_prefix := ht }
  have hlen := h.length_sent
  have hle := @emitEnd_le msg outputStr
  by_cases hlt : s.sentOffset < emitEnd msg outputStr
  · have hpre : sent <+: outputStr.take (emitEnd msg outputStr) := by
      apply prefix_of_prefix_length_le h.sent_prefix ((List.take_prefix _ _).trans hout)
      rw [length_take]
      omega
    obtain ⟨rest, hrest⟩ := hpre
    have hsend : sent ++ (s.send msg outputStr).2 = outputStr.take (emitEnd msg outputStr) := by
      simp only [DecodeStatus.send, hlt, ↓reduceIte]
      rw [← hrest, ← hlen, drop_left]
    rw [hsend]
    apply hs _ ((List.take_prefix _ _).trans hout)
    rw [length_take]
    omega
  · have hsend : sent ++ (s.send msg outputStr).2 = sent := by
      simp [DecodeStatus.send, hlt]
    rw [hsend]
    apply hs _ h.sent_prefix
    omega

/-- The status of a request whose tokens so far are `ids`, of which `n` characters have been sent.
-/
structure Shows (bytes : Token → List UInt8) (ids : List Token) (n : ℕ) (s : DecodeStatus)
    (sent : Text) : Prop where
  follows : Follows bytes s sent
  decodedIds : s.decodedIds = ids
  decodedStr : s.decodedStr = wholeText bytes ids
  sentOffset : s.sentOffset = n

theorem Shows.fresh (bytes : Token → List UInt8) : Shows bytes [] 0 {} [] where
  follows := Follows.fresh bytes
  decodedIds := rfl
  decodedStr := (wholeText_eq endsWhole_nil).symm
  sentOffset := rfl

variable {n : ℕ}

/-- What has been sent is the start of the settled text. -/
theorem Shows.length_sent (h : Shows bytes ids n s sent) : sent.length = n := by
  rw [h.follows.length_sent, h.sentOffset]

theorem Shows.sent_prefix (h : Shows bytes ids n s sent) : sent <+: decodeIds bytes ids := by
  have hsent := h.follows.sent_prefix
  rw [h.decodedIds] at hsent
  exact hsent.trans (settled_prefix_decode _)

def pushed (eosTokenIds ids : List Token) (msg : DetokenizeMsg) : List Token :=
  if msg.finished ∧ msg.nextToken ∈ eosTokenIds then ids else ids ++ [msg.nextToken]

/-- A message for a request: what has been sent is the longer one of what was sent before and what the message
lets through of the text that may be shown. -/
theorem Shows.advance (h : Shows bytes ids n s sent) (eosTokenIds : List Token)
    (msg : DetokenizeMsg) :
    Shows bytes (pushed eosTokenIds ids msg)
      (max n (emitEnd msg (shown bytes (pushed eosTokenIds ids msg))))
      (s.advance (decodeIds bytes) eosTokenIds msg).1
      (sent ++ (s.advance (decodeIds bytes) eosTokenIds msg).2) := by
  have hpush : Follows bytes (s.push eosTokenIds msg) sent := h.follows.push
  have hids : (s.push eosTokenIds msg).decodedIds = pushed eosTokenIds ids msg := by
    unfold DecodeStatus.push pushed
    rw [← h.decodedIds]
    split_ifs <;> rfl
  have hstr : (s.push eosTokenIds msg).decodedStr = wholeText bytes ids := by
    rw [← h.decodedStr]
    unfold DecodeStatus.push
    split_ifs <;> rfl
  have hoffset : (s.push eosTokenIds msg).sentOffset = n := by
    rw [← h.sentOffset]
    unfold DecodeStatus.push
    split_ifs <;> rfl
  -- an end token is pushed only when it is the last, and then the text is whole
  have hwhole : ¬EndsWhole bytes (s.push eosTokenIds msg).decodedIds →
      (s.push eosTokenIds msg).decodedStr =
        wholeText bytes (s.push eosTokenIds msg).decodedIds := by
    intro hends
    rw [hids] at hends ⊢
    rw [hstr]
    unfold pushed at hends ⊢
    split_ifs at hends ⊢
    · rfl
    · exact (wholeText_snoc _ hends).symm
  unfold DecodeStatus.advance
  generalize s.push eosTokenIds msg = p at hpush hids hoffset hwhole ⊢
  rcases hr : p.read (decodeIds bytes p.readIds) (decodeIds bytes p.surrIds) with ⟨q, outputStr⟩
  obtain ⟨hq, hqids, hout, -⟩ := hpush.read hr
  obtain ⟨hshown, hqstr, hqoffset⟩ := hpush.read_shown hwhole hr
  simp only [hr]
  rw [← hqids] at hout
  rw [hids] at hqids hshown hqstr
  subst hshown
  exact
    { follows := hq.send_keeps hout
      decodedIds := hqids
      decodedStr := hqstr
      sentOffset := by
        show max q.sentOffset _ = _
        rw [hqoffset, hoffset] }

end DecodeStatus

end FreeToken
