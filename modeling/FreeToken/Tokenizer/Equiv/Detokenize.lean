import FreeToken.Lib.Utf8Lossy
import FreeToken.Tokenizer.Detokenize

/-!
# Correctness of the incremental detokenization

With a decoder that replaces what is no UTF-8, and without stop strings, what is sent for a request
is settled text of its tokens.  At the end it is the whole text, unless that ends in a replacement
character.
-/

namespace FreeToken

open List Utf8Lossy

/-- The decoder of a tokenizer whose tokens are bytes. -/
def decodeIds (bytes : Token → List UInt8) (ids : List Token) : Text := decode (ids.flatMap bytes)

/-! ### Printable text -/

theorem untilLastSpace_prefix {text rest : Text} {c : Char} (h : text.reverse = c :: rest)
    (hc : c ≠ ' ') :
    untilLastSpace text <+: text.dropLast := by
  have htext : text = rest.reverse ++ [c] := by simpa using congrArg List.reverse h
  have hdrop : untilLastSpace text = (rest.dropWhile (· ≠ ' ')).reverse := by
    simp [untilLastSpace, h, hc]
  rw [hdrop, htext, dropLast_concat, reverse_prefix]
  exact dropWhile_suffix _

/-- Of text that ends in a replacement character, only what is before it is printable. -/
theorem findPrintableText_prefix {text : Text} (h : text.getLast? = some '\uFFFD') :
    findPrintableText text <+: text.dropLast := by
  have hrev : ∃ rest, text.reverse = '\uFFFD' :: rest := by
    rw [getLast?_eq_head?_reverse] at h
    exact head?_eq_some_iff.mp h
  obtain ⟨rest, hrev⟩ := hrev
  have huntil := untilLastSpace_prefix hrev (by decide)
  unfold findPrintableText
  rw [hrev]
  have hnl : '\uFFFD' ≠ '\n' := by decide
  have hcjk : isChineseChar '\uFFFD' = false := by decide
  simp only [hnl, hcjk, Bool.false_eq_true, ↓reduceIte]
  split
  · split
    · exact prefix_refl _
    · exact huntil
  · exact huntil

@[simp]
theorem findPrintableText_nil : findPrintableText [] = [] := rfl

/-! ### One request -/

namespace DecodeStatus

variable {bytes : Token → List UInt8} {eosTokenIds : List Token} {s s' : DecodeStatus} {sent : Text}
  {msg : DetokenizeMsg} {outputStr : Text}

/-- The status of a request whose text so far is `sent`: the windows start between characters, and
what has been sent is settled. -/
structure Follows (bytes : Token → List UInt8) (s : DecodeStatus) (sent : Text) : Prop where
  surr_le : s.surrOffset ≤ s.readOffset
  read_le : s.readOffset ≤ s.decodedIds.length
  after_surr : after none ((s.decodedIds.take s.surrOffset).flatMap bytes) = none
  after_read : after none ((s.decodedIds.take s.readOffset).flatMap bytes) = none
  decodedStr : s.decodedStr = decodeIds bytes (s.decodedIds.take s.readOffset)
  getLast : s.decodedStr.getLast? ≠ some '\uFFFD'
  length_sent : sent.length = s.sentOffset
  sent_prefix : sent <+: settled (s.decodedIds.flatMap bytes)

theorem Follows.fresh (bytes : Token → List UInt8) : Follows bytes {} [] where
  surr_le := le_refl _
  read_le := le_refl _
  after_surr := rfl
  after_read := rfl
  decodedStr := rfl
  getLast := by simp
  length_sent := rfl
  sent_prefix := nil_prefix

theorem Follows.push (h : Follows bytes s sent) : Follows bytes (s.push eosTokenIds msg) sent := by
  unfold DecodeStatus.push
  split
  · exact h
  · have hread :
        (s.decodedIds ++ [msg.nextToken]).take s.readOffset = s.decodedIds.take s.readOffset :=
      take_append_of_le_length h.read_le
    have hsurr :
        (s.decodedIds ++ [msg.nextToken]).take s.surrOffset = s.decodedIds.take s.surrOffset :=
      take_append_of_le_length (h.surr_le.trans h.read_le)
    exact
      { surr_le := h.surr_le
        read_le := by simpa using h.read_le.trans (Nat.le_succ _)
        after_surr := by simpa only [hsurr] using h.after_surr
        after_read := by simpa only [hread] using h.after_read
        decodedStr := by simpa only [hread] using h.decodedStr
        getLast := h.getLast
        length_sent := h.length_sent
        sent_prefix := by
          rw [flatMap_append]
          exact h.sent_prefix.trans (settled_mono _ _) }

/-- The text of the ids that have not been read. -/
theorem Follows.newText (h : Follows bytes s sent) :
    (decodeIds bytes s.readIds).drop (decodeIds bytes s.surrIds).length =
      decodeIds bytes (s.decodedIds.drop s.readOffset) := by
  have hread : s.readIds = s.surrIds ++ s.decodedIds.drop s.readOffset := by
    rw [readIds, surrIds, ← take_append_drop s.readOffset s.decodedIds, drop_append_of_le_length]
    · simp
    · simpa using ⟨h.surr_le, h.surr_le.trans h.read_le⟩
  have hsplit : s.decodedIds.take s.readOffset = s.decodedIds.take s.surrOffset ++ s.surrIds := by
    have htake := take_append_drop s.surrOffset (s.decodedIds.take s.readOffset)
    rw [take_take, min_eq_left h.surr_le] at htake
    exact htake.symm
  have hclean : after none (s.surrIds.flatMap bytes) = none := by
    have hafter := h.after_read
    rwa [hsplit, flatMap_append, after_append, h.after_surr] at hafter
  rw [hread]
  simp only [decodeIds, flatMap_append]
  rw [decode_append_of_after hclean, drop_left]

theorem Follows.decode_eq (h : Follows bytes s sent) :
    decodeIds bytes s.decodedIds =
      s.decodedStr ++ decodeIds bytes (s.decodedIds.drop s.readOffset) := by
  rw [h.decodedStr]
  conv_lhs => rw [← take_append_drop s.readOffset s.decodedIds]
  simp only [decodeIds, flatMap_append]
  exact decode_append_of_after h.after_read _

/-- Reading the window: the text that may be shown is settled, and it is all the text unless that ends in a
replacement character. -/
theorem Follows.read (h : Follows bytes s sent)
    (hread : s.read (decodeIds bytes s.readIds) (decodeIds bytes s.surrIds) = (s', outputStr)) :
    Follows bytes s' sent ∧ s'.decodedIds = s.decodedIds ∧
      outputStr <+: settled (s.decodedIds.flatMap bytes) ∧
      ((decodeIds bytes s.decodedIds).getLast? ≠ some '\uFFFD' →
        outputStr = decodeIds bytes s.decodedIds) := by
  simp only [DecodeStatus.read, h.newText] at hread
  have hall := h.decode_eq
  generalize decodeIds bytes (s.decodedIds.drop s.readOffset) = newText at hall hread
  by_cases hnew : newText ≠ [] ∧ newText.getLast? ≠ some '\uFFFD'
  · -- the window is complete
    rw [if_pos hnew, Prod.mk.injEq] at hread
    obtain ⟨rfl, rfl⟩ := hread
    have hlast : (decodeIds bytes s.decodedIds).getLast? ≠ some '\uFFFD' := by
      rw [hall, getLast?_append_of_ne_nil _ hnew.1]
      exact hnew.2
    have hafter : after none (s.decodedIds.flatMap bytes) = none := after_eq_none hlast
    refine ⟨?_, rfl, ?_, fun _ => hall.symm⟩
    · exact
        { surr_le := h.read_le
          read_le := le_refl _
          after_surr := h.after_read
          after_read := by simpa using hafter
          decodedStr := by simpa using hall.symm
          getLast := by rwa [← hall]
          length_sent := h.length_sent
          sent_prefix := h.sent_prefix }
    · rw [← hall, decodeIds, settled_eq_decode hlast]
  · rw [if_neg hnew, Prod.mk.injEq] at hread
    obtain ⟨rfl, rfl⟩ := hread
    refine ⟨h, rfl, ?_⟩
    by_cases hnil : newText = []
    · -- nothing is new
      subst hnil
      rw [append_nil] at hall
      rw [findPrintableText_nil, append_nil, ← hall]
      have hlast : (decodeIds bytes s.decodedIds).getLast? ≠ some '\uFFFD' := by
        rw [hall]
        exact h.getLast
      refine ⟨?_, fun _ => rfl⟩
      rw [settled_eq_decode hlast]
      exact prefix_refl _
    · -- the end of the window is held back
      have hlast : newText.getLast? = some '\uFFFD' := by
        by_contra hne
        exact hnew ⟨hnil, hne⟩
      have hlast' : (decodeIds bytes s.decodedIds).getLast? = some '\uFFFD' := by
        rw [hall, getLast?_append_of_ne_nil _ hnil]
        exact hlast
      refine ⟨?_, fun hne => absurd hlast' hne⟩
      have hsettled : settled (s.decodedIds.flatMap bytes) = s.decodedStr ++ newText.dropLast := by
        have hdrop :
          settled (s.decodedIds.flatMap bytes) = (decodeIds bytes s.decodedIds).dropLast :=
          if_pos hlast'
        rw [hdrop, hall, dropLast_append_of_ne_nil hnil]
      rw [hsettled, prefix_append_right_inj]
      exact findPrintableText_prefix hlast

/-- Sending: the text so far is the longer one of what has been sent and what may be shown. -/
theorem Follows.send (h : Follows bytes s sent) (hstop : msg.matchedStop = none)
    (hstops : msg.stopStrs = none) (hout : outputStr <+: settled (s.decodedIds.flatMap bytes)) :
    Follows bytes (s.send msg outputStr).1 (sent ++ (s.send msg outputStr).2) ∧
      outputStr <+: sent ++ (s.send msg outputStr).2 := by
  have hend : emitEnd msg outputStr = outputStr.length := by simp [emitEnd, hstop, hstops]
  have hs : ∀ t : Text, t <+: settled (s.decodedIds.flatMap bytes) →
      t.length = max s.sentOffset outputStr.length → Follows bytes (s.send msg outputStr).1 t := by
    intro t ht hlen
    exact { h with length_sent := by simpa only [DecodeStatus.send, hend] using hlen, sent_prefix :=
      ht }
  have hlen := h.length_sent
  by_cases hlt : s.sentOffset < outputStr.length
  · have hpre : sent <+: outputStr := prefix_of_prefix_length_le h.sent_prefix hout (by omega)
    obtain ⟨rest, rfl⟩ := hpre
    have hsend : sent ++ (s.send msg (sent ++ rest)).2 = sent ++ rest := by
      simp only [DecodeStatus.send, hend, hlt, ↓reduceIte, take_length]
      rw [← hlen, drop_left]
    rw [hsend]
    refine ⟨hs _ hout ?_, prefix_refl _⟩
    omega
  · have hsend : sent ++ (s.send msg outputStr).2 = sent := by
      simp [DecodeStatus.send, hend, hlt]
    rw [hsend]
    refine ⟨hs _ h.sent_prefix ?_, prefix_of_prefix_length_le hout h.sent_prefix ?_⟩
    · omega
    · omega

/-- A message for a request: the status keeps its invariant, and the text is complete unless it ends
in a replacement character. -/
theorem Follows.advance (eosTokenIds : List Token) (h : Follows bytes s sent)
    (hstop : msg.matchedStop = none) (hstops : msg.stopStrs = none) :
    Follows bytes (s.advance (decodeIds bytes) eosTokenIds msg).1
        (sent ++ (s.advance (decodeIds bytes) eosTokenIds msg).2) ∧
      (s.advance (decodeIds bytes) eosTokenIds msg).1.decodedIds =
      (s.push eosTokenIds msg).decodedIds ∧
      (sent ++ (s.advance (decodeIds bytes) eosTokenIds msg).2 =
          decodeIds bytes (s.push eosTokenIds msg).decodedIds ↔
        (decodeIds bytes (s.push eosTokenIds msg).decodedIds).getLast? ≠ some '\uFFFD') := by
  have hpush : Follows bytes (s.push eosTokenIds msg) sent := h.push
  unfold DecodeStatus.advance
  generalize s.push eosTokenIds msg = p at hpush ⊢
  rcases hr : p.read (decodeIds bytes p.readIds) (decodeIds bytes p.surrIds) with ⟨q, outputStr⟩
  obtain ⟨hq, hids, hout, hwhole⟩ := hpush.read hr
  rw [← hids] at hout hwhole
  obtain ⟨hfollows, hpre⟩ := hq.send hstop hstops hout
  simp only [hr]
  refine ⟨hfollows, hids, ?_⟩
  rw [← hids]
  constructor
  · intro heq hlast
    apply settled_ne_decode hlast
    have hle :
      (decodeIds bytes q.decodedIds).length ≤ (settled (q.decodedIds.flatMap bytes)).length := by
      rw [← heq]
      exact hfollows.sent_prefix.length_le
    exact (settled_prefix_decode _).eq_of_length_le hle
  · intro hlast
    have hge : decodeIds bytes q.decodedIds <+: sent ++ (q.send msg outputStr).2 :=
      hwhole hlast ▸ hpre
    have hle : sent ++ (q.send msg outputStr).2 <+: decodeIds bytes q.decodedIds :=
      hfollows.sent_prefix.trans (settled_prefix_decode _)
    exact hle.eq_of_length_le hge.length_le

/-- What a request gets for its messages, one after the other. -/
def serve (decode : List Token → Text) (eosTokenIds : List Token) :
    DecodeStatus → List DetokenizeMsg → Text
  | _, [] => []
  | s, msg :: msgs =>
    (s.advance decode eosTokenIds msg).2 ++
      serve decode eosTokenIds (if msg.finished then {} else (s.advance decode eosTokenIds msg).1)
        msgs

end DecodeStatus

/-! ### Batches -/

namespace DetokenizeManager

variable (decode : List Token → Text) (eosTokenIds : List Token)

def received (uid : ℕ) (outs : List (ℕ × Text)) : Text := (outs.filter (·.1 = uid)).flatMap (·.2)

theorem status_insert_ne {m : DecodeMap} {uid uid' : ℕ} (s : DecodeStatus) (h : uid' ≠ uid) :
    status (m.insert uid s) uid' = status m uid' := by
  rw [status, AList.lookup_insert_ne h, status]

/-- What the first loop leaves: the statuses of the batch have their tokens, and the windows are
theirs. -/
theorem collect_spec (m : DecodeMap) (msgs : List DetokenizeMsg) (h : (msgs.map (·.uid)).Nodup) :
    (collect eosTokenIds m msgs).2 = (msgs.map fun msg =>
        (((status m msg.uid).push eosTokenIds msg).readIds,
          ((status m msg.uid).push eosTokenIds msg).surrIds)) ∧
      (∀ msg ∈ msgs, (collect eosTokenIds m msgs).1.lookup msg.uid =
        some ((status m msg.uid).push eosTokenIds msg)) ∧
      ∀ uid ∉ msgs.map (·.uid), (collect eosTokenIds m msgs).1.lookup uid = m.lookup uid := by
  induction msgs generalizing m with
  | nil => simp [collect]
  | cons msg msgs ih =>
    rw [map_cons, nodup_cons] at h
    obtain ⟨hwindows, hmem, hother⟩ :=
      ih (m.insert msg.uid ((status m msg.uid).push eosTokenIds msg)) h.2
    have hne : ∀ msg' ∈ msgs, msg'.uid ≠ msg.uid := fun msg' hmem' heq =>
      h.1 (heq ▸ mem_map_of_mem hmem')
    have hstatus :
        ∀ msg' ∈ msgs, status (m.insert msg.uid ((status m msg.uid).push eosTokenIds msg))
        msg'.uid = status m msg'.uid := fun msg' hmem' => status_insert_ne _ (hne msg' hmem')
    refine ⟨?_, ?_, ?_⟩
    · show (_, _) :: (collect eosTokenIds _ msgs).2 = _
      rw [hwindows, map_cons]
      congr 1
      apply map_congr_left
      intro msg' hmem'
      rw [hstatus msg' hmem']
    · intro msg' hmem'
      show (collect eosTokenIds _ msgs).1.lookup msg'.uid = _
      rcases mem_cons.mp hmem' with rfl | hmem'
      · rw [hother _ h.1]
        exact AList.lookup_insert _
      · rw [hmem msg' hmem', hstatus msg' hmem']
    · intro uid huid
      rw [map_cons, mem_cons, not_or] at huid
      show (collect eosTokenIds _ msgs).1.lookup uid = _
      rw [hother uid huid.2]
      exact AList.lookup_insert_ne huid.1

theorem emit_spec (m : DecodeMap) (msgs : List DetokenizeMsg) (st : DetokenizeMsg → DecodeStatus)
    (texts : DetokenizeMsg → Text × Text) (h : (msgs.map (·.uid)).Nodup)
    (hst : ∀ msg ∈ msgs, m.lookup msg.uid = some (st msg)) :
    ∃ m', emit m (msgs.map fun msg => (msg, (texts msg).1, (texts msg).2)) =
        some (m', msgs.map fun msg =>
          (((st msg).read (texts msg).1 (texts msg).2).1.send msg
            ((st msg).read (texts msg).1 (texts msg).2).2).2) ∧
      (∀ msg ∈ msgs, m'.lookup msg.uid = if msg.finished then none else
        some (((st msg).read (texts msg).1 (texts msg).2).1.send msg
          ((st msg).read (texts msg).1 (texts msg).2).2).1) ∧
      ∀ uid ∉ msgs.map (·.uid), m'.lookup uid = m.lookup uid := by
  induction msgs generalizing m with
  | nil => exact ⟨m, rfl, by simp, by simp⟩
  | cons msg msgs ih =>
    rw [map_cons, nodup_cons] at h
    -- at most one message for a request: the others do not see its status
    have hne : ∀ msg' ∈ msgs, msg'.uid ≠ msg.uid := fun msg' hmem' heq =>
      h.1 (heq ▸ mem_map_of_mem hmem')
    generalize hsent : ((st msg).read (texts msg).1 (texts msg).2).1.send msg
      ((st msg).read (texts msg).1 (texts msg).2).2 = sent
    have hnext :
        ∀ uid, (if msg.finished then m.erase msg.uid else m.insert msg.uid sent.1).lookup uid =
        if uid = msg.uid then (if msg.finished then none else some sent.1) else m.lookup uid := by
      intro uid
      by_cases hf : msg.finished <;> by_cases hu : uid = msg.uid
      · subst hu
        simp only [hf, ↓reduceIte]
        exact AList.lookup_erase _ _
      · simp [hf, hu, AList.lookup_erase_ne hu]
      · subst hu
        simp only [hf, ↓reduceIte, Bool.false_eq_true]
        exact AList.lookup_insert _
      · simp [hf, hu, AList.lookup_insert_ne hu]
    obtain ⟨m', hemit, hmem, hother⟩ :=
      ih (if msg.finished then m.erase msg.uid else m.insert msg.uid sent.1) h.2 (by
        intro msg' hmem'
        rw [hnext, if_neg (hne msg' hmem')]
        exact hst msg' (mem_cons_of_mem _ hmem'))
    refine ⟨m', ?_, ?_, ?_⟩
    · simp only [map_cons, emit, hst msg mem_cons_self, Option.bind_eq_bind, Option.bind_some,
        hsent, hemit]
    · intro msg' hmem'
      rcases mem_cons.mp hmem' with rfl | hmem'
      · rw [hother _ h.1, hnext, if_pos rfl, hsent]
      · exact hmem msg' hmem'
    · intro uid huid
      rw [map_cons, mem_cons, not_or] at huid
      rw [hother uid huid.2, hnext, if_neg huid.1]

/-- A batch in which no request has two messages: each message advances its own request. -/
theorem detokenize_spec (m : DecodeMap) (msgs : List DetokenizeMsg) (h : (msgs.map (·.uid)).Nodup) :
    ∃ m', detokenize decode eosTokenIds m msgs =
        some (m', msgs.map fun msg => ((status m msg.uid).advance decode eosTokenIds msg).2) ∧
      (∀ msg ∈ msgs, m'.lookup msg.uid =
        if msg.finished then none else some ((status m msg.uid).advance decode eosTokenIds msg).1) ∧
      ∀ uid ∉ msgs.map (·.uid), m'.lookup uid = m.lookup uid := by
  obtain ⟨hwindows, hmem, hother⟩ := collect_spec eosTokenIds m msgs h
  obtain ⟨m', hemit, hmem', hother'⟩ := emit_spec (collect eosTokenIds m msgs).1 msgs
    (fun msg => (status m msg.uid).push eosTokenIds msg)
    (fun msg => (decode ((status m msg.uid).push eosTokenIds msg).readIds,
      decode ((status m msg.uid).push eosTokenIds msg).surrIds)) h hmem
  refine ⟨m', ?_, hmem', ?_⟩
  · have hzip : detokenize decode eosTokenIds m msgs = emit (collect eosTokenIds m msgs).1
        (msgs.map fun msg => (msg, decode ((status m msg.uid).push eosTokenIds msg).readIds,
          decode ((status m msg.uid).push eosTokenIds msg).surrIds)) := by
      have hcollect : detokenize decode eosTokenIds m msgs = emit (collect eosTokenIds m msgs).1
          (msgs.zip ((collect eosTokenIds m msgs).2.map fun w => (decode w.1, decode w.2))) := rfl
      rw [hcollect, hwindows, map_map, map_prod_left_eq_zip]
      rfl
    exact hzip.trans hemit
  · intro uid huid
    rw [hother' uid huid, hother uid huid]

theorem filter_uid {msgs : List DetokenizeMsg} (uid : ℕ) (h : (msgs.map (·.uid)).Nodup) :
    (uid ∉ msgs.map (·.uid) ∧ msgs.filter (·.uid = uid) = []) ∨
      ∃ msg ∈ msgs, msg.uid = uid ∧ msgs.filter (·.uid = uid) = [msg] := by
  induction msgs with
  | nil => simp
  | cons msg msgs ih =>
    rw [map_cons, nodup_cons] at h
    by_cases hu : msg.uid = uid
    · right
      refine ⟨msg, mem_cons_self, hu, ?_⟩
      have hrest : msgs.filter (·.uid = uid) = [] := by
        rw [filter_eq_nil_iff]
        intro msg' hmem heq
        apply h.1
        rw [hu, ← of_decide_eq_true heq]
        exact mem_map_of_mem hmem
      rw [filter_cons_of_pos (by simpa using hu), hrest]
    · rcases ih h.2 with ⟨hnot, hnil⟩ | ⟨msg', hmem, hu', hone⟩
      · left
        refine ⟨?_, ?_⟩
        · rw [map_cons, mem_cons, not_or]
          exact ⟨fun heq => hu heq.symm, hnot⟩
        · rw [filter_cons_of_neg (by simpa using hu), hnil]
      · right
        refine ⟨msg', mem_cons_of_mem _ hmem, hu', ?_⟩
        rw [filter_cons_of_neg (by simpa using hu), hone]

theorem received_append (uid : ℕ) (a b : List (ℕ × Text)) :
    received uid (a ++ b) = received uid a ++ received uid b := by
  simp [received]

theorem received_map (uid : ℕ) (msgs : List DetokenizeMsg) (f : DetokenizeMsg → Text) :
    received uid ((msgs.map (·.uid)).zip (msgs.map f)) = (msgs.filter (·.uid = uid)).flatMap f := by
  induction msgs with
  | nil => rfl
  | cons msg msgs ih =>
    by_cases hu : msg.uid = uid
    · simp only [received, map_cons, zip_cons_cons, filter_cons, hu, decide_true, ↓reduceIte,
        flatMap_cons] at ih ⊢
      rw [ih]
    · simp only [received, map_cons, zip_cons_cons, filter_cons, hu, decide_false,
        Bool.false_eq_true, ↓reduceIte] at ih ⊢
      exact ih

/-- Batch after batch, each request is served by itself.  A request that has finished starts afresh.
-/
theorem replies_spec (m : DecodeMap) (batches : List (List DetokenizeMsg))
    (h : ∀ msgs ∈ batches, (msgs.map (·.uid)).Nodup) :
    ∃ m' outs, replies decode eosTokenIds m batches = some (m', outs) ∧
      ∀ uid, received uid outs =
        (status m uid).serve decode eosTokenIds (batches.flatten.filter (·.uid = uid)) := by
  induction batches generalizing m with
  | nil => exact ⟨m, [], rfl, fun _ => rfl⟩
  | cons msgs batches ih =>
    have hnodup := h msgs mem_cons_self
    obtain ⟨m₁, hfirst, hmem, hother⟩ := detokenize_spec decode eosTokenIds m msgs hnodup
    obtain ⟨m₂, outs, hrest, hserve⟩ := ih m₁ fun msgs' hmem' => h msgs' (mem_cons_of_mem _ hmem')
    refine ⟨m₂, _, by simp [replies, hfirst, hrest]; rfl, ?_⟩
    intro uid
    rw [received_append, received_map, hserve, flatten_cons, filter_append]
    rcases filter_uid uid hnodup with ⟨hnot, hnil⟩ | ⟨msg, hin, rfl, hone⟩
    · rw [hnil, flatMap_nil, nil_append, nil_append, status, hother uid hnot, ← status]
    · have hstatus : status m₁ msg.uid =
          if msg.finished then {} else ((status m msg.uid).advance decode eosTokenIds msg).1 := by
        rw [status, hmem msg hin]
        split <;> rfl
      rw [hone, flatMap_singleton, hstatus]
      rfl

end DetokenizeManager

/-! ### The whole text of a request -/

open DetokenizeManager

/-- The tokens of a request, without an EOS at its end. -/
def generated (eosTokenIds : List Token) (msgs : List DetokenizeMsg) (last : DetokenizeMsg) :
    List Token :=
  msgs.map (·.nextToken) ++ if last.nextToken ∈ eosTokenIds then [] else [last.nextToken]

variable {bytes : Token → List UInt8}

/-- A request is served its whole text if and only if that does not end in a replacement character.
-/
theorem DecodeStatus.Follows.serve_iff (eosTokenIds : List Token) {s : DecodeStatus} {sent : Text}
    {msgs : List DetokenizeMsg} {last : DetokenizeMsg} (h : DecodeStatus.Follows bytes s sent)
    (hstops : ∀ msg ∈ msgs ++ [last], msg.matchedStop = none ∧ msg.stopStrs = none)
    (hmsgs : ∀ msg ∈ msgs, msg.finished = false) (hlast : last.finished) :
    sent ++ s.serve (decodeIds bytes) eosTokenIds (msgs ++ [last]) =
        decodeIds bytes (s.decodedIds ++ generated eosTokenIds msgs last) ↔
      (decodeIds bytes (s.decodedIds ++ generated eosTokenIds msgs last)).getLast? ≠
      some '\uFFFD' := by
  induction msgs generalizing s sent with
  | nil =>
    obtain ⟨hstop, hstops⟩ := hstops last (by simp)
    have hids :
      (s.push eosTokenIds last).decodedIds = s.decodedIds ++ generated eosTokenIds [] last := by
      by_cases he : last.nextToken ∈ eosTokenIds <;> simp [DecodeStatus.push, hlast, he, generated]
    have hiff := (h.advance eosTokenIds hstop hstops).2.2
    rw [hids] at hiff
    simpa [DecodeStatus.serve] using hiff
  | cons msg msgs ih =>
    obtain ⟨hstop, hstops'⟩ := hstops msg (by simp)
    have hnot : msg.finished = false := hmsgs msg mem_cons_self
    obtain ⟨hfollows, hids, -⟩ := h.advance eosTokenIds hstop hstops'
    have hpush : (s.push eosTokenIds msg).decodedIds = s.decodedIds ++ [msg.nextToken] := by
      simp [DecodeStatus.push, hnot]
    have hiff := ih hfollows (fun msg' hmem => hstops msg' (mem_cons_of_mem _ hmem))
      fun msg' hmem => hmsgs msg' (mem_cons_of_mem _ hmem)
    rw [hids, hpush] at hiff
    simpa [DecodeStatus.serve, hnot, generated] using hiff

/-- A request that starts afresh, among others in any batches: what it gets up to its last message
is the text of all its tokens if and only if that does not end in a replacement character. -/
theorem detokenize_lossless_iff (bytes : Token → List UInt8) (eosTokenIds : List Token)
    (m : DecodeMap) (batches : List (List DetokenizeMsg)) (uid : ℕ)
    (msgs : List DetokenizeMsg) (last : DetokenizeMsg)
    (hbatches : ∀ batch ∈ batches, (batch.map (·.uid)).Nodup) (hfresh : m.lookup uid = none)
    (hrequest : batches.flatten.filter (·.uid = uid) = msgs ++ [last])
    (hstops : ∀ msg ∈ msgs ++ [last], msg.matchedStop = none ∧ msg.stopStrs = none)
    (hmsgs : ∀ msg ∈ msgs, msg.finished = false) (hlast : last.finished) :
    ∃ m' outs, replies (decodeIds bytes) eosTokenIds m batches = some (m', outs) ∧
      (received uid outs = decodeIds bytes (generated eosTokenIds msgs last) ↔
        (decodeIds bytes (generated eosTokenIds msgs last)).getLast? ≠ some '\uFFFD') := by
  obtain ⟨m', outs, hreplies, hserve⟩ :=
    replies_spec (decodeIds bytes) eosTokenIds m batches hbatches
  refine ⟨m', outs, hreplies, ?_⟩
  have hstatus : status m uid = {} := by simp [status, hfresh]
  have hiff := (DecodeStatus.Follows.fresh bytes).serve_iff eosTokenIds hstops hmsgs hlast
  rw [hserve, hstatus, hrequest]
  simpa using hiff

/-- Two requests in the same batch: the first one gets its text, of which the EOS is no part. -/
theorem detokenize_lossless_two : ∃ m' outs,
    replies (decodeIds fun t => [UInt8.ofNat t]) [2] ∅
      [[⟨0, 72, false, none, none, none⟩, ⟨1, 33, false, none, none, none⟩],
        [⟨0, 105, false, none, none, none⟩], [⟨0, 2, true, none, none, none⟩]] = some (m', outs) ∧
      received 0 outs = "Hi".toList := by
  obtain ⟨m', outs, hreplies, hiff⟩ := detokenize_lossless_iff (fun t => [UInt8.ofNat t]) [2] ∅
    [[⟨0, 72, false, none, none, none⟩, ⟨1, 33, false, none, none, none⟩],
    [⟨0, 105, false, none, none, none⟩], [⟨0, 2, true, none, none, none⟩]] 0
    [⟨0, 72, false, none, none, none⟩, ⟨0, 105, false, none, none, none⟩]
    ⟨0, 2, true, none, none, none⟩ (by decide) rfl rfl (by decide) (by decide) rfl
  exact ⟨m', outs, hreplies, hiff.mpr (by decide)⟩

/-- A token that ends inside a character, at the end of a request: nothing of it is sent. -/
theorem detokenize_lossy_at_end : ∃ m' outs,
    replies (decodeIds fun _ => [0x61, 0x62, 0xF0]) [2] ∅ [[⟨0, 7, true, none, none, none⟩]] =
      some (m', outs) ∧
    received 0 outs ≠ decodeIds (fun _ => [0x61, 0x62, 0xF0])
      (generated [2] [] ⟨0, 7, true, none, none, none⟩) :=
  ⟨_, _, rfl, by decide⟩

end FreeToken
