import FreeToken.Mm.EncoderCache

/-!
# Correctness of the encoder cache

`left c h uid` is what the request `uid` still has to gather of the image `h`.  Each operation is
specified by what it does to `left`; an entry exists exactly while something is left of its image
(`Wf.mem_entries`).
-/

namespace FreeToken

open List Option

namespace EncoderCache

variable {α : Type} {c c' : EncoderCache α} {h h' uid uid' rows : ℕ} {entry : EncoderEntry α}
  {remaining : AList fun _ : ℕ => ℕ}

/-- What a request still has to gather of an image. -/
def left (c : EncoderCache α) (h uid : ℕ) : ℕ :=
  match c.entries.lookup h with
  | some entry => (entry.remaining.lookup uid).getD 0
  | none => 0

theorem left_of_some (he : c.entries.lookup h = some entry) :
    c.left h uid = (entry.remaining.lookup uid).getD 0 := by
  rw [left, he]

theorem left_of_none (he : c.entries.lookup h = none) : c.left h uid = 0 := by
  rw [left, he]

theorem exists_entry (hl : 0 < c.left h uid) : ∃ entry, c.entries.lookup h = some entry := by
  cases he : c.entries.lookup h with
  | none => exact absurd (left_of_none he) (ne_of_gt hl)
  | some entry => exact ⟨entry, rfl⟩

/-- Every entry has a holder, and every holder has rows to gather. -/
def Wf (c : EncoderCache α) : Prop :=
  ∀ h entry, c.entries.lookup h = some entry →
    entry.remaining.entries ≠ [] ∧ ∀ uid n, entry.remaining.lookup uid = some n → 0 < n

/-- An entry exists exactly while some request has rows of it to gather. -/
theorem Wf.mem_entries (hc : c.Wf) : h ∈ c.entries ↔ ∃ uid, 0 < c.left h uid := by
  constructor
  · intro hmem
    obtain ⟨entry, he⟩ := isSome_iff_exists.mp (AList.lookup_isSome.mpr hmem)
    obtain ⟨hne, hpos⟩ := hc h entry he
    obtain ⟨⟨uid, n⟩, rest, hr⟩ := exists_cons_of_ne_nil hne
    have hn : entry.remaining.lookup uid = some n := by
      rw [← mem_def, AList.mem_lookup_iff, hr]
      exact mem_cons_self
    refine ⟨uid, ?_⟩
    rw [left_of_some he, hn]
    exact hpos uid n hn
  · rintro ⟨uid, hl⟩
    obtain ⟨entry, he⟩ := exists_entry hl
    exact AList.lookup_isSome.mp (he ▸ rfl)

/-! ### Changing the holders of an entry -/

theorem left_setRemaining : (c.setRemaining h entry remaining).left h' uid =
    if h' = h then (remaining.lookup uid).getD 0 else c.left h' uid := by
  unfold setRemaining
  by_cases hh : h' = h
  · subst hh
    rw [if_pos rfl]
    split_ifs with hempty
    · have hnone : remaining = ∅ := AList.ext hempty
      have hgone : (c.entries.erase h').lookup h' = none := AList.lookup_erase _ _
      rw [hnone, AList.lookup_empty]
      exact left_of_none hgone
    · have hput : (c.entries.insert h' { entry with remaining }).lookup h' =
          some { entry with remaining } := AList.lookup_insert _
      exact left_of_some hput
  · rw [if_neg hh]
    split_ifs with hempty <;> unfold left <;> dsimp only
    · rw [AList.lookup_erase_ne hh]
    · rw [AList.lookup_insert_ne hh]

theorem Wf.setRemaining (hc : c.Wf) (hpos : ∀ uid n, remaining.lookup uid = some n → 0 < n) :
    (c.setRemaining h entry remaining).Wf := by
  intro h' entry' he
  unfold EncoderCache.setRemaining at he
  by_cases hh : h' = h
  · subst hh
    split_ifs at he with hempty
    · rw [AList.lookup_erase] at he
      cases he
    · rw [AList.lookup_insert] at he
      obtain rfl := Option.some.inj he
      exact ⟨hempty, hpos⟩
  · split_ifs at he with hempty
    · rw [AList.lookup_erase_ne hh] at he
      exact hc h' entry' he
    · rw [AList.lookup_insert_ne hh] at he
      exact hc h' entry' he

/-- Changing the holders of an entry keeps the embeddings of the entries that remain. -/
theorem has_setRemaining (he : c.entries.lookup h = some entry)
    (hl : 0 < (c.setRemaining h entry remaining).left h' uid) :
    (c.setRemaining h entry remaining).has h' = c.has h' := by
  rw [left_setRemaining] at hl
  unfold setRemaining has
  by_cases hh : h' = h
  · subst hh
    rw [if_pos rfl] at hl
    split_ifs with hempty
    · rw [show remaining = ∅ from AList.ext hempty, AList.lookup_empty] at hl
      exact absurd hl (lt_irrefl 0)
    · rw [AList.lookup_insert, he]
  · split_ifs with hempty <;> dsimp only
    · rw [AList.lookup_erase_ne hh]
    · rw [AList.lookup_insert_ne hh]

/-! ### The operations -/

theorem register_spec (hc : c.Wf) : (c.register h uid rows).Wf ∧ ∀ h' uid',
    (c.register h uid rows).left h' uid' =
      c.left h' uid' + if h' = h ∧ uid' = uid then rows else 0 := by
  unfold register
  split_ifs with hrows
  · refine ⟨hc, fun h' uid' => ?_⟩
    rw [hrows, ite_self, Nat.add_zero]
  · -- the entry may be new
    obtain ⟨entry, he⟩ : ∃ entry, entry = (c.entries.lookup h).getD {} := ⟨_, rfl⟩
    have hleft : ∀ uid, c.left h uid = (entry.remaining.lookup uid).getD 0 := by
      intro uid
      cases hlook : c.entries.lookup h with
      | none =>
        rw [hlook, getD_none] at he
        rw [left_of_none hlook, he, AList.lookup_empty]
        rfl
      | some entry' =>
        rw [hlook, getD_some] at he
        rw [left_of_some hlook, he]
    have hpos : ∀ uid n, entry.remaining.lookup uid = some n → 0 < n := by
      cases hlook : c.entries.lookup h with
      | none =>
        rw [hlook, getD_none] at he
        intro uid n hn
        rw [he, AList.lookup_empty] at hn
        cases hn
      | some entry' =>
        rw [hlook, getD_some] at he
        exact he ▸ (hc h entry' hlook).2
    rw [← he]
    refine ⟨fun h' entry' he' => ?_, fun h' uid' => ?_⟩
    · by_cases hh : h' = h
      · subst hh
        rw [AList.lookup_insert] at he'
        obtain rfl := Option.some.inj he'
        refine ⟨?_, fun uid' n hn => ?_⟩
        · rw [AList.entries_insert]
          exact cons_ne_nil _ _
        · by_cases hu : uid' = uid
          · subst hu
            rw [AList.lookup_insert] at hn
            have := Option.some.inj hn
            omega
          · rw [AList.lookup_insert_ne hu] at hn
            exact hpos uid' n hn
      · rw [AList.lookup_insert_ne hh] at he'
        exact hc h' entry' he'
    · by_cases hh : h' = h
      · subst hh
        rw [hleft]
        unfold left
        rw [AList.lookup_insert]
        dsimp only
        by_cases hu : uid' = uid
        · subst hu
          rw [AList.lookup_insert, if_pos ⟨rfl, rfl⟩]
          rfl
        · rw [AList.lookup_insert_ne hu, if_neg fun h => hu h.2, Nat.add_zero]
      · rw [if_neg fun h => hh h.1, Nat.add_zero]
        unfold left
        rw [AList.lookup_insert_ne hh]

theorem put_spec (hc : c.Wf) (hl : 0 < c.left h uid) (embedding : List α) :
    ∃ c', c.put h embedding = some c' ∧ c'.Wf ∧ (∀ h' uid', c'.left h' uid' = c.left h' uid') ∧
      ∀ h', c'.has h' = (c.has h' || h' == h) := by
  obtain ⟨entry, he⟩ := exists_entry hl
  by_cases ht : entry.tensor.isSome = true
  · refine ⟨c, ?_, hc, fun _ _ => rfl, fun h' => ?_⟩
    · unfold put
      simp only [he, ht, if_true]
    · by_cases hh : h' = h
      · subst hh
        have hhas : c.has h' = true := by
          unfold has
          rw [he]
          exact ht
        rw [hhas, Bool.true_or]
      · rw [beq_false_of_ne hh, Bool.or_false]
  · refine ⟨{ entries := c.entries.insert h { entry with tensor := some embedding } }, ?_,
      fun h' entry' he' => ?_, fun h' uid' => ?_, fun h' => ?_⟩
    · unfold put
      simp only [he, ht]
      rfl
    · by_cases hh : h' = h
      · subst hh
        rw [AList.lookup_insert] at he'
        obtain rfl := Option.some.inj he'
        exact hc h' entry he
      · rw [AList.lookup_insert_ne hh] at he'
        exact hc h' entry' he'
    · unfold left
      by_cases hh : h' = h
      · subst hh
        rw [AList.lookup_insert, he]
      · rw [AList.lookup_insert_ne hh]
    · unfold has
      by_cases hh : h' = h
      · subst hh
        rw [AList.lookup_insert, beq_self_eq_true, Bool.or_true]
        rfl
      · rw [AList.lookup_insert_ne hh, beq_false_of_ne hh, Bool.or_false]

theorem getSlice_isSome (hh : c.has h = true) (lo hi : ℕ) :
    ∃ slice, c.getSlice h lo hi = some slice := by
  unfold has at hh
  unfold getSlice
  cases he : c.entries.lookup h with
  | none =>
    rw [he] at hh
    cases hh
  | some entry =>
    rw [he] at hh
    obtain ⟨t, ht⟩ := isSome_iff_exists.mp hh
    exact ⟨(t.take hi).drop lo, congrArg (Option.map _) ht⟩

theorem consume_spec (hc : c.Wf) (hrows : 0 < rows) (hle : rows ≤ c.left h uid) :
    ∃ c', c.consume h uid rows = some c' ∧ c'.Wf ∧
      (∀ h' uid', c'.left h' uid' = c.left h' uid' - if h' = h ∧ uid' = uid then rows else 0) ∧
      ∀ h' uid', 0 < c'.left h' uid' → c'.has h' = c.has h' := by
  obtain ⟨entry, he⟩ := exists_entry (lt_of_lt_of_le hrows hle)
  have hleft : ∀ uid, c.left h uid = (entry.remaining.lookup uid).getD 0 :=
    fun uid => left_of_some he
  obtain ⟨held, hheld⟩ : ∃ held, entry.remaining.lookup uid = some held := by
    cases hlook : entry.remaining.lookup uid with
    | none =>
      rw [hleft, hlook] at hle
      exact absurd hle (not_le.mpr hrows)
    | some held => exact ⟨held, rfl⟩
  have hge : rows ≤ held := by
    rw [hleft, hheld] at hle
    exact hle
  have hpos := (hc h entry he).2
  -- the new holders: `uid` keeps what is left, or is dropped
  obtain ⟨remaining, hr, hself, hother⟩ : ∃ remaining : AList fun _ : ℕ => ℕ, c.consume h uid rows =
    some (c.setRemaining h entry remaining) ∧ (remaining.lookup uid).getD 0 = held - rows ∧
    ((∀ n, remaining.lookup uid = some n → 0 < n) ∧ ∀ uid', uid' ≠ uid → remaining.lookup uid' =
    entry.remaining.lookup uid') := by
    by_cases hleft0 : held - rows = 0
    · refine ⟨entry.remaining.erase uid, ?_, ?_, fun n hn => ?_,
        fun uid' hu => AList.lookup_erase_ne hu⟩
      · unfold consume
        simp only [he, hheld, hge, if_true, hleft0, ne_eq, not_true, if_false]
      · rw [AList.lookup_erase, hleft0]
        rfl
      · rw [AList.lookup_erase] at hn
        cases hn
    · refine ⟨entry.remaining.insert uid (held - rows), ?_, ?_, fun n hn => ?_,
        fun uid' hu => AList.lookup_insert_ne hu⟩
      · unfold consume
        simp only [he, hheld, hge, if_true, hleft0, ne_eq, not_false_eq_true]
      · rw [AList.lookup_insert]
        rfl
      · rw [AList.lookup_insert] at hn
        have := Option.some.inj hn
        omega
  refine ⟨_, hr, hc.setRemaining fun uid' n hn => ?_, fun h' uid' => ?_,
    fun h' uid' hl => has_setRemaining he hl⟩
  · by_cases hu : uid' = uid
    · exact hother.1 n (hu ▸ hn)
    · rw [hother.2 uid' hu] at hn
      exact hpos uid' n hn
  · rw [left_setRemaining]
    by_cases hh : h' = h
    · rw [hh, if_pos rfl, hleft uid']
      by_cases hu : uid' = uid
      · rw [hu, hself, hheld, if_pos ⟨rfl, rfl⟩]
        rfl
      · rw [hother.2 uid' hu, if_neg fun h => hu h.2, Nat.sub_zero]
    · rw [if_neg hh, if_neg fun h => hh h.1, Nat.sub_zero]

theorem release_spec (hc : c.Wf) (hashes : List ℕ) : (c.release uid hashes).Wf ∧ ∀ h' uid',
    (c.release uid hashes).left h' uid' =
      if h' ∈ hashes ∧ uid' = uid then 0 else c.left h' uid' := by
  induction hashes generalizing c with
  | nil => exact ⟨hc, fun h' uid' => by simp [release]⟩
  | cons h hashes ih =>
    obtain ⟨c₁, hc₁⟩ : ∃ c₁, c₁ = c.release uid [h] := ⟨_, rfl⟩
    have hrelease : c.release uid (h :: hashes) = c₁.release uid hashes := by rw [hc₁]; rfl
    -- one hash: an entry that has no uids left goes
    have hstep : c₁.Wf ∧ ∀ h' uid', c₁.left h' uid' =
        if h' = h ∧ uid' = uid then 0 else c.left h' uid' := by
      cases he : c.entries.lookup h with
      | none =>
        have hsame : c₁ = c := by
          rw [hc₁]
          simp only [release, foldl_cons, foldl_nil, he]
        rw [hsame]
        refine ⟨hc, fun h' uid' => ?_⟩
        split_ifs with hhu
        · rw [hhu.1, left_of_none he]
        · rfl
      | some entry =>
        have hset : c₁ = c.setRemaining h entry (entry.remaining.erase uid) := by
          rw [hc₁]
          simp only [release, foldl_cons, foldl_nil, he]
        rw [hset]
        refine ⟨hc.setRemaining fun uid' n hn => ?_, fun h' uid' => ?_⟩
        · by_cases hu : uid' = uid
          · rw [hu, AList.lookup_erase] at hn
            cases hn
          · rw [AList.lookup_erase_ne hu] at hn
            exact (hc h entry he).2 uid' n hn
        · rw [left_setRemaining]
          by_cases hh : h' = h
          · rw [hh, if_pos rfl, left_of_some he]
            by_cases hu : uid' = uid
            · rw [hu, AList.lookup_erase, if_pos ⟨rfl, rfl⟩]
              rfl
            · rw [AList.lookup_erase_ne hu, if_neg fun h => hu h.2]
          · rw [if_neg hh, if_neg fun h => hh h.1]
    obtain ⟨hwf, hleft⟩ := ih hstep.1
    rw [hrelease]
    refine ⟨hwf, fun h' uid' => ?_⟩
    rw [hleft, hstep.2]
    by_cases hu : uid' = uid
    · by_cases hmem : h' ∈ hashes
      · rw [if_pos ⟨hmem, hu⟩, if_pos ⟨mem_cons_of_mem h hmem, hu⟩]
      · simp only [hu, hmem, mem_cons, and_true, or_false, if_false]
    · simp only [hu, and_false, if_false]

end EncoderCache

end FreeToken
