import FreeToken.Kernel.Qsa.Equiv.Kernels

/-!
# The split and the merge

Every chunk of a row leaves its own winners in its slots of the scratch, and the winners of the row
are among them (`leastBy_flatten`).

* `qsaTopkSplitKernel_eq`, `splitCandidates_spec`: what the chunks leave.
* `liveLanes_map_col`: the candidates that the merge sees, in the order of the columns.
* `qsaTopkMergeKernel_eq`: the merge ends with the winners of the row.
-/

namespace FreeToken.QsaTopk

open List

variable {k limit topK padK chunk nSplits numColumns split m : ℕ} {key : ℕ → Key}
  {logitsRow : ℕ → BitVec 32} {visible : ℤ} {out : ℕ → ℤ} {c : Candidates}

/-! ### Chunks -/

theorem range_mul (a b : ℕ) :
    range (a * b) = ((range a).map fun s => (range b).map fun i => s * b + i).flatten := by
  induction a with
  | zero =>
    rw [Nat.zero_mul]
    rfl
  | succ a ih =>
    rw [add_mul, one_mul, range_add, ih, range_succ, map_append, flatten_append]
    simp

def chunkLive (key : ℕ → Key) (chunk split : ℕ) : List ℕ :=
  ((range chunk).map fun i => split * chunk + i).filter fun column => key column ≠ 0#32

def chunkWinners (key : ℕ → Key) (chunk topK split : ℕ) : List ℕ :=
  leastBy (topOrder (keyValue key)) topK (chunkLive key chunk split)

theorem liveLanes_mul :
    liveLanes (m * chunk) key = ((range m).map (chunkLive key chunk)).flatten := by
  unfold liveLanes
  rw [range_mul, filter_flatten, map_map]
  rfl

theorem nodup_liveLanes (n : ℕ) : (liveLanes n key).Nodup := nodup_range.filter _

theorem leastBy_chunkWinners :
    leastBy (topOrder (keyValue key)) topK ((range m).map (chunkWinners key chunk topK)).flatten =
      leastBy (topOrder (keyValue key)) topK (liveLanes (m * chunk) key) := by
  have hparts :=
    @leastBy_flatten ℕ _ _ (topOrder (keyValue key)) topK ((range m).map (chunkLive key chunk))
    (liveLanes_mul ▸ nodup_liveLanes (m * chunk)) topOrder_injective.injOn
  rw [map_map, ← liveLanes_mul] at hparts
  exact hparts

theorem length_chunkWinners_le : (chunkWinners key chunk topK split).length ≤ topK := by
  have hnodup : (chunkLive key chunk split).Nodup := by
    apply List.Nodup.filter
    rw [nodup_map_iff (fun a b h => add_left_cancel h)]
    exact nodup_range
  unfold chunkWinners
  rw [length_leastBy hnodup topOrder_injective.injOn]
  exact min_le_left _ _

/-! ### The program of a chunk -/

def chunkKey (logitsRow : ℕ → BitVec 32) (limit chunk split : ℕ) : ℕ → Key :=
  loadKeys (fun i => logitsRow (split * chunk + i)) (min (limit - split * chunk) chunk)

theorem chunkKey_eq {i : ℕ} (hi : i < chunk) :
    chunkKey logitsRow limit chunk split i = loadKeys logitsRow limit (split * chunk + i) := by
  unfold chunkKey loadKeys
  have hiff : i < min (limit - split * chunk) chunk ↔ split * chunk + i < limit := by omega
  simp only [hiff]

theorem leastBy_chunkKey :
    (leastBy (topOrder (keyValue (chunkKey logitsRow limit chunk split))) topK
      (liveLanes chunk (chunkKey logitsRow limit chunk split))).map (fun i => split * chunk + i) =
      chunkWinners (loadKeys logitsRow limit) chunk topK split := by
  have hord : ∀ a ∈ liveLanes chunk (chunkKey logitsRow limit chunk split),
      ∀ b ∈ liveLanes chunk (chunkKey logitsRow limit chunk split),
        topOrder (keyValue (loadKeys logitsRow limit)) (split * chunk + a) <
          topOrder (keyValue (loadKeys logitsRow limit)) (split * chunk + b) ↔
        topOrder (keyValue (chunkKey logitsRow limit chunk split)) a <
          topOrder (keyValue (chunkKey logitsRow limit chunk split)) b := by
    intro a ha b hb
    have ha := mem_range.mp (mem_filter.mp ha).1
    have hb := mem_range.mp (mem_filter.mp hb).1
    rw [topOrder_lt, topOrder_lt]
    unfold keyValue
    rw [chunkKey_eq ha, chunkKey_eq hb]
    omega
  unfold chunkWinners chunkLive
  rw [← leastBy_map hord]
  congr 1
  unfold liveLanes
  rw [filter_map]
  congr 1
  apply filter_congr
  intro i hi
  rw [chunkKey_eq (mem_range.mp hi)]
  rfl

theorem stored_chunk {t : Threshold} {α : Type} {val : ℕ → α} {g : ℕ → α}
    (hwins : (range chunk).filter (wins (chunkKey logitsRow limit chunk split) t) =
      leastBy (topOrder (keyValue (chunkKey logitsRow limit chunk split))) topK
        (liveLanes chunk (chunkKey logitsRow limit chunk split)))
    (hval : ∀ i < chunk, val i = g (split * chunk + i)) :
    stored (chunkKey logitsRow limit chunk split) t val chunk =
      (chunkWinners (loadKeys logitsRow limit) chunk topK split).map g := by
  unfold stored
  rw [← leastBy_chunkKey, hwins, map_map]
  apply map_congr_left
  intro i hi
  have hlive := (mem_leastBy.mp hi).1
  exact hval i (mem_range.mp (mem_filter.mp hlive).1)

theorem length_chunkLive :
    (liveLanes chunk (chunkKey logitsRow limit chunk split)).length ≤ min (limit - split * chunk)
    chunk := by
  have hlive := @liveLanes_loadKeys chunk _ (fun i => logitsRow (split * chunk + i))
    (min_le_right (limit - split * chunk) chunk)
  rw [show liveLanes chunk (chunkKey logitsRow limit chunk split) = _ from hlive]
  exact length_liveColumns_le

theorem qsaTopkSplitKernel_eq (hpad : topK ≤ padK) (hchunk : chunk ≤ 0xFFFF) :
    qsaTopkSplitKernel logitsRow visible numColumns topK padK chunk split c =
      { key := row topK (split * topK) 0#32 c.key
          ((chunkWinners (loadKeys logitsRow (visibleLimit visible numColumns)) chunk topK
            split).map (loadKeys logitsRow (visibleLimit visible numColumns)))
        col := packed topK (split * topK) c.col
          ((chunkWinners (loadKeys logitsRow (visibleLimit visible numColumns)) chunk topK
            split).map
            fun column : ℕ => (column : ℤ)) } := by
  unfold qsaTopkSplitKernel
  generalize visibleLimit visible numColumns = limit at *
  have hlength := @length_chunkLive limit chunk split logitsRow
  by_cases hk : 0 < min (min (limit - split * chunk) chunk) topK
  · obtain ⟨ties, hties, hwins⟩ :=
      @residentPrefix_spec chunk _ (chunkKey logitsRow limit chunk split) hk _ rfl
    rw [leastBy_min hlength] at hwins
    rw [if_pos hk]
    have hkey :
        loadKeys (fun i => logitsRow (split * chunk + i)) (min (limit - split * chunk) chunk) =
      chunkKey logitsRow limit chunk split := rfl
    simp only [hkey]
    rw [storeRanks_zero hchunk hties, storeRanks_zero hchunk hties,
      storePad_packed hpad (emitted_zero hchunk hties), stored_chunk hwins fun i hi =>
      chunkKey_eq hi, stored_chunk hwins fun i _ => rfl]
  · have hnone : chunkWinners (loadKeys logitsRow limit) chunk topK split = [] := by
      rw [← leastBy_chunkKey, ← leastBy_min hlength, Nat.eq_zero_of_not_pos hk]
      simp [leastBy]
    have hrow := @storePad_packed topK padK (split * topK) Key c.key [] 0#32 0 hpad rfl
    rw [packed_nil] at hrow
    rw [if_neg hk, hrow, hnone, map_nil, map_nil, packed_nil]

/-- The candidates of the first chunks are in their slots. -/
structure HoldsWinners (c : Candidates) (key : ℕ → Key) (chunk topK m : ℕ) : Prop where
  key_eq : ∀ s < m, ∀ i < topK, c.key (s * topK + i) =
    (((chunkWinners key chunk topK s).map key)[i]?).getD 0#32
  col_eq : ∀ s < m, ∀ i < topK, ∀ w, (chunkWinners key chunk topK s)[i]? = some w →
    c.col (s * topK + i) = (w : ℤ)

/-- The programs of all chunks.  None of them writes behind the slots of the last one. -/
theorem splitCandidates_spec (hpad : topK ≤ padK) (hchunk : chunk ≤ 0xFFFF) (m : ℕ) :
    HoldsWinners (splitCandidates logitsRow visible numColumns topK padK chunk m c)
      (loadKeys logitsRow (visibleLimit visible numColumns)) chunk topK m ∧
    ∀ j, m * topK ≤ j →
      (splitCandidates logitsRow visible numColumns topK padK chunk m c).key j = c.key j ∧
      (splitCandidates logitsRow visible numColumns topK padK chunk m c).col j = c.col j := by
  -- by induction on the chunks: each program stores behind those before it
  induction m with
  | zero =>
    exact ⟨⟨fun s hs => absurd hs (Nat.not_lt_zero s), fun s hs => absurd hs (Nat.not_lt_zero s)⟩,
      fun j _ => ⟨rfl, rfl⟩⟩
  | succ m ih =>
    have hstep : splitCandidates logitsRow visible numColumns topK padK chunk (m + 1) c =
        qsaTopkSplitKernel logitsRow visible numColumns topK padK chunk m
          (splitCandidates logitsRow visible numColumns topK padK chunk m c) := by
      unfold splitCandidates
      rw [range_succ, foldl_append]
      rfl
    rw [hstep, qsaTopkSplitKernel_eq hpad hchunk]
    generalize splitCandidates logitsRow visible numColumns topK padK chunk m c = c' at *
    generalize loadKeys logitsRow (visibleLimit visible numColumns) = key at *
    obtain ⟨⟨hkey, hcol⟩, hframe⟩ := ih
    -- the slots of the earlier chunks are not touched
    have hbefore : ∀ s < m, ∀ i < topK, s * topK + i < m * topK := by
      intro s hs i hi
      have hmul : (s + 1) * topK ≤ m * topK := Nat.mul_le_mul_right _ hs
      rw [add_mul, one_mul] at hmul
      omega
    refine ⟨⟨?_, ?_⟩, ?_⟩
    · intro s hs i hi
      show row topK (m * topK) 0#32 c'.key _ (s * topK + i) = _
      unfold row
      rcases Nat.lt_succ_iff_lt_or_eq.mp hs with hs | rfl
      · have hlt := hbefore s hs i hi
        rw [if_neg (by omega), hkey s hs i hi]
      · rw [if_pos (by omega), Nat.add_sub_cancel_left]
    · intro s hs i hi w hw
      show packed topK (m * topK) c'.col _ (s * topK + i) = _
      unfold packed
      rcases Nat.lt_succ_iff_lt_or_eq.mp hs with hs | rfl
      · have hlt := hbefore s hs i hi
        rw [if_neg (by omega), hcol s hs i hi w hw]
      · rw [if_pos (by omega), Nat.add_sub_cancel_left, List.getElem?_map, hw]
        rfl
    · intro j hj
      rw [add_mul, one_mul] at hj
      show row topK (m * topK) 0#32 c'.key _ j = _ ∧ packed topK (m * topK) c'.col _ j = _
      unfold row packed
      rw [if_neg (by omega), if_neg (by omega)]
      exact hframe j (by omega)

/-! ### The merge -/

def slotColumn (c : Candidates) (slot : ℕ) : ℕ := (c.col slot).toNat

theorem mem_chunkWinners_live {w : ℕ} (hw : w ∈ chunkWinners key chunk topK split) :
    key w ≠ 0#32 := by
  have hlive := (mem_leastBy.mp hw).1
  exact of_decide_eq_true (mem_filter.mp hlive).2

theorem chunkLive_slots (h : HoldsWinners c key chunk topK m) (hs : split < m) :
    chunkLive c.key topK split =
      (range (chunkWinners key chunk topK split).length).map (fun i => split * topK + i) ∧
    ∀ i (hi : i < (chunkWinners key chunk topK split).length),
      c.key (split * topK + i) = key (chunkWinners key chunk topK split)[i] ∧
      c.col (split * topK + i) = ((chunkWinners key chunk topK split)[i] : ℤ) := by
  have hle : (chunkWinners key chunk topK split).length ≤ topK := length_chunkWinners_le
  have hin : ∀ i (hi : i < (chunkWinners key chunk topK split).length),
      c.key (split * topK + i) = key (chunkWinners key chunk topK split)[i] ∧
      c.col (split * topK + i) = ((chunkWinners key chunk topK split)[i] : ℤ) := by
    intro i hi
    have hget := getElem?_eq_getElem hi
    refine ⟨?_, h.col_eq split hs i (by omega) _ hget⟩
    rw [h.key_eq split hs i (by omega), List.getElem?_map, hget]
    rfl
  refine ⟨?_, hin⟩
  obtain ⟨d, hd⟩ := Nat.exists_eq_add_of_le hle
  unfold chunkLive
  rw [hd, range_add, map_append, filter_append, ← hd]
  have hlate : (((range d).map fun x => (chunkWinners key chunk topK split).length + x).map
      fun i => split * topK + i).filter (fun slot => c.key slot ≠ 0#32) = [] := by
    rw [filter_eq_nil_iff]
    intro slot hslot
    obtain ⟨i, hi, rfl⟩ := mem_map.mp hslot
    obtain ⟨x, hx, rfl⟩ := mem_map.mp hi
    have hx := mem_range.mp hx
    rw [h.key_eq split hs _ (by omega), getElem?_eq_none (by rw [length_map]; omega)]
    simp
  rw [hlate, append_nil]
  apply filter_eq_self.mpr
  intro slot hslot
  obtain ⟨i, hi, rfl⟩ := mem_map.mp hslot
  have hi := mem_range.mp hi
  rw [(hin i hi).1]
  exact decide_eq_true (mem_chunkWinners_live (getElem_mem hi))

theorem liveLanes_map_col (h : HoldsWinners c key chunk topK m) :
    (liveLanes (m * topK) c.key).map (slotColumn c) =
    ((range m).map (chunkWinners key chunk topK)).flatten := by
  rw [liveLanes_mul, map_flatten, map_map]
  congr 1
  apply map_congr_left
  intro s hs
  obtain ⟨hlive, hin⟩ := chunkLive_slots h (mem_range.mp hs)
  show (chunkLive c.key topK s).map (slotColumn c) = _
  rw [hlive, map_map]
  apply ext_getElem
  · simp
  · intro i hi hi'
    rw [getElem_map, getElem_range]
    show (c.col (s * topK + i)).toNat = _
    rw [(hin i hi').2, Int.toNat_natCast]

theorem slot_spec (h : HoldsWinners c key chunk topK m) {slot : ℕ}
    (hslot : slot ∈ liveLanes (m * topK) c.key) :
    c.key slot = key (slotColumn c slot) ∧ c.col slot = (slotColumn c slot : ℤ) := by
  rw [liveLanes_mul] at hslot
  obtain ⟨l, hl, hslot⟩ := mem_flatten.mp hslot
  obtain ⟨s, hs, rfl⟩ := mem_map.mp hl
  obtain ⟨hlive, hin⟩ := chunkLive_slots h (mem_range.mp hs)
  rw [hlive] at hslot
  obtain ⟨i, hi, rfl⟩ := mem_map.mp hslot
  obtain ⟨hkey, hcol⟩ := hin i (mem_range.mp hi)
  unfold slotColumn
  rw [hkey, hcol, Int.toNat_natCast]
  exact ⟨rfl, rfl⟩

theorem liveLanes_pairwise (n : ℕ) : (liveLanes n key).Pairwise (· < ·) :=
    pairwise_lt_range.filter _

theorem slotColumn_lt_iff (h : HoldsWinners c key chunk topK m) {a b : ℕ}
    (ha : a ∈ liveLanes (m * topK) c.key)
    (hb : b ∈ liveLanes (m * topK) c.key) : slotColumn c a < slotColumn c b ↔ a < b := by
  have hcolumns : ((liveLanes (m * topK) c.key).map (slotColumn c)).Pairwise (· < ·) := by
    rw [liveLanes_map_col h]
    have hsub :
        ((range m).map (chunkWinners key chunk topK)).flatten.Sublist
        (liveLanes (m * chunk) key) := by
      have hsub := @flatten_leastBy_sublist ℕ _ _ (topOrder (keyValue key)) topK
        ((range m).map (chunkLive key chunk))
      rw [map_map, ← liveLanes_mul] at hsub
      exact hsub
    exact (liveLanes_pairwise (m * chunk)).sublist hsub
  rw [pairwise_map] at hcolumns
  have hboth := (@liveLanes_pairwise c.key (m * topK)).and hcolumns
  -- one way or the other round, the slots and the columns go together
  have hsame :
      a ≠ b → a < b ∧ slotColumn c a < slotColumn c b ∨ b < a ∧
      slotColumn c b < slotColumn c a := by
    intro hne
    obtain ⟨i, hi, rfl⟩ := getElem_of_mem ha
    obtain ⟨j, hj, rfl⟩ := getElem_of_mem hb
    rw [pairwise_iff_getElem] at hboth
    rcases lt_trichotomy i j with hij | rfl | hij
    · exact Or.inl (hboth i j hi hj hij)
    · exact absurd rfl hne
    · exact Or.inr (hboth j i hj hi hij)
  by_cases heq : a = b
  · subst heq
    simp
  · have h := hsame heq
    omega

theorem leastBy_slots (h : HoldsWinners c key chunk topK m) :
    (leastBy (topOrder (keyValue c.key)) topK (liveLanes (m * topK) c.key)).map (slotColumn c) =
      leastBy (topOrder (keyValue key)) topK (liveLanes (m * chunk) key) := by
  have hord : ∀ a ∈ liveLanes (m * topK) c.key, ∀ b ∈ liveLanes (m * topK) c.key,
      topOrder (keyValue key) (slotColumn c a) < topOrder (keyValue key) (slotColumn c b) ↔
        topOrder (keyValue c.key) a < topOrder (keyValue c.key) b := by
    intro a ha b hb
    rw [topOrder_lt, topOrder_lt, slotColumn_lt_iff h ha hb]
    unfold keyValue
    rw [(slot_spec h ha).1, (slot_spec h hb).1]
  rw [← leastBy_map hord, liveLanes_map_col h, leastBy_chunkWinners]

theorem length_liveLanes_slots (h : HoldsWinners c key chunk topK m) :
    (liveLanes (m * topK) c.key).length ≤ (liveLanes (m * chunk) key).length := by
  have hsub := @flatten_leastBy_sublist ℕ _ _ (topOrder (keyValue key)) topK
    ((range m).map (chunkLive key chunk))
  rw [map_map, ← liveLanes_mul] at hsub
  have hlength := hsub.length_le
  have hmap := congrArg List.length (liveLanes_map_col h)
  rw [length_map] at hmap
  rw [hmap]
  exact hlength

theorem mergeTile_eq {block : ℕ} (h : HoldsWinners c key chunk topK m)
    (hkeys : liveLanes (m * chunk) key = liveColumns logitsRow limit)
    (hwinners : leastBy (topOrder (keyValue key)) topK (liveLanes (m * chunk) key) =
      rowWinners logitsRow limit topK)
    (hpos : 0 < min limit topK) (hfits : m * topK ≤ block) (hblock : block ≤ 0xFFFF) :
    mergeTile c (m * topK) (min limit topK : ℕ) topK block out =
      (packed topK 0 out ((rowWinners logitsRow limit topK).map fun column : ℕ => (column : ℤ)),
        ((rowWinners logitsRow limit topK).length : ℤ)) := by
  -- what is behind the candidates is dead
  have hlive :
      liveLanes block (fun i => if i < m * topK then c.key i else 0#32) = liveLanes
      (m * topK) c.key := by
    obtain ⟨d, rfl⟩ := Nat.exists_eq_add_of_le hfits
    unfold liveLanes
    rw [range_add, filter_append]
    have hlate : ((range d).map fun x => m * topK + x).filter
        (fun i => (if i < m * topK then c.key i else 0#32) ≠ 0#32) = [] := by
      rw [filter_eq_nil_iff]
      intro i hi
      obtain ⟨x, _, rfl⟩ := mem_map.mp hi
      simp
    rw [hlate, append_nil]
    apply filter_congr
    intro i hi
    simp only [mem_range.mp hi, if_true]
  obtain ⟨ties, hties, hwins⟩ := @residentPrefix_spec block _
    (fun i => if i < m * topK then c.key i else 0#32) hpos _ rfl
  have hsame :
      leastBy (topOrder (keyValue fun i => if i < m * topK then c.key i else 0#32)) (min limit topK)
      (liveLanes (m * topK) c.key) = leastBy (topOrder (keyValue c.key)) topK
        (liveLanes (m * topK) c.key) := by
    rw [leastBy_min ((length_liveLanes_slots h).trans (hkeys ▸ length_liveColumns_le))]
    have hord : ∀ a ∈ liveLanes (m * topK) c.key, ∀ b ∈ liveLanes (m * topK) c.key,
        topOrder (keyValue fun i => if i < m * topK then c.key i else 0#32) (id a) <
          topOrder (keyValue fun i => if i < m * topK then c.key i else 0#32) (id b) ↔
        topOrder (keyValue c.key) a < topOrder (keyValue c.key) b := by
      intro a ha b hb
      have ha := mem_range.mp (mem_filter.mp ha).1
      have hb := mem_range.mp (mem_filter.mp hb).1
      rw [topOrder_lt, topOrder_lt]
      unfold keyValue
      simp only [id_eq, ha, hb, if_true]
    have hmap := @leastBy_map _ _ _ _ _ _ _ topK id _ _ hord
    rw [map_id, map_id] at hmap
    exact hmap
  have hstored : stored (fun i => if i < m * topK then c.key i else 0#32)
      (residentPrefix block (fun i => if i < m * topK then c.key i else 0#32) (min limit topK : ℕ))
      (fun i => if i < m * topK then c.col i else -1) block =
        (rowWinners logitsRow limit topK).map fun column : ℕ => (column : ℤ) := by
    unfold stored
    rw [hwins, hlive, hsame, ← hwinners, ← leastBy_slots h, map_map]
    apply map_congr_left
    intro slot hslot
    have hmem := (mem_leastBy.mp hslot).1
    rw [if_pos (mem_range.mp (mem_filter.mp hmem).1)]
    exact (slot_spec h hmem).2
  have hemitted := @emitted_zero block ties (fun i => if i < m * topK then c.key i else 0#32) _ ℤ
    (fun i => if i < m * topK then c.col i else -1) hblock hties
  rw [hstored, length_map] at hemitted
  unfold mergeTile
  simp only
  rw [storeRanks_zero hblock hties, hstored, hemitted]

theorem singleChunk_eq (h : HoldsWinners c key chunk topK 1) (hpad : topK ≤ padK)
    (hwinners : leastBy (topOrder (keyValue key)) topK (liveLanes (1 * chunk) key) =
      rowWinners logitsRow limit topK) :
    storePad padK topK 0
      (laneSum padK (maskInt fun slot => decide (slot < topK) && decide (c.key slot ≠ 0#32))) (-1)
      (laneStore padK (fun slot => slot < topK) (fun slot => slot)
        (fun slot => if decide (slot < topK) && decide (c.key slot ≠ 0#32) then c.col slot else -1)
        out) =
      topkRow logitsRow limit topK out := by
  have hchunk : chunkWinners key chunk topK 0 = rowWinners logitsRow limit topK := by
    rw [← hwinners, liveLanes_mul]
    show _ = leastBy _ topK ((chunkLive key chunk 0) ++ [])
    rw [append_nil]
    rfl
  have hle : (rowWinners logitsRow limit topK).length ≤ topK := hchunk ▸ length_chunkWinners_le
  -- a slot is alive if a winner is in it
  have halive : ∀ slot, (decide (slot < topK) && decide (c.key slot ≠ 0#32)) =
      decide (slot < (rowWinners logitsRow limit topK).length) := by
    intro slot
    rw [Bool.eq_iff_iff, Bool.and_eq_true, decide_eq_true_eq, decide_eq_true_eq, decide_eq_true_eq]
    by_cases hslot : slot < topK
    · have hkey := h.key_eq 0 one_pos slot hslot
      rw [Nat.zero_mul, Nat.zero_add, hchunk, List.getElem?_map] at hkey
      rw [hkey]
      by_cases hlt : slot < (rowWinners logitsRow limit topK).length
      · rw [getElem?_eq_getElem hlt]
        have hmem : (rowWinners logitsRow limit topK)[slot] ∈ chunkWinners key chunk topK 0 := by
          rw [hchunk]
          exact getElem_mem hlt
        exact ⟨fun _ => hlt, fun _ => ⟨hslot, mem_chunkWinners_live hmem⟩⟩
      · rw [getElem?_eq_none (by omega)]
        exact ⟨fun hne => absurd rfl hne.2, fun h => absurd h hlt⟩
    · exact ⟨fun h => absurd h.1 hslot, fun h => absurd (h.trans_le hle) hslot⟩
  have hcount :
      laneSum padK (maskInt fun slot => decide (slot < topK) && decide (c.key slot ≠ 0#32)) =
      (rowWinners logitsRow limit topK).length := by
    rw [laneSum_maskInt, ← countP_eq_length_filter]
    simp only [halive]
    rw [countP_range_lt, min_eq_left (hle.trans hpad)]
  rw [hcount]
  have hrow : laneStore padK (fun slot => slot < topK) (fun slot => slot)
      (fun slot => if decide (slot < topK) && decide (c.key slot ≠ 0#32) then c.col slot else -1)
        out =
      fun j => if j <
        topK then ((((rowWinners logitsRow limit topK).map fun column : ℕ => (column : ℤ))[j]?).getD
        (-1))
        else out j := by
    funext j
    rw [show (fun slot : ℕ => slot) = id from rfl, laneStore_id]
    simp only [halive, decide_eq_true_eq]
    by_cases hj : j < topK
    · rw [if_pos ⟨hj.trans_le hpad, hj⟩, if_pos hj]
      by_cases hlt : j < (rowWinners logitsRow limit topK).length
      · have hcol := h.col_eq 0 one_pos j hj (rowWinners logitsRow limit topK)[j] (by
          rw [hchunk]
          exact getElem?_eq_getElem hlt)
        rw [Nat.zero_mul, Nat.zero_add] at hcol
        rw [if_pos hlt, hcol, List.getElem?_map, getElem?_eq_getElem hlt]
        rfl
      · rw [if_neg hlt, List.getElem?_map, getElem?_eq_none (by omega)]
        rfl
    · rw [if_neg (fun h => hj h.2), if_neg hj]
  have hsame : (fun j => if j < topK then
      ((((rowWinners logitsRow limit topK).map fun column : ℕ => (column : ℤ))[j]?).getD (-1))
        else out j) =
      packed topK 0 (fun j => if j < topK then -1 else out j)
        ((rowWinners logitsRow limit topK).map fun column : ℕ => (column : ℤ)) := by
    funext j
    unfold packed
    simp only [Nat.zero_le, true_and, Nat.zero_add, Nat.sub_zero]
    by_cases hj : j < topK
    · simp only [if_pos hj]
    · simp only [if_neg hj]
  rw [hrow, hsame, storePad_packed hpad (by rw [length_map])]
  funext j
  unfold topkRow row
  simp only [Nat.zero_le, true_and, Nat.zero_add]
  by_cases hj : j < topK
  · simp only [if_pos hj]
  · simp only [if_neg hj]

theorem qsaTopkMergeKernel_eq {blockSmall blockMid blockFull : ℕ} (hpad : topK ≤ padK)
    (hpos : 0 < chunk) (hlimit : visibleLimit visible numColumns ≤ nSplits * chunk)
    (h : HoldsWinners c (loadKeys logitsRow (visibleLimit visible numColumns)) chunk topK nSplits)
    (hsmall : blockSmall ≤ 0xFFFF) (hmid : blockMid ≤ 0xFFFF) (hfull : blockFull ≤ 0xFFFF)
    (hfits : nSplits * topK ≤ blockFull) :
    qsaTopkMergeKernel visible c numColumns topK padK chunk nSplits blockSmall blockMid blockFull
      out = topkRow logitsRow (visibleLimit visible numColumns) topK out := by
  unfold qsaTopkMergeKernel
  generalize visibleLimit visible numColumns = limit at *
  have hm : (limit + chunk - 1) / chunk ≤ nSplits := by
    rw [← Nat.lt_succ_iff, Nat.div_lt_iff_lt_mul hpos, Nat.succ_mul]
    omega
  have hcover := @le_tiles_mul limit chunk hpos
  simp only [min_eq_left hm]
  generalize (limit + chunk - 1) / chunk = m at *
  have h' : HoldsWinners c (loadKeys logitsRow limit) chunk topK m :=
    ⟨fun s hs => h.key_eq s (hs.trans_le hm), fun s hs => h.col_eq s (hs.trans_le hm)⟩
  have hkeys : liveLanes (m * chunk) (loadKeys logitsRow limit) = liveColumns logitsRow limit :=
    liveLanes_loadKeys hcover
  have hwinners : leastBy (topOrder (keyValue (loadKeys logitsRow limit))) topK
      (liveLanes (m * chunk) (loadKeys logitsRow limit)) = rowWinners logitsRow limit topK := by
    rw [hkeys]
    rfl
  have hcandidates : m * topK ≤ nSplits * topK := Nat.mul_le_mul_right _ hm
  have hend : ∀ block, m * topK ≤ block → block ≤ 0xFFFF → 0 < min limit topK →
      storePad padK topK 0 (mergeTile c (m * topK) (min limit topK : ℕ) topK block out).2 (-1)
        (mergeTile c (m * topK) (min limit topK : ℕ) topK block out).1 = topkRow logitsRow limit
          topK out := by
    intro block hle hblock hk
    rw [mergeTile_eq h' hkeys hwinners hk hle hblock]
    exact storePad_packed hpad (by rw [length_map])
  by_cases hk : 0 < min limit topK
  · simp only [if_pos hk]
    by_cases hone : m * topK ≤ topK
    · -- there is a chunk, and there are not two
      have hm1 : m = 1 := by
        rcases lt_trichotomy m 1 with hlt | heq | hgt
        · rw [Nat.lt_one_iff.mp hlt] at hcover
          omega
        · exact heq
        · have htwo : 2 * topK ≤ m * topK := Nat.mul_le_mul_right _ hgt
          omega
      subst hm1
      rw [if_pos hone]
      exact singleChunk_eq h' hpad hwinners
    · rw [if_neg hone]
      by_cases hs : m * topK ≤ blockSmall
      · rw [if_pos hs]
        exact hend _ hs hsmall hk
      · rw [if_neg hs]
        by_cases hmd : m * topK ≤ blockMid
        · rw [if_pos hmd]
          exact hend _ hmd hmid hk
        · rw [if_neg hmd]
          exact hend _ (hcandidates.trans hfits) hfull hk
  · simp only [if_neg hk]
    exact storePad_eq_topkRow hpad (by omega)

end FreeToken.QsaTopk
