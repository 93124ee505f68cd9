import FreeToken.Kernel.Qsa.Equiv.SplitMerge

/-!
# The block top-k takes the winners by their scores

Whatever path the host takes, the output is `topkRow` (`qsaBlockTopk_eq_topkRow`): the winners in
the order of the images.  They are the winners in the order of the scores unless a -0.0 wins and a
+0.0 at a later column does not.

* `splitPlan_spec`: the chunks cover the row, and the candidates fit a tile.
* `scoreRow`: what is asked for.
* `topkExact_iff`: when every path gives it.
-/

namespace FreeToken.QsaTopk

variable {columns topK chunk nSplits limit : ℕ} {logitsRow : ℕ → BitVec 32} {visible : ℤ}
  {scratch : Candidates} {out : ℕ → ℤ}

/-! ### The plan -/

theorem le_nextPowerOf2 (n : ℕ) : n ≤ nextPowerOf2 n := Nat.le_pow_clog (by decide) n

theorem nextPowerOf2_le {n e : ℕ} (h : n ≤ 2 ^ e) : nextPowerOf2 n ≤ 2 ^ e :=
  Nat.pow_le_pow_right (by decide) (Nat.clog_le_of_le_pow h)

theorem splitPlan_spec (h : splitPlan columns topK = some (chunk, nSplits)) :
    0 < chunk ∧ chunk ≤ maxResident ∧ columns ≤ nSplits * chunk ∧ nSplits * topK ≤ maxResident := by
  unfold splitPlan at h
  split_ifs at h
  simp only at h
  split_ifs at h
  obtain ⟨rfl, rfl⟩ := Prod.mk.inj (Option.some.inj h)
  have hpos : 0 < maxResident / nextPowerOf2 topK := by omega
  have hchunk' := Nat.le_max_left minChunk
    (nextPowerOf2 ((columns + maxResident / nextPowerOf2 topK - 1) /
      (maxResident / nextPowerOf2 topK)))
  have hceil := (le_nextPowerOf2 _).trans (Nat.le_max_right minChunk
    (nextPowerOf2 ((columns + maxResident / nextPowerOf2 topK - 1) /
      (maxResident / nextPowerOf2 topK))))
  generalize max minChunk _ = chunk at *
  have hchunkPos : 0 < chunk := Nat.lt_of_lt_of_le (by decide) hchunk'
  have hcover := @le_tiles_mul columns (maxResident / nextPowerOf2 topK) hpos
  have hresident := Nat.div_mul_le_self maxResident (nextPowerOf2 topK)
  have htopK := le_nextPowerOf2 topK
  generalize maxResident / nextPowerOf2 topK = maxSplits at *
  have hall : columns ≤ chunk * maxSplits := hcover.trans (Nat.mul_le_mul_right _ hceil)
  have hnSplits : (columns + chunk - 1) / chunk ≤ maxSplits := by
    rw [← Nat.lt_succ_iff, Nat.div_lt_iff_lt_mul hchunkPos, Nat.succ_mul, Nat.mul_comm maxSplits]
    omega
  refine ⟨hchunkPos, by omega, le_tiles_mul hchunkPos, ?_⟩
  exact (Nat.mul_le_mul hnSplits htopK).trans hresident

theorem visibleLimit_le : visibleLimit visible columns ≤ columns := by
  unfold visibleLimit
  omega

/-! ### Every path -/

theorem splitMerge_eq_topkRow (h : splitPlan columns topK = some (chunk, nSplits)) :
    qsaTopkMergeKernel visible
      (splitCandidates logitsRow visible columns topK (nextPowerOf2 topK) chunk nSplits scratch)
      columns topK (nextPowerOf2 topK) chunk nSplits (min 1024 (nextPowerOf2 (nSplits * topK)))
      (min 4096 (nextPowerOf2 (nSplits * topK))) (nextPowerOf2 (nSplits * topK)) out =
      topkRow logitsRow (visibleLimit visible columns) topK out := by
  obtain ⟨hpos, hchunk, hcover, hresident⟩ := splitPlan_spec h
  have hsmall : maxResident ≤ 0xFFFF := by decide
  have hblock : nextPowerOf2 (nSplits * topK) ≤ 2 ^ 13 := nextPowerOf2_le hresident
  have hcandidates :=
    (@splitCandidates_spec topK (nextPowerOf2 topK) chunk columns logitsRow visible scratch
    (le_nextPowerOf2 topK) (hchunk.trans hsmall) nSplits).1
  exact qsaTopkMergeKernel_eq (le_nextPowerOf2 topK) hpos (visibleLimit_le.trans hcover) hcandidates
    (by omega) (by omega) (by omega) (le_nextPowerOf2 _)

theorem qsaBlockTopk_eq_topkRow :
    qsaBlockTopk logitsRow visible columns topK scratch out =
      topkRow logitsRow (visibleLimit visible columns) topK out := by
  unfold qsaBlockTopk
  split_ifs with hzero
  · subst hzero
    funext j
    unfold topkRow row
    rw [if_neg (by omega)]
  · cases hplan : splitPlan columns topK with
    | some plan => exact splitMerge_eq_topkRow hplan
    | none =>
      have hblock : min maxBlockN (nextPowerOf2 (max columns 1)) ≤ 0xFFFF :=
        (Nat.min_le_left _ _).trans (by decide)
      have hpos : 0 < min maxBlockN (nextPowerOf2 (max columns 1)) :=
        Nat.lt_min.mpr ⟨by decide, Nat.two_pow_pos _⟩
      simp only
      by_cases hone : columns ≤ min maxBlockN (nextPowerOf2 (max columns 1))
      · rw [decide_eq_true hone]
        exact qsaBlockTopkKernel_single (le_nextPowerOf2 topK) hblock (visibleLimit_le.trans hone)
      · rw [decide_eq_false hone]
        exact qsaBlockTopkKernel_tiles (le_nextPowerOf2 topK) hpos hblock

/-! ### What is asked for -/

/-- The order of the scores: the greater one first, then the lesser column. -/
abbrev scoreOrder (logitsRow : ℕ → BitVec 32) (column : ℕ) : ℤᵒᵈ ×ₗ ℕ :=
  topOrder (fun column => scoreValue (logitsRow column)) column

/-- The winners by the scores, in the order of the columns. -/
def scoreWinners (logitsRow : ℕ → BitVec 32) (limit topK : ℕ) : List ℕ :=
  leastBy (scoreOrder logitsRow) topK (liveColumns logitsRow limit)

/-- A row with the winners by the scores at its front, padded with -1. -/
def scoreRow (logitsRow : ℕ → BitVec 32) (limit topK : ℕ) (out : ℕ → ℤ) : ℕ → ℤ :=
  row topK 0 (-1) out ((scoreWinners logitsRow limit topK).map fun column : ℕ => (column : ℤ))

/-- There are as many as there can be. -/
theorem length_scoreWinners :
    (scoreWinners logitsRow limit topK).length = min topK (liveColumns logitsRow limit).length :=
  length_leastBy nodup_liveColumns topOrder_injective.injOn

/-- The block top-k is exact: every path gives the winners by the scores, no store goes past the
slots it is for, and the scratch that the host asks for holds them all.  The tiles are those whose
packed counts fit an int32. -/
structure TopkExact (logitsRow : ℕ → BitVec 32) (visible : ℤ) (columns topK : ℕ) : Prop where
  host : ∀ scratch out, qsaBlockTopk logitsRow visible columns topK scratch out =
    scoreRow logitsRow (visibleLimit visible columns) topK out
  singleTile : ∀ padK blockN out, topK ≤ padK → columns ≤ blockN → blockN ≤ 0x7FFF →
    qsaBlockTopkKernel logitsRow visible columns topK padK blockN true out =
      scoreRow logitsRow (visibleLimit visible columns) topK out
  multiTile : ∀ padK blockN out, topK ≤ padK → 0 < blockN → blockN ≤ 0x7FFF →
    qsaBlockTopkKernel logitsRow visible columns topK padK blockN false out =
      scoreRow logitsRow (visibleLimit visible columns) topK out
  splitMerge : ∀ padK chunk nSplits blockSmall blockMid blockFull scratch out, topK ≤ padK →
    0 < chunk → chunk ≤ 0x7FFF → columns ≤ nSplits * chunk → blockSmall ≤ 0x7FFF →
      blockMid ≤ 0x7FFF →
    blockFull ≤ 0x7FFF → nSplits * topK ≤ blockFull →
    qsaTopkMergeKernel visible
      (splitCandidates logitsRow visible columns topK padK chunk nSplits scratch) columns
      topK padK chunk nSplits blockSmall blockMid blockFull out =
      scoreRow logitsRow (visibleLimit visible columns) topK out
  outSlots : ∀ scratch out j, topK ≤ j → qsaBlockTopk logitsRow visible columns topK scratch out j =
    out j
  splitSlots : ∀ padK chunk split scratch j, topK ≤ padK → chunk ≤ 0x7FFF →
    j < split * topK ∨ split * topK + topK ≤ j →
    (qsaTopkSplitKernel logitsRow visible columns topK padK chunk split scratch).key j =
      scratch.key j ∧
    (qsaTopkSplitKernel logitsRow visible columns topK padK chunk split scratch).col j =
      scratch.col j
  scratchWidth : ∀ chunk nSplits, splitPlan columns topK = some (chunk, nSplits) →
    qsaBlockTopkScratchWidth columns topK = 2 * (nSplits * topK) ∧
    ∀ scratch j, nSplits * topK ≤ j →
      (splitCandidates logitsRow visible columns topK (nextPowerOf2 topK) chunk nSplits scratch).key
        j = scratch.key j ∧
      (splitCandidates logitsRow visible columns topK (nextPowerOf2 topK) chunk nSplits scratch).col
        j = scratch.col j

/-! ### When it is what is asked for -/

/-- A column is not -1. -/
theorem column_eq {o o' : Option ℕ} (h : (o.map fun column : ℕ => (column : ℤ)).getD (-1) =
    (o'.map fun column : ℕ => (column : ℤ)).getD (-1)) : o = o' := by
  cases o with
  | none =>
    cases o' with
    | none => rfl
    | some d =>
      have h : (-1 : ℤ) = d := h
      omega
  | some c =>
    cases o' with
    | none =>
      have h : (c : ℤ) = -1 := h
      omega
    | some d => exact congrArg some (Int.ofNat_inj.mp h)

theorem row_eq_iff {l l' : List ℕ} (hl : l.length ≤ topK) (hl' : l'.length ≤ topK) :
    row topK 0 (-1) out (l.map fun column : ℕ => (column : ℤ)) =
      row topK 0 (-1) out (l'.map fun column : ℕ => (column : ℤ)) ↔ l = l' := by
  constructor
  · intro h
    apply List.ext_getElem?
    intro j
    by_cases hj : j < topK
    · have hget := congrFun h j
      unfold row at hget
      rw [if_pos (by omega), if_pos (by omega), Nat.sub_zero, List.getElem?_map, List.getElem?_map]
        at hget
      exact column_eq hget
    · rw [List.getElem?_eq_none (by omega), List.getElem?_eq_none (by omega)]
  · rintro rfl
    rfl

theorem rowWinners_length_le : (rowWinners logitsRow limit topK).length ≤ topK := by
  unfold rowWinners
  rw [length_leastBy nodup_liveColumns topOrder_injective.injOn]
  exact Nat.min_le_left _ _

theorem topkRow_eq_scoreRow_iff :
    topkRow logitsRow limit topK out = scoreRow logitsRow limit topK out ↔
      rowWinners logitsRow limit topK = scoreWinners logitsRow limit topK :=
  row_eq_iff rowWinners_length_le (by
    rw [length_scoreWinners]
    exact Nat.min_le_left _ _)

theorem keyValue_loadKeys {column : ℕ} (h : column ∈ liveColumns logitsRow limit) :
    keyValue (loadKeys logitsRow limit) column = (monotoneKey (logitsRow column)).toNat := by
  obtain ⟨hlt, hlive⟩ := List.mem_filter.mp h
  unfold keyValue loadKeys
  rw [if_pos ⟨List.mem_range.mp hlt, hlive⟩]

/-- A -0.0 wins, and a +0.0 at a later column does not. -/
def ZeroSplit (logitsRow : ℕ → BitVec 32) (limit topK : ℕ) : Prop :=
  ∃ c d, c < d ∧ d < limit ∧ logitsRow c = negZero ∧ logitsRow d = posZero ∧
    rankBy (scoreOrder logitsRow) (liveColumns logitsRow limit) c < topK ∧
    topK ≤ rankBy (scoreOrder logitsRow) (liveColumns logitsRow limit) d

/-- The images and the scores have the same winners unless the zeros are split. -/
theorem rowWinners_eq_scoreWinners_iff :
    rowWinners logitsRow limit topK = scoreWinners logitsRow limit topK ↔
      ¬ZeroSplit logitsRow limit topK := by
  unfold rowWinners scoreWinners ZeroSplit
  rw [eq_comm, leastBy_eq_iff nodup_liveColumns topOrder_injective.injOn topOrder_injective.injOn]
  constructor
  · rintro hsame ⟨c, d, hcd, hd, hc, hd', hin, hout⟩
    have hcLive : c ∈ liveColumns logitsRow limit := by
      apply List.mem_filter.mpr
      rw [hc]
      exact ⟨List.mem_range.mpr (hcd.trans hd), by decide⟩
    have hdLive : d ∈ liveColumns logitsRow limit := by
      apply List.mem_filter.mpr
      rw [hd']
      exact ⟨List.mem_range.mpr hd, by decide⟩
    have hkey :
        topOrder (keyValue (loadKeys logitsRow limit)) d < topOrder
        (keyValue (loadKeys logitsRow limit)) c := by
      rw [topOrder_lt, keyValue_loadKeys hcLive, keyValue_loadKeys hdLive]
      exact Or.inl (monotoneKey_lt_iff.mpr (Or.inr ⟨hc, hd'⟩))
    exact absurd (hsame c hcLive d hdLive hkey hin) (Nat.not_lt.mpr hout)
  · intro hsplit a ha b hb hkey hin
    rw [topOrder_lt, keyValue_loadKeys ha, keyValue_loadKeys hb] at hkey
    by_cases hle : scoreOrder logitsRow b ≤ scoreOrder logitsRow a
    · exact (rankBy_mono hle).trans_lt hin
    · -- the order of the scores is the other way round: they are the same, and the images differ
      rcases topOrder_lt.mp (not_le.mp hle) with hscore | ⟨hscore, hab⟩
      · have hless := (@monotoneKey_lt_iff (logitsRow b) (logitsRow a)).mpr (Or.inl hscore)
        omega
      · rcases hkey with hkey | ⟨-, hba⟩
        · rcases monotoneKey_lt_iff.mp hkey with hlt | ⟨hneg, hpos⟩
          · exact absurd hscore hlt.ne
          · by_contra hout
            exact hsplit ⟨a, b, hab, List.mem_range.mp (List.mem_filter.mp hb).1, hneg, hpos, hin,
              not_lt.mp hout⟩
        · exact absurd hab hba.asymm

/-- Every path is exact if and only if the zeros of the row are not split. -/
theorem topkExact_iff :
    TopkExact logitsRow visible columns topK ↔ ¬ZeroSplit logitsRow (visibleLimit visible columns)
      topK := by
  constructor
  · intro h
    -- one path is enough for this direction
    have hhost := h.host ⟨fun _ => 0#32, fun _ => 0⟩ fun _ => 0
    rw [qsaBlockTopk_eq_topkRow, topkRow_eq_scoreRow_iff, rowWinners_eq_scoreWinners_iff] at hhost
    exact hhost
  · intro h
    -- every path leaves the row of the winners by image
    have hrow : ∀ out, topkRow logitsRow (visibleLimit visible columns) topK out =
        scoreRow logitsRow (visibleLimit visible columns) topK out :=
      fun out => topkRow_eq_scoreRow_iff.mpr (rowWinners_eq_scoreWinners_iff.mpr h)
    constructor
    · intro scratch out
      rw [qsaBlockTopk_eq_topkRow, hrow]
    · intro padK blockN out hpad hfits hblock
      rw [qsaBlockTopkKernel_single hpad (hblock.trans (by decide)) (visibleLimit_le.trans hfits),
        hrow]
    · intro padK blockN out hpad hpos hblock
      rw [qsaBlockTopkKernel_tiles hpad hpos (hblock.trans (by decide)), hrow]
    · intro padK chunk nSplits blockSmall blockMid blockFull scratch out hpad hpos hchunk hcover
        hsmall hmid hfull hfits
      have hcandidates :=
        (@splitCandidates_spec topK padK chunk columns logitsRow visible scratch hpad (by omega)
          nSplits).1
      rw [qsaTopkMergeKernel_eq hpad hpos (visibleLimit_le.trans hcover) hcandidates (by omega)
        (by omega) (by omega) hfits, hrow]
    · intro scratch out j hj
      rw [qsaBlockTopk_eq_topkRow]
      unfold topkRow row
      rw [if_neg (by omega)]
    · intro padK chunk split scratch j hpad hchunk hj
      rw [qsaTopkSplitKernel_eq hpad (hchunk.trans (by decide))]
      show row topK (split * topK) 0#32 scratch.key _ j = _ ∧
        packed topK (split * topK) scratch.col _ j = _
      unfold row packed
      rw [if_neg (by omega), if_neg (by omega)]
      exact ⟨rfl, rfl⟩
    · intro chunk nSplits hplan
      obtain ⟨-, hchunk, -, -⟩ := splitPlan_spec hplan
      refine ⟨?_, fun scratch j hj => ?_⟩
      · unfold qsaBlockTopkScratchWidth
        rw [hplan]
        exact Nat.mul_assoc 2 nSplits topK
      · exact (splitCandidates_spec (le_nextPowerOf2 topK) (hchunk.trans (by decide)) nSplits).2 j
          hj

/-- A row of the two zeros, the negative one first. -/
def twoZeros (column : ℕ) : BitVec 32 := if column = 0 then negZero else posZero

/-- Of the two zeros the first one is asked for, and the other one comes out. -/
theorem not_topkExact_twoZeros : ¬TopkExact twoZeros 2 2 1 := by
  intro h
  have hhost := congrFun (h.singleTile 1 2 (fun _ => 0) (by decide) (by decide) (by decide)) 0
  exact absurd hhost (by decide +kernel)

end FreeToken.QsaTopk
