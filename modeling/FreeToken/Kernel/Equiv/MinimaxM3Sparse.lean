import FreeToken.Kernel.Equiv.BitonicTiles

/-!
# The block selection is a top-k

* `topkIndexKernel_top`, `topkIndexDecode_top`: what the two paths pick out.
* `selects_topk`: each path writes the best visible blocks, the best first.
-/

namespace FreeToken.MinimaxM3

open List Bitonic TopK

/-! ### What is extracted -/

variable {K T t : ℕ}

theorem extractScore_eq {x : ℕ → Fp32} (hx : x t ≠ negZero) : extractScore K T x t = x t := by
  unfold extractScore
  generalize range' 1 (K / T - 1) = l
  induction l with
  | nil => rfl
  | cons r l ih =>
    rw [foldl_cons]
    have hplus : plus (times (x t) true) (times (x (r * T + t)) false) = times (x t) true :=
      plus_times hx _
    rw [hplus]
    exact ih

theorem extractIdx_eq {ids : ℕ → ℤ} (hT : 0 < T) (hTK : T ≤ K) : extractIdx K T ids t = ids t := by
  have hrows : 0 < K / T := Nat.div_pos hTK hT
  have hrest : ∀ (l : List ℕ) (acc : ℤ),
      (l.map Nat.succ).foldl (fun acc r => acc + (if r == 0 then 1 else 0) * ids (r * T + t)) acc =
        acc := by
    intro l
    induction l with
    | nil => exact fun acc => rfl
    | cons r l ih =>
      intro acc
      rw [map_cons, foldl_cons, ih, beq_false_of_ne (Nat.succ_ne_zero r), if_neg Bool.false_ne_true,
        Int.zero_mul, Int.add_zero]
  unfold extractIdx
  obtain ⟨r, hr⟩ := Nat.exists_eq_add_of_lt hrows
  rw [hr, Nat.zero_add, range_succ_eq_map, foldl_cons, hrest]
  simp

theorem nextPowerOf2_pos (n : ℕ) : 0 < nextPowerOf2 n := Nat.two_pow_pos _

theorem le_nextPowerOf2 (n : ℕ) : n ≤ nextPowerOf2 n := Nat.le_pow_clog one_lt_two n

theorem nextPowerOf2_le {n m : ℕ} (h : n ≤ 2 ^ m) : nextPowerOf2 n ≤ 2 ^ m :=
  Nat.pow_le_pow_right two_pos ((Nat.clog_le_iff_le_pow one_lt_two).mpr h)

/-! ### The entries of a row -/

def blockEntry (score : ℕ → Fp32) (b : ℕ) : Fp32 × ℕ := (clean (score b), b + 1)

theorem clean_clean (x : Fp32) : clean (clean x) = clean x := by
  unfold clean
  by_cases h : isNan x = true
  · rw [if_pos h]
    rfl
  · rw [if_neg h, if_neg h]

theorem clean_of_finite {x : Fp32} (h : isFinite x = true) : clean x = x := by
  have hlt : magnitude x < infinity := of_decide_eq_true h
  have hnan : ¬isNan x = true := fun hnan => absurd (of_decide_eq_true hnan) (by omega)
  rw [clean, if_neg hnan]

theorem clean_ne_negZero {x : Fp32} (h : x ≠ negZero) : clean x ≠ negZero := by
  unfold clean
  split
  · decide
  · exact h

/-- The blocks of a row that are visible, with empty lanes behind them. -/
def rowEntry (score : ℕ → Fp32) (start count b : ℕ) : Fp32 × ℕ :=
  if b < count then blockEntry score (start + b) else emptyEntry

theorem rowEntry_empty {score : ℕ → Fp32} {start count b : ℕ} (h : count ≤ b) :
    rowEntry score start count b = emptyEntry := if_neg (not_lt.mpr h)

theorem block_rowEntry (score : ℕ → Fp32) (start count : ℕ) :
    block (rowEntry score start count) 0 count = block (blockEntry score) start count := by
  refine map_congr_left fun q hq => ?_
  rw [Nat.zero_add, rowEntry, if_pos (mem_range.mp hq)]

theorem rowEntry_ne_negZero {score : ℕ → Fp32} {start count : ℕ}
    (h : ∀ b < count, score (start + b) ≠ negZero) (b : ℕ) :
    (rowEntry score start count b).1 ≠ negZero := by
  unfold rowEntry
  split
  · next hb => exact clean_ne_negZero (h b hb)
  · decide

/-! ### Prefill -/

variable {s : ℕ → Fp32} {n topk initBlocks localBlocks nDims : ℕ}

theorem prefillTile_entry (s : ℕ → Fp32) (n initBlocks localBlocks i p : ℕ) :
    (prefillTile s n initBlocks localBlocks i).entry p =
      rowEntry (decodeScore n initBlocks localBlocks s) 0 n (i + p) := by
  simp only [Tile.entry, prefillTile, rowEntry, blockEntry, decodeScore, Nat.zero_add]
  by_cases hcausal : i + p < n
  · simp only [hcausal, decide_true, Bool.true_and, if_true, decide_eq_true_eq]
    by_cases hlocal : n - localBlocks ≤ i + p
    · rw [if_pos hlocal, if_pos hlocal]
      rfl
    · rw [if_neg hlocal, if_neg hlocal]
      by_cases hinit : i + p < initBlocks
      · rw [if_pos hinit, if_pos hinit]
        rfl
      · rw [if_neg hinit, if_neg hinit]
  · simp only [hcausal, decide_false, Bool.false_and, if_false, Bool.false_eq_true]
    rfl

def written (t : ℕ → Fp32 × ℕ) (n topk : ℕ) : List ℤ :=
  (range topk).map fun off => if off < n then ((t off).2 : ℤ) - 1 else -1

/-- A power of two below another is at most half of it. -/
theorem two_mul_le_of_lt (h : nextPowerOf2 topk < 2 ^ nDims) :
    2 * nextPowerOf2 topk ≤ 2 ^ nDims := by
  have hlt : Nat.clog 2 topk < nDims := (Nat.pow_lt_pow_iff_right one_lt_two).mp h
  have hle := Nat.pow_le_pow_right two_pos hlt
  rwa [pow_succ'] at hle

theorem topkIndexKernel_top {blockSize prefixLen pidQ : ℕ}
    (hn : validBlocks blockSize prefixLen pidQ = n)
    (hfit : nextPowerOf2 topk < 2 ^ nDims)
    (hs : ∀ b < n, decodeScore n initBlocks localBlocks s b ≠ negZero) :
    ∃ t : ℕ → Fp32 × ℕ, ∃ m,
      topkIndexKernel nDims blockSize prefixLen pidQ topk initBlocks localBlocks s =
        written t n topk ∧
        IsTop entryRank (nextPowerOf2 topk)
          (block (blockEntry (decodeScore n initBlocks localBlocks s)) 0 n ++
            replicate m emptyEntry) (block t 0 (nextPowerOf2 topk)) := by
  obtain ⟨m, htop, -⟩ := stream_isTop nDims n (prefillTile s n initBlocks localBlocks)
    (rowEntry (decodeScore n initBlocks localBlocks s) 0 n)
    (fun c p _ => prefillTile_entry s n _ _ _ p)
    (rowEntry_ne_negZero fun b hb => by rw [Nat.zero_add]; exact hs b hb)
    (fun b hb => rowEntry_empty hb) (nextPowerOf2_pos topk) hfit.le (.inl (two_mul_le_of_lt hfit))
  rw [block_rowEntry] at htop
  refine ⟨_, m, ?_, htop⟩
  subst hn
  refine map_congr_left fun off _ => ?_
  rw [extractIdx_eq (nextPowerOf2_pos topk) hfit.le]
  rfl

/-! ### Decode -/

section

variable {score : ℕ → Fp32} {numChunks : ℕ}

theorem chunkTile_entry (score : ℕ → Fp32) (start actual i p : ℕ) :
    (chunkTile score start actual i).entry p = rowEntry score start actual (i + p) := by
  simp only [Tile.entry, chunkTile, rowEntry, blockEntry, add_assoc]
  by_cases h : p < actual - i
  · rw [if_pos h, if_pos h, if_pos (by omega)]
  · rw [if_neg h, if_neg h, if_neg (by omega)]
    rfl

theorem flatMap_chunks {α : Type*} (g : ℕ → α) (hC : 0 < numChunks) :
    (range numChunks).flatMap
    (fun c => block g (c * chunkBlocks n numChunks) (chunkActual n numChunks c)) =
      block g 0 n := by
  have hall : ∀ C, (range C).flatMap
      (fun c => block g (c * chunkBlocks n numChunks) (chunkActual n numChunks c)) =
        block g 0 (min (C * chunkBlocks n numChunks) n) := by
    intro C
    induction C with
    | zero => simp [block]
    | succ C ih =>
      rw [range_succ, flatMap_append, ih, flatMap_singleton, add_mul C 1, one_mul, chunkActual]
      generalize chunkBlocks n numChunks = size
      by_cases h : C * size ≤ n
      · have hsplit :
          min (C * size + size) n = C * size + (min (C * size + size) n - C * size) := by omega
        rw [min_eq_left h]
        conv_rhs => rw [hsplit]
        rw [block_add, Nat.zero_add]
      · have hzero : min (C * size + size) n - C * size = 0 := by omega
        have hsame : min (C * size + size) n = min (C * size) n := by omega
        rw [hzero, hsame]
        exact append_nil _
  have hcover : n ≤ numChunks * chunkBlocks n numChunks := by
    have hdiv := Nat.div_add_mod (n + numChunks - 1) numChunks
    have hmod := Nat.mod_lt (n + numChunks - 1) hC
    unfold chunkBlocks
    omega
  rw [hall, min_eq_right hcover]

theorem chunkActual_le (c : ℕ) : chunkActual n numChunks c ≤ chunkBlocks n numChunks := by
  unfold chunkActual
  omega

theorem add_lt_of_lt_chunkActual {c b : ℕ} (hb : b < chunkActual n numChunks c) :
    c * chunkBlocks n numChunks + b < n := by
  unfold chunkActual at hb
  omega

theorem topkIndexPartialKernel_top (hT : nextPowerOf2 topk ≤ 2 ^ nDims)
    (hfit : 2 * nextPowerOf2 topk ≤ 2 ^ nDims ∨ chunkBlocks n numChunks ≤ 2 ^ nDims)
    (hs : ∀ b < n, score b ≠ negZero) (c : ℕ) :
    ∃ m, IsTop entryRank (nextPowerOf2 topk)
      (block (blockEntry score) (c * chunkBlocks n numChunks) (chunkActual n numChunks c) ++
        replicate m emptyEntry)
      (block (topkIndexPartialKernel nDims topk n numChunks score c).entry 0
        (nextPowerOf2 topk)) := by
  obtain ⟨m, htop, hplain⟩ := stream_isTop nDims (chunkActual n numChunks c)
    (chunkTile score (c * chunkBlocks n numChunks) (chunkActual n numChunks c))
    (rowEntry score (c * chunkBlocks n numChunks) (chunkActual n numChunks c))
    (fun i p _ => chunkTile_entry score _ _ _ p)
    (rowEntry_ne_negZero fun b hb => hs _ (add_lt_of_lt_chunkActual hb))
    (fun b hb => rowEntry_empty hb) (nextPowerOf2_pos topk) hT
    (hfit.imp id fun h => (chunkActual_le c).trans h)
  rw [block_rowEntry] at htop
  refine ⟨m, ?_⟩
  have hblock :
      block (topkIndexPartialKernel nDims topk n numChunks score c).entry 0 (nextPowerOf2 topk) =
      block (stream nDims (chunkActual n numChunks c)
        (chunkTile score (c * chunkBlocks n numChunks) (chunkActual n numChunks c))).entry 0
          (nextPowerOf2 topk) := by
    refine map_congr_left fun q hq => ?_
    have hq : q < nextPowerOf2 topk := mem_range.mp hq
    simp only [Nat.zero_add, Tile.entry, topkIndexPartialKernel]
    rw [extractScore_eq (hplain q (hq.trans_le hT)), extractIdx_eq (nextPowerOf2_pos topk) hT,
      Int.toNat_natCast]
  rwa [hblock]

def mergeTile (T numChunks : ℕ) (parts : ℕ → Tile) : Tile where
  x := fun off => clean (if off / T < numChunks then (parts (off / T)).x (off % T) else emptyScore)
  ids := fun off => if off / T < numChunks then (parts (off / T)).ids (off % T) else 0

def mergedTile (T numChunks : ℕ) (parts : ℕ → Tile) : Tile :=
  let nDims := Nat.clog 2 (numChunks * T)
  bitonicMerge (bitonicStages (mergeTile T numChunks parts) nDims) nDims 1 nDims

/-- No lane below `T` of a part holds a NaN or a negative zero. -/
def CleanParts (T numChunks : ℕ) (parts : ℕ → Tile) : Prop :=
  ∀ c < numChunks, ∀ q < T, clean ((parts c).x q) = (parts c).x q ∧ (parts c).x q ≠ negZero

variable {parts : ℕ → Tile}

theorem mergeTile_entry (hparts : CleanParts T numChunks parts) {c q : ℕ} (hc : c < numChunks)
    (hq : q < T) :
    (mergeTile T numChunks parts).entry (c * T + q) = (parts c).entry q := by
  have hdiv : (c * T + q) / T = c := by
    rw [mul_comm, Nat.mul_add_div (by omega), Nat.div_eq_of_lt hq, add_zero]
  have hmod : (c * T + q) % T = q := by
    rw [mul_comm, Nat.mul_add_mod, Nat.mod_eq_of_lt hq]
  simp only [Tile.entry, mergeTile, hdiv, hmod, if_pos hc, (hparts c hc q hq).1]

theorem mergeTile_block (hparts : CleanParts T numChunks parts) :
    block (mergeTile T numChunks parts).entry 0 (numChunks * T) =
      (range numChunks).flatMap fun c => block (parts c).entry 0 T := by
  have hall : ∀ C ≤ numChunks, block (mergeTile T numChunks parts).entry 0 (C * T) =
      (range C).flatMap fun c => block (parts c).entry 0 T := by
    intro C hC
    induction C with
    | zero => simp [block]
    | succ C ih =>
      rw [add_mul C 1, one_mul, block_add, ih (Nat.le_of_succ_le hC), range_succ, flatMap_append,
        flatMap_singleton, Nat.zero_add]
      congr 1
      refine map_congr_left fun q hq => ?_
      rw [Nat.zero_add, mergeTile_entry hparts hC (mem_range.mp hq)]
  exact hall numChunks le_rfl

theorem mergeTile_empty (hT : 0 < T) {off : ℕ} (h : numChunks * T ≤ off) :
    (mergeTile T numChunks parts).entry off = emptyEntry := by
  have hdiv : ¬off / T < numChunks := not_lt.mpr ((Nat.le_div_iff_mul_le hT).mpr h)
  simp only [Tile.entry, mergeTile, if_neg hdiv]
  rfl

theorem mergeTile_plain (hT : 0 < T) (hparts : CleanParts T numChunks parts) (N : ℕ) :
    Plain N (mergeTile T numChunks parts) := by
  intro off _
  by_cases h : off / T < numChunks
  · have hsplit := Nat.div_add_mod off T
    rw [mul_comm] at hsplit
    have hentry := mergeTile_entry hparts h (Nat.mod_lt off hT)
    rw [hsplit] at hentry
    have hx : (mergeTile T numChunks parts).x off = (parts (off / T)).x (off % T) :=
      congrArg Prod.fst hentry
    rw [hx]
    exact (hparts _ h _ (Nat.mod_lt off hT)).2
  · have hx : (mergeTile T numChunks parts).x off = emptyScore :=
      congrArg Prod.fst (mergeTile_empty hT ((Nat.le_div_iff_mul_le hT).mp (not_lt.mp h)))
    rw [hx]
    decide

/-- Where each part has the greatest of its entries, the merge has the greatest of all. -/
theorem topkIndexMergeKernel_top {F : ℕ → List (Fp32 × ℕ)} (hC : 0 < numChunks)
    (hparts : CleanParts (nextPowerOf2 topk) numChunks parts)
    (htop : ∀ c < numChunks, IsTop entryRank (nextPowerOf2 topk) (F c)
      (block (parts c).entry 0 (nextPowerOf2 topk))) :
    ∃ t : ℕ → Fp32 × ℕ, ∃ m, topkIndexMergeKernel topk n numChunks parts = written t n topk ∧
      IsTop entryRank (nextPowerOf2 topk) ((range numChunks).flatMap F ++ replicate m emptyEntry)
        (block t 0 (nextPowerOf2 topk)) := by
  have hTpos := nextPowerOf2_pos topk
  have hle : numChunks * nextPowerOf2 topk ≤ 2 ^ Nat.clog 2 (numChunks * nextPowerOf2 topk) :=
    Nat.le_pow_clog one_lt_two _
  have hTle : nextPowerOf2 topk ≤ 2 ^ Nat.clog 2 (numChunks * nextPowerOf2 topk) :=
    (Nat.le_mul_of_pos_left _ hC).trans hle
  obtain ⟨hperm, hordered, -⟩ :=
    sorted_tile (mergeTile_plain hTpos hparts (2 ^ Nat.clog 2 (numChunks * nextPowerOf2 topk))) true
  refine ⟨(mergedTile (nextPowerOf2 topk) numChunks parts).entry,
    2 ^ Nat.clog 2 (numChunks * nextPowerOf2 topk) - numChunks * nextPowerOf2 topk, ?_, ?_⟩
  rotate_left
  · refine IsTop.flatten (fun c hc => htop c (mem_range.mp hc)) ?_
    rw [← block_take hTle]
    refine isTop_take (pairwise_of_ordered hordered) (hperm.trans ?_) _
    obtain ⟨r, hr⟩ := Nat.exists_eq_add_of_le hle
    rw [hr, block_add, mergeTile_block hparts, Nat.add_sub_cancel_left, Nat.zero_add,
      block_const fun q _ => mergeTile_empty hTpos (Nat.le_add_right _ q)]
  · refine map_congr_left fun off hoff => ?_
    have hoff : off < topk := mem_range.mp hoff
    rw [extractIdx_eq hTpos hTle]
    exact if_congr (by omega) rfl rfl

theorem flatMap_replicate {α ι : Type*} (l : List ι) (m : ι → ℕ) (a : α) :
    l.flatMap (fun i => replicate (m i) a) = replicate (l.map m).sum a := by
  induction l with
  | nil => rfl
  | cons i l ih => rw [flatMap_cons, ih, map_cons, sum_cons, replicate_add]

theorem topkIndexDecode_top (hC : 0 < numChunks) (hT : nextPowerOf2 topk ≤ 2 ^ nDims)
    (hfit : 2 * nextPowerOf2 topk ≤ 2 ^ nDims ∨ chunkBlocks n numChunks ≤ 2 ^ nDims)
    (hs : ∀ b < n, score b ≠ negZero) :
    ∃ t : ℕ → Fp32 × ℕ, ∃ m, topkIndexDecode nDims topk n numChunks score = written t n topk ∧
      IsTop entryRank (nextPowerOf2 topk) (block (blockEntry score) 0 n ++ replicate m emptyEntry)
        (block t 0 (nextPowerOf2 topk)) := by
  have hpartial := topkIndexPartialKernel_top hT hfit hs
  choose m hm using hpartial
  have hparts :
      CleanParts (nextPowerOf2 topk) numChunks
      (topkIndexPartialKernel nDims topk n numChunks score) := by
    intro c _ q hq
    have hmem : (topkIndexPartialKernel nDims topk n numChunks score c).entry q ∈
        block (topkIndexPartialKernel nDims topk n numChunks score c).entry 0 (nextPowerOf2 topk) :=
      mem_block.mpr ⟨q, hq, by rw [Nat.zero_add]⟩
    rcases mem_append.mp ((hm c).subperm.subset hmem) with hblock | hpad
    · obtain ⟨b, hb, heq⟩ := mem_block.mp hblock
      have hx : clean (score (c * chunkBlocks n numChunks + b)) =
          (topkIndexPartialKernel nDims topk n numChunks score c).x q := congrArg Prod.fst heq
      rw [← hx]
      exact ⟨clean_clean _, clean_ne_negZero (hs _ (add_lt_of_lt_chunkActual hb))⟩
    · have hx : (topkIndexPartialKernel nDims topk n numChunks score c).x q = emptyScore :=
        congrArg Prod.fst (eq_of_mem_replicate hpad)
      rw [hx]
      exact ⟨rfl, by decide⟩
  obtain ⟨t, r, hwritten, htop⟩ := topkIndexMergeKernel_top (n := n) hC hparts fun c _ => hm c
  refine ⟨t, ((range numChunks).map m).sum + r, hwritten, htop.congr ?_⟩
  rw [replicate_add, ← append_assoc, ← flatMap_chunks (n := n) (blockEntry score) hC,
    ← flatMap_replicate]
  exact .append_right _ (flatMap_append_perm _ _ _).symm

end

/-! ### What is written -/

def chosenRank (score : ℕ → Fp32) (b : ℕ) : ℤ := rank (score b)

variable {score : ℕ → Fp32}

theorem picks_of_top {t : ℕ → Fp32 × ℕ} {m : ℕ} (hT : topk ≤ T)
    (htop : IsTop entryRank T (block (blockEntry score) 0 n ++ replicate m emptyEntry)
      (block t 0 T))
    (hfin : ∀ b < n, isFinite (score b) = true) (hlow : ∀ b < n, rank emptyScore < rank (score b)) :
    ∃ picks : List ℕ, IsTop (chosenRank score) (min topk n) (range n) picks ∧
      written t n topk = picks.map (fun b : ℕ => (b : ℤ)) ++ replicate (topk - min topk n)
        (-1) := by
  have hle : min topk n ≤ T := (min_le_left topk n).trans hT
  have hrow : block (blockEntry score) 0 n = (range n).map (blockEntry score) :=
    map_congr_left fun q _ => by rw [Nat.zero_add]
  have hrank : ∀ b ∈ range n, entryRank (blockEntry score b) = chosenRank score b := fun b hb =>
    congrArg rank (clean_of_finite (hfin b (mem_range.mp hb)))
  have hfront :
      IsTop entryRank (min topk n) ((range n).map (blockEntry score)) (block t 0 (min topk n)) := by
    have htake := htop.take hle
    rw [block_take hle, hrow] at htake
    refine htake.of_append ?_ fun a ha b hb => ?_
    · rw [length_map, length_range]
      exact min_le_right topk n
    · obtain ⟨c, hc, rfl⟩ := mem_map.mp ha
      rw [eq_of_mem_replicate hb, hrank c hc]
      exact hlow c (mem_range.mp hc)
  refine ⟨(block t 0 (min topk n)).map fun e => e.2 - 1, hfront.unmap hrank fun b _ => rfl, ?_⟩
  -- the entries behind the visible ones are written as -1
  have hsplit : range topk = range (min topk n) ++
      (range (topk - min topk n)).map fun q => min topk n + q := by
    rw [← range_add, Nat.add_sub_cancel' (min_le_left topk n)]
  rw [written, hsplit, map_append, map_map]
  congr 1
  · rw [block, map_map, map_map]
    refine map_congr_left fun q hq => ?_
    have hq : q < min topk n := mem_range.mp hq
    obtain ⟨b, -, hb⟩ := mem_map.mp (hfront.subperm.subset (mem_block.mpr ⟨q, hq, rfl⟩))
    rw [if_pos (by omega)]
    simp only [Function.comp_apply]
    rw [Nat.zero_add] at hb ⊢
    rw [← hb]
    exact Int.add_sub_cancel (b : ℤ) 1
  · refine (map_congr_left fun q hq => ?_).trans (by rw [map_const', length_range])
    have hq : q < topk - min topk n := mem_range.mp hq
    exact if_neg (show ¬min topk n + q < n by omega)

def forced (n initBlocks localBlocks b : ℕ) : Bool := n - localBlocks ≤ b || b < initBlocks

/-- What a row of `n` visible blocks makes a path write: the blocks `picks`, and -1 behind them. -/
structure Selects (s : ℕ → Fp32) (n topk initBlocks localBlocks : ℕ) (picks : List ℕ)
    (out : List ℤ) : Prop where
  out_eq : out = picks.map (fun b : ℕ => (b : ℤ)) ++ replicate (topk - min topk n) (-1)
  length_eq : picks.length = min topk n
  nodup : picks.Nodup
  visible : ∀ b ∈ picks, b < n
  best : picks.map (chosenRank (decodeScore n initBlocks localBlocks s)) =
    (((range n).map (chosenRank (decodeScore n initBlocks localBlocks s))).insertionSort
      (· ≥ ·)).take (min topk n)
  forced_mem : (∀ b < n, forced n initBlocks localBlocks b = false → rank (s b) < rank localScore) →
    ((range n).filter (forced n initBlocks localBlocks)).length ≤ topk →
    ∀ b < n, forced n initBlocks localBlocks b = true → b ∈ picks
  all_mem : n ≤ topk → ∀ b < n, b ∈ picks

theorem localScore_le_of_forced {b : ℕ} (h : forced n initBlocks localBlocks b = true) :
    rank localScore ≤ rank (decodeScore n initBlocks localBlocks s b) := by
  unfold decodeScore
  split
  · exact le_rfl
  · next hlocal =>
    have hinit : b < initBlocks := by simpa [forced, hlocal] using h
    rw [if_pos hinit]
    decide

theorem decodeScore_of_not_forced {b : ℕ} (h : forced n initBlocks localBlocks b = false) :
    decodeScore n initBlocks localBlocks s b = s b := by
  have hnot : ¬n - localBlocks ≤ b ∧ ¬b < initBlocks := by simpa [forced] using h
  rw [decodeScore, if_neg hnot.1, if_neg hnot.2]

theorem selects_of_top {picks : List ℕ} {out : List ℤ}
    (htop : IsTop (chosenRank (decodeScore n initBlocks localBlocks s)) (min topk n) (range n)
      picks) (hout : out = picks.map (fun b : ℕ => (b : ℤ)) ++ replicate (topk - min topk n) (-1)) :
    Selects s n topk initBlocks localBlocks picks out where
  out_eq := hout
  length_eq := by
    rw [htop.length_eq, length_range]
    omega
  nodup := by
    obtain ⟨l, hperm, hsub⟩ := htop.subperm
    exact hperm.nodup_iff.mp (nodup_range.sublist hsub)
  visible b hb := mem_range.mp (htop.subperm.subset hb)
  best := htop.keys
  forced_mem hlow hfit b hb hforced := by
    refine htop.mem_of_atLeast_le (mem_range.mpr hb) ?_
    -- no more blocks are as good than are forced
    have hsub : atLeast (chosenRank (decodeScore n initBlocks localBlocks s))
        (chosenRank (decodeScore n initBlocks localBlocks s) b) (range n) ≤
          ((range n).filter (forced n initBlocks localBlocks)).length := by
      rw [← countP_eq_length_filter]
      refine countP_mono_left fun c hc hle => ?_
      have hle : chosenRank (decodeScore n initBlocks localBlocks s) b ≤
          chosenRank (decodeScore n initBlocks localBlocks s) c := of_decide_eq_true hle
      cases hcf : forced n initBlocks localBlocks c with
      | true => rfl
      | false =>
        have hlt := hlow c (mem_range.mp hc) hcf
        have hge : rank localScore ≤ chosenRank (decodeScore n initBlocks localBlocks s) c :=
          (localScore_le_of_forced hforced).trans hle
        rw [chosenRank, decodeScore_of_not_forced hcf] at hge
        omega
    have hlen : ((range n).filter (forced n initBlocks localBlocks)).length ≤ n :=
      (length_filter_le _ _).trans length_range.le
    omega
  all_mem hle b hb := by
    refine htop.mem_of_length_le ?_ (mem_range.mpr hb)
    rw [length_range]
    omega

def writtenRank (score : ℕ → Fp32) (z : ℤ) : Option ℤ :=
  if z < 0 then none else some (chosenRank score z.toNat)

/-- What is written is determined up to blocks of one score. -/
theorem Selects.map_writtenRank {picks : List ℕ} {out : List ℤ}
    (h : Selects s n topk initBlocks localBlocks picks out) :
    out.map (writtenRank (decodeScore n initBlocks localBlocks s)) =
      ((((range n).map (chosenRank (decodeScore n initBlocks localBlocks s))).insertionSort
        (· ≥ ·)).take (min topk n)).map some ++ replicate (topk - min topk n) none := by
  rw [h.out_eq, map_append, ← h.best, map_map, map_map, map_replicate]
  congr 1

/-- The rows that both paths select from. -/
structure Row (s : ℕ → Fp32) (n initBlocks localBlocks : ℕ) : Prop where
  finite : ∀ b < n, isFinite (s b) = true
  nonzero : ∀ b < n, decodeScore n initBlocks localBlocks s b ≠ negZero
  above : ∀ b < n, rank emptyScore < rank (decodeScore n initBlocks localBlocks s b)

theorem finite_decodeScore {b : ℕ} (h : isFinite (s b) = true) :
    isFinite (decodeScore n initBlocks localBlocks s b) = true := by
  unfold decodeScore
  split
  · rfl
  · split
    · rfl
    · exact h

theorem prefill_selects {blockSize prefixLen pidQ : ℕ} (hrow : Row s n initBlocks localBlocks)
    (hn : validBlocks blockSize prefixLen pidQ = n) (hfit : nextPowerOf2 topk < 2 ^ nDims) :
    ∃ picks, Selects s n topk initBlocks localBlocks picks
      (topkIndexKernel nDims blockSize prefixLen pidQ topk initBlocks localBlocks s) := by
  obtain ⟨t, m, hwritten, htop⟩ := topkIndexKernel_top hn hfit hrow.nonzero
  obtain ⟨picks, hpicks, hout⟩ := picks_of_top (le_nextPowerOf2 topk) htop
    (fun b hb => finite_decodeScore (hrow.finite b hb)) hrow.above
  exact ⟨picks, selects_of_top hpicks (hwritten.trans hout)⟩

theorem decode_selects {numChunks : ℕ} (hrow : Row s n initBlocks localBlocks) (hC : 0 < numChunks)
    (hassert : topk < 2 ^ nDims) (hfit : 2 * nextPowerOf2 topk ≤ 2 ^ nDims ∨
      chunkBlocks n numChunks ≤ 2 ^ nDims) :
    ∃ picks, Selects s n topk initBlocks localBlocks picks
      (topkIndexDecode nDims topk n numChunks (decodeScore n initBlocks localBlocks s)) := by
  obtain ⟨t, m, hwritten, htop⟩ :=
    topkIndexDecode_top hC (nextPowerOf2_le hassert.le) hfit hrow.nonzero
  obtain ⟨picks, hpicks, hout⟩ := picks_of_top (le_nextPowerOf2 topk) htop
    (fun b hb => finite_decodeScore (hrow.finite b hb)) hrow.above
  exact ⟨picks, selects_of_top hpicks (hwritten.trans hout)⟩

/-- Both paths write the best of the visible blocks, the best first, and they agree up to blocks of
one score.  The decode path does where the better half of a tile holds the chosen ones, or where no
chunk is longer than a tile. -/
theorem selects_topk (hrow : Row s n initBlocks localBlocks) :
    (∀ nDims blockSize prefixLen pidQ, validBlocks blockSize prefixLen pidQ = n →
      nextPowerOf2 topk < 2 ^ nDims →
      ∃ picks, Selects s n topk initBlocks localBlocks picks
        (topkIndexKernel nDims blockSize prefixLen pidQ topk initBlocks localBlocks s)) ∧
    (∀ nDims numChunks, 0 < numChunks → topk < 2 ^ nDims →
      (2 * nextPowerOf2 topk ≤ 2 ^ nDims ∨ chunkBlocks n numChunks ≤ 2 ^ nDims) →
      ∃ picks, Selects s n topk initBlocks localBlocks picks
        (topkIndexDecode nDims topk n numChunks (decodeScore n initBlocks localBlocks s))) ∧
    ∀ nDims blockSize prefixLen pidQ mDims numChunks, validBlocks blockSize prefixLen pidQ = n →
      nextPowerOf2 topk < 2 ^ nDims → 0 < numChunks → topk < 2 ^ mDims →
      (2 * nextPowerOf2 topk ≤ 2 ^ mDims ∨ chunkBlocks n numChunks ≤ 2 ^ mDims) →
      (topkIndexKernel nDims blockSize prefixLen pidQ topk initBlocks localBlocks s).map
          (writtenRank (decodeScore n initBlocks localBlocks s)) =
        (topkIndexDecode mDims topk n numChunks (decodeScore n initBlocks localBlocks s)).map
          (writtenRank (decodeScore n initBlocks localBlocks s)) := by
  refine ⟨fun nDims blockSize prefixLen pidQ hn hfit => prefill_selects hrow hn hfit,
    fun nDims numChunks hC hassert hfit => decode_selects hrow hC hassert hfit, ?_⟩
  intro nDims blockSize prefixLen pidQ mDims numChunks hn hfit hC hassert hfit'
  obtain ⟨picks, hpicks⟩ := prefill_selects hrow hn hfit
  obtain ⟨picks', hpicks'⟩ := decode_selects hrow hC hassert hfit'
  rw [hpicks.map_writtenRank, hpicks'.map_writtenRank]

/-- Three blocks with the score 1.0, of which the last is forced. -/
theorem selects_topk_three :
    Row (fun _ => 0x3F800000#32) 3 0 1 ∧
      ∃ picks, Selects (fun _ => 0x3F800000#32) 3 2 0 1 picks
        (topkIndexKernel 6 sparseBlockSize 300 0 2 0 1 fun _ => 0x3F800000#32) := by
  have hrow : Row (fun _ => 0x3F800000#32) 3 0 1 := ⟨by decide, by decide, by decide⟩
  exact ⟨hrow, (selects_topk hrow).1 6 sparseBlockSize 300 0 (by decide) (by decide)⟩

/-- A visible block with the score -2e30 is behind the empty lanes: -1 is written for it. -/
theorem not_selects_topk_low :
    isFinite 0xF1C9F2CA#32 = true ∧ validBlocks sparseBlockSize 0 0 = 1 ∧ nextPowerOf2 2 < 2 ^ 6 ∧
      ¬∃ picks, Selects (fun _ => 0xF1C9F2CA#32) 1 2 0 0 picks
        (topkIndexKernel 6 sparseBlockSize 0 0 2 0 0 fun _ => 0xF1C9F2CA#32) := by
  refine ⟨by decide, by decide, by decide, ?_⟩
  rintro ⟨picks, hpicks⟩
  have hT : nextPowerOf2 2 = 2 := by decide
  have hn : validBlocks sparseBlockSize 0 0 = 1 := by decide
  have hfit : nextPowerOf2 2 < 2 ^ 6 := by decide
  have hplain : ∀ b < 1, decodeScore 1 0 0 (fun _ => 0xF1C9F2CA#32) b ≠ negZero := by decide
  obtain ⟨t, m, hwritten, htop⟩ := topkIndexKernel_top hn hfit hplain
  rw [hT] at htop
  have hlen := htop.length_eq
  rw [length_block, length_append, length_block, length_replicate] at hlen
  have hblock : block t 0 2 = [t 0, t 1] := rfl
  rw [hblock] at htop
  -- the first entry is an empty one
  have hfirst : t 0 = emptyEntry := by
    rcases mem_append.mp (htop.subperm.subset mem_cons_self) with hlow | hpad
    · have hrank0 : entryRank (t 0) < rank emptyScore := by
        rw [mem_singleton.mp hlow]
        decide
      have hrank1 : entryRank (t 1) ≤ entryRank (t 0) := by
        have hsorted := htop.sorted
        simpa using hsorted
      have hcount := htop.atLeast_eq (rank emptyScore)
      rw [atLeast_eq_zero (L := [t 0, t 1]) (by simpa using ⟨hrank0, hrank1.trans_lt hrank0⟩),
        atLeast_append, atLeast_eq_length (L := replicate m emptyEntry) fun a ha => by
          rw [eq_of_mem_replicate ha]
          exact le_rfl, length_replicate] at hcount
      omega
    · exact eq_of_mem_replicate hpad
  have hout := hpicks.out_eq
  rw [hwritten] at hout
  obtain ⟨b, hb⟩ := length_eq_one_iff.mp hpicks.length_eq
  rw [hb] at hout
  have hhead : (((t 0).2 : ℤ) - 1) = (b : ℤ) := (List.cons.inj hout).1
  rw [hfirst] at hhead
  have hneg : (-1 : ℤ) = b := hhead
  omega

/-! ### The launch -/

theorem numTopkChunks_pos (numReqs numIdxHeads : ℕ) : 0 < numTopkChunks numReqs numIdxHeads := by
  unfold numTopkChunks
  rw [Nat.one_shiftLeft]
  exact Nat.two_pow_pos _

theorem m3IndexDecode_selects {numReqs numIdxHeads : ℕ} {seqLen : ℤ}
    (hn : numBlocks sparseBlockSize seqLen = n)
    (hrow : Row s n initBlocks localBlocks) (hassert : topk < 128)
    (hfit : 2 * nextPowerOf2 topk ≤ 128 ∨ chunkBlocks n (numTopkChunks numReqs numIdxHeads) ≤ 128) :
    ∃ picks, Selects s n topk initBlocks localBlocks picks
      (m3IndexDecode numReqs numIdxHeads seqLen topk initBlocks localBlocks s) := by
  subst hn
  have htile : 2 ^ 7 = 128 := by decide
  rw [← htile] at hassert hfit
  exact decode_selects hrow (numTopkChunks_pos numReqs numIdxHeads) hassert hfit

end FreeToken.MinimaxM3
