import FreeToken.Kernel.Equiv.Df11Layout

/-!
# DF11 is lossless

* `df11CompressRows_spec`: the layout of rows is a layout of code words that are apart.
* `df11_lossless`: what is decompressed is what was compressed, in both layouts.
-/

namespace FreeToken

open List Option

variable {rowBlock q rows cols : ℕ} {weight : Bf16Matrix} {b : ℕ × ℕ} {exp : List ℕ} {β : Type}

namespace Df11

variable {H : Heapq Entry.stamp} {codes : List Code} {lmax : ℕ}

/-! ### The layout of rows -/

theorem rowBlocks_slices {α : Type} {l : List α} (rows c : ℕ) (hl : l.length = rows * c)
    (hblock : 0 < rowBlock) :
    (rowBlocks rows rowBlock).flatMap (fun b => (l.drop (b.1 * c)).take ((b.2 - b.1) * c)) = l := by
  -- the first blocks are the first rows
  have hfirst :
      ∀ m, ((range m).map fun k => (k * rowBlock, min (k * rowBlock + rowBlock) rows)).flatMap
      (fun b => (l.drop (b.1 * c)).take ((b.2 - b.1) * c)) =
        l.take (min (m * rowBlock) rows * c) := by
    intro m
    induction m with
    | zero => rw [Nat.zero_mul, zero_min, Nat.zero_mul, take_zero]; rfl
    | succ m ih =>
      rw [range_succ, map_append, flatMap_append, ih, map_singleton, flatMap_singleton]
      by_cases hm : m * rowBlock ≤ rows
      · have hsum : min ((m + 1) * rowBlock) rows * c =
            m * rowBlock * c + (min (m * rowBlock + rowBlock) rows - m * rowBlock) * c := by
          rw [← add_mul, Nat.succ_mul]
          congr 1
          omega
        rw [min_eq_left hm, hsum, take_add]
      · have hnone : min (m * rowBlock + rowBlock) rows - m * rowBlock = 0 := by omega
        have hall : min (m * rowBlock) rows = rows := by omega
        have hall' : min ((m + 1) * rowBlock) rows = rows := by
          rw [Nat.succ_mul]
          omega
        rw [hnone, Nat.zero_mul, take_zero, append_nil, hall, hall']
  have hlast : rows ≤ (rows + rowBlock - 1) / rowBlock * rowBlock := by
    have hdiv := Nat.div_add_mod (rows + rowBlock - 1) rowBlock
    have hmod := Nat.mod_lt (rows + rowBlock - 1) hblock
    rw [mul_comm] at hdiv
    omega
  unfold rowBlocks
  rw [hfirst, min_eq_right hlast, ← hl, take_length]

theorem rowBlocks_lt (hblock : 0 < rowBlock) (h : b ∈ rowBlocks rows rowBlock) :
    b.1 < b.2 ∧ b.2 ≤ rows := by
  obtain ⟨k, hk, rfl⟩ := mem_map.mp h
  have hlt : k * rowBlock < rows := by
    have hle : k + 1 ≤ (rows + rowBlock - 1) / rowBlock := List.mem_range.mp hk
    have hmul := (Nat.le_div_iff_mul_le hblock).mp hle
    rw [Nat.succ_mul] at hmul
    omega
  refine ⟨?_, min_le_right _ _⟩
  show k * rowBlock < min (k * rowBlock + rowBlock) rows
  omega

theorem zipWith_bincount (l l' : List ℕ) :
    zipWith (· + ·) (bincount l) (bincount l') = bincount (l ++ l') := by
  unfold bincount
  rw [zipWith_map, zipWith_self]
  apply map_congr_left
  intro e _
  exact count_append.symm

theorem foldl_bincount (f : β → List ℕ) (blocks : List β) (seen : List ℕ) :
    blocks.foldl (fun hist block => zipWith (· + ·) hist (bincount (f block))) (bincount seen) =
      bincount (seen ++ blocks.flatMap f) := by
  induction blocks generalizing seen with
  | nil => rw [flatMap_nil, append_nil]; rfl
  | cons block blocks ih => rw [foldl_cons, zipWith_bincount, ih, flatMap_cons, append_assoc]

theorem bincount_nil : bincount [] = replicate 256 0 := by
  unfold bincount
  rw [eq_replicate_iff, length_map, length_range]
  refine ⟨rfl, fun x hx => ?_⟩
  obtain ⟨e, -, rfl⟩ := mem_map.mp hx
  exact count_nil

def rowAt (codes : List Code) (exp : List ℕ) (cols : ℕ) : ℕ → ℕ :=
  cumsum fun r => cumsum (fun k => lenAt codes exp (r * cols + k)) cols

/-- The places of the codes in the layout of rows. -/
def rowOff (codes : List Code) (exp : List ℕ) (cols p : ℕ) : ℕ :=
  rowAt codes exp cols (p / cols) + cumsum (fun k => lenAt codes exp (p / cols * cols + k))
    (p % cols)

theorem div_mod_place (p cols : ℕ) : p / cols * cols + p % cols = p := by
  rw [mul_comm]
  exact Nat.div_add_mod p cols

theorem row_layout (h : Covers lmax codes exp) (hlen : exp.length = rows * cols)
    (hcols : 0 < cols) :
    Layout codes (fun p => exp.getD p 0) (rowOff codes exp cols) (codeAt codes exp)
      (lenAt codes exp) exp.length (rowAt codes exp cols rows) := by
  have hend : ∀ {p r k : ℕ}, (p / cols < r ∨ p / cols = r ∧ p % cols < k) →
      rowOff codes exp cols p + lenAt codes exp p ≤
        rowAt codes exp cols r + cumsum (fun k => lenAt codes exp (r * cols + k)) k := by
    intro p r k hlt
    have hapart := cumsum_apart (f := fun r k => lenAt codes exp (r * cols + k)) (m := cols)
      (Nat.mod_lt p hcols) hlt
    rw [div_mod_place] at hapart
    exact hapart
  refine ⟨h.at, fun p _ q _ hne => ?_, fun p hp => ?_⟩
  · have hcases : (p / cols < q / cols ∨ p / cols = q / cols ∧ p % cols < q % cols) ∨
        (q / cols < p / cols ∨ q / cols = p / cols ∧ q % cols < p % cols) := by
      by_cases hdiv : p / cols = q / cols
      · have hmod : p % cols ≠ q % cols := by
          intro hmod
          apply hne
          rw [← div_mod_place p cols, ← div_mod_place q cols, hmod, hdiv]
        omega
      · omega
    rcases hcases with hlt | hlt
    · left
      exact hend hlt
    · right
      exact hend hlt
  · have hrow : p / cols < rows := by
      rw [Nat.div_lt_iff_lt_mul hcols, ← hlen]
      exact hp
    exact hend (k := 0) (Or.inl hrow)

theorem getD_slice {l : List ℕ} {a b : ℕ} (hq : q < b) :
    ((l.drop a).take b).getD q 0 = l.getD (a + q) 0 := by
  rw [getD_eq_getElem?_getD, getD_eq_getElem?_getD, getElem?_take_of_lt hq, getElem?_drop]

/-- The exponents of a block are a part of all exponents. -/
theorem blockExp_eq (weight : Bf16Matrix) (b : ℕ × ℕ) :
    blockExp weight b = ((weight.bits.map expOf).drop (b.1 * weight.cols)).take
      ((b.2 - b.1) * weight.cols) := by
  unfold blockExp blockBits
  rw [map_take, map_drop]

theorem getD_wLen_blockExp (weight : Bf16Matrix) (hq : q < (b.2 - b.1) * weight.cols) :
    (wLen codes (blockExp weight b)).getD q 0 = lenAt codes (weight.bits.map expOf)
    (b.1 * weight.cols + q) := by
  unfold wLen
  rw [blockExp_eq, map_take, map_drop]
  exact getD_slice hq

theorem getD_wCode_blockExp (weight : Bf16Matrix) (hq : q < (b.2 - b.1) * weight.cols) :
    (wCode codes (blockExp weight b)).getD q 0 = codeAt codes (weight.bits.map expOf)
    (b.1 * weight.cols + q) := by
  unfold wCode
  rw [blockExp_eq, map_take, map_drop]
  exact getD_slice hq

theorem rowBits_eq (weight : Bf16Matrix) (hblock : 0 < rowBlock) :
    rowBits codes weight rowBlock = (range weight.rows).map fun r =>
      cumsum (fun k => lenAt codes (weight.bits.map expOf) (r * weight.cols + k)) weight.cols := by
  have hslices := rowBlocks_slices (l := (range weight.rows).map fun r =>
    cumsum (fun k => lenAt codes (weight.bits.map expOf) (r * weight.cols + k)) weight.cols)
      weight.rows 1
    (by rw [length_map, length_range, mul_one]) hblock
  rw [← hslices]
  unfold rowBits
  apply flatMap_congr
  intro b hb
  obtain ⟨hlt, hle⟩ := rowBlocks_lt hblock hb
  apply ext_getElem
  · rw [length_map, length_range, length_take, length_drop, length_map, length_range]
    omega
  · intro r hr _
    rw [length_map, length_range] at hr
    rw [getElem_map, getElem_range, getElem_take, getElem_drop, getElem_map, getElem_range, mul_one]
    apply cumsum_congr
    intro k hk
    have hq : r * weight.cols + k < (b.2 - b.1) * weight.cols := by
      have hnext : (r + 1) * weight.cols ≤ (b.2 - b.1) * weight.cols := Nat.mul_le_mul_right _ hr
      rw [Nat.succ_mul] at hnext
      omega
    rw [getD_wLen_blockExp weight hq, ← add_assoc, ← add_mul]

theorem rowStart_eq (codes : List Code) (weight : Bf16Matrix) {r : ℕ} (hblock : 0 < rowBlock)
    (hr : r ≤ weight.rows) :
    rowStart codes weight rowBlock r = rowAt codes (weight.bits.map expOf) weight.cols r := by
  unfold rowStart rowAt
  apply cumsum_congr
  intro i hi
  rw [rowBits_eq weight hblock, getD_eq_getElem?_getD, getElem?_map,
    getElem?_range (hi.trans_le hr)]
  rfl

theorem rowsHist_eq (weight : Bf16Matrix) (hblock : 0 < rowBlock) :
    rowsHist weight rowBlock = bincount (weight.bits.map expOf) := by
  have hslices := rowBlocks_slices (l := weight.bits.map expOf) weight.rows weight.cols
    (by rw [length_map, weight.length_bits]) hblock
  unfold rowsHist
  rw [← bincount_nil, foldl_bincount, nil_append, flatMap_congr fun b _ =>
    blockExp_eq weight b, hslices]

theorem placeBlock_eq (hcols : 0 < weight.cols) (hblock : 0 < rowBlock)
    (hb : b ∈ rowBlocks weight.rows rowBlock) :
    placeBlock codes weight (rowStart codes weight rowBlock) b =
      ((placeAll (rowOff codes (weight.bits.map expOf) weight.cols)
        (codeAt codes (weight.bits.map expOf))
        (lenAt codes (weight.bits.map expOf)) (weight.bits.map expOf).length).drop
        (b.1 * weight.cols)).take ((b.2 - b.1) * weight.cols) := by
  obtain ⟨hlt, hle⟩ := rowBlocks_lt hblock hb
  have hroom : b.1 * weight.cols + (b.2 - b.1) * weight.cols ≤ weight.bits.length := by
    rw [← add_mul, weight.length_bits]
    exact Nat.mul_le_mul_right _ (by omega)
  unfold placeBlock placeAll
  apply ext_getElem
  · rw [length_map, length_range, length_take, length_drop, length_map, length_range, length_map]
    omega
  · intro q hq hq'
    rw [length_map, length_range] at hq
    rw [getElem_map, getElem_range, getElem_take, getElem_drop, getElem_map, getElem_range]
    have hdiv : (b.1 * weight.cols + q) / weight.cols = b.1 + q / weight.cols := by
      rw [add_comm, Nat.add_mul_div_right _ _ hcols, add_comm]
    have hmod : (b.1 * weight.cols + q) % weight.cols = q % weight.cols := by
      rw [add_comm, Nat.add_mul_mod_self_right]
    have hrow : b.1 + q / weight.cols ≤ weight.rows := by
      have hin : q / weight.cols < b.2 - b.1 := (Nat.div_lt_iff_lt_mul hcols).mpr hq
      omega
    have hplace := div_mod_place q weight.cols
    dsimp only
    congr 1
    · unfold rowOff
      rw [hdiv, hmod, rowStart_eq codes weight hblock hrow]
      congr 1
      apply cumsum_congr
      intro k hk
      rw [getD_wLen_blockExp weight (by omega), add_mul, add_assoc]
    · exact getD_wCode_blockExp weight hq
    · exact getD_wLen_blockExp weight hq

theorem flatMap_placeBlock (codes : List Code) (hcols : 0 < weight.cols) (hblock : 0 < rowBlock) :
    (rowBlocks weight.rows rowBlock).flatMap
    (placeBlock codes weight (rowStart codes weight rowBlock)) =
      placeAll (rowOff codes (weight.bits.map expOf) weight.cols)
        (codeAt codes (weight.bits.map expOf))
        (lenAt codes (weight.bits.map expOf)) (weight.bits.map expOf).length := by
  have hslices := rowBlocks_slices (l := placeAll (rowOff codes (weight.bits.map expOf) weight.cols)
    (codeAt codes (weight.bits.map expOf)) (lenAt codes (weight.bits.map expOf))
      (weight.bits.map expOf).length) weight.rows weight.cols (by
      unfold placeAll
      rw [length_map, length_range, length_map, weight.length_bits]) hblock
  rw [← hslices]
  exact flatMap_congr fun b hb => placeBlock_eq hcols hblock hb

theorem foldlM_packCodes {place : β → List Placed} {blocks : List β} {words : List ℕ}
    (h : ∀ c ∈ blocks.flatMap place, c.word + 1 < words.length) :
    ∃ words', blocks.foldlM (fun words block => packCodes words (place block)) words = some words' ∧
      words'.length = words.length ∧
      ∀ w < words.length, words'.getD w 0 = words.getD w 0 +
        sumOf ((blocks.flatMap place).map (·.part w)) := by
  induction blocks generalizing words with
  | nil => exact ⟨words, rfl, rfl, fun w _ => rfl⟩
  | cons block blocks ih =>
    rw [flatMap_cons] at h
    obtain ⟨words1, hpack1, hlen1, hget1⟩ :=
      packCodes_part (fun c hc => h c (mem_append_left _ hc) : ∀ c ∈ place block, c.word + 1 <
      words.length)
    obtain ⟨words2, hpack2, hlen2, hget2⟩ :=
      ih (fun c hc => hlen1.symm ▸ h c (mem_append_right _ hc) : ∀ c ∈
      blocks.flatMap place, c.word + 1 < words1.length)
    refine ⟨words2, ?_, hlen2.trans hlen1, fun w hw => ?_⟩
    · rw [foldlM_cons, hpack1]
      exact hpack2
    · rw [hget2 w (by rwa [hlen1]), hget1 w hw, flatMap_cons, map_append, sumOf_append, add_assoc]

theorem run_row (codes : List Code) (exp : List ℕ) {r k m : ℕ} (hm : k + m ≤ cols) :
    Run (rowOff codes exp cols) (lenAt codes exp) ((range' k m).map fun k => r * cols + k)
      (rowAt codes exp cols r + cumsum (fun k => lenAt codes exp (r * cols + k)) k) := by
  induction m generalizing k with
  | zero => trivial
  | succ m ih =>
    have hk : k < cols := by omega
    have hdiv : (r * cols + k) / cols = r := by
      rw [add_comm, Nat.add_mul_div_right _ _ (by omega), Nat.div_eq_of_lt hk, zero_add]
    have hmod : (r * cols + k) % cols = k := by
      rw [add_comm, Nat.add_mul_mod_self_right, Nat.mod_eq_of_lt hk]
    rw [range'_succ, map_cons]
    refine ⟨?_, ?_⟩
    · unfold rowOff
      rw [hdiv, hmod]
    · have hnext := ih (k := k + 1) (by omega)
      rw [cumsum, ← add_assoc] at hnext
      exact hnext

theorem df11DecompressRowsRef_spec {c : RowBundle} (hcols : 0 < weight.cols)
    (hshape : c.rows = weight.rows ∧ c.cols = weight.cols) (hn : c.n = weight.bits.length)
    (hlow : c.low8 = weight.bits.map low8Of)
    (hstart : c.chunkStart = (range c.rows).map (rowAt codes (weight.bits.map expOf) c.cols))
    (hreads : ∀ p < c.n, Reads (streamOf c.bitstream) c.lut c.lmax
      (rowOff codes (weight.bits.map expOf) c.cols)
      (lenAt codes (weight.bits.map expOf)) (fun p => (weight.bits.map expOf).getD p 0) p) :
    df11DecompressRowsRef c = some weight := by
  obtain ⟨hr, hc⟩ := hshape
  have hsize : c.n = c.rows * c.cols := by rw [hn, hr, hc, weight.length_bits]
  rw [← hc] at hcols
  have hchunks : ((range c.rows).mapM fun r => (c.chunkStart[r]?).map fun start : ℕ =>
      ((start : ℤ), (range c.cols).map fun k => r * c.cols + k)) =
      some ((range c.rows).map fun r => ((rowAt codes (weight.bits.map expOf) c.cols r : ℤ),
        (range c.cols).map fun k => r * c.cols + k)) := by
    apply mapM_eq_map
    intro r hr
    rw [hstart, getElem?_map, getElem?_range (List.mem_range.mp hr)]
    rfl
  -- every row decodes itself, and every place is in one row
  have hexp : decodeChunks (streamOf c.bitstream) c.lut c.lmax
      ((range c.rows).map fun r => ((rowAt codes (weight.bits.map expOf) c.cols r : ℤ),
        (range c.cols).map fun k => r * c.cols + k)) c.n =
      some ((range c.n).map fun p => (weight.bits.map expOf).getD p 0) := by
    apply decodeChunks_spec hreads
    · intro chunk hchunk
      obtain ⟨r, hr, rfl⟩ := mem_map.mp hchunk
      refine ⟨fun p hp => ?_, _, rfl, ?_⟩
      · obtain ⟨k, hk, rfl⟩ := mem_map.mp hp
        have hnext : (r + 1) * c.cols ≤ c.rows * c.cols :=
          Nat.mul_le_mul_right _ (List.mem_range.mp hr)
        have hlt := List.mem_range.mp hk
        rw [Nat.succ_mul] at hnext
        omega
      · have hrun := run_row codes (weight.bits.map expOf) (r := r) (k := 0) (zero_add c.cols).le
        rw [cumsum, add_zero, ← range_eq_range'] at hrun
        exact hrun
    · intro p hp
      have hrow : p / c.cols < c.rows := by
        rw [Nat.div_lt_iff_lt_mul hcols, ← hsize]
        exact hp
      exact ⟨_, mem_map.mpr ⟨p / c.cols, List.mem_range.mpr hrow, rfl⟩,
        mem_map.mpr ⟨p % c.cols, List.mem_range.mpr (Nat.mod_lt p hcols), div_mod_place p c.cols⟩⟩
  unfold df11DecompressRowsRef
  rw [hchunks, bind_eq_bind, bind_some, hexp, bind_eq_bind, bind_some, hr, hc, hlow, hn]
  exact reshape_bits weight

theorem df11CompressRows_spec {rounds : ℕ} (h : Covers lmax codes (weight.bits.map expOf))
    (hcodes : codesOf H rounds (bincount (weight.bits.map expOf)) lmax = some codes)
    (hcols : 0 < weight.cols) (hblock : 0 < rowBlock) (hlmax : lmax ≤ 32) :
    ∃ c, df11CompressRows H rounds weight lmax rowBlock = some c ∧ df11DecompressRowsRef c =
      some weight := by
  have hn : (weight.bits.map expOf).length = weight.bits.length := length_map _
  have hlayout := row_layout h (hn.trans weight.length_bits) hcols
  have hplaced := flatMap_placeBlock codes hcols hblock
  have htotal := rowStart_eq codes weight hblock le_rfl
  have hfits := hlayout.fits h.table hlmax
  rw [← hplaced] at hfits
  have hzero :
      (replicate (numWords (rowAt codes (weight.bits.map expOf) weight.cols weight.rows))
        0).length =
      numWords (rowAt codes (weight.bits.map expOf) weight.cols weight.rows) := length_replicate
  obtain ⟨words, hpack, hlen, hget⟩ :=
    foldlM_packCodes (fun c hc => hzero.symm ▸ (hfits c hc).2.2.2)
  rw [hzero] at hlen hget
  have hlow : ((rowBlocks weight.rows rowBlock).flatMap fun b => (blockBits weight b).map low8Of) =
      weight.bits.map low8Of := by
    rw [← map_flatMap]
    unfold blockBits
    rw [rowBlocks_slices weight.rows weight.cols weight.length_bits hblock]
  refine ⟨⟨weight.bits.map low8Of, bitstreamOf words, (range weight.rows).map
    (rowAt codes (weight.bits.map expOf) weight.cols), buildLut codes lmax, weight.rows,
    weight.cols, weight.rows * weight.cols, lmax⟩, ?_, ?_⟩
  · have hstart : (range weight.rows).map (rowStart codes weight rowBlock) =
        (range weight.rows).map (rowAt codes (weight.bits.map expOf) weight.cols) := by
      apply map_congr_left
      intro r hr
      exact rowStart_eq codes weight hblock (List.mem_range.mp hr).le
    unfold df11CompressRows
    dsimp only
    rw [rowsHist_eq weight hblock, hcodes, bind_eq_bind, bind_some, htotal, hpack, bind_eq_bind,
      bind_some, hlow, hstart]
    rfl
  · have hreads := hlayout.reads h.table hlmax hlen (fun w hw => by
      rw [hget w hw, hplaced, getD_eq_getElem _ _ (by rwa [hzero]), getElem_replicate, zero_add])
    rw [hn, weight.length_bits] at hreads
    exact df11DecompressRowsRef_spec hcols ⟨rfl, rfl⟩ weight.length_bits.symm rfl rfl hreads

/-- What is said of the codes of some exponents. -/
structure PrefixCode (lmax : ℕ) (codes : List Code) (exp : List ℕ) : Prop where
  /-- Every exponent has a code, of so many bits as its length says. -/
  covers : ∀ e ∈ exp, ∃ c ∈ codes, c.sym = e
  length : ∀ c ∈ codes, 1 ≤ c.length ∧ c.length ≤ lmax ∧ c.code < 2 ^ c.length
  /-- No code word starts another one. -/
  prefixFree : ∀ c ∈ codes, ∀ c' ∈ codes, c ≠ c' → c.length ≤ c'.length →
    c'.code >>> (c'.length - c.length) ≠ c.code
  /-- A window that starts with a code word has its symbol and its length in the decode table. -/
  table : ∀ c ∈ codes, ∀ v < 2 ^ lmax, v >>> (lmax - c.length) = c.code →
    ∃ combined, (buildLut codes lmax)[v]? = some combined ∧ combined >>> 8 = c.sym ∧
      combined &&& 0xFF = c.length

/-- What two code words add to a word has no bit in common. -/
def BitsApart (placed : List Placed) : Prop :=
  placed.Pairwise fun c c' => ∀ w, c.part w &&& c'.part w = 0

theorem CodeTable.prefixCode (h : CodeTable lmax codes) (hlmax : lmax ≤ 32)
    (hcovers : ∀ e ∈ exp, ∃ c ∈ codes, c.sym = e) : PrefixCode lmax codes exp := by
  refine ⟨hcovers, fun c hc => ⟨h.length_pos c hc, h.length_le c hc, h.code_lt hc⟩,
    fun c hc c' hc' hne hle => h.prefixFree hc hc' hne hle, fun c hc v hv hwindow => ?_⟩
  have hbyte : c.length < 2 ^ 8 := by
    have hle := h.length_le c hc
    omega
  exact ⟨_, h.getElem?_buildLut hc hv hwindow, entry_halves c.sym hbyte⟩

theorem Layout.bitsApart {sym off code len : ℕ → ℕ} {n total : ℕ}
    (h : Layout codes sym off code len n total)
    (htable : CodeTable lmax codes) (hlmax : lmax ≤ 32) : BitsApart (placeAll off code len n) := by
  refine List.Pairwise.imp_of_mem (fun {c c'} hc hc' hapart w => ?_) h.pairwise
  apply DisjointBits.and_eq_zero
  exact disjointBits_part (h.fits htable hlmax c hc).1 (h.fits htable hlmax c' hc').1 hapart w

/-- **DF11 is lossless.**  The loop that limits the lengths ends with a prefix code.  In both
layouts the code words are packed to bits of their own, and what is decompressed is what was
compressed; the interleaved layout needs offsets of 32 bits for that. -/
theorem df11_lossless (H : Heapq Entry.stamp) (weight : Bf16Matrix) (hne : 0 < weight.bits.length)
    {lmax : ℕ} (hlmax : 8 ≤ lmax ∧ lmax ≤ 32) :
    ∃ N codes, (∀ rounds, N ≤ rounds → codesOf H rounds (bincount (weight.bits.map expOf)) lmax =
      some codes) ∧
      PrefixCode lmax codes (weight.bits.map expOf) ∧
      (∀ chunk, 0 < chunk → BitsApart (placeChunks codes (weight.bits.map expOf) chunk) ∧
        ∀ rounds, N ≤ rounds → ∃ c, df11Compress H rounds weight chunk lmax = some c ∧
          (chunkBits codes (weight.bits.map expOf) chunk < 2 ^ 31 → df11DecompressRef c =
            some weight)) ∧
      ∀ rowBlock, 0 < rowBlock →
        BitsApart ((rowBlocks weight.rows rowBlock).flatMap
          (placeBlock codes weight (rowStart codes weight rowBlock))) ∧
        ∀ rounds, N ≤ rounds → ∃ c, df11CompressRows H rounds weight lmax rowBlock = some c ∧
          df11DecompressRowsRef c = some weight := by
  have hn : (weight.bits.map expOf).length = weight.bits.length := length_map _
  have hcols : 0 < weight.cols := by
    rw [weight.length_bits] at hne
    exact Nat.pos_of_mul_pos_left hne
  have hexp : ∀ e ∈ weight.bits.map expOf, e < 256 := by
    intro e he
    obtain ⟨b, -, rfl⟩ := mem_map.mp he
    exact exp_lt b
  obtain ⟨N, codes, hcodes, htable, hcovers⟩ :=
    codesOf_spec (H := H) hlmax.1 (length_pos_iff.mp (hn.symm ▸ hne)) hexp
  have h : Covers lmax codes (weight.bits.map expOf) := ⟨htable, hcovers⟩
  refine ⟨N, codes, hcodes, htable.prefixCode hlmax.2 hcovers, fun chunk hchunk =>
    ⟨?_, fun rounds hrounds => ?_⟩, fun rowBlock hblock => ⟨?_, fun rounds hrounds => ?_⟩⟩
  · rw [placeChunks_eq]
    exact (chunk_layout h (hn.symm ▸ hne) hchunk).bitsApart htable hlmax.2
  · exact df11Compress_spec h (hcodes rounds hrounds) hne hchunk hlmax.2
  · rw [flatMap_placeBlock codes hcols hblock]
    exact (row_layout h (hn.trans weight.length_bits) hcols).bitsApart htable hlmax.2
  · exact df11CompressRows_spec h (hcodes rounds hrounds) hcols hblock hlmax.2

/-- Two rows of one value each. -/
theorem df11_lossless_column :
    ∃ N codes, (∀ rounds, N ≤ rounds → codesOf (Heapq.ofScan Entry.stamp) rounds
      (bincount ([0x3F80, 0xC000].map expOf)) 12 = some codes) ∧
      PrefixCode 12 codes ([0x3F80, 0xC000].map expOf) := by
  obtain ⟨N, codes, hcodes, hprefix, -, -⟩ :=
    df11_lossless (Heapq.ofScan Entry.stamp) ⟨2, 1, [0x3F80, 0xC000], rfl⟩ (by decide)
      (show 8 ≤ 12 ∧ 12 ≤ 32 by decide)
  exact ⟨N, codes, hcodes, hprefix⟩

end Df11

end FreeToken
