import FreeToken.Kernel.Equiv.Df11Stream
import FreeToken.Lib.MapM
import Mathlib.Data.List.TakeWhile

/-!
# Decoding DF11, and the interleaved layout

* `decodeChunks_spec`: a decoder that finds every symbol where it looks writes all of them.
* `Layout`: places of code words that are apart; `Layout.reads`: the decoder finds every symbol
  there.
* `df11Compress_spec`: the interleaved layout is such a layout.
-/

namespace FreeToken

open List Option

variable {len f : ℕ → ℕ} {exp : List ℕ} {n chunk p g rows : ℕ} {weight : Bf16Matrix}

namespace Df11

variable {H : Heapq Entry.stamp} {codes : List Code} {lmax : ℕ}

/-! ### Decoding -/

/-- The symbols of some positions are written. -/
def setAll (sym : ℕ → ℕ) (positions out : List ℕ) : List ℕ :=
  positions.foldl (fun out p => out.set p (sym p)) out

/-- Code words one behind the other, from a place on. -/
def Run (off len : ℕ → ℕ) : List ℕ → ℕ → Prop
  | [], _ => True
  | p :: positions, pos => off p = pos ∧ Run off len positions (pos + len p)

/-- What the decoder finds at the place of position `p`. -/
def Reads (stream lut : List ℕ) (lmax : ℕ) (off len sym : ℕ → ℕ) (p : ℕ) : Prop :=
  ∃ v combined, peek stream lmax (off p) = some v ∧ lut[v]? = some combined ∧
    combined >>> 8 = sym p ∧
    combined &&& 0xFF = len p

variable {stream lut : List ℕ} {off len sym : ℕ → ℕ}

theorem decodeChunk_spec {positions : List ℕ} {pos : ℕ}
    (hreads : ∀ p ∈ positions, Reads stream lut lmax off len sym p)
    (hrun : Run off len positions pos) (out : List ℕ) :
    decodeChunk stream lut lmax positions pos out = some (setAll sym positions out) := by
  induction positions generalizing pos out with
  | nil => rfl
  | cons p positions ih =>
    obtain ⟨rfl, hrest⟩ := hrun
    obtain ⟨v, combined, hpeek, hlut, hsym, hlen⟩ := hreads p mem_cons_self
    have htail := ih (fun q hq => hreads q (mem_cons_of_mem p hq)) hrest (out.set p (sym p))
    rw [decodeChunk, hpeek, bind_eq_bind, bind_some, hlut, bind_some, hsym, hlen, ← Nat.cast_add]
    exact htail

/-- The positions that were set have their symbols, the others what they had. -/
theorem getElem?_setAll (positions out : List ℕ) : (setAll sym positions out).length = out.length ∧
    ∀ p < out.length, (setAll sym positions out)[p]? = if p ∈ positions then some (sym p)
      else out[p]? := by
  induction positions generalizing out with
  | nil => exact ⟨rfl, fun p _ => (if_neg not_mem_nil).symm⟩
  | cons q positions ih =>
    obtain ⟨hlen, hget⟩ := ih (out.set q (sym q))
    rw [length_set] at hlen hget
    refine ⟨hlen, fun p hp => (hget p hp).trans ?_⟩
    by_cases hmem : p ∈ positions
    · rw [if_pos hmem, if_pos (mem_cons_of_mem q hmem)]
    · rw [if_neg hmem]
      by_cases hq : q = p
      · rw [hq, getElem?_set_self hp, if_pos mem_cons_self]
      · rw [getElem?_set_ne hq, if_neg (by
          rw [mem_cons, not_or]
          exact ⟨Ne.symm hq, hmem⟩)]

theorem decodeChunks_spec {chunks : List (ℤ × List ℕ)}
    (hreads : ∀ p < n, Reads stream lut lmax off len sym p)
    (hchunks : ∀ chunk ∈ chunks, (∀ p ∈ chunk.2, p < n) ∧ ∃ pos : ℕ, chunk.1 = pos ∧
      Run off len chunk.2 pos) (hall : ∀ p < n, ∃ chunk ∈ chunks, p ∈ chunk.2) :
    decodeChunks stream lut lmax chunks n = some ((range n).map sym) := by
  have hfold :
      ∀ out : List ℕ, chunks.foldlM
        (fun out chunk => decodeChunk stream lut lmax chunk.2 chunk.1 out) out =
      some (setAll sym (chunks.flatMap Prod.snd) out) := by
    clear hall
    induction chunks with
    | nil => exact fun out => rfl
    | cons chunk chunks ih =>
      intro out
      obtain ⟨hlt, pos, hpos, hrun⟩ := hchunks chunk mem_cons_self
      rw [foldlM_cons, hpos, decodeChunk_spec (fun p hp => hreads p (hlt p hp)) hrun, bind_eq_bind,
        bind_some, ih fun chunk' h => hchunks chunk' (mem_cons_of_mem _ h), flatMap_cons]
      unfold setAll
      rw [foldl_append]
  unfold decodeChunks
  rw [hfold]
  obtain ⟨hlen, hget⟩ := @getElem?_setAll sym (chunks.flatMap Prod.snd) (replicate n 0)
  rw [length_replicate] at hlen hget
  congr 1
  apply ext_getElem
  · rw [hlen, length_map, length_range]
  · intro p hp hp'
    have hpn : p < n := hlen ▸ hp
    obtain ⟨chunk, hchunk, hmem⟩ := hall p hpn
    have hvalue := hget p hpn
    rw [if_pos (mem_flatMap.mpr ⟨chunk, hchunk, hmem⟩), getElem?_eq_getElem hp] at hvalue
    rw [Option.some.inj hvalue, getElem_map, getElem_range]

theorem or_fields {s e m : ℕ} (he : e < 2 ^ 8) (hm : m < 2 ^ 7) :
    s <<< 15 ||| e <<< 7 ||| m = s * 2 ^ 15 + e * 2 ^ 7 + m := by
  have hexp : e <<< 7 < 2 ^ 15 := by
    rw [Nat.shiftLeft_eq]
    omega
  have hshift : s <<< 15 + e <<< 7 = (s * 2 ^ 8 + e) <<< 7 := by
    rw [Nat.shiftLeft_eq, Nat.shiftLeft_eq, Nat.shiftLeft_eq]
    omega
  rw [← Nat.shiftLeft_add_eq_or_of_lt hexp, hshift, ← Nat.shiftLeft_add_eq_or_of_lt hm,
    Nat.shiftLeft_eq]
  omega

theorem u16Of_low8Of (b : UInt16) : u16Of (low8Of b) (expOf b) = b := by
  have hb : b.toNat < 2 ^ 16 := b.toNat_lt
  have hsign : (b.toNat >>> 15) &&& 1 = b.toNat / 2 ^ 15 := by
    rw [Nat.shiftRight_eq_div_pow, Nat.and_one_is_mod]
    omega
  have hmant : b.toNat &&& 0x7F = b.toNat % 2 ^ 7 := Nat.and_two_pow_sub_one_eq_mod _ 7
  have hexp : expOf b = b.toNat / 2 ^ 7 % 2 ^ 8 := by
    unfold expOf
    rw [Nat.shiftRight_eq_div_pow]
    exact Nat.and_two_pow_sub_one_eq_mod _ 8
  have hkept : (low8Of b).toNat = b.toNat / 2 ^ 15 * 2 ^ 7 + b.toNat % 2 ^ 7 := by
    unfold low8Of
    rw [hsign, hmant, ← Nat.shiftLeft_add_eq_or_of_lt (Nat.mod_lt _ (by decide)), Nat.shiftLeft_eq,
      UInt8.toNat_ofNat']
    apply Nat.mod_eq_of_lt
    omega
  have hsign' : ((low8Of b).toNat >>> 7) &&& 1 = b.toNat / 2 ^ 15 := by
    rw [hkept, Nat.shiftRight_eq_div_pow, Nat.and_one_is_mod]
    omega
  have hmant' : (low8Of b).toNat &&& 0x7F = b.toNat % 2 ^ 7 := by
    refine (Nat.and_two_pow_sub_one_eq_mod _ 7).trans ?_
    rw [hkept]
    omega
  unfold u16Of
  rw [hsign', hmant', hexp, or_fields (Nat.mod_lt _ (by decide)) (Nat.mod_lt _ (by decide))]
  apply UInt16.toNat_inj.mp
  rw [UInt16.toNat_ofNat']
  omega

/-! ### Layouts -/

theorem cumsum_mono {i j : ℕ} (h : i ≤ j) : cumsum f i ≤ cumsum f j := by
  induction h with
  | refl => exact le_rfl
  | step _ ih => exact ih.trans (Nat.le_add_right _ _)

theorem cumsum_congr {g : ℕ → ℕ} (h : ∀ i < n, f i = g i) : cumsum f n = cumsum g n := by
  induction n with
  | zero => rfl
  | succ n ih =>
    rw [cumsum, cumsum, ih fun i hi => h i (hi.trans (Nat.lt_succ_self n)), h n
    (Nat.lt_succ_self n)]

/-- Code word `i` of chunk `j` ends before a later one starts, and before the end of the stream. -/
theorem cumsum_apart {f : ℕ → ℕ → ℕ} {m i j k l : ℕ} (hi : i < m) (h : j < l ∨ j = l ∧ i < k) :
    cumsum (fun j => cumsum (f j) m) j + cumsum (f j) i + f j i ≤
      cumsum (fun j => cumsum (f j) m) l + cumsum (f l) k := by
  rcases h with hj | ⟨rfl, hk⟩
  · have hrow : cumsum (f j) i + f j i ≤ cumsum (f j) m := cumsum_mono (f := f j) hi
    have hrows :
        cumsum (fun j => cumsum (f j) m) j + cumsum (f j) m ≤ cumsum (fun j => cumsum (f j) m) l :=
      cumsum_mono (f := fun j => cumsum (f j) m) hj
    omega
  · have hrow : cumsum (f j) i + f j i ≤ cumsum (f j) k := cumsum_mono (f := f j) hk
    omega

/-- `n` code words at their places. -/
def placeAll (off code len : ℕ → ℕ) (n : ℕ) : List Placed :=
  (range n).map fun p => ⟨off p, code p, len p⟩

/-- The places of `n` code words: each has the code of its symbol, they are apart, and they end
before the stream does. -/
structure Layout (codes : List Code) (sym off code len : ℕ → ℕ) (n total : ℕ) : Prop where
  code : ∀ p < n, ∃ c ∈ codes, c.sym = sym p ∧ code p = c.code ∧ len p = c.length
  apart : ∀ p < n, ∀ q < n, p ≠ q → off p + len p ≤ off q ∨ off q + len q ≤ off p
  room : ∀ p < n, off p + len p ≤ total

namespace Layout

variable {code : ℕ → ℕ} {n total : ℕ}

theorem fits (h : Layout codes sym off code len n total) (htable : CodeTable lmax codes)
    (hlmax : lmax ≤ 32) :
    ∀ c ∈ placeAll off code len n, c.Fits ∧ 1 ≤ c.length ∧ c.length ≤ lmax ∧
      c.word + 1 < numWords total := by
  intro placed hplaced
  obtain ⟨p, hp, rfl⟩ := mem_map.mp hplaced
  have hpn := mem_range.mp hp
  obtain ⟨c, hc, -, hcode, hlen⟩ := h.code p hpn
  have hpos := htable.length_pos c hc
  have hle := htable.length_le c hc
  have hroom := h.room p hpn
  refine ⟨⟨?_, ?_⟩, ?_, ?_, ?_⟩
  · show len p ≤ 32
    omega
  · show code p < 2 ^ len p
    rw [hcode, hlen]
    exact htable.code_lt hc
  · show 1 ≤ len p
    omega
  · show len p ≤ lmax
    omega
  · rw [word_eq]
    show off p / 32 + 1 < (total + 31) / 32 + 2
    omega

theorem pairwise (h : Layout codes sym off code len n total) :
    (placeAll off code len n).Pairwise Placed.Apart := by
  unfold placeAll
  rw [pairwise_map]
  refine List.Pairwise.imp_of_mem (fun {p q} hp hq hlt => ?_) (pairwise_lt_range (n := n))
  exact h.apart p (mem_range.mp hp) q (mem_range.mp hq) hlt.ne

/-- What the decoder finds in the stream of the packed words. -/
theorem reads (h : Layout codes sym off code len n total) (htable : CodeTable lmax codes)
    (hlmax : lmax ≤ 32) {words : List ℕ} (hlen : words.length = numWords total)
    (hget : ∀ w < numWords total, words.getD w 0 =
      sumOf ((placeAll off code len n).map (·.part w))) :
    ∀ p < n, Reads (streamOf (bitstreamOf words)) (buildLut codes lmax) lmax off len sym p := by
  have hfits := h.fits htable hlmax
  have hpacked := packed_of_sums (fun c hc => (hfits c hc).1) h.pairwise
    (fun c hc => (hfits c hc).2.2.2) hlen hget
  rw [streamOf_bitstreamOf hpacked.lt]
  intro p hp
  have hmem : (⟨off p, code p, len p⟩ : Placed) ∈ placeAll off code len n :=
    mem_map.mpr ⟨p, mem_range.mpr hp, rfl⟩
  obtain ⟨hfit, hpos, hle, -⟩ := hfits _ hmem
  obtain ⟨v, hpeek, hvlt, hwindow⟩ := hpacked.window h.pairwise hmem hfit hle hpos hlmax
  obtain ⟨c, hc, hsym, hcode, hclen⟩ := h.code p hp
  have hstart : v >>> (lmax - c.length) = c.code := by
    rw [← hclen, ← hcode]
    exact hwindow
  have hbyte : c.length < 2 ^ 8 := by
    have hlmaxle := htable.length_le c hc
    omega
  obtain ⟨hhigh, hlow⟩ := entry_halves c.sym hbyte
  exact ⟨v, _, hpeek, htable.getElem?_buildLut hc hvlt hstart, hhigh.trans hsym,
    hlow.trans hclen.symm⟩

end Layout

theorem getD_map_codeArr (htable : CodeTable lmax codes)
    (hexp : ∀ e ∈ exp, ∃ c ∈ codes, c.sym = e) :
    ∀ p < exp.length, ∃ c ∈ codes, c.sym = exp.getD p 0 ∧
      (exp.map fun e => (codeArr Code.code codes).getD e 0).getD p 0 = c.code ∧
      (exp.map fun e => (codeArr Code.length codes).getD e 0).getD p 0 = c.length := by
  intro p hp
  obtain ⟨c, hc, hsym⟩ := hexp exp[p] (getElem_mem hp)
  have hget :
      ∀ field : Code → ℕ, (exp.map fun e => (codeArr field codes).getD e 0).getD p 0 = field c := by
    intro field
    rw [getD_eq_getElem _ _ (by rwa [length_map]), getElem_map, ← hsym]
    exact getD_codeArr field htable.nodup hc (htable.sym_lt c hc)
  refine ⟨c, hc, ?_, hget _, hget _⟩
  rw [hsym, getD_eq_getElem _ _ hp]

/-! ### The interleaved layout -/

theorem exp_lt (b : UInt16) : expOf b < 256 := by
  unfold expOf
  rw [show 0xFF = 2 ^ 8 - 1 from rfl, Nat.and_two_pow_sub_one_eq_mod]
  exact Nat.mod_lt _ (by decide)

theorem interleaved_sizes (hn : 0 < n) (hchunk : 0 < chunk) :
    0 < (n + chunk - 1) / chunk ∧
      ∀ p < n, p / ((n + chunk - 1) / chunk) < (n + (n + chunk - 1) / chunk - 1) /
        ((n + chunk - 1) / chunk) := by
  have hg : 0 < (n + chunk - 1) / chunk := Nat.div_pos (by omega) hchunk
  generalize (n + chunk - 1) / chunk = g at *
  refine ⟨hg, fun p hp => ?_⟩
  have hle : p / g + 1 ≤ (n + g - 1) / g := by
    rw [← Nat.add_div_right _ hg]
    exact Nat.div_le_div_right (by omega)
  exact hle

theorem len2d_self (hp : p < n) : len2d len n g (p / g) (p % g) = len p := by
  have hsum : p / g * g + p % g = p := by
    rw [mul_comm]
    exact Nat.div_add_mod p g
  unfold len2d
  rw [hsum, if_pos hp]

theorem offset_apart (hrows : ∀ p < n, p / g < rows) {q : ℕ} (hp : p < n)
    (hq : q < n) (hne : p ≠ q) : offset len n g rows p + len p ≤ offset len n g rows q ∨
      offset len n g rows q + len q ≤ offset len n g rows p := by
  have hcases :
      (p % g < q % g ∨ p % g = q % g ∧ p / g < q / g) ∨
      (q % g < p % g ∨ q % g = p % g ∧ q / g < p / g) := by
    have hp' := Nat.div_add_mod p g
    have hq' := Nat.div_add_mod q g
    by_cases hmod : p % g = q % g
    · have hdiv : p / g ≠ q / g := by
        intro hdiv
        rw [hmod, hdiv, hq'] at hp'
        exact hne hp'.symm
      omega
    · omega
  unfold offset chunkStart
  rcases hcases with h | h
  · left
    have hend := cumsum_apart (f := fun j i => len2d len n g i j) (hrows p hp) h
    rwa [len2d_self hp] at hend
  · right
    have hend := cumsum_apart (f := fun j i => len2d len n g i j) (hrows q hq) h
    rwa [len2d_self hq] at hend

theorem offset_room (hg : 0 < g) (hrows : ∀ p < n, p / g < rows) (hp : p < n) :
    offset len n g rows p + len p ≤ chunkStart len n g rows g := by
  have hend := cumsum_apart (f := fun j i => len2d len n g i j) (k := 0) (hrows p hp)
    (Or.inl (Nat.mod_lt p hg))
  rw [len2d_self hp] at hend
  exact hend

theorem run_chunk (len : ℕ → ℕ) (n rows : ℕ) {j i m : ℕ} (hj : j < g) :
    Run (offset len n g rows) len (((range' i m).map fun i => i * g + j).takeWhile (· < n))
      (chunkStart len n g rows j + cumsum (len2d len n g · j) i) := by
  have hg : 0 < g := (Nat.zero_le j).trans_lt hj
  induction m generalizing i with
  | zero => trivial
  | succ m ih =>
    rw [range'_succ, map_cons]
    by_cases hlt : i * g + j < n
    · rw [takeWhile_cons, if_pos (decide_eq_true hlt)]
      have hmod : (i * g + j) % g = j := by
        rw [add_comm, Nat.add_mul_mod_self_right, Nat.mod_eq_of_lt hj]
      have hdiv : (i * g + j) / g = i := by
        rw [add_comm, Nat.add_mul_div_right _ _ hg, Nat.div_eq_of_lt hj, Nat.zero_add]
      refine ⟨?_, ?_⟩
      · unfold offset
        rw [hmod, hdiv]
      · have hnext := ih (i := i + 1)
        have hlen : len2d len n g i j = len (i * g + j) := if_pos hlt
        rw [cumsum, hlen, ← add_assoc] at hnext
        exact hnext
    · rw [takeWhile_cons, if_neg (by simpa using hlt)]
      trivial

theorem mem_takeWhile_range' {j i k m : ℕ} (hki : k ≤ i) (him : i < k + m) (hlt : i * g + j < n) :
    i * g + j ∈ ((range' k m).map fun i => i * g + j).takeWhile (· < n) := by
  induction m generalizing k with
  | zero => exact absurd him (not_lt.mpr hki)
  | succ m ih =>
    have hle : k * g ≤ i * g := Nat.mul_le_mul_right g hki
    rw [range'_succ, map_cons, takeWhile_cons, if_pos (decide_eq_true (by omega))]
    rcases eq_or_lt_of_le hki with rfl | hlt
    · exact mem_cons_self
    · exact mem_cons_of_mem _ (ih hlt (by omega))

theorem reshape_bits (weight : Bf16Matrix) :
    Bf16Matrix.reshape (zipWith u16Of (weight.bits.map low8Of)
      ((range weight.bits.length).map fun p => (weight.bits.map expOf).getD p 0)) weight.rows
      weight.cols = some weight := by
  have hbits : zipWith u16Of (weight.bits.map low8Of)
      ((range weight.bits.length).map fun p => (weight.bits.map expOf).getD p 0) = weight.bits := by
    apply ext_getElem
    · rw [length_zipWith, length_map, length_map, length_range, min_self]
    · intro p hp hp'
      rw [getElem_zipWith, getElem_map, getElem_map, getElem_range,
        getD_eq_getElem _ _ (by rwa [length_map]), getElem_map]
      exact u16Of_low8Of _
  unfold Bf16Matrix.reshape
  rw [hbits, dif_pos weight.length_bits]

theorem df11DecompressRef_spec (len : ℕ → ℕ) {c : Bundle} (hg : 0 < c.numChunks)
    (hrows : ∀ p < c.n, p / c.numChunks < c.rows) (hn : c.n = weight.bits.length)
    (hlow : c.low8 = weight.bits.map low8Of)
    (hstart : c.chunkStart = (range c.numChunks).map fun j =>
      ((chunkStart len c.n c.numChunks c.rows j : ℕ) : ℤ))
    (hshape : c.outFeatures = weight.rows ∧ c.inFeatures = weight.cols)
    (hreads : ∀ p < c.n, Reads (streamOf c.bitstream) c.lut c.lmax
      (offset len c.n c.numChunks c.rows) len (fun p => (weight.bits.map expOf).getD p 0) p) :
    df11DecompressRef c = some weight := by
  have hchunks : ((range c.numChunks).mapM fun j => (c.chunkStart[j]?).map fun start =>
      (start, ((range c.rows).map fun i => i * c.numChunks + j).takeWhile (· < c.n))) =
      some ((range c.numChunks).map fun j => (((chunkStart len c.n c.numChunks c.rows j : ℕ) : ℤ),
        ((range c.rows).map fun i => i * c.numChunks + j).takeWhile (· < c.n))) := by
    apply mapM_eq_map
    intro j hj
    rw [hstart, getElem?_map, getElem?_range (mem_range.mp hj)]
    rfl
  -- every chunk decodes its own column, and every place is in one chunk
  have hexp : decodeChunks (streamOf c.bitstream) c.lut c.lmax
      ((range c.numChunks).map fun j => (((chunkStart len c.n c.numChunks c.rows j : ℕ) : ℤ),
        ((range c.rows).map fun i => i * c.numChunks + j).takeWhile (· < c.n))) c.n =
      some ((range c.n).map fun p => (weight.bits.map expOf).getD p 0) := by
    apply decodeChunks_spec hreads
    · intro chunk hchunk
      obtain ⟨j, hj, rfl⟩ := mem_map.mp hchunk
      refine ⟨fun p hp => ?_, _, rfl, ?_⟩
      · have hlt := mem_takeWhile_imp hp
        exact of_decide_eq_true hlt
      · have hrun := run_chunk len c.n c.rows (i := 0) (m := c.rows) (mem_range.mp hj)
        rw [cumsum, add_zero, ← range_eq_range'] at hrun
        exact hrun
    · intro p hp
      have hmod := Nat.mod_lt p hg
      have hsum : p / c.numChunks * c.numChunks + p % c.numChunks = p := by
        rw [mul_comm]
        exact Nat.div_add_mod p c.numChunks
      refine ⟨_, mem_map.mpr ⟨p % c.numChunks, mem_range.mpr hmod, rfl⟩, ?_⟩
      have hmem := mem_takeWhile_range' (n := c.n) (g := c.numChunks) (j := p % c.numChunks)
        (k := 0) (m := c.rows)
        (Nat.zero_le (p / c.numChunks)) (by rw [Nat.zero_add]; exact hrows p hp) (by rwa [hsum])
      rw [hsum, ← range_eq_range'] at hmem
      exact hmem
  unfold df11DecompressRef
  rw [hchunks]
  show (do
    let expOut ← decodeChunks _ _ _ _ _
    Bf16Matrix.reshape (zipWith u16Of c.low8 expOut) c.outFeatures c.inFeatures) = _
  rw [hexp, hshape.1, hshape.2, hlow, hn]
  exact reshape_bits weight

/-- The length of the code word at a position. -/
def lenAt (codes : List Code) (exp : List ℕ) (p : ℕ) : ℕ := (wLen codes exp).getD p 0

def codeAt (codes : List Code) (exp : List ℕ) (p : ℕ) : ℕ := (wCode codes exp).getD p 0

/-- Codes that every exponent has one of. -/
structure Covers (lmax : ℕ) (codes : List Code) (exp : List ℕ) : Prop where
  table : CodeTable lmax codes
  covers : ∀ e ∈ exp, ∃ c ∈ codes, c.sym = e

theorem Covers.at (h : Covers lmax codes exp) : ∀ p < exp.length, ∃ c ∈ codes,
    c.sym = exp.getD p 0 ∧ codeAt codes exp p = c.code ∧ lenAt codes exp p = c.length :=
  getD_map_codeArr h.table h.covers

/-- The words that a list of codes is packed into. -/
theorem packCodes_zero {placed : List Placed} (h : ∀ c ∈ placed, c.word + 1 < n) :
    ∃ words, packCodes (replicate n 0) placed = some words ∧ words.length = n ∧
      ∀ w < n, words.getD w 0 = sumOf (placed.map (·.part w)) := by
  have hlen : (replicate n 0).length = n := length_replicate
  obtain ⟨words, hpack, hlen', hget⟩ :=
    packCodes_part (fun c hc => hlen.symm ▸ h c hc : ∀ c ∈ placed, c.word + 1 <
    (replicate n 0).length)
  refine ⟨words, hpack, hlen'.trans hlen, fun w hw => ?_⟩
  rw [hget w (by rwa [hlen]), getD_eq_getElem _ _ (by rwa [hlen]), getElem_replicate, Nat.zero_add]

theorem toInt32_of_lt {x : ℕ} (h : x < 2 ^ 31) : toInt32 x = x := by
  unfold toInt32
  apply Int.bmod_eq_of_le
  · omega
  · omega

/-- The places of the codes in the interleaved layout. -/
def chunkOff (codes : List Code) (exp : List ℕ) (chunk : ℕ) : ℕ → ℕ :=
  offset (lenAt codes exp) exp.length (numChunks exp.length chunk) (chunkRows exp.length chunk)

theorem placeChunks_eq (codes : List Code) (exp : List ℕ) (chunk : ℕ) :
    placeChunks codes exp chunk =
      placeAll (chunkOff codes exp chunk) (codeAt codes exp) (lenAt codes exp) exp.length := rfl

theorem chunk_layout (h : Covers lmax codes exp) (hne : 0 < exp.length)
    (hchunk : 0 < chunk) :
    Layout codes (fun p => exp.getD p 0) (chunkOff codes exp chunk) (codeAt codes exp)
      (lenAt codes exp) exp.length (chunkBits codes exp chunk) := by
  obtain ⟨hg, hrows⟩ := interleaved_sizes hne hchunk
  exact ⟨h.at, fun p hp q hq => offset_apart hrows hp hq, fun p hp => offset_room hg hrows hp⟩

/-- The interleaved layout is written, and read back as long as its offsets are 32-bit integers. -/
theorem df11Compress_spec {rounds : ℕ} (h : Covers lmax codes (weight.bits.map expOf))
    (hcodes : codesOf H rounds (bincount (weight.bits.map expOf)) lmax = some codes)
    (hne : 0 < weight.bits.length) (hchunk : 0 < chunk) (hlmax : lmax ≤ 32) :
    ∃ c, df11Compress H rounds weight chunk lmax = some c ∧
      (chunkBits codes (weight.bits.map expOf) chunk < 2 ^ 31 → df11DecompressRef c =
        some weight) := by
  obtain ⟨hg, hrows⟩ := interleaved_sizes hne hchunk
  have hn : (weight.bits.map expOf).length = weight.bits.length := length_map _
  have hlayout := chunk_layout h (hn ▸ hne) hchunk
  obtain ⟨words, hpack, hlen, hget⟩ :=
    packCodes_zero (fun c hc => (hlayout.fits h.table hlmax c hc).2.2.2)
  refine ⟨⟨weight.bits.map low8Of, bitstreamOf words,
    (range (numChunks weight.bits.length chunk)).map fun j =>
    toInt32 (chunkStart (lenAt codes (weight.bits.map expOf)) weight.bits.length
    (numChunks weight.bits.length chunk) (chunkRows weight.bits.length chunk) j), buildLut codes
    lmax, weight.rows, weight.cols, weight.bits.length, numChunks weight.bits.length chunk,
    chunkRows weight.bits.length chunk, lmax⟩, ?_, fun htotal => ?_⟩
  · unfold df11Compress
    dsimp only
    rw [hcodes, bind_eq_bind, bind_some, placeChunks_eq, hpack]
    rfl
  · have hreads := hlayout.reads h.table hlmax hlen hget
    unfold chunkOff at hreads
    unfold chunkBits at htotal
    dsimp only at htotal
    rw [hn] at hreads htotal
    apply df11DecompressRef_spec (lenAt codes (weight.bits.map expOf)) hg hrows rfl rfl
    · apply map_congr_left
      intro j hj
      apply toInt32_of_lt
      exact (cumsum_mono (mem_range.mp hj).le).trans_lt htotal
    · exact ⟨rfl, rfl⟩
    · exact hreads

end Df11

end FreeToken
