import FreeToken.Kernel.Equiv.Df11Code

/-!
# The tables of DF11

Behind a code word of length `k` the windows of `lmax` bits that start with it are an interval of `2
^ (lmax - k)` numbers.  The canonical code lays these intervals out one behind the other.

* `Tiles`: the intervals of a list of codes, from a number on.
* `CodeTable`: what the packing and the decoder use of the codes.
* `prefixFree`, `getElem?_buildLut`: no code word starts another, and every window has the symbol
  that it starts with.
-/

namespace FreeToken

open List

variable {c : Code} {lut : List ℕ} {v : ℕ}

namespace Df11

variable {H : Heapq Entry.stamp} {freq lengths : List (ℕ × ℕ)} {codes : List Code}
  {D lmax start : ℕ}

/-! ### Intervals -/

def Code.span (D : ℕ) (c : Code) : ℕ := 2 ^ (D - c.length)

/-- The first window that starts with a code word. -/
def Code.base (D : ℕ) (c : Code) : ℕ := c.code * c.span D

/-- The windows of the codes are one behind the other. -/
def Tiles (D : ℕ) : ℕ → List Code → Prop
  | _, [] => True
  | start, c :: codes => c.base D = start ∧ Tiles D (start + c.span D) codes

/-- The symbols of codes with their lengths. -/
def lengthsOf (codes : List Code) : List (ℕ × ℕ) := codes.map fun c => (c.sym, c.length)

theorem Tiles.bounds (h : Tiles D start codes) :
    ∀ c ∈ codes, start ≤ c.base D ∧ c.base D + c.span D ≤ start + kraft D (lengthsOf codes) := by
  induction codes generalizing start with
  | nil => exact fun c hc => absurd hc not_mem_nil
  | cons first codes ih =>
    obtain ⟨hbase, hrest⟩ := h
    have hkraft : kraft D (lengthsOf (first :: codes)) = first.span D + kraft D (lengthsOf codes) :=
      rfl
    intro c hc
    rw [hkraft]
    rcases mem_cons.mp hc with rfl | hc
    · omega
    · have hbounds := ih hrest c hc
      omega

theorem Tiles.pairwise (h : Tiles D start codes) :
    codes.Pairwise fun c c' => c.base D + c.span D ≤ c'.base D := by
  induction codes generalizing start with
  | nil => exact List.Pairwise.nil
  | cons first codes ih =>
    obtain ⟨hbase, hrest⟩ := h
    refine pairwise_cons.mpr ⟨fun c hc => ?_, ih hrest⟩
    have hbounds := (hrest.bounds c hc).1
    omega

/-! ### The canonical code -/

theorem lengthsOf_canonicalFrom (code prevLen : ℕ) (items : List (ℕ × ℕ)) :
    lengthsOf (canonicalFrom code prevLen items) = items := by
  induction items generalizing code prevLen with
  | nil => rfl
  | cons item items ih =>
    obtain ⟨sym, length⟩ := item
    show (sym, length) :: lengthsOf (canonicalFrom _ length items) = (sym, length) :: items
    rw [ih]

theorem tiles_canonicalFrom {items : List (ℕ × ℕ)} (code prevLen : ℕ)
    (hsorted : ((0, prevLen) :: items).Pairwise fun a b => a.2 ≤ b.2) (hD : ∀ l ∈ items, l.2 ≤ D) :
    Tiles D ((code + 1) * 2 ^ (D - prevLen)) (canonicalFrom code prevLen items) := by
  induction items generalizing code prevLen with
  | nil => trivial
  | cons item items ih =>
    obtain ⟨sym, length⟩ := item
    rw [pairwise_cons] at hsorted
    have hle : prevLen ≤ length := hsorted.1 (sym, length) mem_cons_self
    have hlenD : length ≤ D := hD (sym, length) mem_cons_self
    have hcode :
        (code + 1) <<< (length - prevLen) * 2 ^ (D - length) = (code + 1) * 2 ^ (D - prevLen) := by
      rw [Nat.shiftLeft_eq, mul_assoc, ← pow_add]
      congr 2
      omega
    have hrest := ih ((code + 1) <<< (length - prevLen)) length
      (by
        have htail := pairwise_cons.mp hsorted.2
        exact pairwise_cons.mpr htail)
      fun l hl => hD l (mem_cons_of_mem _ hl)
    refine ⟨hcode, ?_⟩
    rw [Nat.succ_mul, hcode] at hrest
    exact hrest

instance : Std.Total codeOrder := ⟨fun a b => by
  unfold codeOrder
  omega⟩

instance : IsTrans (ℕ × ℕ) codeOrder := ⟨fun a b c hab hbc => by
  unfold codeOrder at *
  omega⟩

/-- The canonical code of some lengths. -/
theorem canonicalCodes_spec (hne : lengths ≠ []) (hD : ∀ l ∈ lengths, l.2 ≤ D) :
    ∃ codes, canonicalCodes lengths = some codes ∧ (lengthsOf codes).Perm lengths ∧
      Tiles D 0 codes := by
  have hperm := perm_insertionSort codeOrder lengths
  have hsorted : (lengths.insertionSort codeOrder).Pairwise fun a b => a.2 ≤ b.2 := by
    refine (pairwise_insertionSort codeOrder lengths).imp fun {a b} hab => ?_
    unfold codeOrder at hab
    omega
  unfold canonicalCodes
  cases hitems : lengths.insertionSort codeOrder with
  | nil =>
    rw [hitems] at hperm
    exact absurd hperm.symm.eq_nil hne
  | cons item items =>
    obtain ⟨sym, length⟩ := item
    rw [hitems] at hperm hsorted
    have hD' : ∀ l ∈ items, l.2 ≤ D := fun l hl => hD l (hperm.mem_iff.mp (mem_cons_of_mem _ hl))
    have htiles := tiles_canonicalFrom (D := D) 0 length
      (pairwise_cons.mpr (pairwise_cons.mp hsorted)) hD'
    refine ⟨_, rfl, ?_, Nat.zero_mul _, ?_⟩
    · show ((sym, length) :: lengthsOf (canonicalFrom 0 length items)).Perm lengths
      rwa [lengthsOf_canonicalFrom]
    · rw [zero_add, one_mul] at htiles
      rw [zero_add]
      exact htiles

/-- What the packing and the decoder use of the codes. -/
structure CodeTable (lmax : ℕ) (codes : List Code) : Prop where
  nodup : (codes.map Code.sym).Nodup
  sym_lt : ∀ c ∈ codes, c.sym < 256
  length_pos : ∀ c ∈ codes, 1 ≤ c.length
  length_le : ∀ c ∈ codes, c.length ≤ lmax
  apart : codes.Pairwise fun c c' => c.base lmax + c.span lmax ≤ c'.base lmax
  fits : ∀ c ∈ codes, c.base lmax + c.span lmax ≤ 2 ^ lmax

theorem Code.span_pos (D : ℕ) (c : Code) : 0 < c.span D := Nat.two_pow_pos _

/-- A code word has as many bits as its length says. -/
theorem CodeTable.code_lt (h : CodeTable lmax codes) (hc : c ∈ codes) : c.code < 2 ^ c.length := by
  have hfits := h.fits c hc
  have hle := h.length_le c hc
  unfold Code.base Code.span at hfits
  have hpow : 2 ^ lmax = 2 ^ c.length * 2 ^ (lmax - c.length) := by
    rw [← pow_add]
    congr 1
    omega
  rw [← Nat.succ_mul, hpow] at hfits
  exact le_of_mul_le_mul_right hfits (Nat.two_pow_pos _)

/-- **No code word starts another one.** -/
theorem CodeTable.prefixFree (h : CodeTable lmax codes) {c' : Code} (hc : c ∈ codes)
    (hc' : c' ∈ codes) (hne : c ≠ c')
    (hle : c.length ≤ c'.length) : c'.code >>> (c'.length - c.length) ≠ c.code := by
  intro heq
  have hlen' := h.length_le c' hc'
  have hspan : c.span lmax = 2 ^ (c'.length - c.length) * c'.span lmax := by
    unfold Code.span
    rw [← pow_add]
    congr 1
    omega
  rw [Nat.shiftRight_eq_div_pow] at heq
  -- the window of the longer code word is one of the shorter one
  have hlo : c.base lmax ≤ c'.base lmax := by
    unfold Code.base
    rw [hspan, ← mul_assoc, ← heq]
    exact Nat.mul_le_mul_right _ (Nat.div_mul_le_self _ _)
  have hhi : c'.base lmax < c.base lmax + c.span lmax := by
    unfold Code.base
    rw [← Nat.succ_mul, hspan, ← mul_assoc, ← heq]
    refine mul_lt_mul_of_pos_right ?_ (c'.span_pos lmax)
    exact Nat.lt_mul_of_div_lt (Nat.lt_succ_self _) (Nat.two_pow_pos _)
  have hpos := c'.span_pos lmax
  have hapart := pairwise_iff_getElem.mp h.apart
  obtain ⟨i, hi, rfl⟩ := mem_iff_getElem.mp hc
  obtain ⟨j, hj, rfl⟩ := mem_iff_getElem.mp hc'
  rcases lt_trichotomy i j with hij | rfl | hij
  · have hbehind := hapart i j hi hj hij
    omega
  · exact hne rfl
  · have hbehind := hapart j i hj hi hij
    omega

/-! ### The decode table -/

theorem getElem?_setSlice_in {base span : ℕ} (value : ℕ) (h : base ≤ v ∧ v < base + span) :
    (setSlice lut base span value)[v]? = (lut[v]?).map fun _ => value := by
  unfold setSlice
  rw [getElem?_mapIdx]
  simp only [if_pos h]

theorem getElem?_setSlice_out {base span : ℕ} (value : ℕ) (h : ¬(base ≤ v ∧ v < base + span)) :
    (setSlice lut base span value)[v]? = lut[v]? := by
  unfold setSlice
  rw [getElem?_mapIdx]
  simp only [if_neg h]
  exact Option.map_id'

def Code.entry (c : Code) : ℕ := c.sym <<< 8 ||| c.length

theorem getElem?_foldl_setSlice (lut : List ℕ) (v : ℕ)
    (hapart : codes.Pairwise fun c c' => c.base lmax + c.span lmax ≤ c'.base lmax) :
    let filled := codes.foldl
      (fun lut c => setSlice lut (c.code <<< (lmax - c.length)) (1 <<< (lmax - c.length))
      (c.sym <<< 8 ||| c.length)) lut
    ((∀ c ∈ codes, ¬(c.base lmax ≤ v ∧ v < c.base lmax + c.span lmax)) → filled[v]? = lut[v]?) ∧
      ∀ c ∈ codes, c.base lmax ≤ v → v < c.base lmax + c.span lmax →
        filled[v]? = (lut[v]?).map fun _ => c.entry := by
  induction codes generalizing lut with
  | nil => exact ⟨fun _ => rfl, fun c hc => absurd hc not_mem_nil⟩
  | cons first codes ih =>
    rw [pairwise_cons] at hapart
    have hbase : first.code <<< (lmax - first.length) = first.base lmax := Nat.shiftLeft_eq _ _
    have hspan : 1 <<< (lmax - first.length) = first.span lmax := Nat.one_shiftLeft _
    obtain ⟨hout, hin⟩ := ih (setSlice lut (first.base lmax) (first.span lmax) first.entry) hapart.2
    rw [foldl_cons, hbase, hspan]
    refine ⟨fun h => ?_, fun c hc hlo hhi => ?_⟩
    · rw [forall_mem_cons] at h
      exact (hout h.2).trans (getElem?_setSlice_out first.entry h.1)
    · rcases mem_cons.mp hc with rfl | hc
      · -- no later code has this window
        have hnone : ∀ c' ∈ codes, ¬(c'.base lmax ≤ v ∧ v < c'.base lmax + c'.span lmax) := by
          intro c' hc' hv
          have hbehind := hapart.1 c' hc'
          omega
        exact (hout hnone).trans (getElem?_setSlice_in c.entry ⟨hlo, hhi⟩)
      · have hbehind := hapart.1 c hc
        refine (hin c hc hlo hhi).trans ?_
        rw [getElem?_setSlice_out first.entry (by omega)]

theorem window_iff :
    v >>> (lmax - c.length) = c.code ↔ c.base lmax ≤ v ∧ v < c.base lmax + c.span lmax := by
  have hpos : 0 < 2 ^ (lmax - c.length) := Nat.two_pow_pos _
  unfold Code.base Code.span
  rw [Nat.shiftRight_eq_div_pow, ← Nat.succ_mul]
  constructor
  · intro heq
    rw [← heq]
    exact ⟨Nat.div_mul_le_self _ _, Nat.lt_mul_of_div_lt (Nat.lt_succ_self _) hpos⟩
  · rintro ⟨hlo, hhi⟩
    exact le_antisymm (Nat.lt_succ_iff.mp ((Nat.div_lt_iff_lt_mul hpos).mpr hhi))
      ((Nat.le_div_iff_mul_le hpos).mpr hlo)

/-- **Every window that starts with a code word has its symbol and its length.** -/
theorem CodeTable.getElem?_buildLut (h : CodeTable lmax codes) (hc : c ∈ codes) (hv : v < 2 ^ lmax)
    (hwindow : v >>> (lmax - c.length) = c.code) :
    (buildLut codes lmax)[v]? = some (c.sym <<< 8 ||| c.length) := by
  obtain ⟨hlo, hhi⟩ := window_iff.mp hwindow
  unfold buildLut
  refine ((getElem?_foldl_setSlice (replicate (1 <<< lmax) 0) v h.apart).2 c hc hlo hhi).trans ?_
  rw [Nat.one_shiftLeft, getElem?_replicate, if_pos hv]
  rfl

theorem entry_halves (sym : ℕ) {len : ℕ} (hlen : len < 2 ^ 8) :
    (sym <<< 8 ||| len) >>> 8 = sym ∧ (sym <<< 8 ||| len) &&& 0xFF = len := by
  rw [← Nat.shiftLeft_add_eq_or_of_lt hlen, Nat.shiftLeft_eq, Nat.shiftRight_eq_div_pow,
    show 0xFF = 2 ^ 8 - 1 from rfl, Nat.and_two_pow_sub_one_eq_mod]
  omega

/-! ### The arrays of the packing -/

theorem getD_codeArr (field : Code → ℕ) (hnodup : (codes.map Code.sym).Nodup) (hc : c ∈ codes)
    (hsym : c.sym < 256) : (codeArr field codes).getD c.sym 0 = field c := by
  have hfold : ∀ arr : List ℕ, c.sym < arr.length →
      (codes.foldl (fun arr c => arr.set c.sym (field c)) arr).getD c.sym 0 = field c := by
    induction codes with
    | nil => exact absurd hc not_mem_nil
    | cons first codes ih =>
      intro arr harr
      rw [map_cons, nodup_cons] at hnodup
      rw [foldl_cons]
      rcases mem_cons.mp hc with rfl | hc
      · -- no later code sets the entry
        have hkeep : ∀ (codes : List Code) (arr : List ℕ), c.sym ∉ codes.map Code.sym →
            (codes.foldl (fun arr c => arr.set c.sym (field c)) arr).getD c.sym 0 =
              arr.getD c.sym 0 := by
          intro codes
          induction codes with
          | nil => exact fun _ _ => rfl
          | cons c' codes ih' =>
            intro arr hnot
            rw [map_cons, mem_cons, not_or] at hnot
            rw [foldl_cons, ih' _ hnot.2, getD_eq_getElem?_getD, getD_eq_getElem?_getD,
              getElem?_set_ne (Ne.symm hnot.1)]
        rw [hkeep codes _ hnodup.1, getD_eq_getElem?_getD, getElem?_set_self harr]
        rfl
      · exact ih hnodup.2 hc _ (by rwa [length_set])
  exact hfold _ (by rwa [length_replicate])

/-! ### The codes of a histogram -/

theorem frequencies_spec (exp : List ℕ) :
    ((frequencies (bincount exp)).map Prod.fst).Nodup ∧ (frequencies (bincount exp)).length ≤ 256 ∧
      (∀ s ∈ (frequencies (bincount exp)).map Prod.fst, s < 256) ∧
      ∀ e ∈ exp, e < 256 → e ∈ (frequencies (bincount exp)).map Prod.fst := by
  have hlen : (bincount exp).length = 256 := by
    unfold bincount
    rw [length_map, length_range]
  have hsub : ((frequencies (bincount exp)).map Prod.fst).Sublist (range 256) := by
    unfold frequencies
    rw [hlen]
    have hfst :
      ((range 256).map fun s => (s, (bincount exp).getD s 0)).map Prod.fst = range 256 := by
      rw [map_map]
      exact map_id _
    have hfilter := (filter_sublist (p := fun x : ℕ × ℕ => decide (x.2 ≠ 0))
      (l := (range 256).map fun s => (s, (bincount exp).getD s 0))).map Prod.fst
    rwa [hfst] at hfilter
  refine ⟨hsub.nodup nodup_range, ?_, fun s hs => mem_range.mp (hsub.subset hs), fun e he hlt => ?_⟩
  · have hle := hsub.length_le
    rwa [length_map, length_range] at hle
  · have hcount : (bincount exp).getD e 0 = exp.count e := by
      unfold bincount
      rw [getD_eq_getElem?_getD, getElem?_map, getElem?_range hlt]
      rfl
    refine mem_map.mpr ⟨(e, (bincount exp).getD e 0), mem_filter.mpr ⟨?_, ?_⟩, rfl⟩
    · rw [hlen]
      exact mem_map.mpr ⟨e, mem_range.mpr hlt, rfl⟩
    · rw [hcount]
      exact decide_eq_true (count_pos_iff.mpr he).ne'

/-- The codes of a list of exponents: every exponent has one, after finitely many rounds. -/
theorem codesOf_spec (hlmax : 8 ≤ lmax) {exp : List ℕ} (hne : exp ≠ [])
    (hexp : ∀ e ∈ exp, e < 256) :
    ∃ N codes, (∀ rounds, N ≤ rounds → codesOf H rounds (bincount exp) lmax = some codes) ∧
      CodeTable lmax codes ∧
      ∀ e ∈ exp, ∃ c ∈ codes, c.sym = e := by
  obtain ⟨hnodup, hlen, hlt, hmem⟩ := frequencies_spec exp
  have hne' : frequencies (bincount exp) ≠ [] := by
    obtain ⟨e, he⟩ := exists_mem_of_ne_nil _ hne
    intro hnil
    have hmem' := hmem e he (hexp e he)
    rw [hnil] at hmem'
    exact absurd hmem' not_mem_nil
  -- there are at most 256 symbols, so lengths up to `lmax` are enough
  have hpow : (frequencies (bincount exp)).length ≤ 2 ^ lmax :=
    hlen.trans (show 2 ^ 8 ≤ 2 ^ lmax from Nat.pow_le_pow_right two_pos hlmax)
  obtain ⟨N, lengths, hlengths, hok, hle⟩ :=
    lengthLimitedLengths_spec (H := H) (show 1 ≤ lmax by omega) hne' hpow
  have hnelengths : lengths ≠ [] := by
    rintro rfl
    exact hne' (map_eq_nil_iff.mp hok.perm.nil_eq.symm)
  obtain ⟨codes, hcodes, hperm, htiles⟩ := canonicalCodes_spec hnelengths hle
  have hsyms : (codes.map Code.sym).Perm ((frequencies (bincount exp)).map Prod.fst) := by
    have hfst : codes.map Code.sym = (lengthsOf codes).map Prod.fst := by
      unfold lengthsOf
      rw [map_map]
      rfl
    rw [hfst]
    exact (hperm.map Prod.fst).trans hok.perm
  have hlength : ∀ c ∈ codes, (c.sym, c.length) ∈ lengths := fun c hc =>
    hperm.mem_iff.mp (mem_map.mpr ⟨c, hc, rfl⟩)
  have hkraft : kraft lmax (lengthsOf codes) ≤ 2 ^ lmax := by
    have hsame : kraft lmax (lengthsOf codes) = kraft lmax lengths := by
      unfold kraft
      exact sumOf_perm (hperm.map _)
    rw [hsame]
    exact hok.kraft lmax hle
  refine ⟨N, codes, fun rounds hrounds => ?_, ?_, fun e he => ?_⟩
  · unfold codesOf
    rw [hlengths rounds hrounds]
    exact hcodes
  · refine ⟨hsyms.nodup_iff.mpr hnodup, fun c hc =>
      hlt _ (hsyms.mem_iff.mp (mem_map_of_mem hc)), fun c hc => hok.pos _ (hlength c hc),
      fun c hc => hle _ (hlength c hc), htiles.pairwise, fun c hc => ?_⟩
    have hbounds := (htiles.bounds c hc).2
    rw [zero_add] at hbounds
    exact hbounds.trans hkraft
  · obtain ⟨c, hc, hsym⟩ := mem_map.mp (hsyms.mem_iff.mpr (hmem e he (hexp e he)))
    exact ⟨c, hc, hsym⟩

end Df11

end FreeToken
