import FreeToken.Kernel.Equiv.Df11Table

/-!
# The bitstream of DF11

Bit `b` of a stream is bit `31 - b % 32` of word `b / 32`.

* `Placed.Has`: the bits that a code word sets.
* `testBit_part`: what a code adds to a word are its bits there.
* `packCodes_spec`: the words after packing have the bits of all codes, and nothing was carried.
* `peek_spec`: the window at the place of a code starts with its code word.
-/

namespace FreeToken

open List

namespace Df11

variable {placed : List Placed} {words : List ℕ} {c c' : Placed} {w k b lmax : ℕ}

namespace Placed

/-- Bit `b` of the stream is set by a code. -/
def Has (c : Placed) (b : ℕ) : Prop :=
  c.off ≤ b ∧ b < c.off + c.length ∧ c.code.testBit (c.off + c.length - 1 - b) = true

def part (c : Placed) (w : ℕ) : ℕ :=
  (if c.word = w then c.high else 0) + if c.word + 1 = w then c.low else 0

def Fits (c : Placed) : Prop := c.length ≤ 32 ∧ c.code < 2 ^ c.length

end Placed

theorem testBit_of_lt {x n i : ℕ} (hx : x < 2 ^ n) (hi : n ≤ i) : x.testBit i = false :=
  Nat.testBit_eq_false_of_lt (hx.trans_le (Nat.pow_le_pow_right two_pos hi))

theorem word_eq (c : Placed) : c.word = c.off / 32 := Nat.shiftRight_eq_div_pow _ _

theorem off_mod (c : Placed) : c.off &&& 31 = c.off % 32 := Nat.and_two_pow_sub_one_eq_mod c.off 5

/-- The first half of a code word. -/
theorem testBit_high (hc : c.Fits) (hk : k < 32) :
    c.high.testBit k = true ↔ c.Has (32 * c.word + 31 - k) := by
  obtain ⟨hlen, hcode⟩ := hc
  have hoff := Nat.div_add_mod c.off 32
  have hmod := Nat.mod_lt c.off (show 0 < 32 by decide)
  unfold Placed.high Placed.Has
  rw [Nat.testBit_shiftLeft, Nat.testBit_shiftRight, Bool.and_eq_true, decide_eq_true_eq, off_mod,
    word_eq]
  have hrem : c.rem = c.length - min c.length (32 - c.off % 32) := by
    unfold Placed.rem Placed.bitsInW
    rw [off_mod]
  have hbits : c.bitsInW = min c.length (32 - c.off % 32) := by
    unfold Placed.bitsInW
    rw [off_mod]
  rw [hrem, hbits]
  constructor
  · rintro ⟨hle, hbit⟩
    have hidx :
        c.length - min c.length (32 - c.off % 32) +
        (k - (32 - c.off % 32 - min c.length (32 - c.off % 32))) < c.length := by
      by_contra hge
      rw [testBit_of_lt hcode (not_lt.mp hge)] at hbit
      exact absurd hbit Bool.false_ne_true
    refine ⟨by omega, by omega, ?_⟩
    rw [show c.off + c.length - 1 - (32 * (c.off / 32) + 31 - k) = c.length -
      min c.length (32 - c.off % 32) +
      (k - (32 - c.off % 32 - min c.length (32 - c.off % 32))) by omega]
    exact hbit
  · rintro ⟨hlo, hhi, hbit⟩
    refine ⟨by omega, ?_⟩
    rw [show c.length - min c.length (32 - c.off % 32) +
      (k - (32 - c.off % 32 - min c.length (32 - c.off % 32))) = c.off + c.length - 1 -
      (32 * (c.off / 32) + 31 - k) by omega]
    exact hbit

theorem testBit_low (hc : c.Fits) (hk : k < 32) :
    c.low.testBit k = true ↔ c.Has (32 * (c.word + 1) + 31 - k) := by
  obtain ⟨hlen, hcode⟩ := hc
  have hoff := Nat.div_add_mod c.off 32
  have hmod := Nat.mod_lt c.off (show 0 < 32 by decide)
  unfold Placed.low Placed.Has
  rw [Nat.one_shiftLeft, Nat.testBit_shiftLeft, Nat.testBit_and, Nat.testBit_two_pow_sub_one,
    Bool.and_eq_true, Bool.and_eq_true, decide_eq_true_eq, decide_eq_true_eq, word_eq]
  have hrem : c.rem = c.length - min c.length (32 - c.off % 32) := by
    unfold Placed.rem Placed.bitsInW
    rw [off_mod]
  rw [hrem]
  constructor
  · rintro ⟨hle, hbit, hlt⟩
    refine ⟨by omega, by omega, ?_⟩
    rw [show c.off + c.length - 1 - (32 * (c.off / 32 + 1) + 31 - k) =
      k - (32 - (c.length - min c.length (32 - c.off % 32))) by omega]
    exact hbit
  · rintro ⟨hlo, hhi, hbit⟩
    refine ⟨by omega, ?_, by omega⟩
    rw [show k - (32 - (c.length - min c.length (32 - c.off % 32))) =
      c.off + c.length - 1 - (32 * (c.off / 32 + 1) + 31 - k) by omega]
    exact hbit

theorem high_lt (hc : c.Fits) : c.high < 2 ^ 32 := by
  obtain ⟨hlen, hcode⟩ := hc
  apply Nat.lt_pow_two_of_testBit
  intro i hi
  unfold Placed.high
  rw [Nat.testBit_shiftLeft, Nat.testBit_shiftRight, Bool.and_eq_false_iff]
  right
  refine testBit_of_lt hcode ?_
  have hmod := Nat.mod_lt c.off (show 0 < 32 by decide)
  unfold Placed.rem Placed.bitsInW
  rw [off_mod]
  omega

theorem low_lt (hc : c.Fits) : c.low < 2 ^ 32 := by
  have hlen := hc.1
  apply Nat.lt_pow_two_of_testBit
  intro i hi
  unfold Placed.low
  rw [Nat.one_shiftLeft, Nat.testBit_shiftLeft, Nat.testBit_and, Nat.testBit_two_pow_sub_one]
  have hrem : c.rem ≤ 32 := (Nat.sub_le _ _).trans hlen
  have hout : ¬i - (32 - c.rem) < c.rem := by omega
  rw [decide_eq_false hout, Bool.and_false, Bool.and_false]

theorem testBit_part (hc : c.Fits) :
    (c.part w).testBit k = true ↔ k < 32 ∧ c.Has (32 * w + 31 - k) := by
  have hoff := Nat.div_add_mod c.off 32
  have hmod := Nat.mod_lt c.off (show 0 < 32 by decide)
  have hlen := hc.1
  unfold Placed.part
  by_cases hfirst : c.word = w
  · subst hfirst
    rw [if_pos rfl, if_neg (Nat.succ_ne_self _), Nat.add_zero]
    by_cases hk : k < 32
    · rw [testBit_high hc hk]
      exact (and_iff_right hk).symm
    · rw [testBit_of_lt (high_lt hc) (not_lt.mp hk)]
      exact ⟨fun h => absurd h Bool.false_ne_true, fun h => absurd h.1 hk⟩
  · rw [if_neg hfirst, zero_add]
    by_cases hsecond : c.word + 1 = w
    · subst hsecond
      rw [if_pos rfl]
      by_cases hk : k < 32
      · rw [testBit_low hc hk]
        exact (and_iff_right hk).symm
      · rw [testBit_of_lt (low_lt hc) (not_lt.mp hk)]
        exact ⟨fun h => absurd h Bool.false_ne_true, fun h => absurd h.1 hk⟩
    · -- the code word is in two other words
      rw [if_neg hsecond, Nat.zero_testBit]
      refine ⟨fun h => absurd h Bool.false_ne_true, ?_⟩
      rintro ⟨hk, hlo, hhi, -⟩
      rw [word_eq] at hfirst hsecond
      omega

/-! ### Packing -/

/-- Two code words share no bit of the stream. -/
def Placed.Apart (c c' : Placed) : Prop := c.off + c.length ≤ c'.off ∨ c'.off + c'.length ≤ c.off

/-- **The words packed for two code words that are apart have no common bit.** -/
theorem disjointBits_part (hc : c.Fits) (hc' : c'.Fits) (h : c.Apart c') (w : ℕ) :
    DisjointBits (c.part w) (c'.part w) := by
  intro k hk hk'
  obtain ⟨-, hlo, hhi, -⟩ := (testBit_part hc).mp hk
  obtain ⟨-, hlo', hhi', -⟩ := (testBit_part hc').mp hk'
  rcases h with h | h <;> omega

theorem indexAdd_spec (words : List ℕ) (items : List (ℕ × ℕ))
    (h : ∀ item ∈ items, item.1 < words.length) :
    ∃ words', indexAdd words items = some words' ∧ words'.length = words.length ∧
      ∀ w < words.length, words'.getD w 0 = words.getD w 0 +
        sumOf (items.map fun item => if item.1 = w then item.2 else 0) := by
  unfold indexAdd
  rw [if_pos h]
  refine ⟨_, rfl, ?_⟩
  clear h
  induction items generalizing words with
  | nil => exact ⟨rfl, fun w _ => rfl⟩
  | cons item items ih =>
    obtain ⟨hlen, hget⟩ := ih (words.modify item.1 (· + item.2))
    rw [length_modify] at hlen hget
    refine ⟨hlen, fun w hw => ?_⟩
    rw [foldl_cons, hget w hw, map_cons, sumOf]
    have hmodify : (words.modify item.1 (· + item.2)).getD w 0 =
        words.getD w 0 + if item.1 = w then item.2 else 0 := by
      rw [getD_eq_getElem?_getD, getElem?_modify, getD_eq_getElem _ _ hw, getElem?_eq_getElem hw]
      by_cases hi : item.1 = w
      · rw [if_pos hi]
        show (if item.1 = w then words[w] + item.2 else words[w]) = _
        rw [if_pos hi]
      · rw [if_neg hi]
        show (if item.1 = w then words[w] + item.2 else words[w]) = _
        rw [if_neg hi]
        rfl
    rw [hmodify]
    omega

theorem packCodes_part (h : ∀ c ∈ placed, c.word + 1 < words.length) :
    ∃ words', packCodes words placed = some words' ∧ words'.length = words.length ∧
      ∀ w < words.length, words'.getD w 0 = words.getD w 0 + sumOf (placed.map (·.part w)) := by
  obtain ⟨words1, hadd1, hlen1, hget1⟩ := indexAdd_spec words
    (placed.map fun c => (c.word, c.high)) (by
      intro item hitem
      obtain ⟨c, hc, rfl⟩ := mem_map.mp hitem
      exact (Nat.lt_succ_self _).trans (h c hc))
  obtain ⟨words2, hadd2, hlen2, hget2⟩ := indexAdd_spec words1
    (placed.map fun c => (c.word + 1, c.low)) (by
      intro item hitem
      obtain ⟨c, hc, rfl⟩ := mem_map.mp hitem
      rw [hlen1]
      exact h c hc)
  refine ⟨words2, ?_, hlen2.trans hlen1, fun w hw => ?_⟩
  · unfold packCodes
    rw [hadd1]
    exact hadd2
  · rw [hget2 w (by rwa [hlen1]), hget1 w hw, add_assoc, map_map, map_map, ← sumOf_map_add]
    rfl

def streamBit (words : List ℕ) (b : ℕ) : Bool := (words.getD (b / 32) 0).testBit (31 - b % 32)

/-- Words that have the bits of some codes, and no others. -/
structure Packed (placed : List Placed) (words : List ℕ) : Prop where
  lt : ∀ w < words.length, words.getD w 0 < 2 ^ 32
  bit : ∀ b, b / 32 < words.length → (streamBit words b = true ↔ ∃ c ∈ placed, c.Has b)
  room : ∀ c ∈ placed, c.word + 1 < words.length

theorem packed_of_sums {n : ℕ} (hfits : ∀ c ∈ placed, c.Fits)
    (hapart : placed.Pairwise Placed.Apart)
    (hroom : ∀ c ∈ placed, c.word + 1 < n) (hlen : words.length = n)
    (hget : ∀ w < n, words.getD w 0 = sumOf (placed.map (·.part w))) : Packed placed words := by
  have hdisjoint : ∀ w, placed.Pairwise fun c c' => DisjointBits (c.part w) (c'.part w) := by
    intro w
    refine List.Pairwise.imp_of_mem (fun {c c'} hc hc' h => ?_) hapart
    exact disjointBits_part (hfits c hc) (hfits c' hc') h w
  refine ⟨fun w hw => ?_, fun b hb => ?_, fun c hc => by rw [hlen]; exact hroom c hc⟩
  · apply Nat.lt_pow_two_of_testBit
    intro i hi
    rw [hget w (hlen ▸ hw)]
    by_contra hbit
    rw [Bool.not_eq_false] at hbit
    obtain ⟨c, hc, hcbit⟩ := (testBit_sumOf (hdisjoint w) i).mp hbit
    have hlt := ((testBit_part (hfits c hc)).mp hcbit).1
    omega
  · have hplace : 32 * (b / 32) + 31 - (31 - b % 32) = b := by omega
    unfold streamBit
    rw [hget _ (hlen ▸ hb), testBit_sumOf (hdisjoint _)]
    constructor
    · rintro ⟨c, hc, hbit⟩
      have hhas := ((testBit_part (hfits c hc)).mp hbit).2
      rw [hplace] at hhas
      exact ⟨c, hc, hhas⟩
    · rintro ⟨c, hc, hhas⟩
      refine ⟨c, hc, (testBit_part (hfits c hc)).mpr ⟨by omega, ?_⟩⟩
      rwa [hplace]

theorem toInt32_emod {x : ℕ} (h : x < 2 ^ 32) :
    (toInt32 (x &&& 0xFFFFFFFF) % 2 ^ 32).toNat = x := by
  have hand : x &&& 0xFFFFFFFF = x :=
    (Nat.and_two_pow_sub_one_eq_mod x 32).trans (Nat.mod_eq_of_lt h)
  have hmod : Int.bmod (x : ℤ) (2 ^ 32) % (2 ^ 32 : ℕ) = (x : ℤ) % (2 ^ 32 : ℕ) := Int.bmod_emod
  unfold toInt32
  rw [hand, show (2 : ℤ) ^ 32 = ((2 ^ 32 : ℕ) : ℤ) from rfl, hmod]
  omega

/-- The words come back from signed integers. -/
theorem streamOf_bitstreamOf (h : ∀ w < words.length, words.getD w 0 < 2 ^ 32) :
    streamOf (bitstreamOf words) = words := by
  have hid : ∀ x ∈ words, (toInt32 (x &&& 0xFFFFFFFF) % 2 ^ 32).toNat = x := by
    intro x hx
    obtain ⟨w, hw, rfl⟩ := mem_iff_getElem.mp hx
    have hlt := h w hw
    rw [getD_eq_getElem _ _ hw] at hlt
    exact toInt32_emod hlt
  unfold streamOf bitstreamOf
  rw [map_map]
  refine (map_congr_left fun x hx => ?_).trans (map_id _)
  rw [Function.comp_apply]
  exact hid x hx

/-! ### Windows -/

theorem pyGet_natCast {l : List ℕ} {i : ℕ} (hi : i < l.length) :
    pyGet l (i : ℤ) = some (l.getD i 0) := by
  unfold pyGet
  rw [if_pos (Int.natCast_nonneg i), Int.toNat_natCast, getElem?_eq_getElem hi,
    getD_eq_getElem _ _ hi]

theorem peek_spec {pos : ℕ} (hlt : ∀ w < words.length, words.getD w 0 < 2 ^ 32) (hlmax : lmax ≤ 32)
    (hroom : pos / 32 + 1 < words.length) :
    ∃ v, peek words lmax pos = some v ∧ v < 2 ^ lmax ∧
      ∀ j < lmax, v.testBit j = streamBit words (pos + lmax - 1 - j) := by
  have hdiv : (pos : ℤ) / 32 = ((pos / 32 : ℕ) : ℤ) := (Int.natCast_div pos 32).symm
  have hmod : ((pos : ℤ) % 32).toNat = pos % 32 := by
    rw [show (32 : ℤ) = ((32 : ℕ) : ℤ) from rfl, ← Int.natCast_mod, Int.toNat_natCast]
  have hpeek :
      peek words lmax pos =
      some (((words.getD (pos / 32) 0 <<< 32 ||| words.getD (pos / 32 + 1) 0) >>>
      (64 - pos % 32 - lmax)) &&& ((1 <<< lmax) - 1)) := by
    unfold peek
    dsimp only
    have hnext : ((pos / 32 : ℕ) : ℤ) + 1 = ((pos / 32 + 1 : ℕ) : ℤ) := rfl
    rw [hdiv, hmod, hnext, if_pos (by omega), pyGet_natCast (by omega), Option.bind_eq_bind,
      Option.bind_some, if_pos (by omega), pyGet_natCast hroom]
    rfl
  refine ⟨_, hpeek, ?_, fun j hj => ?_⟩
  · rw [Nat.one_shiftLeft, Nat.and_two_pow_sub_one_eq_mod]
    exact Nat.mod_lt _ (Nat.two_pow_pos _)
  · have hposdiv := Nat.div_add_mod pos 32
    have hposmod := Nat.mod_lt pos (show 0 < 32 by decide)
    rw [Nat.one_shiftLeft, Nat.testBit_and, Nat.testBit_two_pow_sub_one, decide_eq_true hj,
      Bool.and_true, Nat.testBit_shiftRight, Nat.testBit_or, Nat.testBit_shiftLeft]
    unfold streamBit
    by_cases hhigh : 32 ≤ 64 - pos % 32 - lmax + j
    · -- the bit is in the first word
      have hlow : (words.getD (pos / 32 + 1) 0).testBit (64 - pos % 32 - lmax + j) = false :=
        testBit_of_lt (hlt _ hroom) hhigh
      have hword : (pos + lmax - 1 - j) / 32 = pos / 32 := by omega
      have hbit : 31 - (pos + lmax - 1 - j) % 32 = 64 - pos % 32 - lmax + j - 32 := by omega
      rw [hlow, Bool.or_false, decide_eq_true (show 64 - pos % 32 - lmax + j ≥ 32 from hhigh),
        Bool.true_and, hword, hbit]
    · have hword : (pos + lmax - 1 - j) / 32 = pos / 32 + 1 := by omega
      have hbit : 31 - (pos + lmax - 1 - j) % 32 = 64 - pos % 32 - lmax + j := by omega
      rw [decide_eq_false (show ¬64 - pos % 32 - lmax + j ≥ 32 from hhigh), Bool.false_and,
        Bool.false_or, hword, hbit]

/-- **The window at the place of a code starts with its code word.** -/
theorem Packed.window (h : Packed placed words) (hapart : placed.Pairwise Placed.Apart)
    (hc : c ∈ placed)
    (hfits : c.Fits) (hlen : c.length ≤ lmax) (hpos : 1 ≤ c.length) (hlmax : lmax ≤ 32) :
    ∃ v, peek words lmax c.off = some v ∧ v < 2 ^ lmax ∧ v >>> (lmax - c.length) = c.code := by
  have hroom := h.room c hc
  rw [word_eq] at hroom
  obtain ⟨v, hv, hvlt, hbits⟩ := peek_spec h.lt hlmax hroom
  refine ⟨v, hv, hvlt, ?_⟩
  apply Nat.eq_of_testBit_eq
  intro i
  rw [Nat.testBit_shiftRight]
  by_cases hi : i < c.length
  · have hplace : c.off + lmax - 1 - (lmax - c.length + i) = c.off + c.length - 1 - i := by omega
    have hindex : c.off + c.length - 1 - (c.off + c.length - 1 - i) = i := by omega
    rw [hbits _ (by omega), hplace, Bool.eq_iff_iff, h.bit _ (by omega)]
    constructor
    · rintro ⟨c', hc', hlo, hhi, hbit⟩
      -- no other code has a bit there
      have heq : c' = c := by
        by_contra hne
        have hall := pairwise_iff_getElem.mp hapart
        obtain ⟨x, hx, rfl⟩ := mem_iff_getElem.mp hc
        obtain ⟨y, hy, rfl⟩ := mem_iff_getElem.mp hc'
        rcases lt_trichotomy x y with hxy | rfl | hxy
        · rcases hall x y hx hy hxy with happ | happ <;> omega
        · exact hne rfl
        · rcases hall y x hy hx hxy with happ | happ <;> omega
      subst heq
      rwa [hindex] at hbit
    · intro hbit
      exact ⟨c, hc, by omega, by omega, by rwa [hindex]⟩
  · rw [testBit_of_lt hfits.2 (not_lt.mp hi), testBit_of_lt hvlt (by omega)]

end Df11

end FreeToken
