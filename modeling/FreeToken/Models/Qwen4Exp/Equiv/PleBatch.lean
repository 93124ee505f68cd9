import FreeToken.Kernel.PleStore.Equiv.Store
import FreeToken.Models.Qwen4Exp.Ple

/-!
# The rows of a batch

* `shiftIgnoreEos_spec`: a shift that crosses a boundary is the boundary.
* `headRows_eq`: the two hashes of a window are the same.
* `Prefills`, `Decodes`: a batch as contexts and tokens, request by request.
* `rowIds_prefill`, `rowIds_decode`: the rows of a batch are those of its runs.
* `nextWindow_eq`: the window after a forward is the end of the run.
-/

namespace FreeToken

open List

namespace Ple

variable {e : NGramEmbedding} {row : List (BitVec 64)} {p shift : ℕ}

/-! ### Shifts -/

theorem foldl_max_le {a b : ℤ} {xs : List ℤ} : xs.foldl max a ≤ b ↔ a ≤ b ∧ ∀ x ∈ xs, x ≤ b := by
  induction xs generalizing a with
  | nil => exact ⟨fun h => ⟨h, fun x hx => absurd hx List.not_mem_nil⟩, fun h => h.1⟩
  | cons x xs ih =>
    rw [List.foldl_cons, ih, max_le_iff, forall_mem_cons, and_assoc]

theorem prevEos_le {b : ℤ} (hb : -1 ≤ b) (hp : p < row.length) :
    (e.prevEos row).getD p (-1) ≤ b ↔ ∀ q < p, row.getD q 0 = e.eos → (q : ℤ) ≤ b := by
  unfold NGramEmbedding.prevEos
  cases p with
  | zero => exact ⟨fun _ q hq => absurd hq (Nat.not_lt_zero q), fun _ => hb⟩
  | succ p =>
    rw [getD_cons_succ, List.getD_eq_getElem?_getD, getElem?_dropLast]
    unfold cummax
    rw [List.length_map, List.length_range, length_mapIdx, if_pos (Nat.lt_sub_of_add_lt hp),
      List.getElem?_map, List.getElem?_range (Nat.lt_of_succ_lt hp), Option.map_some,
      Option.getD_some, foldl_max_le]
    have hmem : ∀ x, x ∈ (row.mapIdx fun p t => if t = e.eos then (p : ℤ) else -1).take (p + 1) ↔
        ∃ q < p + 1, (if row.getD q 0 = e.eos then (q : ℤ) else -1) = x := by
      intro x
      rw [List.mem_take_iff_getElem]
      simp only [getElem_mapIdx, length_mapIdx, lt_min_iff]
      constructor
      · rintro ⟨q, ⟨hq, hlen⟩, rfl⟩
        exact ⟨q,
          hq, by rw [List.getD_eq_getElem?_getD, List.getElem?_eq_getElem hlen, Option.getD_some]⟩
      · rintro ⟨q, hq, rfl⟩
        have hlen : q < row.length := hq.trans hp
        exact ⟨q, ⟨hq, hlen⟩, by rw [List.getD_eq_getElem?_getD, List.getElem?_eq_getElem hlen,
          Option.getD_some]⟩
    constructor
    · rintro ⟨-, hall⟩ q hq heos
      have hle := hall _ ((hmem _).mpr ⟨q, hq, rfl⟩)
      rwa [if_pos heos] at hle
    · intro hall
      have hle :
        ∀ x ∈ (row.mapIdx fun p t => if t = e.eos then (p : ℤ) else -1).take (p + 1), x ≤ b := by
        intro x hx
        obtain ⟨q, hq, rfl⟩ := (hmem x).mp hx
        split_ifs with heos
        · exact hall q hq heos
        · exact hb
      refine ⟨?_, hle⟩
      refine hle _ ?_
      cases row with
      | nil => exact absurd hp (Nat.not_lt_zero _)
      | cons t row =>
        rw [mapIdx_cons, List.take_succ_cons, headD_cons]
        exact List.mem_cons_self

theorem shiftIgnoreEos_spec (hp : p < row.length) (hshift : shift ≤ p) :
    (e.shiftIgnoreEos row shift).getD p 0 =
      if ∃ q < p, p ≤ q + shift ∧ row.getD q 0 = e.eos then e.eos else row.getD (p - shift) 0 := by
  unfold NGramEmbedding.shiftIgnoreEos
  by_cases hzero : shift = 0
  · subst hzero
    have hnone : ¬∃ q < p, p ≤ q + 0 ∧ row.getD q 0 = e.eos := by
      rintro ⟨q, hq, hle, -⟩
      omega
    rw [if_pos rfl, if_neg hnone, Nat.sub_zero]
  · have hvalid : (shift : ℤ) ≤ p - (e.prevEos row).getD p (-1) - 1 ↔
        ¬∃ q < p, p ≤ q + shift ∧ row.getD q 0 = e.eos := by
      have hle :
          (shift : ℤ) ≤ p - (e.prevEos row).getD p (-1) - 1 ↔
          (e.prevEos row).getD p (-1) ≤ p - shift - 1 := by
        constructor <;> intro h <;> omega
      rw [hle, prevEos_le (by omega) hp]
      constructor
      · rintro hall ⟨q, hq, hcross, heos⟩
        have hlt := hall q hq heos
        omega
      · intro hnone q hq heos
        by_contra hlt
        exact hnone ⟨q, hq, by omega, heos⟩
    rw [if_neg hzero, List.getD_eq_getElem?_getD, getElem?_mapIdx, List.getElem?_eq_getElem hp,
      Option.map_some, Option.getD_some]
    by_cases hcross : ∃ q < p, p ≤ q + shift ∧ row.getD q 0 = e.eos
    · rw [if_pos hcross]
      exact if_neg fun h => hvalid.mp h.2 hcross
    · rw [if_neg hcross]
      exact if_pos ⟨hshift, hvalid.mpr hcross⟩

/-! ### Hashes -/

/-- The store on disk has the constants of the embedding. -/
structure DiskOf (e : NGramEmbedding) (d : DiskRowTable) : Prop where
  size : e.args.ngramSize = 3
  multipliers : e.layerMultipliers = [d.store.mult0, d.store.mult1, d.store.mult2]
  sizes : e.vocabSizes = d.store.sizes
  offsets : e.offsets = d.store.offsets
  heads : d.store.sizes.length = 2 * e.args.headsPerNgram
  store_eos : d.store.eos = e.eos
  eos : d.eosTokenId = e.args.ngramBoundaryTokenId
  image : d.imageTokenId = e.args.imageTokenId
  eos_lt : e.args.imageTokenId.isSome → e.args.ngramBoundaryTokenId.toInt < mmPadShift

/-- The rows of a token and the two in front of it. -/
theorem headRows_eq {d : DiskRowTable} (hdisk : DiskOf e d) {tokens : ℕ → BitVec 64}
    {w0 w1 w2 : BitVec 64} (h0 : tokens 0 = w2)
    (h1 : tokens 1 = w1) (h2 : tokens 2 = if w1 = e.eos then e.eos else w0) :
    e.headRows tokens = d.store.hashRows w0 w1 w2 := by
  unfold NGramEmbedding.headRows PleStore.hashRows
  rw [hdisk.size, hdisk.multipliers, hdisk.sizes, hdisk.offsets, hdisk.store_eos]
  show ((List.range e.args.headsPerNgram).map _ ++
      ((List.range e.args.headsPerNgram).map _ ++ [])) = _
  rw [hdisk.heads, Nat.two_mul, List.range_add, List.map_append, List.append_nil, List.map_map, h0]
  have hhalf : (e.args.headsPerNgram + e.args.headsPerNgram) / 2 = e.args.headsPerNgram := by omega
  congr 1
  · apply List.map_congr_left
    intro h hh
    have hlt : h < e.args.headsPerNgram := List.mem_range.mp hh
    have hpos := (d.store.heads_fit h (by rw [hdisk.heads]; omega)).1
    rw [hhalf, if_pos hlt, posMod_eq (Int.natCast_pos.mpr hpos), Int.fmod_eq_emod_of_nonneg _
      (Int.natCast_nonneg _)]
    show (w2 * d.store.mult0 ^^^ (tokens 1 * d.store.mult1)).toInt %
        ((d.store.sizes.getD ((2 - 2) * _ + h) 0 : ℕ) : ℤ) +
      ((d.store.offsets.getD ((2 - 2) * _ + h) 0 : ℕ) : ℤ) = _
    rw [h1, Nat.sub_self, Nat.zero_mul, Nat.zero_add]
    rfl
  · apply List.map_congr_left
    intro h hh
    have hlt : h < e.args.headsPerNgram := List.mem_range.mp hh
    have hpos := (d.store.heads_fit (e.args.headsPerNgram + h) (by rw [hdisk.heads]; omega)).1
    have hge : ¬e.args.headsPerNgram + h < e.args.headsPerNgram := by omega
    show (w2 * d.store.mult0 ^^^ (tokens 1 * d.store.mult1) ^^^
        (tokens 2 * d.store.mult2)).toInt.fmod
        ((d.store.sizes.getD ((3 - 2) * _ + h) 0 : ℕ) : ℤ) +
          ((d.store.offsets.getD ((3 - 2) * _ + h) 0 : ℕ) : ℤ) =
      posMod (if e.args.headsPerNgram + h < (e.args.headsPerNgram + e.args.headsPerNgram) / 2 then _
        else _ : BitVec 64).toInt _ + _
    rw [hhalf, if_neg hge, posMod_eq (Int.natCast_pos.mpr hpos), Int.fmod_eq_emod_of_nonneg _
      (Int.natCast_nonneg _), h1, h2,
      show 3 - 2 = 1 from rfl, one_mul]
    rfl

theorem headRows_shift {d : DiskRowTable} (hdisk : DiskOf e d) (hp : p + 2 < row.length) :
    e.headRows (fun shift => (e.shiftIgnoreEos row shift).getD (p + 2) 0) =
      d.store.hashRows (row.getD p 0) (row.getD (p + 1) 0) (row.getD (p + 2) 0) := by
  refine headRows_eq hdisk ?_ ?_ ?_
  · rfl
  · rw [shiftIgnoreEos_spec hp (by omega)]
    split_ifs with hcross
    · obtain ⟨q, hq, hle, heos⟩ := hcross
      obtain rfl : q = p + 1 := by omega
      exact heos.symm
    · rfl
  · rw [shiftIgnoreEos_spec hp (by omega)]
    by_cases heos : row.getD (p + 1) 0 = e.eos
    · rw [if_pos heos, if_pos ⟨p + 1, by omega, by omega, heos⟩]
    · rw [if_neg heos]
      split_ifs with hcross
      · obtain ⟨q, hq, hle, heos'⟩ := hcross
        have hne : q ≠ p + 1 := by
          rintro rfl
          exact heos heos'
        obtain rfl : q = p := by omega
        exact heos'.symm
      · rfl

variable {α β : Type} {toks : List (List α)} {b j : ℕ}

/-! ### Ragged rows -/

def startOf (toks : List (List α)) (b : ℕ) : ℕ := (toks.take b).flatten.length

theorem startOf_zero : startOf toks 0 = 0 := rfl

variable {ts : List α}

theorem startOf_succ (h : toks[b]? = some ts) :
    startOf toks (b + 1) = startOf toks b + ts.length := by
  unfold startOf
  rw [List.take_add_one, h, Option.toList_some, List.flatten_append, List.length_append,
    List.flatten_singleton]

theorem startOf_mono {b' : ℕ} (h : b ≤ b') : startOf toks b ≤ startOf toks b' := by
  obtain ⟨rest, hrest⟩ : toks.take b <+: toks.take b' := List.take_prefix_take_left h
  unfold startOf
  rw [← hrest, List.flatten_append, List.length_append]
  exact Nat.le_add_right _ _

theorem getElem?_startOf (h : toks[b]? = some ts) (hj : j < ts.length) :
    toks.flatten[startOf toks b + j]? = ts[j]? := by
  have hsplit : toks = toks.take b ++ ts :: toks.drop (b + 1) := by
    obtain ⟨hb, rfl⟩ := List.getElem?_eq_some_iff.mp h
    rw [← List.drop_eq_getElem_cons hb, List.take_append_drop]
  conv_lhs => rw [hsplit, List.flatten_append, List.flatten_cons]
  rw [show startOf (toks.take b ++ ts :: toks.drop (b + 1)) b =
    (toks.take b).flatten.length by rw [← hsplit]; rfl, List.getElem?_append_right
    (Nat.le_add_right _ _), Nat.add_sub_cancel_left, List.getElem?_append_left hj]

theorem exists_startOf {pos : ℕ} (hpos : pos < toks.flatten.length) :
    ∃ b j ts, toks[b]? = some ts ∧ j < ts.length ∧ pos = startOf toks b + j := by
  induction toks generalizing pos with
  | nil => exact absurd hpos (Nat.not_lt_zero pos)
  | cons ts toks ih =>
    rw [List.flatten_cons, List.length_append] at hpos
    by_cases hlt : pos < ts.length
    · exact ⟨0, pos, ts, rfl, hlt, (Nat.zero_add pos).symm⟩
    · obtain ⟨b, j, ts', hts, hj, hsum⟩ := @ih (pos - ts.length) (by omega)
      refine ⟨b + 1, j, ts', hts, hj, ?_⟩
      unfold startOf at *
      rw [List.take_succ_cons, List.flatten_cons, List.length_append]
      omega

theorem map_range_flatten {γ : Type} {runs : List γ} {f : γ → List α} (F : ℕ → β) (G : γ → ℕ → β)
    (hF : ∀ b j run, runs[b]? = some run → j < (f run).length → F (startOf (runs.map f) b + j) =
      G run j) :
    (List.range (runs.map f).flatten.length).map F = runs.flatMap fun run =>
    (List.range (f run).length).map (G run) := by
  induction runs generalizing F with
  | nil => rfl
  | cons run runs ih =>
    have hrest := ih (fun pos => F ((f run).length + pos)) (fun b j run' hrun hj => by
      have hrow := hF (b + 1) j run' hrun hj
      unfold startOf at *
      rw [List.map_cons, List.take_succ_cons, List.flatten_cons, List.length_append,
        Nat.add_assoc] at hrow
      exact hrow)
    rw [List.map_cons, List.flatten_cons, List.length_append, List.range_add, List.map_append,
      List.map_map, List.flatMap_cons]
    congr 1
    apply List.map_congr_left
    intro j hj
    have hrow := hF 0 j run rfl (List.mem_range.mp hj)
    rwa [startOf_zero, Nat.zero_add] at hrow

theorem scanl_startOf {b : ℕ} (hb : b ≤ toks.length) :
    ((toks.map List.length).scanl (· + ·) 0)[b]? = some (startOf toks b) := by
  have hlen : b < ((toks.map List.length).scanl (· + ·) 0).length := by
    rw [List.length_scanl, List.length_map]
    omega
  rw [List.getElem?_eq_getElem hlen, List.getElem_scanl, ← List.map_take]
  unfold startOf
  rw [List.length_flatten, List.sum_eq_foldl]

theorem searchsorted_startOf (h : toks[b]? = some ts) (hj : j < ts.length) :
    searchsortedRight ((toks.map List.length).scanl (· + ·) 0) (startOf toks b + j) = b + 1 := by
  have hb : b < toks.length := (List.getElem?_eq_some_iff.mp h).1
  have hlen : ((toks.map List.length).scanl (· + ·) 0).length = toks.length + 1 := by
    rw [List.length_scanl, List.length_map]
  unfold searchsortedRight
  rw [← List.take_append_drop (b + 1) ((toks.map List.length).scanl (· + ·) 0), List.countP_append]
  have hbefore :
      ((((toks.map List.length).scanl (· + ·) 0)).take (b + 1)).countP (· ≤ startOf toks b + j) =
      b + 1 := by
    rw [List.countP_eq_length.mpr, List.length_take, hlen]
    · omega
    · intro x hx
      obtain ⟨i, hi, rfl⟩ := List.mem_take_iff_getElem.mp hx
      rw [hlen] at hi
      have hget : _ = some (startOf toks i) := scanl_startOf (show i ≤ toks.length by omega)
      rw [List.getElem?_eq_getElem (by omega)] at hget
      rw [Option.some.inj hget, decide_eq_true_iff]
      exact (startOf_mono (by omega)).trans (Nat.le_add_right _ _)
  have hbehind :
      ((((toks.map List.length).scanl (· + ·) 0)).drop (b + 1)).countP (· ≤ startOf toks b + j) =
      0 := by
    rw [List.countP_eq_zero]
    intro x hx
    obtain ⟨i, hi, rfl⟩ := List.mem_drop_iff_getElem.mp hx
    have hget : _ = some (startOf toks (b + 1 + i)) :=
      scanl_startOf (show b + 1 + i ≤ toks.length by omega)
    rw [List.getElem?_eq_getElem (by omega)] at hget
    rw [Option.some.inj hget, decide_eq_true_iff, not_le]
    have hmono : startOf toks (b + 1) ≤ startOf toks (b + 1 + i) := startOf_mono (by omega)
    have hsucc := startOf_succ h
    omega
  rw [hbefore, hbehind]

/-! ### Packed rows -/

abbrev PleRun := List (BitVec 64) × List (BitVec 64)

abbrev toksOf (runs : List PleRun) : List (List (BitVec 64)) := runs.map Prod.snd

theorem toksOf_cons {run : PleRun} {runs : List PleRun} :
    toksOf (run :: runs) = run.2 :: toksOf runs := rfl

structure Prefills (m : PLEMetadata) (ctxLen : ℕ) (runs : List PleRun) : Prop where
  isDecode : m.isDecode = false
  ids : m.inputIds.map long = (toksOf runs).flatten
  cu : m.cuSeqlens = ((toksOf runs).map List.length).scanl (· + ·) 0
  lens : m.seqLens = (toksOf runs).map List.length
  context : m.ngramContext = runs.map Prod.fst
  width : ∀ run ∈ runs, run.1.length = ctxLen

structure Decodes (m : PLEMetadata) (ctxLen : ℕ) (runs : List PleRun) : Prop where
  isDecode : m.isDecode = true
  ids : m.inputIds.map long = (toksOf runs).flatten
  context : m.ngramContext = runs.map Prod.fst
  width : ∀ run ∈ runs, run.1.length = ctxLen
  single : ∀ run ∈ runs, run.2.length = 1

variable {e : NGramEmbedding} {d : DiskRowTable} {m : PLEMetadata} {runs : List PleRun}

theorem le_foldl_max_nat {xs : List ℕ} {x start : ℕ} :
    (x ∈ xs ∨ x ≤ start) → x ≤ xs.foldl max start := by
  induction xs generalizing start with
  | nil => exact fun h => h.resolve_left List.not_mem_nil
  | cons y xs ih =>
    intro h
    rw [List.foldl_cons]
    refine ih ?_
    rcases h with h | h
    · rcases List.mem_cons.mp h with rfl | h
      · exact Or.inr (le_max_right _ _)
      · exact Or.inl h
    · exact Or.inr (h.trans (le_max_left _ _))

/-- The rows while the tokens are put into them: those in front of `n` are there. -/
theorem scatter_spec {width : ℕ} {req col : ℕ → ℕ}
    (hplace : ∀ b j run, runs[b]? = some run → j < run.2.length →
      req (startOf (toksOf runs) b + j) = b ∧ col (startOf (toksOf runs) b + j) = run.1.length + j)
    (hwidth : ∀ run ∈ runs, run.2.length ≤ width) {n : ℕ} (hn : n ≤ (toksOf runs).flatten.length)
    {b : ℕ} {run : PleRun} (hrun : runs[b]? = some run) :
    ((List.range n).foldl (fun packed pos =>
        packed.modify (req pos) fun row => row.set (col pos) ((toksOf runs).flatten.getD pos 0))
      ((runs.map Prod.fst).map fun context => context ++ List.replicate width e.eos))[b]? =
      some (run.1 ++ (run.2.take (n - startOf (toksOf runs) b) ++
        List.replicate (width - min run.2.length (n - startOf (toksOf runs) b)) e.eos)) := by
  have htoks : ∀ {b : ℕ} {run : PleRun}, runs[b]? = some run → (toksOf runs)[b]? = some run.2 := by
    intro b run hrun
    rw [List.getElem?_map, hrun]
    rfl
  induction n with
  | zero =>
    rw [List.range_zero, List.foldl_nil, List.getElem?_map, List.getElem?_map, hrun, Nat.zero_sub,
      List.take_zero, Nat.min_zero, Nat.sub_zero]
    rfl
  | succ n ih =>
    rw [List.range_succ, List.foldl_append, List.foldl_cons, List.foldl_nil, List.getElem?_modify,
      ih (Nat.le_of_succ_le hn)]
    obtain ⟨b0, j, ts, hts, hj, rfl⟩ := exists_startOf (Nat.lt_of_succ_le hn)
    obtain ⟨run0, hrun0, rfl⟩ : ∃ run0, runs[b0]? = some run0 ∧ run0.2 = ts := by
      rw [List.getElem?_map, Option.map_eq_some_iff] at hts
      exact hts
    obtain ⟨hreq, hcol⟩ := hplace b0 j run0 hrun0 hj
    rw [hreq, hcol, Option.map_eq_map, Option.map_some]
    by_cases hb : b0 = b
    · subst hb
      obtain rfl := Option.some.inj (hrun.symm.trans hrun0)
      have hle := hwidth run (List.mem_of_getElem? hrun)
      have hvalue : (toksOf runs).flatten.getD (startOf (toksOf runs) b0 + j) 0 = run.2[j] := by
        rw [List.getD_eq_getElem?_getD, getElem?_startOf hts hj, List.getElem?_eq_getElem hj,
          Option.getD_some]
      rw [if_pos rfl, hvalue, Nat.add_sub_cancel_left, Nat.add_assoc, Nat.add_sub_cancel_left]
      congr 1
      have hpad : width - min run.2.length j = (width - min run.2.length (j + 1)) + 1 := by omega
      rw [List.set_append_right _ _ (Nat.le_add_right _ _), Nat.add_sub_cancel_left,
        List.set_append_right _ _ (List.length_take_le _ _), List.length_take, min_eq_left hj.le,
        Nat.sub_self, hpad, List.replicate_succ, List.set_cons_zero, List.take_add_one,
        List.getElem?_eq_getElem hj, Option.toList_some, List.append_assoc, List.singleton_append]
    · rw [if_neg hb]
      congr 2
      -- the rows of another request are all in front, or all behind
      rcases lt_or_gt_of_ne hb with hlt | hlt
      · have hmono : startOf (toksOf runs) (b0 + 1) ≤ startOf (toksOf runs) b := startOf_mono hlt
        have hsucc := startOf_succ hts
        have hfront : startOf (toksOf runs) b0 + j + 1 ≤ startOf (toksOf runs) b := by omega
        rw [Nat.sub_eq_zero_of_le (Nat.le_of_succ_le hfront), Nat.sub_eq_zero_of_le hfront]
      · have hmono : startOf (toksOf runs) (b + 1) ≤ startOf (toksOf runs) b0 := startOf_mono hlt
        have hsucc := startOf_succ (htoks hrun)
        rw [List.take_of_length_le (by omega), List.take_of_length_le (by omega),
          min_eq_left (by omega), min_eq_left (by omega)]

theorem runRows_eq {d : DiskRowTable} {context toks : List (BitVec 64)} (h : context.length = 2) :
    d.runRows (context ++ toks) = (List.range toks.length).map fun i =>
      d.store.hashRows ((context ++ toks).getD i 0) ((context ++ toks).getD (i + 1) 0)
        ((context ++ toks).getD (i + 2) 0) := by
  unfold DiskRowTable.runRows
  rw [List.length_append, h, Nat.add_sub_cancel_left]

theorem rowIds_prefill (hdisk : DiskOf e d) (h : Prefills m 2 runs) :
    e.rowIds m = runs.flatMap fun run => d.runRows (run.1 ++ run.2) := by
  have htoks : ∀ {b : ℕ} {run : PleRun}, runs[b]? = some run → (toksOf runs)[b]? = some run.2 := by
    intro b run hrun
    rw [List.getElem?_map, hrun]
    rfl
  -- the search finds the run that a position is in, and the place in it
  have hreq : ∀ b j run, runs[b]? = some run → j < run.2.length →
      min (searchsortedRight m.cuSeqlens (startOf (toksOf runs) b + j) - 1) (m.seqLens.length - 1) =
        b := by
    intro b j run hrun hj
    have hb : b < runs.length := (List.getElem?_eq_some_iff.mp hrun).1
    rw [h.cu, h.lens, searchsorted_startOf (htoks hrun) hj, List.length_map, List.length_map]
    omega
  have hcu : ∀ b j run, runs[b]? = some run → j < run.2.length →
      startOf (toksOf runs) b + j - m.cuSeqlens.getD b 0 = j := by
    intro b j run hrun hj
    have hb : b < runs.length := (List.getElem?_eq_some_iff.mp hrun).1
    rw [h.cu, List.getD_eq_getElem?_getD, scanl_startOf (by rw [List.length_map]; exact hb.le),
      Option.getD_some, Nat.add_sub_cancel_left]
  have hwidth : ∀ run ∈ runs, run.2.length ≤ 3 - 1 + m.seqLens.foldl max 0 - (3 - 1) := by
    intro run hrun
    rw [Nat.add_sub_cancel_left, h.lens]
    exact le_foldl_max_nat (Or.inl (List.mem_map_of_mem (List.mem_map_of_mem hrun)))
  unfold NGramEmbedding.rowIds NGramEmbedding.window
  rw [h.isDecode, h.ids, h.context, hdisk.size]
  rw [if_neg Bool.false_ne_true]
  refine List.map_map.trans ?_
  refine (map_range_flatten _
    (fun run j => d.store.hashRows ((run.1 ++ run.2).getD j 0) ((run.1 ++ run.2).getD (j + 1) 0)
    ((run.1 ++ run.2).getD (j + 2) 0)) fun b j run hrun hj => ?_).trans ?_
  · have hpos : startOf (toksOf runs) b + j - m.cuSeqlens.getD b 0 = j := hcu b j run hrun hj
    have hle : startOf (toksOf runs) (b + 1) ≤ startOf (toksOf runs) (toksOf runs).length :=
      startOf_mono (by rw [List.length_map]; exact (List.getElem?_eq_some_iff.mp hrun).1)
    rw [startOf_succ (htoks hrun)] at hle
    unfold startOf at hle
    rw [List.take_length] at hle
    have hrow := @scatter_spec e runs _
      (fun pos => min (searchsortedRight m.cuSeqlens pos - 1) (m.seqLens.length - 1))
      (fun pos =>
        pos - m.cuSeqlens.getD (min (searchsortedRight m.cuSeqlens pos - 1) (m.seqLens.length - 1))
        0 + (3 - 1)) (fun b j run hrun hj => ⟨hreq b j run hrun hj, by
        rw [hreq b j run hrun hj, hcu b j run hrun hj, h.width run (List.mem_of_getElem? hrun),
          Nat.add_comm]⟩) hwidth
      _ (le_refl _) _ _ hrun
    rw [List.take_of_length_le (by unfold startOf; omega)] at hrow
    simp only [Function.comp_apply]
    rw [hreq b j run hrun hj, hpos, List.getD_eq_getElem?_getD, hrow, Option.getD_some]
    have hwid := h.width run (List.mem_of_getElem? hrun)
    have hlen : (run.1 ++ run.2).length = 2 + run.2.length := by
      rw [List.length_append, hwid]
    -- the padding behind a run is not read
    have hget :
      ∀ i ≤ j + 2, ∀ pad, (run.1 ++ (run.2 ++ pad)).getD i 0 = (run.1 ++ run.2).getD i 0 := by
      intro i hi pad
      rw [← List.append_assoc, List.getD_eq_getElem?_getD, List.getElem?_append_left (by omega),
        ← List.getD_eq_getElem?_getD]
    rw [headRows_shift hdisk (by rw [← List.append_assoc, List.length_append]; omega),
      hget j (by omega), hget (j + 1) (by omega), hget (j + 2) (le_refl _)]
  · exact List.flatMap_congr fun run hrun => (runRows_eq (h.width run hrun)).symm

theorem zipWith_single {f : List (BitVec 64) → BitVec 64 → List (BitVec 64)}
    {g : PleRun → List (BitVec 64)}
    (hsingle : ∀ run ∈ runs, run.2.length = 1)
    (hf : ∀ run ∈ runs, ∀ id, run.2 = [id] → f run.1 id = g run) :
    List.zipWith f (runs.map Prod.fst) (toksOf runs).flatten = runs.map g := by
  induction runs with
  | nil => rfl
  | cons run runs ih =>
    obtain ⟨id, hid⟩ := List.length_eq_one_iff.mp (hsingle run List.mem_cons_self)
    have hrest := ih (fun r hr => hsingle r (List.mem_cons_of_mem _ hr)) fun r hr =>
      hf r (List.mem_cons_of_mem _ hr)
    rw [List.map_cons, toksOf_cons, List.flatten_cons, hid, List.singleton_append,
      List.zipWith_cons_cons, hrest, hf run List.mem_cons_self id hid, List.map_cons]

theorem length_single (hsingle : ∀ run ∈ runs, run.2.length = 1) :
    (toksOf runs).flatten.length = runs.length := by
  induction runs with
  | nil => rfl
  | cons run runs ih =>
    rw [toksOf_cons, List.flatten_cons, List.length_append, hsingle run List.mem_cons_self,
      ih fun r hr => hsingle r (List.mem_cons_of_mem _ hr), List.length_cons, Nat.add_comm]

theorem rowIds_decode (hdisk : DiskOf e d) (h : Decodes m 2 runs) :
    e.rowIds m = runs.flatMap fun run => d.runRows (run.1 ++ run.2) := by
  have hstart : ∀ b, b ≤ runs.length → startOf (toksOf runs) b = b := by
    intro b hb
    unfold startOf
    rw [← List.map_take, length_single fun run hrun =>
      h.single run (List.mem_of_mem_take hrun), List.length_take, min_eq_left hb]
  unfold NGramEmbedding.rowIds NGramEmbedding.window
  rw [h.isDecode, h.ids, h.context, hdisk.size]
  rw [if_pos rfl]
  rw [zipWith_single (g := fun run => run.1 ++ run.2) h.single fun run _ id hid => by rw [hid]]
  refine List.map_map.trans ?_
  refine (map_range_flatten _
    (fun run j => d.store.hashRows ((run.1 ++ run.2).getD j 0) ((run.1 ++ run.2).getD (j + 1) 0)
    ((run.1 ++ run.2).getD (j + 2) 0)) fun b j run hrun hj => ?_).trans ?_
  · have hmem := List.mem_of_getElem? hrun
    rw [h.single run hmem] at hj
    obtain rfl : j = 0 := Nat.lt_one_iff.mp hj
    have hlen : (run.1 ++ run.2).length = 3 := by
      rw [List.length_append, h.width run hmem, h.single run hmem]
    simp only [Function.comp_apply]
    rw [add_zero, hstart b (List.getElem?_eq_some_iff.mp hrun).1.le, List.getD_eq_getElem?_getD,
      List.getElem?_map, hrun, Option.map_some, Option.getD_some]
    exact headRows_shift hdisk (by omega)
  · exact List.flatMap_congr fun run hrun => (runRows_eq (h.width run hrun)).symm

/-! ### The window that is left -/

def windowAfter (run : PleRun) : List (BitVec 64) := (run.1 ++ run.2).drop run.2.length

theorem nextWindow_eq {b : ℕ} {run : PleRun} (hrun : runs[b]? = some run) :
    nextWindow (toksOf runs).flatten run.1 (startOf (toksOf runs) b)
      (startOf (toksOf runs) (b + 1)) = windowAfter run := by
  have htoks : (toksOf runs)[b]? = some run.2 := by
    rw [List.getElem?_map, hrun]
    rfl
  rw [startOf_succ htoks]
  unfold nextWindow windowAfter
  apply List.ext_getElem?
  intro j
  by_cases hj : j < run.1.length
  · rw [List.getElem?_map, List.getElem?_range hj, Option.map_some, List.getElem?_drop]
    split_ifs with hcand
    · have hidx : startOf (toksOf runs) b + run.2.length + j - run.1.length =
          startOf (toksOf runs) b + (run.2.length + j - run.1.length) := by omega
      rw [hidx, List.getD_eq_getElem?_getD, getElem?_startOf htoks (by omega),
        List.getElem?_append_right (by omega), List.getElem?_eq_getElem (by omega),
        Option.getD_some]
    · have hidx :
          min (startOf (toksOf runs) b + run.2.length - startOf (toksOf runs) b + j)
          (run.1.length - 1) = run.2.length + j := by omega
      rw [hidx, List.getElem?_append_left (by omega), List.getD_eq_getElem?_getD,
        List.getElem?_eq_getElem (by omega), Option.getD_some]
  · rw [List.getElem?_eq_none, List.getElem?_eq_none]
    · rw [List.length_drop, List.length_append]
      omega
    · rw [List.length_map, List.length_range]
      omega

def committed (runs : List PleRun) : List (List (BitVec 32)) :=
  runs.map fun run => (windowAfter run).map fun t => t.setWidth 32

theorem commit_prefill {ctxLen : ℕ} (h : Prefills m ctxLen runs) (rows dsts : List ℕ)
    (pool : ContextPool) :
    commitNgramContext m ctxLen rows dsts pool =
      indexPut (indexPut pool m.stateSlots (committed runs)) dsts
      (rows.map fun row => (List.range ctxLen).map fun j =>
        ((toksOf runs).flatten.getD (row + j - ctxLen) 0).setWidth 32) := by
  unfold commitNgramContext committed
  rw [h.isDecode, h.ids, h.context, h.cu]
  dsimp only
  rw [if_neg Bool.false_ne_true, List.map_map]
  congr 1
  · congr 1
    apply List.ext_getElem?
    intro b
    rw [List.getElem?_map, List.getElem?_map, List.length_map]
    cases hrun : runs[b]? with
    | none =>
      rw [List.getElem?_eq_none]
      · rfl
      · rw [List.length_range]
        exact List.getElem?_eq_none_iff.mp hrun
    | some run =>
      have hb : b < runs.length := (List.getElem?_eq_some_iff.mp hrun).1
      have hcu : ∀ {b}, b ≤ runs.length →
          (((toksOf runs).map List.length).scanl (· + ·) 0).getD b 0 = startOf (toksOf runs) b := by
        intro b hb
        rw [List.getD_eq_getElem?_getD, scanl_startOf (by rw [List.length_map]; exact hb),
          Option.getD_some]
      rw [List.getElem?_range hb, Option.map_some, Option.map_some, Function.comp_apply, hcu hb.le,
        hcu hb, List.getD_eq_getElem?_getD, List.getElem?_map, hrun, Option.map_some,
        Option.getD_some, nextWindow_eq hrun]
  · rw [List.map_map]
    apply List.map_congr_left
    intro row _
    exact List.map_map

theorem commit_decode {ctxLen : ℕ} (hpos : 0 < ctxLen) (h : Decodes m ctxLen runs)
    (pool : ContextPool) :
    commitNgramContext m ctxLen [] [] pool = indexPut pool m.stateSlots (committed runs) := by
  unfold commitNgramContext committed
  rw [h.isDecode, h.ids, h.context]
  dsimp only
  rw [if_pos rfl, zipWith_single (g := windowAfter) h.single, List.map_map, indexPut_nil]
  · rfl
  · intro run hrun id hid
    have hwidth := h.width run hrun
    unfold windowAfter
    rw [hid]
    show _ = (run.1 ++ [id]).drop 1
    rw [List.drop_append_of_le_length (by omega)]

end Ple

end FreeToken
