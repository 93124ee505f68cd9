import FreeToken.Attention.DsaIndexerKpool
import FreeToken.Lib.MapM
import FreeToken.Lib.TopK
import Mathlib.Data.Finset.Card
import Mathlib.Data.List.GetD
import Mathlib.Data.List.Range
import Mathlib.Data.Nat.ModEq

/-!
# Correctness of the pooled selection

A selection of pools has the row of every token of these pools and of the open pool, each once; the
other entries are sentinels (`expandAndTail_eq`).  Both variants pick pools of the greatest scores
(`picks_eq`), so they pick the same ones where there is but one choice (`picked_eq`).
-/

namespace FreeToken.Kpool

open List

/-! ### Positions -/

/-- The tokens of the open pool, up to the query. -/
def openTokens (kpool qPos : ℕ) : List ℕ :=
  List.range' ((qPos + 1) / kpool * kpool) ((qPos + 1) % kpool)

def poolTokens (kpool : ℕ) (pools : List ℕ) : List ℕ :=
  pools.flatMap fun p => List.range' (p * kpool) kpool

variable {kpool qPos t : ℕ} {pools : List ℕ}

theorem mem_openTokens : t ∈ openTokens kpool qPos ↔ (qPos + 1) / kpool * kpool ≤ t ∧ t ≤ qPos := by
  have hdiv := Nat.div_add_mod' (qPos + 1) kpool
  rw [openTokens, mem_range'_1]
  omega

theorem mem_poolTokens (hk : 0 < kpool) : t ∈ poolTokens kpool pools ↔ t / kpool ∈ pools := by
  simp only [poolTokens, mem_flatMap, mem_range'_1]
  constructor
  · rintro ⟨p, hp, hle, hlt⟩
    rwa [Nat.div_eq_of_lt_le hle (by rwa [Nat.succ_mul])]
  · intro ht
    refine ⟨_, ht, Nat.div_mul_le_self t kpool, ?_⟩
    have := Nat.div_add_mod' t kpool
    have := Nat.mod_lt t hk
    omega

theorem nodup_poolTokens (h : pools.Nodup) : (poolTokens kpool pools).Nodup := by
  refine List.nodup_flatMap.mpr ⟨fun p _ => nodup_range', h.imp fun {p p'} hne => ?_⟩
  intro t ht ht'
  rw [mem_range'_1] at ht ht'
  have hp : t / kpool = p := Nat.div_eq_of_lt_le ht.1 (by rw [Nat.succ_mul]; exact ht.2)
  have hp' : t / kpool = p' := Nat.div_eq_of_lt_le ht'.1 (by rw [Nat.succ_mul]; exact ht'.2)
  exact hne (hp.symm.trans hp')

theorem length_poolTokens : (poolTokens kpool pools).length = pools.length * kpool := by
  simp [poolTokens, length_flatMap]

/-- The open pool's tokens come after those of the complete ones. -/
theorem nodup_tokens (hk : 0 < kpool) (h : pools.Nodup)
    (hlt : ∀ p ∈ pools, p < (qPos + 1) / kpool) :
    (openTokens kpool qPos ++ poolTokens kpool pools).Nodup := by
  refine List.Nodup.append nodup_range' (nodup_poolTokens h) fun t ht ht' => ?_
  have hpool := hlt _ ((mem_poolTokens hk).mp ht')
  have hle := (Nat.le_div_iff_mul_le hk).mpr (mem_openTokens.mp ht).1
  omega

theorem tail_eq (hk : 0 < kpool) :
    ((List.range (kpool - 1)).map fun o : ℕ =>
        if (qPos + 1) / kpool * kpool + o ≤ qPos then (((qPos + 1) / kpool * kpool + o : ℕ) : ℤ)
          else -1) =
      (openTokens kpool qPos).map (fun t : ℕ => (t : ℤ)) ++
        List.replicate (kpool - 1 - (qPos + 1) % kpool) (-1) := by
  have hdiv := Nat.div_add_mod' (qPos + 1) kpool
  have hmod := Nat.mod_lt (qPos + 1) hk
  obtain ⟨n, hn⟩ : ∃ n, kpool - 1 = (qPos + 1) % kpool + n :=
    ⟨kpool - 1 - (qPos + 1) % kpool, by omega⟩
  rw [hn, range_add, map_append, map_map, Nat.add_sub_cancel_left]
  congr 1
  · rw [openTokens, List.range'_eq_map_range, map_map]
    refine map_congr_left fun o ho => ?_
    rw [mem_range] at ho
    rw [if_pos (by omega)]
    rfl
  · refine List.eq_replicate_iff.mpr ⟨by simp, fun e he => ?_⟩
    obtain ⟨o, -, rfl⟩ := List.mem_map.mp he
    rw [Function.comp_apply, if_neg (by omega)]

theorem hist_eq (s : ℕ) :
    ((pools.map (fun p : ℕ => (p : ℤ)) ++ List.replicate s (-1)).flatMap fun p =>
        (List.range kpool).map fun o : ℕ => if p < 0 then (-1 : ℤ) else p * kpool + o) =
      (poolTokens kpool pools).map (fun t : ℕ => (t : ℤ)) ++ List.replicate (s * kpool) (-1) := by
  rw [flatMap_append]
  congr 1
  · rw [flatMap_map, poolTokens, map_flatMap]
    refine flatMap_congr fun p _ => ?_
    rw [List.range'_eq_map_range, map_map]
    refine map_congr_left fun o _ => ?_
    rw [if_neg (by omega)]
    simp
  · induction s with
    | zero => simp
    | succ s ih =>
      rw [replicate_succ, flatMap_cons, ih, Nat.succ_mul, add_comm, replicate_add]
      simp

theorem positions_eq (hk : 0 < kpool) (qPos : ℕ) (pools : List ℕ) (s : ℕ) :
    positions kpool (pools.map (fun p : ℕ => (p : ℤ)) ++ List.replicate s (-1)) qPos =
      ((openTokens kpool qPos).map (fun t : ℕ => (t : ℤ)) ++
        List.replicate (kpool - 1 - (qPos + 1) % kpool) (-1)) ++
        ((poolTokens kpool pools).map (fun t : ℕ => (t : ℤ)) ++ List.replicate (s * kpool)
          (-1)) := by
  rw [positions, hist_eq, tail_eq hk]

/-! ### Selections -/

/-- The tokens that count: those of the picked pools, and of the open one. -/
def IsToken (kpool qPos : ℕ) (picked : Finset ℕ) (t : ℕ) : Prop :=
  t ≤ qPos ∧ (t / kpool ∈ picked ∨ t / kpool = (qPos + 1) / kpool)

/-- The entries of a selection that count are the rows of the tokens that satisfy `P`, each once,
and sentinels; all others are sentinels. -/
def Selects (rows : List ℤ) (P : ℕ → Prop) (r : List ℤ × ℕ) : Prop :=
  ∃ (tokens : List ℕ) (n : ℕ), tokens.Nodup ∧ (∀ t, t ∈ tokens ↔ P t) ∧
    (r.1.take r.2).Perm (tokens.map (fun t => rows.getD t (-1)) ++ List.replicate n (-1)) ∧
      ∀ e ∈ r.1.drop r.2, e = -1

variable {rows : List ℤ} {s : ℕ}

theorem mem_tokens (hk : 0 < kpool) (hlt : ∀ p ∈ pools, p < (qPos + 1) / kpool) :
    t ∈ openTokens kpool qPos ++ poolTokens kpool pools ↔ IsToken kpool qPos pools.toFinset t := by
  rw [mem_append, mem_openTokens, mem_poolTokens hk, IsToken, mem_toFinset, ← Nat.le_div_iff_mul_le
    hk]
  have hle : t ≤ qPos → t / kpool ≤ (qPos + 1) / kpool := fun h => Nat.div_le_div_right (by omega)
  constructor
  · rintro (⟨hopen, hq⟩ | ht)
    · exact ⟨hq, .inr (le_antisymm (hle hq) hopen)⟩
    · have := (Nat.le_div_iff_mul_le hk).mp (show t / kpool + 1 ≤ (qPos + 1) / kpool from hlt _ ht)
      have hdiv := Nat.div_add_mod' t kpool
      have hmod := Nat.mod_lt t hk
      rw [Nat.succ_mul] at this
      exact ⟨by omega, .inl ht⟩
  · rintro ⟨hq, ht | ht⟩
    · exact .inr ht
    · exact .inl ⟨ht.ge, hq⟩

def entry (rows : List ℤ) (p : ℤ) : ℤ := if p < 0 then -1 else rows.getD (max p 0).toNat (-1)

@[simp] theorem entry_natCast : entry rows (t : ℤ) = rows.getD t (-1) := by
  rw [entry, if_neg (by omega)]
  simp

@[simp] theorem entry_neg_one : entry rows (-1) = -1 := rfl

theorem expandAndTail_eq_entries {picks : List ℤ}
    (h : ∀ p ∈ positions kpool picks qPos, p < rows.length) (hrows : 0 < rows.length) :
    expandAndTail kpool picks rows qPos =
      some ((positions kpool picks qPos).map (entry rows), (kpool - 1) + min ((qPos + 1) / kpool)
        picks.length * kpool) := by
  rw [expandAndTail, mapM_eq_map (g := entry rows), Option.map_some]
  intro p hp
  have hlt : (max p 0).toNat < rows.length := by have := h p hp; omega
  rw [List.getElem?_eq_getElem hlt, Option.map_some, entry, getD_eq_getElem _ _ hlt]

/-- Whatever pools are picked, the selection has their tokens and those of the open pool. -/
theorem exists_expandAndTail (hk : 0 < kpool) (s : ℕ) (hq : qPos < rows.length) (h : pools.Nodup)
    (hlt : ∀ p ∈ pools, p < (qPos + 1) / kpool) :
    ∃ r, expandAndTail kpool (pools.map (fun p : ℕ => (p : ℤ)) ++ List.replicate s (-1)) rows qPos =
      some r ∧
      Selects rows (IsToken kpool qPos pools.toFinset) r := by
  have hpos := positions_eq hk qPos pools s
  have htoken : ∀ t ∈ openTokens kpool qPos ++ poolTokens kpool pools, t < rows.length :=
    fun t ht =>
    ((mem_tokens hk hlt).mp ht).1.trans_lt hq
  refine ⟨_, expandAndTail_eq_entries (fun p hp => ?_) (by omega), openTokens kpool qPos ++
    poolTokens kpool pools, ?_⟩
  · rw [hpos] at hp
    have hcases : p = -1 ∨ ∃ t ∈ openTokens kpool qPos ++ poolTokens kpool pools, (t : ℤ) = p := by
      simp only [mem_append, mem_map, mem_replicate] at hp ⊢
      grind
    obtain rfl | ⟨t, ht, rfl⟩ := hcases
    · omega
    · exact Int.ofNat_lt.mpr (htoken t ht)
  have hlen : pools.length ≤ (qPos + 1) / kpool := by
    simpa using (h.subperm fun p hp => List.mem_range.mpr (hlt p hp)).length_le
  have hcount : pools.length * kpool ≤ min ((qPos + 1) / kpool) (pools.length + s) * kpool :=
    Nat.mul_le_mul_right kpool (le_min hlen (Nat.le_add_right _ _))
  have hmod := Nat.mod_lt (qPos + 1) hk
  have hopen : (openTokens kpool qPos).length = (qPos + 1) % kpool := length_range'
  obtain ⟨c, hc⟩ := Nat.exists_eq_add_of_le hcount
  -- the bound is past the fixed slots and the picked pools: what is left on either side of it are
  -- sentinels
  have htake :
      ((positions kpool (pools.map (fun p : ℕ => (p : ℤ)) ++ List.replicate s (-1)) qPos).map
        (entry rows)) =
      (((openTokens kpool qPos).map (fun t => rows.getD t (-1)) ++
        List.replicate (kpool - 1 - (qPos + 1) % kpool) (-1)) ++
        (poolTokens kpool pools).map (fun t => rows.getD t (-1))) ++ List.replicate (s * kpool)
          (-1) := by
    rw [hpos]
    simp [map_append, Function.comp_def]
  have hbound : ((openTokens kpool qPos).map (fun t => rows.getD t (-1)) ++
      List.replicate (kpool - 1 - (qPos + 1) % kpool) (-1) ++
        (poolTokens kpool pools).map (fun t => rows.getD t (-1))).length + c =
      (kpool - 1) + min ((qPos + 1) / kpool) (pools.length + s) * kpool := by
    simp only [length_append, length_map, length_replicate, hopen, length_poolTokens]
    omega
  refine ⟨(kpool - 1 - (qPos + 1) % kpool) + min c (s * kpool), nodup_tokens hk h hlt, fun t =>
    mem_tokens hk hlt, ?_, ?_⟩
  · simp only [length_append, length_map, length_replicate]
    rw [htake, ← hbound, take_length_add_append, take_replicate, replicate_add, map_append]
    simp only [append_assoc]
    exact (perm_append_left_iff _).mpr (perm_append_comm_assoc _ _ _)
  · simp only [length_append, length_map, length_replicate]
    rw [htake, ← hbound, drop_length_add_append, drop_replicate]
    exact fun e he => eq_of_mem_replicate he

/-! ### Picks -/

variable {κ : Type} [LinearOrder κ] {topk : Topk κ} {k n live : ℕ} {score : ℕ → κ}

/-- The places of the greatest scores, in descending order. -/
def Top (topk : Topk κ) : Prop :=
  ∀ k scores, k ≤ scores.length → TopK.IsTop (fun i => scores.getD i ⊥) k (List.range scores.length)
    (topk k scores)

/-- The scores of `n` pools; those from `live` on are the least. -/
def staged (n live : ℕ) (score : ℕ → κ) : List (WithBot κ) :=
  (List.range n).map fun p => if live ≤ p then ⊥ else WithBot.some (score p)

/-- As many complete pools as fit, with no score below that of another one. -/
structure Picked (k live : ℕ) (score : ℕ → κ) (pools : List ℕ) : Prop where
  nodup : pools.Nodup
  lt_live : ∀ p ∈ pools, p < live
  length_eq : pools.length = min k live
  top : ∀ p ∈ pools, ∀ p' < live, p' ∉ pools → score p' ≤ score p

/-- The one choice of complete pools, where no score is equal to that of a pool that is left out. -/
def Best (k live : ℕ) (score : ℕ → κ) (picked : Finset ℕ) : Prop :=
  picked.card = min k live ∧ ∀ p ∈ picked, p < live ∧ ∀ p' < live, p' ∉ picked → score p' < score p

omit [LinearOrder κ] in
@[simp] theorem length_staged : (staged n live score).length = n := by simp [staged]

omit [LinearOrder κ] in
theorem getD_staged {p : ℕ} (hp : p < n) :
    (staged n live score).getD p ⊥ = if live ≤ p then ⊥ else WithBot.some (score p) := by
  rw [staged, getD_eq_getElem _ _ (by simpa using hp)]
  simp

omit [LinearOrder κ] in
theorem getD_staged_lt {p : ℕ} (hp : p < n) (hlive : p < live) :
    (staged n live score).getD p ⊥ = WithBot.some (score p) := by
  rw [getD_staged hp, if_neg (by omega)]

/-- A list where `p` never holds again after it failed. -/
theorem eq_filter_append {p : ℕ → Bool} {l : List ℕ} (h : l.Pairwise fun a b => p b → p a) :
    l = l.filter p ++ l.filter fun a => !p a := by
  induction l with
  | nil => rfl
  | cons a l ih =>
    obtain ⟨ha, hl⟩ := List.pairwise_cons.mp h
    by_cases hp : p a
    · rw [filter_cons_of_pos hp, filter_cons_of_neg (by simpa using hp), cons_append, ← ih hl]
    · have hnone : l.filter p = [] := List.filter_eq_nil_iff.mpr fun b hb hpb => hp (ha b hb hpb)
      have hall : (l.filter fun a => !p a) = l :=
        List.filter_eq_self.mpr fun b hb => by simpa using fun hpb => hp (ha b hb hpb)
      rw [filter_cons_of_neg hp, filter_cons_of_pos (by simpa using hp), hnone, hall, nil_append]

theorem pairwise_topk (htop : Top topk) (hk : k ≤ n) :
    (topk k (staged n live score)).Pairwise fun a b => decide (b < live) → decide (a < live) := by
  have hL := htop k (staged n live score) (by simpa using hk)
  rw [length_staged] at hL
  refine hL.sorted.imp_of_mem fun {a b} ha hb hle => ?_
  have hna := List.mem_range.mp (hL.subperm.subset ha)
  have hnb := List.mem_range.mp (hL.subperm.subset hb)
  simp only [decide_eq_true_eq]
  intro hblive
  by_contra hna'
  rw [getD_staged_lt hnb hblive, getD_staged hna, if_pos (by omega)] at hle
  exact absurd (le_bot_iff.mp hle) (WithBot.coe_ne_bot)

theorem picked_filter (htop : Top topk) (hk : k ≤ n) (hlive : live ≤ n) :
    Picked k live score ((topk k (staged n live score)).filter fun p => decide (p < live)) := by
  have hL := htop k (staged n live score) (by simpa using hk)
  rw [length_staged] at hL
  set L := topk k (staged n live score)
  obtain ⟨l, hl, hsub⟩ := hL.subperm
  have hnodup : L.Nodup := hl.nodup_iff.mp (hsub.nodup nodup_range)
  have hmem : ∀ p, p ∈ L.filter (fun p => decide (p < live)) ↔ p ∈ L ∧ p < live := by simp
  refine ⟨hnodup.filter _, fun p hp => ((hmem p).mp hp).2, ?_, ?_⟩
  · have hlength : L.length = k := by simpa [hk] using hL.length_eq
    by_cases hall : ∀ e ∈ L, e < live
    · rw [List.filter_eq_self.mpr fun e he => decide_eq_true (hall e he), hlength, min_eq_left]
      simpa [hlength] using (hnodup.subperm fun e he => List.mem_range.mpr (hall e he)).length_le
    · obtain ⟨e, he, hlive'⟩ : ∃ e ∈ L, live ≤ e := by simpa using hall
      -- a pool that is none is picked, so that no complete pool is left out
      have hin : ∀ p < live, p ∈ L := by
        intro p hp
        by_contra hnot
        have hle := hL.key_le he (List.mem_range.mpr (by omega)) hnot
        rw [getD_staged_lt (by omega) hp, getD_staged (List.mem_range.mp (hL.subperm.subset he)),
          if_pos hlive'] at hle
        exact absurd (le_bot_iff.mp hle) WithBot.coe_ne_bot
      have hperm : (L.filter fun p => decide (p < live)).Perm (List.range live) :=
        (perm_ext_iff_of_nodup (hnodup.filter _) nodup_range).mpr fun p => by
          rw [hmem, mem_range]
          exact ⟨fun h => h.2, fun h => ⟨hin p h, h⟩⟩
      have hle := length_filter_le (fun p => decide (p < live)) L
      rw [hperm.length_eq, length_range] at hle ⊢
      rw [min_eq_right (by omega)]
  · intro p hp p' hp' hnot
    obtain ⟨hpL, hplive⟩ := (hmem p).mp hp
    have hle := hL.key_le hpL (List.mem_range.mpr (by omega)) fun h => hnot ((hmem p').mpr ⟨h, hp'⟩)
    rw [getD_staged_lt (by omega) hp', getD_staged_lt (by omega) hplive] at hle
    exact WithBot.coe_le_coe.mp hle

theorem picks_eq (htop : Top topk) (score : ℕ → κ) (hk : k ≤ n) (hlive : live ≤ n) :
    ∃ pools s, livePicks live (topk k (staged n live score)) =
      pools.map (fun p : ℕ => (p : ℤ)) ++ List.replicate s (-1) ∧ Picked k live score pools := by
  refine ⟨_, ((topk k (staged n live score)).filter fun p => !decide (p < live)).length, ?_,
    picked_filter htop hk hlive⟩
  conv_lhs => rw [livePicks, eq_filter_append (pairwise_topk htop hk), map_append]
  congr 1
  · refine map_congr_left fun p hp => if_neg ?_
    simpa using (List.mem_filter.mp hp).2
  · refine List.eq_replicate_iff.mpr ⟨length_map _, fun e he => ?_⟩
    obtain ⟨p, hp, rfl⟩ := List.mem_map.mp he
    rw [if_pos]
    simpa using (List.mem_filter.mp hp).2

theorem Picked.eq_of_best {picked : Finset ℕ} (h : Picked k live score pools)
    (hbest : Best k live score picked) :
    pools.toFinset = picked := by
  have hcard :
    pools.toFinset.card =
    picked.card := by rw [toFinset_card_of_nodup h.nodup, h.length_eq, hbest.1]
  refine (Finset.eq_of_subset_of_card_le (fun p hp => ?_) hcard.le).symm
  by_contra hnot
  -- as many pools as the best ones are picked, so that one is picked that is not among these
  have hmore : ¬ pools.toFinset ⊆ picked := fun hsub =>
    hnot ((Finset.eq_of_subset_of_card_le hsub hcard.ge).symm ▸ hp)
  obtain ⟨p', hp', hp'not⟩ := Finset.not_subset.mp hmore
  have hp' := List.mem_toFinset.mp hp'
  have hlt := (hbest.2 p hp).2 p' (h.lt_live p' hp') hp'not
  exact absurd (h.top p' hp' p (hbest.2 p hp).1 fun hin => hnot (List.mem_toFinset.mpr hin))
    (not_le.mpr hlt)

/-! ### The variants -/

variable {selectK startPos m : ℕ}

theorem flatMap_turns {c : ℕ} (j m : ℕ) :
    ((List.range' 0 j c).flatMap fun s0 => List.range' s0 (min (s0 + c) m - s0)) = List.range
    (min (j * c) m) := by
  induction j with
  | zero => simp
  | succ j ih =>
    rw [List.range'_concat, flatMap_append, ih, flatMap_singleton, zero_add, Nat.succ_mul,
      mul_comm c j]
    rcases le_total (j * c) m with hle | hle
    · have hsum : min (j * c + c) m = j * c + (min (j * c + c) m - j * c) := by omega
      rw [min_eq_left hle, range_eq_range', range_eq_range']
      conv_rhs => rw [hsum, ← List.range'_append_1, zero_add]
    · rw [min_eq_right hle, min_eq_right (by omega), Nat.sub_eq_zero_of_le hle, List.range'_zero,
        append_nil]

/-- The picks of one query, among `n` pools. -/
def queryPicks (topk : Topk κ) (kpool k n : ℕ) (score : ℕ → κ) (qPos : ℕ) : List ℤ :=
  livePicks ((qPos + 1) / kpool) (topk k (staged n ((qPos + 1) / kpool) score))

/-- A query's selection has the tokens of the pools it picked. -/
theorem exists_queryPicks (htop : Top topk) (hk : 0 < kpool) (selectK : ℕ) (score : ℕ → κ)
    (hq : qPos < rows.length) :
    ∃ pools r, expandAndTail kpool
      (queryPicks topk kpool (min selectK (rows.length / kpool)) (rows.length / kpool) score qPos)
      rows
        qPos = some r ∧ Picked selectK ((qPos + 1) / kpool) score pools ∧
          Selects rows (IsToken kpool qPos pools.toFinset) r := by
  have hlive : (qPos + 1) / kpool ≤ rows.length / kpool := Nat.div_le_div_right hq
  obtain ⟨pools, s, hpicks, hpicked⟩ :=
    picks_eq htop score (min_le_right selectK (rows.length / kpool)) hlive
  obtain ⟨r, hr, hselects⟩ := exists_expandAndTail hk s hq hpicked.nodup hpicked.lt_live
  refine ⟨pools, r, ?_, { hpicked with length_eq := ?_ }, hselects⟩
  · rw [queryPicks, hpicks, hr]
  · rw [hpicked.length_eq, min_assoc, min_eq_right hlive]

omit [LinearOrder κ] in
theorem selectDecode_eq :
    selectDecode topk kpool selectK score rows (qPos + 1) =
      expandAndTail kpool
        (queryPicks topk kpool (min selectK (rows.length / kpool)) (rows.length / kpool) score qPos)
        rows qPos := by
  rw [selectDecode, indexerSelectDecode, queryPicks, staged]
  simp

omit [LinearOrder κ] in
theorem masked_eq :
    (((List.range n).map score).mapIdx fun blk score => if live ≤ blk then (⊥ : WithBot κ)
      else WithBot.some score) =
    staged n live score := by
  refine List.mapIdx_eq_iff.mpr fun p => ?_
  rw [staged, List.getElem?_map, List.getElem?_map]
  by_cases hp : p < n
  · rw [List.getElem?_range hp]
    rfl
  · rw [List.getElem?_eq_none (by simpa using hp)]
    rfl

omit [LinearOrder κ] in
theorem selectChunk_eq {kSel s0 : ℕ} {score : ℕ → ℕ → κ} (hkSel : kSel ≤ rows.length / kpool)
    (hs0 : s0 ≤ m) :
    selectChunk topk kpool kSel (fun i => (List.range (rows.length / kpool)).map (score i)) rows
      (List.range' startPos m) startPos m s0 =
      (List.range' s0 (min (s0 + 512) m - s0)).mapM fun i =>
        expandAndTail kpool
          (queryPicks topk kpool kSel (rows.length / kpool) (score i) (startPos + i)) rows
          (startPos + i) := by
  set w := min (s0 + 512) m - s0 with hw
  have hpositions :
      ((List.range' startPos m).drop s0).take w = (List.range' s0 w).map fun i => startPos + i := by
    rw [drop_range', take_range'_of_length_ge (by omega), List.range'_eq_map_range,
      List.range'_eq_map_range, map_map]
    refine map_congr_left fun i _ => ?_
    rw [Function.comp_apply]
    omega
  have hpicks :
      indexerSelectPrefill topk
      ((List.range' s0 w).map fun i => (List.range (rows.length / kpool)).map (score i))
      (startPos + s0) kpool kSel =
        (List.range' s0 w).map fun i => queryPicks topk kpool kSel (rows.length / kpool) (score i)
          (startPos + i) := by
    refine List.mapIdx_eq_iff.mpr fun i => ?_
    rw [List.getElem?_map, List.getElem?_map]
    by_cases hi : i < w
    · rw [List.getElem?_range' hi, Option.map_some, Option.map_some, Option.map_some]
      simp only [masked_eq, length_map, length_range, min_eq_left hkSel, queryPicks, one_mul,
        add_assoc]
    · rw [List.getElem?_eq_none (by simpa using hi)]
      rfl
  rw [selectChunk, ← hw, hpositions, hpicks, zip_map', mapM_map]
  rfl

theorem exists_selectPrefill (htop : Top topk) (hk : 0 < kpool) (selectK : ℕ) (score : ℕ → ℕ → κ)
    (hm : startPos + m ≤ rows.length) :
    ∃ g : ℕ → List ℤ × ℕ,
      selectPrefill topk kpool selectK (fun i => (List.range (rows.length / kpool)).map (score i))
        rows (List.range' startPos m)
          startPos = some ((List.range m).map g) ∧
        ∀ i < m, ∃ pools, Picked selectK ((startPos + i + 1) / kpool) (score i) pools ∧
          Selects rows (IsToken kpool (startPos + i) pools.toFinset) (g i) := by
  by_cases hn : rows.length / kpool = 0
  · have hlive : ∀ i < m, (startPos + i + 1) / kpool = 0 := fun i hi =>
      Nat.eq_zero_of_le_zero (hn ▸ Nat.div_le_div_right (by omega))
    -- no pool is complete, and the padding alone is expanded
    have hexists : ∀ i < m, ∃ r,
        expandAndTail kpool (List.replicate (min selectK (max (rows.length / kpool) 1)) (-1)) rows
          (startPos + i) = some r ∧
          Selects rows (IsToken kpool (startPos + i) ∅) r := by
      intro i hi
      obtain ⟨r, hr, hselects⟩ := exists_expandAndTail hk
        (min selectK (max (rows.length / kpool) 1)) (show startPos + i < rows.length by omega)
        nodup_nil (by simp)
      exact ⟨r, by simpa using hr, hselects⟩
    choose! g hg using hexists
    refine ⟨g, ?_, fun i hi =>
      ⟨[], ⟨nodup_nil, by simp, by simp [hlive i hi], by simp⟩, (hg i hi).2⟩⟩
    rw [selectPrefill, if_pos hn, List.range'_eq_map_range, mapM_map]
    exact mapM_eq_map fun i hi => (hg i (List.mem_range.mp hi)).1
  · have hexists : ∀ i < m, ∃ r pools,
        expandAndTail kpool
          (queryPicks topk kpool (min selectK (rows.length / kpool)) (rows.length / kpool) (score i)
          (startPos + i)) rows (startPos + i) = some r ∧
        Picked selectK ((startPos + i + 1) / kpool) (score i) pools ∧
        Selects rows (IsToken kpool (startPos + i) pools.toFinset) r := by
      intro i hi
      obtain ⟨pools, r, h⟩ :=
        exists_queryPicks htop hk selectK (score i) (show startPos + i < rows.length by omega)
      exact ⟨r, pools, h⟩
    choose! g pools hg using hexists
    refine ⟨g, ?_, fun i hi => ⟨pools i, (hg i hi).2⟩⟩
    -- one turn of the loop does at most 512 queries
    have hturn : ∀ s0 ∈ List.range' 0 ((m + 511) / 512) 512,
        selectChunk topk kpool (min selectK (rows.length / kpool))
          (fun i => (List.range (rows.length / kpool)).map (score i)) rows
          (List.range' startPos m) startPos m s0 =
            some ((List.range' s0 (min (s0 + 512) m - s0)).map g) := by
      intro s0 hs0
      rw [mem_range'] at hs0
      obtain ⟨j, hj, rfl⟩ := hs0
      rw [selectChunk_eq (min_le_right _ _) (by omega)]
      refine mapM_eq_map fun i hi => ?_
      rw [mem_range'_1] at hi
      exact (hg i (by omega)).1
    have hmax : max (rows.length / kpool) 1 = rows.length / kpool :=
      max_eq_left (Nat.one_le_iff_ne_zero.mpr hn)
    simp only [selectPrefill, if_neg hn, length_range', hmax]
    rw [mapM_eq_map hturn, Option.map_some, ← flatMap_def, ← map_flatMap, flatMap_turns,
      min_eq_right (by omega)]

/-! ### The same pools -/

theorem isToken_range : IsToken kpool qPos (Finset.range ((qPos + 1) / kpool)) t ↔ t ≤ qPos := by
  refine ⟨fun h => h.1, fun h => ⟨h, ?_⟩⟩
  rw [Finset.mem_range]
  exact (Nat.div_le_div_right (by omega : t ≤ qPos + 1)).lt_or_eq

theorem Selects.congr {P Q : ℕ → Prop} {r : List ℤ × ℕ} (h : Selects rows P r)
    (hPQ : ∀ t, P t ↔ Q t) : Selects rows Q r :=
  (funext fun t => propext (hPQ t) : P = Q) ▸ h

theorem Selects.congr_rows {P : ℕ → Prop} {r : List ℤ × ℕ} {rows' : List ℤ} (h : Selects rows' P r)
    (hP : ∀ t, P t → t ≤ qPos)
    (hrows : rows'.take (qPos + 1) = rows.take (qPos + 1)) : Selects rows P r := by
  obtain ⟨tokens, n, hnodup, hmem, hperm, hdrop⟩ := h
  refine ⟨tokens, n, hnodup, hmem, ?_, hdrop⟩
  have heq : (tokens.map fun t => rows'.getD t (-1)) = tokens.map fun t => rows.getD t (-1) := by
    refine map_congr_left fun t ht => ?_
    have hlt : t < qPos + 1 := Nat.lt_succ_of_le (hP t ((hmem t).mp ht))
    rw [getD_eq_getElem?_getD, getD_eq_getElem?_getD, ← List.getElem?_take_of_lt hlt, hrows,
      List.getElem?_take_of_lt hlt]
  rwa [← heq]

theorem Best.congr {score' : ℕ → κ} {picked : Finset ℕ} (h : Best k live score picked)
    (heq : ∀ p < live, score' p = score p) :
    Best k live score' picked := by
  refine ⟨h.1, fun p hp => ⟨(h.2 p hp).1, fun p' hp' hnot => ?_⟩⟩
  rw [heq p (h.2 p hp).1, heq p' hp']
  exact (h.2 p hp).2 p' hp' hnot

/-- Where no more pools are complete than may be picked, all of them are the one choice. -/
theorem best_range (hk : live ≤ k) : Best k live score (Finset.range live) := by
  refine ⟨by rw [Finset.card_range, min_eq_right hk], fun p hp =>
    ⟨Finset.mem_range.mp hp, fun p' hp' hnot => ?_⟩⟩
  exact absurd (Finset.mem_range.mpr hp') hnot

/-- The selection of any list of picks is as it should be; and the selections of a prefill have the
same tokens as those of a decode step: all of them where the complete pools fit, and else those of
the best pools. -/
theorem selects_picked (topk : Topk κ) (htop : Top topk) (kpool : ℕ) (hk : 0 < kpool) :
    (∀ (rows : List ℤ) (qPos : ℕ) (pools : List ℕ) (s : ℕ), qPos < rows.length → pools.Nodup →
      (∀ p ∈ pools, p < (qPos + 1) / kpool) →
        ∃ r, expandAndTail kpool (pools.map (fun p : ℕ => (p : ℤ)) ++ List.replicate s (-1)) rows
          qPos = some r ∧
          Selects rows (IsToken kpool qPos pools.toFinset) r) ∧
    ∀ (selectK : ℕ) (rows : List ℤ) (startPos m : ℕ) (score : ℕ → ℕ → κ), startPos + m ≤
      rows.length →
      ∃ g : ℕ → List ℤ × ℕ,
        selectPrefill topk kpool selectK (fun i => (List.range (rows.length / kpool)).map (score i))
          rows (List.range' startPos m)
            startPos = some ((List.range m).map g) ∧
          ∀ i < m, ∀ (rows' : List ℤ) (score' : ℕ → κ), startPos + i < rows'.length →
            rows'.take (startPos + i + 1) = rows.take (startPos + i + 1) →
            (∀ p < (startPos + i + 1) / kpool, score' p = score i p) →
              ∃ r, selectDecode topk kpool selectK score' rows' (startPos + i + 1) = some r ∧
                ((startPos + i + 1) / kpool ≤ selectK →
                  Selects rows (fun t => t ≤ startPos + i) (g i) ∧
                    Selects rows (fun t => t ≤ startPos + i) r) ∧
                ∀ picked, Best selectK ((startPos + i + 1) / kpool) (score i) picked →
                  Selects rows (IsToken kpool (startPos + i) picked) (g i) ∧
                    Selects rows (IsToken kpool (startPos + i) picked) r := by
  refine ⟨fun rows qPos pools s hq h hlt => exists_expandAndTail hk s hq h hlt, ?_⟩
  intro selectK rows startPos m score hm
  obtain ⟨g, hprefill, hg⟩ := exists_selectPrefill htop hk selectK score hm
  refine ⟨g, hprefill, fun i hi rows' score' hlen hrows hscore => ?_⟩
  obtain ⟨pools, hpicked, hselects⟩ := hg i hi
  obtain ⟨pools', r, hdecode, hpicked', hselects'⟩ :=
    exists_queryPicks htop hk selectK score' hlen
  have hbest : ∀ picked, Best selectK ((startPos + i + 1) / kpool) (score i) picked →
      Selects rows (IsToken kpool (startPos + i) picked) (g i) ∧
        Selects rows (IsToken kpool (startPos + i) picked) r := by
    intro picked h
    rw [hpicked.eq_of_best h] at hselects
    rw [hpicked'.eq_of_best (h.congr hscore)] at hselects'
    exact ⟨hselects, hselects'.congr_rows (fun t ht => ht.1) hrows⟩
  refine ⟨r, selectDecode_eq.trans hdecode, fun hfit => ?_, hbest⟩
  obtain ⟨hall, hall'⟩ := hbest _ (best_range hfit)
  exact ⟨hall.congr fun t => isToken_range, hall'.congr fun t => isToken_range⟩

/-- The greatest scores by sorting; `order` says which of two equal ones is first. -/
def sortedTopk (order : List ℕ → List ℕ) : Topk κ := fun k scores =>
  ((order (List.range scores.length)).insertionSort fun a b => scores.getD b ⊥ ≤
    scores.getD a ⊥).take k

theorem top_sortedTopk {order : List ℕ → List ℕ} (horder : ∀ l, (order l).Perm l) :
    Top (sortedTopk order : Topk κ) := by
  intro k scores _
  have htotal : Std.Total fun a b : ℕ => scores.getD b ⊥ ≤ scores.getD a ⊥ :=
    ⟨fun a b => le_total _ _⟩
  have htrans : IsTrans ℕ fun a b => scores.getD b ⊥ ≤ scores.getD a ⊥ :=
    ⟨fun a b c hab hbc => le_trans hbc hab⟩
  exact TopK.isTop_take (pairwise_insertionSort _ _) ((perm_insertionSort _ _).trans (horder _)) k

theorem selects_picked_small :
    (∃ r, expandAndTail 2 [1, -1] [5, 6, 7, 8, 9] 4 = some r ∧
      Selects [5, 6, 7, 8, 9] (IsToken 2 4 {1}) r) ∧
      ∃ g : ℕ → List ℤ × ℕ,
        selectPrefill (sortedTopk id) 2 1 (fun _ => List.range 2) [5, 6, 7, 8, 9] [3, 4] 3 =
          some ((List.range 2).map g) ∧
          ∃ r, selectDecode (sortedTopk id) 2 1 id [5, 6, 7, 8, 9] 5 = some r ∧
            Selects [5, 6, 7, 8, 9] (IsToken 2 4 {1}) (g 1) ∧
              Selects [5, 6, 7, 8, 9] (IsToken 2 4 {1}) r := by
  obtain ⟨hexpand, hselect⟩ :=
    selects_picked (sortedTopk id : Topk ℕ) (top_sortedTopk fun l => List.Perm.refl l) 2 two_pos
  refine ⟨hexpand [5, 6, 7, 8, 9] 4 [1] 1 (by decide) (by decide) (by decide), ?_⟩
  obtain ⟨g, hg, h⟩ := hselect 1 [5, 6, 7, 8, 9] 3 2 (fun _ => id) (by decide)
  obtain ⟨r, hr, -, hbest⟩ := h 1 (by decide) [5, 6, 7, 8, 9] id (by decide) rfl fun _ _ => rfl
  exact ⟨g, hg, r, hr, hbest {1} (by unfold Best; decide)⟩

/-- Sentinels of the fixed slots are within the bound; and equal scores may be picked differently.
-/
theorem selection_has_sentinels :
    (∃ r, expandAndTail 4 [0] [10, 11, 12, 13] 3 = some r ∧
      r.1.take r.2 = [-1, -1, -1, 10, 11, 12, 13]) ∧
      ∃ topk : Topk ℕ, Top topk ∧
        selectPrefill topk 1 1 (fun _ => [0, 0]) [10, 11] [1] 1 = some [([10], 1)] ∧
        selectDecode topk 1 1 (fun _ => 0) [10, 11, 12] 2 = some ([11], 1) := by
  refine ⟨⟨_, rfl, rfl⟩, sortedTopk fun l => if l.length = 2 then l
    else l.reverse, top_sortedTopk fun l => ?_, ?_, ?_⟩
  · split
    · exact List.Perm.refl l
    · exact reverse_perm l
  · rfl
  · rfl

end FreeToken.Kpool
