import Mathlib.Data.List.Count
import Mathlib.Data.List.Nodup
import Mathlib.Data.List.Perm.Subperm
import Mathlib.Algebra.Order.Group.Nat
import Mathlib.Data.Set.Function

/-!
# The least elements of a list

`leastBy f k l` keeps the elements of a list that come before all but `k - 1` others in the order of
`f`, in the order of the list.

* `length_leastBy`: there are `k` of them, or as many as there are elements.
* `leastBy_flatten`: they are among those of the parts of the list.
* `leastBy_eq_iff`: when two orders have the same ones.
-/

variable {ι κ α β : Type*} [LinearOrder α] [LinearOrder β] {f : ι → α} {g : ι → β} {k : ℕ}
  {l : List ι} {a b : ι}

/-- How many elements of a list come before an element. -/
def rankBy (f : ι → α) (l : List ι) (a : ι) : ℕ := l.countP fun b => f b < f a

/-- The `k` elements of a list that come first. -/
def leastBy (f : ι → α) (k : ℕ) (l : List ι) : List ι := l.filter fun a => rankBy f l a < k

theorem mem_leastBy : a ∈ leastBy f k l ↔ a ∈ l ∧ rankBy f l a < k := by simp [leastBy]

theorem leastBy_sublist : (leastBy f k l).Sublist l := List.filter_sublist

theorem rankBy_mono (h : f a ≤ f b) : rankBy f l a ≤ rankBy f l b := by
  apply List.countP_mono_left
  intro c _ hc
  exact decide_eq_true (lt_of_lt_of_le (of_decide_eq_true hc) h)

theorem rankBy_lt_length (ha : a ∈ l) : rankBy f l a < l.length := by
  unfold rankBy
  rw [List.countP_eq_length_filter]
  exact List.length_filter_lt_length_iff_exists.mpr ⟨a, ha, by simp⟩

theorem rankBy_lt_rankBy (ha : a ∈ l) (h : f a < f b) : rankBy f l a < rankBy f l b := by
  unfold rankBy
  have hsplit : (l.countP fun c => f c < f b) = (l.countP fun c => f c < f a) +
      l.countP fun c => decide (f c < f b) && !decide (f c < f a) := by
    rw [List.countP_eq_countP_filter_add (p := fun c => decide (f c < f b))
      (q := fun c => decide (f c < f a)), List.countP_filter, List.countP_filter]
    congr 1
    apply List.countP_congr
    intro c _
    simp only [Bool.and_eq_true, decide_eq_true_eq]
    exact ⟨fun hc => hc.2, fun hc => ⟨hc.trans h, hc⟩⟩
  have hpos : 0 < l.countP fun c => decide (f c < f b) && !decide (f c < f a) := by
    rw [List.countP_pos_iff]
    exact ⟨a, ha, by simpa using h⟩
  omega

/-- Ranks are in the order of the elements. -/
theorem rankBy_lt_iff (ha : a ∈ l) : rankBy f l a < rankBy f l b ↔ f a < f b := by
  constructor
  · intro h
    by_contra hle
    exact absurd (@rankBy_mono _ _ _ f l b a (not_lt.mp hle)) (not_le.mpr h)
  · exact rankBy_lt_rankBy ha

/-! ### How many there are -/

theorem countP_range_lt (n k : ℕ) : (List.range n).countP (fun i => i < k) = min k n := by
  induction n with
  | zero => simp
  | succ n ih =>
    rw [List.range_succ, List.countP_append, ih, List.countP_singleton]
    by_cases h : n < k
    · rw [if_pos (decide_eq_true h)]
      omega
    · rw [if_neg (by simpa using h)]
      omega

theorem length_leastBy (hl : l.Nodup) (hf : Set.InjOn f {c | c ∈ l}) :
    (leastBy f k l).length = min k l.length := by
  have hinj : ∀ a ∈ l, ∀ b ∈ l, rankBy f l a = rankBy f l b → a = b := by
    intro a ha b hb heq
    apply hf ha hb
    apply le_antisymm
    · by_contra hlt
      have h := (rankBy_lt_iff hb).mpr (not_le.mp hlt)
      omega
    · by_contra hlt
      have h := (rankBy_lt_iff ha).mpr (not_le.mp hlt)
      omega
  have hnodup : (l.map (rankBy f l)).Nodup := by
    rw [List.nodup_map_iff_inj_on hl]
    exact hinj
  have hperm : (l.map (rankBy f l)).Perm (List.range l.length) := by
    have hsub : (l.map (rankBy f l)).Subperm (List.range l.length) := by
      apply hnodup.subperm
      intro r hr
      obtain ⟨a, ha, rfl⟩ := List.mem_map.mp hr
      exact List.mem_range.mpr (rankBy_lt_length ha)
    exact hsub.perm_of_length_le (by simp)
  unfold leastBy
  rw [← List.countP_eq_length_filter]
  have hmap :
    (l.countP fun a => rankBy f l a < k) = (l.map (rankBy f l)).countP fun r => r < k := by
    rw [List.countP_map]
    rfl
  rw [hmap, hperm.countP_eq, countP_range_lt]

theorem leastBy_min {n : ℕ} (h : l.length ≤ n) : leastBy f (min n k) l = leastBy f k l := by
  apply List.filter_congr
  intro a ha
  have hlt := (@rankBy_lt_length _ _ _ f l a ha).trans_le h
  rw [decide_eq_decide]
  omega

/-! ### Parts -/

theorem rankBy_le_of_sublist {l' : List ι} (h : l'.Sublist l) : rankBy f l' a ≤ rankBy f l a :=
    h.countP_le

theorem flatten_leastBy_sublist {ls : List (List ι)} :
    (ls.map (leastBy f k)).flatten.Sublist ls.flatten := by
  induction ls with
  | nil => exact List.Sublist.refl _
  | cons l ls ih => exact leastBy_sublist.append ih

theorem leastBy_flatten {ls : List (List ι)} (hl : ls.flatten.Nodup)
    (hf : Set.InjOn f {c | c ∈ ls.flatten}) :
    leastBy f k (ls.map (leastBy f k)).flatten = leastBy f k ls.flatten := by
  have hmem : ∀ a ∈ ls.flatten, rankBy f ls.flatten a < k → a ∈ (ls.map (leastBy f k)).flatten := by
    intro a ha hrank
    obtain ⟨l, hls, hal⟩ := List.mem_flatten.mp ha
    apply List.mem_flatten.mpr
    refine ⟨leastBy f k l, List.mem_map_of_mem hls, mem_leastBy.mpr ⟨hal, ?_⟩⟩
    exact (rankBy_le_of_sublist (List.sublist_flatten_of_mem hls)).trans_lt hrank
  have hsub : (ls.map (leastBy f k)).flatten.Sublist ls.flatten := flatten_leastBy_sublist
  -- an element that does not win has all the winners before it
  have hrank :
      ∀ a ∈ ls.flatten, rankBy f (ls.map (leastBy f k)).flatten a < k → rankBy f ls.flatten a <
      k := by
    intro a ha hlt
    by_contra hge
    rw [not_lt] at hge
    have hwin :
        (leastBy f k ls.flatten).Subperm
        ((ls.map (leastBy f k)).flatten.filter fun b => f b < f a) := by
      apply (hl.sublist leastBy_sublist).subperm
      intro w hw
      rw [mem_leastBy] at hw
      rw [List.mem_filter]
      refine ⟨hmem w hw.1 hw.2, decide_eq_true ?_⟩
      exact (rankBy_lt_iff hw.1).mp (hw.2.trans_le hge)
    have hcount := hwin.length_le
    rw [length_leastBy hl hf, ← List.countP_eq_length_filter] at hcount
    have hlen : k ≤ ls.flatten.length := hge.trans (rankBy_lt_length ha).le
    have hrank' : rankBy f (ls.map (leastBy f k)).flatten a =
        (ls.map (leastBy f k)).flatten.countP fun b => f b < f a := rfl
    omega
  have hparts :
      ∀ l ∈ ls, (leastBy f k l).filter (fun a => rankBy f (ls.map (leastBy f k)).flatten a < k) =
      l.filter fun a => rankBy f ls.flatten a < k := by
    intro l hls
    unfold leastBy
    rw [List.filter_filter]
    apply List.filter_congr
    intro a hal
    have ha : a ∈ ls.flatten := List.mem_flatten.mpr ⟨l, hls, hal⟩
    rw [Bool.eq_iff_iff]
    simp only [Bool.and_eq_true, decide_eq_true_eq]
    constructor
    · exact fun h => hrank a ha h.1
    · intro h
      exact ⟨(rankBy_le_of_sublist hsub).trans_lt h,
        (rankBy_le_of_sublist (List.sublist_flatten_of_mem hls)).trans_lt h⟩
  have houter : ∀ p : ι → Bool, ((ls.map (leastBy f k)).flatten).filter p =
      (ls.map fun l => (leastBy f k l).filter p).flatten := by
    intro p
    rw [List.filter_flatten, List.map_map]
    rfl
  have hinner : ∀ p : ι → Bool, ls.flatten.filter p = (ls.map fun l => l.filter p).flatten := by
    intro p
    rw [List.filter_flatten]
  show ((ls.map (leastBy f k)).flatten).filter
    (fun a => rankBy f (ls.map (leastBy f k)).flatten a < k) =
    ls.flatten.filter fun a => rankBy f ls.flatten a < k
  rw [houter, hinner]
  congr 1
  exact List.map_congr_left hparts

theorem leastBy_map {h : κ → ι} {g : κ → β} {l : List κ}
    (hord : ∀ a ∈ l, ∀ b ∈ l, f (h a) < f (h b) ↔ g a < g b) :
    leastBy f k (l.map h) = (leastBy g k l).map h := by
  unfold leastBy
  rw [List.filter_map]
  congr 1
  apply List.filter_congr
  intro a ha
  have hrank : rankBy f (l.map h) (h a) = rankBy g l a := by
    unfold rankBy
    rw [List.countP_map]
    apply List.countP_congr
    intro b hb
    simpa using hord b hb a ha
  simp only [Function.comp_apply, hrank]

/-! ### Two orders -/

/-- Two orders have the same first elements if and only if no element that comes first in the one is
behind one in the other that does not. -/
theorem leastBy_eq_iff (hl : l.Nodup) (hf : Set.InjOn f {c | c ∈ l})
    (hg : Set.InjOn g {c | c ∈ l}) :
    leastBy f k l = leastBy g k l ↔
      ∀ a ∈ l, ∀ b ∈ l, g b < g a → rankBy f l a < k → rankBy f l b < k := by
  constructor
  · intro heq a ha b hb hlt hrank
    have hmem : a ∈ leastBy g k l := heq ▸ mem_leastBy.mpr ⟨ha, hrank⟩
    have hmem' : b ∈ leastBy g k l :=
      mem_leastBy.mpr ⟨hb, ((rankBy_lt_iff hb).mpr hlt).trans (mem_leastBy.mp hmem).2⟩
    rw [← heq] at hmem'
    exact (mem_leastBy.mp hmem').2
  · intro hclosed
    have hsub : ∀ a ∈ l, rankBy f l a < k → rankBy g l a < k := by
      intro a ha hrank
      -- all that `g` puts before a winner are winners, so its rank by `g` is below `k` too
      have hbefore : (a :: l.filter fun b => g b < g a).Subperm (leastBy f k l) := by
        apply List.Nodup.subperm
        · rw [List.nodup_cons]
          exact ⟨by simp, hl.filter _⟩
        · intro b hb
          rcases List.mem_cons.mp hb with rfl | hb
          · exact mem_leastBy.mpr ⟨ha, hrank⟩
          · obtain ⟨hbl, hlt⟩ := List.mem_filter.mp hb
            exact mem_leastBy.mpr ⟨hbl, hclosed a ha b hbl (of_decide_eq_true hlt) hrank⟩
      have hcount := hbefore.length_le
      rw [length_leastBy hl hf, List.length_cons, ← List.countP_eq_length_filter] at hcount
      have hrank' : rankBy g l a = l.countP fun b => g b < g a := rfl
      omega
    have hsublist : (leastBy f k l).Sublist (leastBy g k l) := by
      have hboth : leastBy f k l = (leastBy g k l).filter fun a => rankBy f l a < k := by
        unfold leastBy
        rw [List.filter_filter]
        apply List.filter_congr
        intro a ha
        rw [Bool.eq_iff_iff]
        simp only [Bool.and_eq_true, decide_eq_true_eq]
        exact ⟨fun h => ⟨h, hsub a ha h⟩, fun h => h.1⟩
      rw [hboth]
      exact List.filter_sublist
    exact hsublist.eq_of_length (by rw [length_leastBy hl hf, length_leastBy hl hg])
