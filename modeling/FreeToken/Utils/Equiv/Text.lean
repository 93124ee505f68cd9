import FreeToken.Utils.Text

/-!
# The methods of strings

Searching and removing, as facts about infixes.
-/

namespace FreeToken.Text

open List

variable {s t u : Text}

/-! ### `find` -/

theorem find_eq_none : find s t = none ↔ ¬s <:+: t := by
  induction t with
  | nil =>
    simp only [find, infix_nil]
    split_ifs with h <;> simp [h]
  | cons c t ih =>
    simp only [find, infix_cons_iff]
    split_ifs with h <;> simp [h, ih]

theorem find_isSome : (find s t).isSome ↔ s <:+: t := by
  rw [← not_iff_not, ← find_eq_none]
  simp

variable {i : ℕ}

theorem find_eq_some (h : find s t = some i) : s <+: t.drop i ∧ ∀ j < i, ¬s <+: t.drop j := by
  induction t generalizing i with
  | nil =>
    simp only [find] at h
    split_ifs at h with hs
    obtain rfl := Option.some.inj h
    exact ⟨by simp [hs], fun j hj => absurd hj (Nat.not_lt_zero j)⟩
  | cons c t ih =>
    simp only [find] at h
    split_ifs at h with hs
    · obtain rfl := Option.some.inj h
      exact ⟨hs, fun j hj => absurd hj (Nat.not_lt_zero j)⟩
    · obtain ⟨k, hk, rfl⟩ := Option.map_eq_some_iff.mp h
      obtain ⟨hpre, hmin⟩ := ih hk
      refine ⟨hpre, fun j hj => ?_⟩
      cases j with
      | zero => exact hs
      | succ j => exact hmin j (by omega)

theorem infix_of_prefix_drop (h : s <+: t.drop i) : s <:+: t :=
  h.isInfix.trans (drop_suffix i t).isInfix

theorem find_le {i : ℕ} (h : s <+: t.drop i) : ∃ j ≤ i, find s t = some j := by
  cases hfind : find s t with
  | none => exact absurd (infix_of_prefix_drop h) (find_eq_none.mp hfind)
  | some j =>
    refine ⟨j, ?_, rfl⟩
    by_contra hlt
    exact (find_eq_some hfind).2 i (by omega) h

theorem find_le_length (h : find s t = some i) : i ≤ t.length := by
  by_contra hlt
  have hdrop : t.drop t.length = t.drop i := by
    rw [drop_of_length_le le_rfl, drop_of_length_le (by omega)]
  apply (find_eq_some h).2 t.length (by omega)
  rw [hdrop]
  exact (find_eq_some h).1

theorem find_of_prefix (h : s <+: t.drop i) (hmin : ∀ j < i, ¬s <+: t.drop j) :
    find s t = some i := by
  obtain ⟨j, hj, hfind⟩ := find_le h
  rw [hfind]
  congr 1
  by_contra hne
  exact hmin j (by omega) (find_eq_some hfind).1

theorem find_add_le (h : find s t = some i) : i + s.length ≤ t.length := by
  have hle := find_le_length h
  have hlen := (find_eq_some h).1.length_le
  rw [length_drop] at hlen
  omega

theorem find_append (h : find s t = some i) : find s (t ++ u) = some i := by
  have hle := find_le_length h
  apply find_of_prefix
  · rw [drop_append_of_le_length hle]
    exact (find_eq_some h).1.trans (prefix_append _ _)
  · intro j hj hpre
    have hadd := find_add_le h
    rw [drop_append_of_le_length (by omega)] at hpre
    apply (find_eq_some h).2 j hj
    apply prefix_of_prefix_length_le hpre (prefix_append _ _)
    rw [length_drop]
    omega

theorem eq_append_of_find (h : find s t = some i) :
    t = t.take i ++ s ++ t.drop (i + s.length) ∧ (t.take i).length = i := by
  constructor
  · obtain ⟨rest, hrest⟩ := (find_eq_some h).1
    rw [← drop_drop, ← hrest, drop_left, append_assoc, hrest, take_append_drop]
  · rw [length_take]
    exact min_eq_left (find_le_length h)

theorem find_of_append (h : find s (t ++ u) = some i) (hi : i + s.length ≤ t.length) :
    find s t = some i := by
  have hpre : s <+: t.drop i := by
    apply prefix_of_prefix_length_le (find_eq_some h).1
    · rw [drop_append_of_le_length (by omega)]
      exact prefix_append _ _
    · rw [length_drop]
      omega
  obtain ⟨j, -, hj⟩ := find_le hpre
  rw [hj, ← h]
  exact (find_append hj).symm

theorem find_drop {k : ℕ} (h : find s t = some i) (hk : k ≤ i) :
    find s (t.drop k) = some (i - k) := by
  apply find_of_prefix
  · rw [drop_drop, Nat.add_sub_cancel' hk]
    exact (find_eq_some h).1
  · intro j hj hpre
    rw [drop_drop] at hpre
    exact (find_eq_some h).2 (k + j) (by omega) hpre

theorem lt_of_find_append (ht : ¬s <:+: t) (h : find s (t ++ u) = some i) :
    t.length < i + s.length := by
  by_contra hge
  apply ht
  have hpre := (find_eq_some h).1
  rw [drop_append_of_le_length (by omega)] at hpre
  apply infix_of_prefix_drop
  apply prefix_of_prefix_length_le hpre (prefix_append _ _)
  rw [length_drop]
  omega

theorem find_of_infix (h : s <:+: t) : ∃ i, find s t = some i :=
    Option.isSome_iff_exists.mp (find_isSome.mpr h)

theorem find_none_of_suffix (h : find s t = none) (hu : u <:+ t) : find s u = none := by
  rw [find_eq_none] at *
  exact fun hin => h (hin.trans hu.isInfix)

/-! ### The end that may become a token -/

theorem le_longestPartial_of_suffix {k best : ℕ} (hlt : k < s.length) (hle : k ≤ t.length)
    (hsuf : s.take k <:+ t) (hbest : best < k) : k ≤ longestPartial t best s := by
  unfold longestPartial
  have hk : k ∈ (range' (best + 1) (min (s.length - 1) t.length - best)).reverse := by
    rw [mem_reverse, mem_range'_1]
    omega
  have hsorted :
    (range' (best + 1) (min (s.length - 1) t.length - best)).reverse.Pairwise (· > ·) :=
    pairwise_reverse.mpr pairwise_lt_range'
  cases hfind : (range' (best + 1) (min (s.length - 1) t.length - best)).reverse.find?
      fun k => s.take k <:+ t with
  | none =>
    have hno := find?_eq_none.mp hfind k hk
    exact absurd (decide_eq_true hsuf) hno
  | some j =>
    show k ≤ j
    -- the range is searched from its greater end
    obtain ⟨-, before, behind, heq, hbefore⟩ := find?_eq_some_iff_append.mp hfind
    rw [heq] at hk hsorted
    rcases mem_append.mp hk with hk | hk
    · have hno := hbefore k hk
      simp [hsuf] at hno
    · rcases mem_cons.mp hk with rfl | hk
      · exact le_rfl
      · exact ((pairwise_cons.mp (pairwise_append.mp hsorted).2.1).1 k hk).le

theorem le_longestPartial {k : ℕ} (hlt : k < s.length) (hle : k ≤ t.length)
    (hsuf : s.take k <:+ t) :
    k ≤ longestPartial t 0 s := by
  rcases Nat.eq_zero_or_pos k with rfl | hpos
  · exact Nat.zero_le _
  · exact le_longestPartial_of_suffix hlt hle hsuf hpos

/-- The result is the length before, or that of a longer end that is a proper start of the token. -/
theorem longestPartial_cases (t s : Text) (best : ℕ) :
    longestPartial t best s = best ∨ best < longestPartial t best s ∧ longestPartial t best s <
      s.length ∧
      longestPartial t best s ≤ t.length ∧ s.take (longestPartial t best s) <:+ t := by
  unfold longestPartial
  cases hfind : (range' (best + 1) (min (s.length - 1) t.length - best)).reverse.find?
      fun k => s.take k <:+ t with
  | none => exact Or.inl rfl
  | some j =>
    right
    have hmem := mem_of_find?_eq_some hfind
    have hsuf := find?_some hfind
    rw [mem_reverse, mem_range'_1] at hmem
    show best < j ∧ j < s.length ∧ j ≤ t.length ∧ s.take j <:+ t
    exact ⟨by omega, by omega, by omega, of_decide_eq_true hsuf⟩

theorem le_longestPartial_self (t s : Text) (best : ℕ) : best ≤ longestPartial t best s := by
  rcases longestPartial_cases t s best with heq | ⟨hlt, -⟩
  · exact heq.ge
  · exact hlt.le

theorem foldl_longestPartial (t : Text) (toks : List Text) (best : ℕ) :
    best ≤ toks.foldl (longestPartial t) best ∧
      (toks.foldl (longestPartial t) best = best ∨
        ∃ tok ∈ toks, toks.foldl (longestPartial t) best < tok.length ∧
        toks.foldl (longestPartial t) best ≤ t.length ∧
          tok.take (toks.foldl (longestPartial t) best) <:+ t) ∧
      ∀ tok ∈ toks, ∀ k, k < tok.length → k ≤ t.length → tok.take k <:+ t →
        k ≤ toks.foldl (longestPartial t) best := by
  induction toks generalizing best with
  | nil => exact ⟨le_rfl, Or.inl rfl, fun tok htok => absurd htok (not_mem_nil)⟩
  | cons tok toks ih =>
    rw [foldl_cons]
    obtain ⟨hle, hpart, hall⟩ := ih (longestPartial t best tok)
    have hself := le_longestPartial_self t tok best
    refine ⟨hself.trans hle, ?_, ?_⟩
    · rcases hpart with heq | ⟨tok', htok', hlt⟩
      · rw [heq]
        rcases longestPartial_cases t tok best with hbest | ⟨-, hlt⟩
        · exact Or.inl hbest
        · exact Or.inr ⟨tok, mem_cons_self, hlt⟩
      · exact Or.inr ⟨tok', mem_cons_of_mem _ htok', hlt⟩
    · intro tok' htok' k hlt hlen hsuf
      rcases mem_cons.mp htok' with rfl | htok'
      · by_cases hk : k ≤ best
        · exact hk.trans (hself.trans hle)
        · exact (le_longestPartial_of_suffix hlt hlen hsuf (not_le.mp hk)).trans hle
      · exact hall tok' htok' k hlt hlen hsuf

/-! ### `replace` -/

theorem removeFrom_sublist (s : Text) (k : ℕ) (t : Text) : (removeFrom s k t).Sublist t := by
  induction t generalizing k with
  | nil => cases k <;> simp [removeFrom]
  | cons c t ih =>
    cases k with
    | succ k => exact (ih k).cons c
    | zero =>
      simp only [removeFrom]
      split_ifs
      · exact (ih _).cons c
      · exact (ih 0).cons_cons c

theorem remove_sublist (s t : Text) : (remove s t).Sublist t := removeFrom_sublist s 0 t

theorem remove_eq_self (h : ¬s <:+: t) : remove s t = t := by
  unfold remove
  induction t with
  | nil => rfl
  | cons c t ih =>
    rw [infix_cons_iff, not_or] at h
    simp [removeFrom, h.1, ih h.2]

theorem remove_length_lt (hs : s ≠ []) (h : s <:+: t) : (remove s t).length < t.length := by
  unfold remove
  induction t with
  | nil => exact absurd (infix_nil.mp h) hs
  | cons c t ih =>
    simp only [removeFrom]
    split_ifs with hc
    · exact Nat.lt_succ_of_le (removeFrom_sublist s _ t).length_le
    · have ht : s <:+: t := (infix_cons_iff.mp h).resolve_left hc
      simpa using ih ht

theorem remove_singleton (c : Char) (t : Text) : remove [c] t = t.filter (· ≠ c) := by
  unfold remove
  induction t with
  | nil => rfl
  | cons d t ih =>
    simp only [removeFrom, cons_prefix_cons, nil_prefix, and_true, length_singleton,
      Nat.sub_self, ih]
    by_cases h : c = d
    · simp [h]
    · have hne : d ≠ c := Ne.symm h
      simp [h, hne]

end FreeToken.Text
