import Mathlib.Data.List.MinMax
import Mathlib.Data.List.Perm.Subperm
import Mathlib.Data.List.Sort
import Mathlib.Algebra.Order.Group.Nat

/-!
# The greatest elements of a list

`IsTop k M L` says that `L` has the `k` elements of `M` with the greatest keys, in descending order.

* `isTop_take`: the first ones of a descending arrangement.
* `IsTop.append`: the greatest of two lists are among the greatest of each.
* `IsTop.of_append`: elements below all others may be left out.
* `IsTop.keys`: the keys are those of the sorted list.
-/

namespace TopK

open List

open List

variable {α κ : Type*} [LinearOrder κ] (key : α → κ)

/-- How many elements have a key of at least `t`. -/
def atLeast (t : κ) (l : List α) : ℕ := l.countP fun a => t ≤ key a

/-- The `k` elements with the greatest keys, in descending order. -/
structure IsTop (k : ℕ) (M L : List α) : Prop where
  subperm : L.Subperm M
  sorted : L.Pairwise fun a b => key b ≤ key a
  atLeast_eq : ∀ t, atLeast key t L = min k (atLeast key t M)
  length_eq : L.length = min k M.length

variable {key} {k h : ℕ} {A B L LA LB M S : List α} {t : κ}

@[simp] theorem atLeast_nil : atLeast key t ([] : List α) = 0 := rfl

@[simp] theorem atLeast_append : atLeast key t (A ++ B) = atLeast key t A + atLeast key t B :=
    countP_append

theorem atLeast_le_length : atLeast key t L ≤ L.length := countP_le_length

theorem atLeast_perm (h : A.Perm B) : atLeast key t A = atLeast key t B := h.countP_eq _

theorem atLeast_eq_length (h : ∀ a ∈ L, t ≤ key a) : atLeast key t L = L.length :=
  countP_eq_length.mpr fun a ha => decide_eq_true (h a ha)

theorem atLeast_eq_zero (h : ∀ a ∈ L, key a < t) : atLeast key t L = 0 :=
  countP_eq_zero.mpr fun a ha hle => absurd (of_decide_eq_true hle) (not_le.mpr (h a ha))

/-- In descending order the elements from a threshold on come first. -/
theorem atLeast_take (hS : S.Pairwise fun a b => key b ≤ key a) (k : ℕ) (t : κ) :
    atLeast key t (S.take k) = min k (atLeast key t S) := by
  induction S generalizing k with
  | nil => simp
  | cons a S ih =>
    obtain ⟨ha, hS⟩ := pairwise_cons.mp hS
    cases k with
    | zero => simp
    | succ k =>
      have ihk := ih hS k
      unfold atLeast at ihk ⊢
      rw [take_succ_cons, countP_cons, countP_cons, ihk]
      by_cases hta : t ≤ key a
      · simp only [hta, decide_true, if_true]
        omega
      · -- all that follow are below
        have hzero : S.countP (fun b => t ≤ key b) = 0 :=
          atLeast_eq_zero fun b hb => lt_of_le_of_lt (ha b hb) (not_le.mp hta)
        simp [hta, hzero]

theorem isTop_take (hS : S.Pairwise fun a b => key b ≤ key a) (hp : S.Perm M) (k : ℕ) :
    IsTop key k M (S.take k) where
  subperm := (take_sublist k S).subperm.trans hp.subperm
  sorted := hS.sublist (take_sublist k S)
  atLeast_eq t := by rw [atLeast_take hS, atLeast_perm hp]
  length_eq := by rw [length_take, hp.length_eq]

theorem IsTop.take (hL : IsTop key h M L) (hk : k ≤ h) : IsTop key k M (L.take k) where
  subperm := (take_sublist k L).subperm.trans hL.subperm
  sorted := hL.sorted.sublist (take_sublist k L)
  atLeast_eq t := by
    rw [atLeast_take hL.sorted, hL.atLeast_eq]
    omega
  length_eq := by
    rw [length_take, hL.length_eq]
    omega

theorem IsTop.congr (hL : IsTop key k A L) (hp : A.Perm B) : IsTop key k B L where
  subperm := hL.subperm.trans hp.subperm
  sorted := hL.sorted
  atLeast_eq t := by rw [hL.atLeast_eq, atLeast_perm hp]
  length_eq := by rw [hL.length_eq, hp.length_eq]

theorem IsTop.append (hA : IsTop key k A LA) (hB : IsTop key k B LB)
    (hL : IsTop key k (LA ++ LB) L) :
    IsTop key k (A ++ B) L where
  subperm := hL.subperm.trans (hA.subperm.append hB.subperm)
  sorted := hL.sorted
  atLeast_eq t := by
    rw [hL.atLeast_eq, atLeast_append, atLeast_append, hA.atLeast_eq, hB.atLeast_eq]
    omega
  length_eq := by
    rw [hL.length_eq, length_append, length_append, hA.length_eq, hB.length_eq]
    omega

theorem IsTop.flatten {ι : Type*} {F G : ι → List α} {l : List ι}
    (hF : ∀ i ∈ l, IsTop key k (F i) (G i))
    (hL : IsTop key k (l.flatMap G ++ B) L) : IsTop key k (l.flatMap F ++ B) L where
  subperm := by
    refine hL.subperm.trans (List.Subperm.append ?_ (List.Subperm.refl B))
    clear hL
    induction l with
    | nil => exact List.Subperm.refl _
    | cons i l ih =>
      exact (hF i mem_cons_self).subperm.append (ih fun j hj => hF j (mem_cons_of_mem i hj))
  sorted := hL.sorted
  atLeast_eq t := by
    -- a part counts at most `k` scores, and so does its selection
    have hparts :
        ∀ c, min k (atLeast key t (l.flatMap G) + c) = min k (atLeast key t (l.flatMap F) + c) := by
      clear hL
      induction l with
      | nil => exact fun c => rfl
      | cons i l ih =>
        intro c
        have hi := (hF i mem_cons_self).atLeast_eq t
        have hl := ih (fun j hj => hF j (mem_cons_of_mem i hj)) (c + atLeast key t (F i))
        have hl' := ih (fun j hj => hF j (mem_cons_of_mem i hj)) (c + k)
        rw [flatMap_cons, flatMap_cons, atLeast_append, atLeast_append]
        omega
    rw [hL.atLeast_eq, atLeast_append, atLeast_append, hparts]
  length_eq := by
    have hparts : ∀ c, min k ((l.flatMap G).length + c) = min k ((l.flatMap F).length + c) := by
      clear hL
      induction l with
      | nil => exact fun c => rfl
      | cons i l ih =>
        intro c
        have hi := (hF i mem_cons_self).length_eq
        have hl := ih (fun j hj => hF j (mem_cons_of_mem i hj)) (c + (F i).length)
        have hl' := ih (fun j hj => hF j (mem_cons_of_mem i hj)) (c + k)
        rw [flatMap_cons, flatMap_cons, length_append, length_append]
        omega
    rw [hL.length_eq, length_append, length_append, hparts]

theorem IsTop.of_append (hL : IsTop key k (M ++ B) L) (hk : k ≤ M.length)
    (hB : ∀ a ∈ M, ∀ b ∈ B, key b < key a) :
    IsTop key k M L := by
  have hlen : L.length = k := by
    rw [hL.length_eq, length_append]
    omega
  cases hmin : M.argmin key with
  | none =>
    have hM : M = [] := argmin_eq_none.mp hmin
    have hnil : L = [] :=
      length_eq_zero_iff.mp (by rw [hM] at hk; exact hlen.trans (Nat.le_zero.mp hk))
    rw [hnil, hM]
    exact ⟨List.Subperm.refl _, List.Pairwise.nil, fun t => by simp, by simp⟩
  | some m =>
    have hle : ∀ a ∈ M, key m ≤ key a := fun a ha => le_of_mem_argmin ha hmin
    have hlt : ∀ b ∈ B, key b < key m := hB m (argmin_mem hmin)
    have hfull : ∀ a ∈ L, key m ≤ key a := by
      have hcount := hL.atLeast_eq (key m)
      rw [atLeast_append, atLeast_eq_length hle, min_eq_left (by omega), ← hlen] at hcount
      exact fun a ha => of_decide_eq_true (countP_eq_length.mp hcount a ha)
    refine ⟨?_, hL.sorted, fun t => ?_, hlen.trans (min_eq_left hk).symm⟩
    · have hsub := hL.subperm.filter fun a => decide (key m ≤ key a)
      rwa [filter_append, filter_eq_self.mpr fun a ha =>
        decide_eq_true (hfull a ha), filter_eq_self.mpr fun a ha =>
        decide_eq_true (hle a ha), filter_eq_nil_iff.mpr fun b hb h =>
        absurd (of_decide_eq_true h) (not_le.mpr (hlt b hb)), append_nil] at hsub
    · rcases le_or_gt t (key m) with ht | ht
      · rw [atLeast_eq_length fun a ha => ht.trans (hfull a ha), atLeast_eq_length fun a ha =>
          ht.trans (hle a ha), hlen, min_eq_left hk]
      · rw [hL.atLeast_eq, atLeast_append, atLeast_eq_zero (L := B) fun b hb =>
          (hlt b hb).trans ht, add_zero]

/-- A descending list is determined by how many of its elements are at least each threshold. -/
theorem eq_of_atLeast {l l' : List κ} (hl : l.Pairwise fun a b => b ≤ a)
    (hl' : l'.Pairwise fun a b => b ≤ a)
    (hlen : l.length = l'.length) (h : ∀ t, atLeast id t l = atLeast id t l') : l = l' := by
  induction l generalizing l' with
  | nil => exact (length_eq_zero_iff.mp hlen.symm).symm
  | cons a l ih =>
    cases l' with
    | nil => exact absurd hlen (Nat.succ_ne_zero _)
    | cons b l' =>
      obtain ⟨ha, hl⟩ := pairwise_cons.mp hl
      obtain ⟨hb, hl'⟩ := pairwise_cons.mp hl'
      have hcons :
          ∀ (t c : κ) (m : List κ), atLeast id t (c :: m) = atLeast id t m + if t ≤ c then 1
          else 0 := by
        intro t c m
        simp [atLeast, countP_cons]
      -- the greater of the two heads would be reached by one more score in its list
      have hab : a = b := by
        apply le_antisymm
        · by_contra hlt
          have hzero : atLeast id a l' = 0 :=
            atLeast_eq_zero fun c hc => lt_of_le_of_lt (hb c hc) (not_le.mp hlt)
          have hcount := h a
          rw [hcons, hcons, if_pos le_rfl, if_neg hlt, hzero] at hcount
          omega
        · by_contra hlt
          have hzero : atLeast id b l = 0 :=
            atLeast_eq_zero fun c hc => lt_of_le_of_lt (ha c hc) (not_le.mp hlt)
          have hcount := h b
          rw [hcons, hcons, if_pos le_rfl, if_neg hlt, hzero] at hcount
          omega
      rw [hab] at h ⊢
      rw [ih hl hl' (Nat.succ.inj hlen) fun t => ?_]
      have hcount := h t
      rw [hcons, hcons] at hcount
      omega

theorem IsTop.keys (hL : IsTop key k M L) :
    L.map key = ((M.map key).insertionSort (· ≥ ·)).take k := by
  have hmap : ∀ (t : κ) (l : List α), atLeast id t (l.map key) = atLeast key t l := fun t l => by
    rw [atLeast, countP_map]
    rfl
  have hsort := (M.map key).pairwise_insertionSort (· ≥ ·)
  have htop : IsTop id k (M.map key) (((M.map key).insertionSort (· ≥ ·)).take k) :=
    isTop_take hsort ((M.map key).perm_insertionSort (· ≥ ·)) k
  refine eq_of_atLeast (pairwise_map.mpr hL.sorted) htop.sorted ?_ fun t => ?_
  · rw [length_map, hL.length_eq, htop.length_eq, length_map]
  · rw [hmap, hL.atLeast_eq, htop.atLeast_eq, hmap]

theorem IsTop.unmap {β : Type*} {g : β → α} {r : α → β} {key' : β → κ} {N : List β}
    (hkey : ∀ b ∈ N, key (g b) = key' b)
    (hr : ∀ b ∈ N, r (g b) = b) (hL : IsTop key k (N.map g) L) : IsTop key' k N (L.map r) := by
  have hback : (N.map g).map r = N := by
    rw [map_map]
    exact (map_congr_left hr).trans (map_id N)
  have hmem : ∀ a ∈ L, key' (r a) = key a := by
    intro a ha
    obtain ⟨b, hb, rfl⟩ := mem_map.mp (hL.subperm.subset ha)
    rw [hr b hb, hkey b hb]
  refine ⟨?_, ?_, fun t => ?_, ?_⟩
  · obtain ⟨l, hperm, hsub⟩ := hL.subperm
    rw [← hback]
    exact ⟨l.map r, hperm.map r, hsub.map r⟩
  · refine pairwise_map.mpr (hL.sorted.imp_of_mem fun {a b} ha hb hab => ?_)
    rwa [hmem a ha, hmem b hb]
  · have hcount := hL.atLeast_eq t
    unfold atLeast at hcount ⊢
    rw [countP_map] at hcount ⊢
    rw [countP_congr fun a ha => by rw [Function.comp_apply, hmem a ha], hcount,
      countP_congr fun b hb => by rw [Function.comp_apply, hkey b hb]]
  · rw [length_map, hL.length_eq, length_map]

theorem IsTop.mem_of_length_le (hL : IsTop key k M L) (hk : M.length ≤ k) {a : α} (ha : a ∈ M) :
    a ∈ L := by
  have hp : L.Perm M := hL.subperm.perm_of_length_le (by rw [hL.length_eq]; omega)
  exact hp.mem_iff.mpr ha

theorem IsTop.mem_of_atLeast_le (hL : IsTop key k M L) {a : α} (ha : a ∈ M)
    (hk : atLeast key (key a) M ≤ k) : a ∈ L := by
  have hcount := hL.atLeast_eq (key a)
  have hsub := hL.subperm.filter fun b => decide (key a ≤ key b)
  have hp := hsub.perm_of_length_le (by
    rw [← countP_eq_length_filter, ← countP_eq_length_filter]
    unfold atLeast at hcount hk
    omega)
  exact mem_of_mem_filter (hp.mem_iff.mpr (mem_filter.mpr ⟨ha, decide_eq_true le_rfl⟩))

theorem IsTop.key_le (hL : IsTop key k M L) {a b : α} (ha : a ∈ L) (hb : b ∈ M) (hb' : b ∉ L) :
    key b ≤ key a := by
  by_contra hlt
  have hcount : atLeast key (key b) L < L.length := by
    refine lt_of_le_of_ne atLeast_le_length fun heq => hlt ?_
    exact of_decide_eq_true (countP_eq_length.mp heq a ha)
  have hatLeast := hL.atLeast_eq (key b)
  have hlength := hL.length_eq
  exact hb' (hL.mem_of_atLeast_le hb (by omega))

end TopK
