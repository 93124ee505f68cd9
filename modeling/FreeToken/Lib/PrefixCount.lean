import FreeToken.Lib.TrieEdit
import Mathlib.Data.Finset.Card

/-!
# Counting the pages of locked paths

The whole pages along some paths, each page once: a page is named by the path to its end.

* `prefixCount_replace`: what a longer path adds.
* `IsTrie.total_key_eq`: in a trie, these pages are those of the edges that lie on one of the paths.
-/

namespace FreeToken

open List

variable {α : Type*} [DecidableEq α] {ps : ℕ} {p q : List α} {paths paths' rest : List (List α)}

/-- The ends of the pages along the paths. -/
def pagePrefixes (ps : ℕ) (paths : List (List α)) : Finset (List α) :=
  ((paths.flatMap List.inits).filter fun p => p ≠ [] ∧ ps ∣ p.length).toFinset

/-- How many pages there are along the paths. -/
def prefixCount (ps : ℕ) (paths : List (List α)) : ℕ := (pagePrefixes ps paths).card

theorem mem_pagePrefixes :
    p ∈ pagePrefixes ps paths ↔ (∃ q ∈ paths, p <+: q) ∧ p ≠ [] ∧ ps ∣ p.length := by
  unfold pagePrefixes
  rw [mem_toFinset, mem_filter, mem_flatMap, decide_eq_true_iff]
  simp only [mem_inits]

theorem prefixCount_le_of_subset (h : paths ⊆ paths') :
    prefixCount ps paths ≤ prefixCount ps paths' := by
  apply Finset.card_le_card
  intro p hp
  obtain ⟨⟨q, hq, hpq⟩, hne, hd⟩ := mem_pagePrefixes.mp hp
  exact mem_pagePrefixes.mpr ⟨⟨q, h hq, hpq⟩, hne, hd⟩

/-- The order of the paths does not matter. -/
theorem prefixCount_perm (h : paths.Perm paths') : prefixCount ps paths = prefixCount ps paths' :=
  le_antisymm (prefixCount_le_of_subset h.subset) (prefixCount_le_of_subset h.symm.subset)

theorem prefixCount_replace (hps : 0 < ps) (h : p <+: q ∨ q <+: p) :
    prefixCount ps (q :: rest) ≤ prefixCount ps (p :: rest) + (q.length / ps - p.length / ps) := by
  have hsub : pagePrefixes ps (q :: rest) ⊆ pagePrefixes ps (p :: rest) ∪
      (Finset.range (q.length / ps - p.length / ps)).image
        fun k => q.take ((p.length / ps + k + 1) * ps) := by
    intro x hx
    obtain ⟨⟨y, hy, hxy⟩, hne, hd⟩ := mem_pagePrefixes.mp hx
    rw [Finset.mem_union, mem_pagePrefixes]
    rcases mem_cons.mp hy with rfl | hy
    · rcases lt_or_ge p.length x.length with hlt | hge
      · -- the page ends behind the old path
        right
        obtain ⟨c, hc⟩ := hd
        have h₁ : p.length / ps < c := (Nat.div_lt_iff_lt_mul hps).mpr (by rwa [Nat.mul_comm, ← hc])
        have h₂ : c ≤ y.length / ps :=
          (Nat.le_div_iff_mul_le hps).mpr (by rw [Nat.mul_comm, ← hc]; exact hxy.length_le)
        refine Finset.mem_image.mpr ⟨c - p.length / ps - 1, Finset.mem_range.mpr (by omega), ?_⟩
        rw [show p.length / ps + (c - p.length / ps - 1) + 1 = c by omega, Nat.mul_comm, ← hc]
        exact (prefix_iff_eq_take.mp hxy).symm
      · left
        refine ⟨⟨p, mem_cons_self, ?_⟩, hne, hd⟩
        rcases h with h | h
        · exact prefix_of_prefix_length_le hxy h hge
        · exact hxy.trans h
    · exact Or.inl ⟨⟨y, mem_cons_of_mem _ hy, hxy⟩, hne, hd⟩
  calc prefixCount ps (q :: rest)
      ≤ _ := Finset.card_le_card hsub
    _ ≤ _ := Finset.card_union_le _ _
    _ ≤ prefixCount ps (p :: rest) + (q.length / ps - p.length / ps) := by
        apply Nat.add_le_add_left
        exact Finset.card_image_le.trans_eq (Finset.card_range _)

/-! ### In a trie -/

namespace TrieEdge

variable {ν : Type*} [TrieEdge ν α]

def pageEnds (ps : ℕ) (e : ν) : List (List α) :=
  (range ((key e).length / ps)).map fun k => (stop e).take ((start e).length + (k + 1) * ps)

namespace IsTrie

variable {l : List ν} {e : ν}

omit [DecidableEq α] in
theorem mem_pageEnds (h : IsTrie ps l) (he : e ∈ l) :
    p ∈ pageEnds ps e ↔ ps ∣ p.length ∧ (start e).length < p.length ∧ p <+: stop e := by
  have hpos := h.page_pos
  have hstart := h.dvd_start he
  have hlen := length_stop e
  unfold pageEnds
  rw [mem_map]
  constructor
  · rintro ⟨k, hk, rfl⟩
    have hk' : (k + 1) * ps ≤ (key e).length :=
      (Nat.le_div_iff_mul_le hpos).mp (List.mem_range.mp hk)
    have htake : ((stop e).take ((start e).length + (k + 1) * ps)).length =
        (start e).length + (k + 1) * ps := by
      rw [length_take]
      omega
    rw [htake]
    refine ⟨Nat.dvd_add hstart (Nat.dvd_mul_left ps (k + 1)), ?_, take_prefix _ _⟩
    have : 0 < (k + 1) * ps := mul_pos k.succ_pos hpos
    omega
  · rintro ⟨hd, hlt, hpre⟩
    obtain ⟨c, hc⟩ : ps ∣ p.length - (start e).length := Nat.dvd_sub hd hstart
    have hcpos : 0 < c := by
      rcases eq_zero_or_pos c with rfl | hcpos
      · omega
      · exact hcpos
    have hle := hpre.length_le
    refine ⟨c - 1, List.mem_range.mpr ?_, ?_⟩
    · have : c ≤ (key e).length / ps :=
        (Nat.le_div_iff_mul_le hpos).mpr (by rw [Nat.mul_comm]; omega)
      omega
    · rw [Nat.sub_add_cancel hcpos, Nat.mul_comm c ps, ← hc, Nat.add_sub_cancel' hlt.le]
      exact (prefix_iff_eq_take.mp hpre).symm

omit [DecidableEq α] in
theorem nodup_pageEnds (h : IsTrie ps l) : (pageEnds ps e).Nodup := by
  have hpos := h.page_pos
  have hlen := length_stop e
  refine List.Nodup.map_on ?_ nodup_range
  intro i hi j hj hij
  have hi' : (i + 1) * ps ≤ (key e).length := (Nat.le_div_iff_mul_le hpos).mp (List.mem_range.mp hi)
  have hj' : (j + 1) * ps ≤ (key e).length := (Nat.le_div_iff_mul_le hpos).mp (List.mem_range.mp hj)
  have heq := congrArg List.length hij
  rw [length_take, length_take, min_eq_left (by omega), min_eq_left (by omega)] at heq
  have : i + 1 = j + 1 := Nat.eq_of_mul_eq_mul_right hpos (add_left_cancel heq)
  omega

omit [TrieEdge ν α] [DecidableEq α] in
theorem total_eq_length_flatMap {g : ν → ℤ} {f : ν → List (List α)} {c : ℤ}
    (h : ∀ e ∈ l, g e = (f e).length * c) : total g l = (l.flatMap f).length * c := by
  induction l with
  | nil => exact (zero_mul c).symm
  | cons e l ih =>
    rw [total_cons, h e mem_cons_self, ih fun e' he' => h e' (mem_cons_of_mem e he'),
      flatMap_cons, length_append, Nat.cast_add, add_mul]

/-- **The pages along addresses are those of the edges on the way.** -/
theorem total_key_eq (h : IsTrie ps l) (hpaths : ∀ q ∈ paths, IsAddress l q) {g : ν → ℤ}
    (hon : ∀ e ∈ l, ∀ q ∈ paths, stop e <+: q → g e = (key e).length)
    (hoff : ∀ e ∈ l, (∀ q ∈ paths, ¬stop e <+: q) → g e = 0) :
    total g l = prefixCount ps paths * ps := by
  obtain ⟨ends, hends⟩ : ∃ ends : ν → List (List α), ∀ e, ends e =
      if ∃ q ∈ paths, stop e <+: q then pageEnds ps e else [] := ⟨_, fun _ => rfl⟩
  have hmem : ∀ e ∈ l, ∀ p, p ∈ ends e ↔ (∃ q ∈ paths, stop e <+: q) ∧ ps ∣ p.length ∧
      (start e).length < p.length ∧ p <+: stop e := by
    intro e he p
    rw [hends, ← h.mem_pageEnds he]
    split_ifs with hq
    · exact (and_iff_right hq).symm
    · exact ⟨fun hp => absurd hp not_mem_nil, fun hp => absurd hp.1 hq⟩
  have hnodup : (l.flatMap ends).Nodup := by
    rw [nodup_flatMap]
    constructor
    · intro e he
      rw [hends]
      split_ifs
      · exact h.nodup_pageEnds
      · exact nodup_nil
    · have hl : l.Nodup := h.nodup.of_map
      refine hl.pairwise_of_forall_ne fun e he f hf hne p hp hp' => hne ?_
      obtain ⟨-, hd, hlt, hpre⟩ := (hmem e he p).mp hp
      obtain ⟨-, -, hlt', hpre'⟩ := (hmem f hf p).mp hp'
      exact h.covers_unique he hf hd hlt hpre hlt' hpre'
  have hcount : prefixCount ps paths = (l.flatMap ends).length := by
    rw [← toFinset_card_of_nodup hnodup]
    refine congrArg Finset.card (Finset.ext fun p => ?_)
    rw [mem_pagePrefixes, mem_toFinset, mem_flatMap]
    constructor
    · rintro ⟨⟨q, hq, hpq⟩, hne, hd⟩
      have hqne : q ≠ [] := fun h0 => hne (prefix_nil.mp (h0 ▸ hpq))
      obtain ⟨e, he, hlt, hpe⟩ :=
        h.resident_of_prefix (h.resident_address (hpaths q hq) hqne) hpq hne
      -- the address enters the edge by its first page, so it runs through the edge
      have hpage : start e ++ (key e).take ps <+: p := by
        refine prefix_of_prefix_length_le (firstPage_prefix_stop e) hpe ?_
        rw [h.length_firstPage he]
        exact add_page_le (h.dvd_start he) hd hlt
      have hstop := h.stop_prefix_of_page (hpaths q hq) he (hpage.trans hpq)
      exact ⟨e, he, (hmem e he p).mpr ⟨⟨q, hq, hstop⟩, hd, hlt, hpe⟩⟩
    · rintro ⟨e, he, hp⟩
      obtain ⟨⟨q, hq, hstop⟩, hd, hlt, hpre⟩ := (hmem e he p).mp hp
      refine ⟨⟨q, hq, hpre.trans hstop⟩, ?_, hd⟩
      rintro rfl
      exact Nat.not_lt_zero _ hlt
  rw [hcount]
  apply total_eq_length_flatMap
  intro e he
  rw [hends]
  split_ifs with hq
  · obtain ⟨q, hq, hstop⟩ := hq
    rw [hon e he q hq hstop, pageEnds, length_map, length_range]
    exact_mod_cast (Nat.div_mul_cancel (h.dvd_key e he)).symm
  · rw [hoff e he fun q hq' hstop => hq ⟨q, hq', hstop⟩]
    exact (zero_mul _).symm

end IsTrie

end TrieEdge

end FreeToken
