import FreeToken.Lib.TrieEdit
import FreeToken.Utils.Misc

/-!
# Walking down an edge-compressed trie

A walk follows a query from the root, entering at each address the edge whose first page the rest
of the query starts with.

* `IsLongest`: the longest page-aligned prefix of a query that a set of paths contains.
* `IsTrie.isLongest_of_childAt_none`, `IsTrie.isLongest_of_partial`: where the walk stops is the
  end of the longest covered prefix.
-/

namespace FreeToken

open List

namespace TrieEdge

variable {ν α : Type*} [TrieEdge ν α]

/-- `m` is the length of the longest page-aligned prefix of `ids` in `R`. -/
structure IsLongest (ps : ℕ) (R : List α → Prop) (ids : List α) (m : ℕ) : Prop where
  dvd : ps ∣ m
  le : m ≤ ids.length
  mem : m ≠ 0 → R (ids.take m)
  max : ∀ k, ps ∣ k → k ≤ ids.length → R (ids.take k) → k ≤ m

variable {ids : List α} {m ps : ℕ}

theorem IsLongest.unique {R : List α → Prop} {m' : ℕ}
    (h : IsLongest ps R ids m) (h' : IsLongest ps R ids m') : m = m' := by
  have hle : ∀ {a b : ℕ}, IsLongest ps R ids a → IsLongest ps R ids b → a ≤ b :=
    fun {a b} ha hb => by
    rcases eq_zero_or_pos a with rfl | hpos
    · exact Nat.zero_le _
    · exact hb.max a ha.dvd ha.le (ha.mem (by omega))
  exact le_antisymm (hle h h') (hle h' h)

/-- The longest contained prefix depends on the page-aligned prefixes of the query only. -/
theorem IsLongest.congr {R R' : List α → Prop}
    (h : IsLongest ps R ids m)
    (hr : ∀ k, ps ∣ k → k ≤ ids.length → (R' (ids.take k) ↔ R (ids.take k))) :
    IsLongest ps R' ids m where
  dvd := h.dvd
  le := h.le
  mem h0 := (hr m h.dvd h.le).mpr (h.mem h0)
  max k hk hkl hk' := h.max k hk hkl ((hr k hk hkl).mp hk')

/-! ### Comparing a key with a query -/

variable [DecidableEq α]

/-- The length of the longest common prefix. -/
def commonPrefixLength : List α → List α → ℕ
  | a :: as, b :: bs => if a = b then commonPrefixLength as bs + 1 else 0
  | _, _ => 0

omit [TrieEdge ν α] in
theorem le_commonPrefixLength_iff {k : ℕ} {as bs : List α} :
    k ≤ commonPrefixLength as bs ↔ k ≤ as.length ∧ as.take k <+: bs := by
  induction as, bs using commonPrefixLength.induct generalizing k with
  | case1 as b bs ih =>
    cases k with
    | zero => simp
    | succ k => simp [commonPrefixLength, ih]
  | case2 a as b bs hne =>
    cases k with
    | zero => simp
    | succ k => simp [commonPrefixLength, hne]
  | case3 as bs hno =>
    rw [commonPrefixLength]
    · cases k with
      | zero => simp
      | succ k =>
        cases as with
        | nil => simp
        | cons a as =>
          cases bs with
          | nil => simp
          | cons b bs => exact absurd rfl (hno a as b bs rfl)
    · exact hno

omit [TrieEdge ν α] in
theorem commonPrefixLength_le_left (as bs : List α) : commonPrefixLength as bs ≤ as.length :=
  (le_commonPrefixLength_iff.mp le_rfl).1

omit [TrieEdge ν α] in
theorem take_prefix_of_le_commonPrefixLength {k : ℕ} {as bs : List α}
    (h : k ≤ commonPrefixLength as bs) : as.take k = bs.take k := by
  obtain ⟨hk, hpre⟩ := le_commonPrefixLength_iff.mp h
  have := prefix_iff_eq_take.mp hpre
  rwa [length_take, min_eq_left hk] at this

omit [TrieEdge ν α] in
theorem commonPrefixLength_le_right (as bs : List α) : commonPrefixLength as bs ≤ bs.length := by
  obtain ⟨hk, hpre⟩ := le_commonPrefixLength_iff.mp (le_refl (commonPrefixLength as bs))
  have := hpre.length_le
  rwa [length_take, min_eq_left hk] at this

/-! ### The child a query enters -/

/-- The edge below address `p` whose first page the query starts with. -/
def childAt (ps : ℕ) (l : List ν) (p ids : List α) : Option ν :=
  l.find? fun e => start e = p ∧ (key e).take ps = ids.take ps

variable {ps : ℕ} {l : List ν} {e : ν} {p : List α}

theorem childAt_eq_some (h : childAt ps l p ids = some e) :
    e ∈ l ∧ start e = p ∧ (key e).take ps = ids.take ps := by
  unfold childAt at h
  refine ⟨mem_of_find?_eq_some h, ?_⟩
  simpa using find?_some h

theorem childAt_eq_none (h : childAt ps l p ids = none) :
    ∀ e ∈ l, start e = p → (key e).take ps ≠ ids.take ps := by
  intro e he hs
  unfold childAt at h
  have := find?_eq_none.mp h e he
  simpa [hs] using this

/-- The page a child is entered by belongs to the query. -/
theorem IsTrie.page_le_commonPrefixLength (h : IsTrie ps l) (he : e ∈ l)
    (hk : (key e).take ps = ids.take ps) : ps ≤ commonPrefixLength (key e) ids := by
  rw [le_commonPrefixLength_iff]
  exact ⟨h.page_le_key he, hk ▸ take_prefix _ _⟩

omit [DecidableEq α] in
theorem IsTrie.child_of_resident (h : IsTrie ps l) {n k : ℕ} (hn : n ≤ ids.length)
    (hp : IsAddress l (ids.take n)) (hk : ps ∣ k) (hkl : k ≤ ids.length) (hnk : n < k)
    (hres : Resident l (ids.take k)) :
    ∃ e ∈ l, start e = ids.take n ∧ (key e).take ps = (ids.drop n).take ps := by
  have hps := h.page_pos
  have hlen : (ids.take n).length = n := by rw [length_take]; omega
  have hdn : ps ∣ n := hlen ▸ h.dvd_address hp
  have hle : n + ps ≤ k := add_page_le hdn hk hnk
  have hlq : (ids.take (n + ps)).length = n + ps := by rw [length_take]; omega
  have hq : Resident l (ids.take (n + ps)) := by
    refine h.resident_of_prefix hres (take_prefix_take_left (by omega)) fun h0 => ?_
    rw [h0] at hlq
    simp at hlq
    omega
  obtain ⟨g, hg, hlt, hpre⟩ := hq
  rw [hlq] at hlt
  have hge : (start g).length ≤ n := by
    by_contra hgt
    have := add_page_le hdn (h.dvd_start hg) (not_le.mp hgt)
    omega
  have hnp : ids.take n <+: stop g := (take_prefix_take_left (by omega)).trans hpre
  rcases lt_or_eq_of_le hge with hlt' | heq
  · -- the address would lie strictly inside `g`
    exfalso
    rcases hp with h0 | ⟨f, hf, hfp⟩
    · rw [h0] at hlen
      simp at hlen
      omega
    · have hfg : f = g := h.covers_unique hf hg (h.dvd_stop hf) (h.length_start_lt hf)
        prefix_rfl (by rw [hfp, hlen]; exact hlt') (by rw [hfp]; exact hnp)
      have := hpre.length_le
      rw [← hfg, hfp, hlen, hlq] at this
      omega
  · have hsg : start g = ids.take n :=
      (prefix_of_prefix_length_le (start_prefix_stop g) hnp (by omega)).eq_of_length (by omega)
    refine ⟨g, hg, hsg, ?_⟩
    have h1 : start g ++ (key g).take ps <+: stop g := firstPage_prefix_stop g
    have h2 := (prefix_of_prefix_length_le h1 hpre
      (by rw [h.length_firstPage hg, hlq, heq])).eq_of_length
      (by rw [h.length_firstPage hg, hlq, heq])
    rw [hsg, take_add] at h2
    exact append_cancel_left h2

omit [DecidableEq α] in
theorem IsTrie.resident_take_address (h : IsTrie ps l) {n : ℕ} (hn : n ≤ ids.length)
    (hp : IsAddress l (ids.take n)) (h0 : n ≠ 0) : Resident l (ids.take n) := by
  refine h.resident_address hp fun hnil => h0 ?_
  have := congrArg List.length hnil
  rw [length_take, min_eq_left hn] at this
  exact this

omit [DecidableEq α] in
theorem IsTrie.isLongest_of_exhausted (h : IsTrie ps l)
    (hp : IsAddress l ids) : IsLongest ps (Resident l) ids ids.length where
  dvd := h.dvd_address hp
  le := le_rfl
  mem := fun h0 => h.resident_take_address le_rfl (by rwa [take_length]) h0
  max := fun _ _ hk _ => hk

/-- A walk that finds no child has reached the end of the longest covered prefix. -/
theorem IsTrie.isLongest_of_childAt_none (h : IsTrie ps l) {n : ℕ}
    (hn : n ≤ ids.length) (hp : IsAddress l (ids.take n))
    (hc : childAt ps l (ids.take n) (ids.drop n) = none) : IsLongest ps (Resident l) ids n where
  dvd := by
    have := h.dvd_address hp
    rwa [length_take, min_eq_left hn] at this
  le := hn
  mem := h.resident_take_address hn hp
  max := by
    intro k hk hkl hres
    by_contra hlt
    obtain ⟨e, he, hs, hpage⟩ := h.child_of_resident hn hp hk hkl (not_le.mp hlt) hres
    exact childAt_eq_none hc e he hs hpage

omit [DecidableEq α] in
/-- No child of the end of the longest covered prefix is entered by the rest of the query. -/
theorem IsTrie.page_ne_of_isLongest (h : IsTrie ps l)
    (hl : IsLongest ps (Resident l) ids m) (hd : ps ∣ ids.length) (hlt : m < ids.length)
    (he : e ∈ l) (hs : start e = ids.take m) : (key e).take ps ≠ (ids.drop m).take ps := by
  intro hpage
  have hps := h.page_pos
  have hge := add_page_le hl.dvd hd hlt
  have hres : Resident l (ids.take (m + ps)) := by
    refine ⟨e, he, ?_, ?_⟩
    · rw [hs, length_take, length_take]
      omega
    · rw [take_add, ← hs, ← hpage]
      exact firstPage_prefix_stop e
  have := hl.max (m + ps) (Nat.dvd_add hl.dvd (dvd_refl ps)) hge hres
  omega

section Enter

variable {ids : List α} {n : ℕ} {e : ν}

theorem IsTrie.matchLen_spec (h : IsTrie ps l) (he : e ∈ l)
    (hpage : (key e).take ps = (ids.drop n).take ps)
    (hm : m = alignDown (commonPrefixLength (key e) (ids.drop n)) ps) :
    ps ≤ m ∧ ps ∣ m ∧ m ≤ (key e).length ∧ n + m ≤ max n ids.length ∧
      (key e).take m = (ids.drop n).take m := by
  have hle : m ≤ commonPrefixLength (key e) (ids.drop n) := hm ▸ alignDown_le _ _
  have hr := commonPrefixLength_le_right (key e) (ids.drop n)
  rw [length_drop] at hr
  refine ⟨?_, hm ▸ dvd_alignDown _ _, hle.trans (commonPrefixLength_le_left _ _), by omega,
    take_prefix_of_le_commonPrefixLength hle⟩
  rw [hm, le_alignDown_iff (dvd_refl ps)]
  exact h.page_le_commonPrefixLength he hpage

omit [DecidableEq α] in
theorem start_append_take (hs : start e = ids.take n)
    (hk : (key e).take m = (ids.drop n).take m) : start e ++ (key e).take m = ids.take (n + m) := by
  rw [hs, hk, take_add]

/-- A walk that leaves an edge in the middle has reached the end of the longest covered prefix. -/
theorem IsTrie.isLongest_of_partial (h : IsTrie ps l) (hn : n ≤ ids.length) (he : e ∈ l)
    (hs : start e = ids.take n) (hpage : (key e).take ps = (ids.drop n).take ps)
    (hm : m = alignDown (commonPrefixLength (key e) (ids.drop n)) ps)
    (hlt : m < (key e).length) : IsLongest ps (Resident l) ids (n + m) := by
  obtain ⟨hpm, hdm, -, hnm, htake⟩ := h.matchLen_spec he hpage hm
  rw [max_eq_right hn] at hnm
  have hps := h.page_pos
  have hlen : (ids.take n).length = n := by rw [length_take]; omega
  have hdn : ps ∣ n := hlen ▸ hs ▸ h.dvd_start he
  have hpre : ids.take (n + m) <+: stop e := by
    rw [← start_append_take hs htake]
    exact (prefix_append_right_inj _).mpr (List.take_prefix _ _)
  have hpre_page : start e ++ (key e).take ps <+: ids.take (n + m) := by
    rw [← start_append_take hs htake]
    exact (prefix_append_right_inj _).mpr (take_prefix_take_left hpm)
  refine ⟨Nat.dvd_add hdn hdm, hnm, fun _ => ⟨e, he, ?_, hpre⟩, ?_⟩
  · rw [hs, hlen, length_take]
    omega
  · intro k hk hkl hres
    by_contra hgt
    have hgt' := add_page_le (Nat.dvd_add hdn hdm) hk (not_le.mp hgt)
    -- the next page of the query is covered, and the edge that covers it runs through `e`
    have hlq : (ids.take (n + m + ps)).length = n + m + ps := by rw [length_take]; omega
    have hq : Resident l (ids.take (n + m + ps)) := by
      refine h.resident_of_prefix hres (take_prefix_take_left hgt') fun h0 => ?_
      rw [h0] at hlq
      simp at hlq
      omega
    obtain ⟨g, hg, -, hqg⟩ := hq
    have heg : stop e <+: stop g := by
      refine h.stop_prefix_of_page (isAddress_stop hg) he (hpre_page.trans ?_)
      exact (take_prefix_take_left (by omega)).trans hqg
    have hke : m + ps ≤ (key e).length := add_page_le hdm (h.dvd_key e he) hlt
    have hqe : ids.take (n + m + ps) <+: stop e := by
      refine prefix_of_prefix_length_le hqg heg ?_
      rw [hlq, length_stop, hs, hlen]
      omega
    have hcmp : m + ps ≤ commonPrefixLength (key e) (ids.drop n) := by
      rw [le_commonPrefixLength_iff]
      refine ⟨hke, ?_⟩
      have hsplit : ids.take (n + m + ps) = ids.take n ++ (ids.drop n).take (m + ps) := by
        rw [add_assoc, take_add]
      rw [hsplit, stop, hs, prefix_append_right_inj] at hqe
      have heq := prefix_iff_eq_take.mp hqe
      rw [length_take, length_drop, min_eq_left (by omega)] at heq
      rw [← heq]
      exact take_prefix _ _
    rw [← le_alignDown_iff (Nat.dvd_add hdm (dvd_refl ps)), ← hm] at hcmp
    omega

end Enter

end TrieEdge

end FreeToken
