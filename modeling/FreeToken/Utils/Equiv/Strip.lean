import FreeToken.Utils.Equiv.Text
import Mathlib.Data.List.TakeWhile

/-!
# Whitespace at the ends

What `strip` leaves, and that it commutes with the removal of words whose ends are not whitespace.
-/

namespace FreeToken.Text

open List

variable {s t u w x : Text}

def Blank (t : Text) : Prop := t.all isSpace

instance (t : Text) : Decidable (Blank t) := inferInstanceAs (Decidable (t.all isSpace = true))

/-- A word whose ends are not whitespace. -/
def SolidEnds (s : Text) : Prop :=
  ∃ c d, s.head? = some c ∧ s.getLast? = some d ∧ isSpace c = false ∧ isSpace d = false

theorem blank_iff : Blank t ↔ ∀ c ∈ t, isSpace c := all_eq_true

theorem Blank.append (hw : Blank w) (hu : Blank u) : Blank (w ++ u) := by
  rw [blank_iff] at *
  intro c hc
  rcases mem_append.mp hc with hc | hc
  · exact hw c hc
  · exact hu c hc

theorem dropWhile_blank_append (hw : Blank w) :
    (w ++ x).dropWhile isSpace = x.dropWhile isSpace := by
  induction w with
  | nil => rfl
  | cons c w ih =>
    rw [blank_iff, forall_mem_cons] at hw
    rw [cons_append, dropWhile_cons_of_pos hw.1]
    exact ih (blank_iff.mpr hw.2)

theorem blank_takeWhile : Blank (t.takeWhile isSpace) :=
    blank_iff.mpr fun _ hc => mem_takeWhile_imp hc

theorem lstrip_blank_append (hw : Blank w) : lstrip (w ++ x) = lstrip x := dropWhile_blank_append hw

theorem rstrip_append_blank (hw : Blank w) : rstrip (x ++ w) = rstrip x := by
  have hrev : Blank w.reverse := by
    rw [blank_iff] at *
    intro c hc
    exact hw c (mem_reverse.mp hc)
  unfold rstrip
  rw [reverse_append, dropWhile_blank_append hrev]

/-- A text is what `strip` leaves of it, between whitespace. -/
theorem eq_append_strip (t : Text) : ∃ w u, Blank w ∧ Blank u ∧ t = w ++ strip t ++ u := by
  refine ⟨t.takeWhile isSpace, ((lstrip t).reverse.takeWhile isSpace).reverse, blank_takeWhile, ?_,
    ?_⟩
  · rw [blank_iff]
    intro c hc
    exact mem_takeWhile_imp (mem_reverse.mp hc)
  · have hright : lstrip t = strip t ++ ((lstrip t).reverse.takeWhile isSpace).reverse := by
      have hsplit := congrArg List.reverse
        (takeWhile_append_dropWhile (p := isSpace) (l := (lstrip t).reverse))
      rw [reverse_append, reverse_reverse] at hsplit
      exact hsplit.symm
    have hleft : t = t.takeWhile isSpace ++ lstrip t := takeWhile_append_dropWhile.symm
    rw [append_assoc, ← hright]
    exact hleft

theorem strip_blank (ht : Blank t) : strip t = [] := by
  have hl : lstrip t = [] := by
    have h := @lstrip_blank_append t [] ht
    rwa [append_nil] at h
  rw [strip, hl]
  rfl

theorem strip_between (hw : Blank w) (hu : Blank u) : strip (w ++ x ++ u) = strip x := by
  unfold strip
  rw [append_assoc, lstrip_blank_append hw]
  by_cases hx : Blank x
  · have hboth : strip (x ++ u) = [] := strip_blank (hx.append hu)
    have hone : strip x = [] := strip_blank hx
    exact hboth.trans hone.symm
  · have hdrop : lstrip (x ++ u) = lstrip x ++ u := by
      unfold lstrip
      rw [dropWhile_append]
      have hne : (x.dropWhile isSpace).isEmpty = false := by
        rw [isEmpty_eq_false_iff]
        intro hnil
        exact hx (blank_iff.mpr (dropWhile_eq_nil_iff.mp hnil))
      rw [hne]
      rfl
    rw [hdrop, rstrip_append_blank hu]

theorem strip_eq_of_append (hw : Blank w) : strip (w ++ x) = strip x := by
  have h := @strip_between [] w x hw rfl
  rwa [append_nil] at h

/-! ### Removing words -/

theorem SolidEnds.ne_nil (h : SolidEnds s) : s ≠ [] := by
  rintro rfl
  obtain ⟨c, -, hc, -⟩ := h
  simp at hc

theorem SolidEnds.not_starts (h : SolidEnds s) {c : Char} (hc : isSpace c) : ¬s <+: c :: x := by
  obtain ⟨d, -, hd, -, hsolid, -⟩ := h
  rintro ⟨rest, hrest⟩
  have hhead := congrArg List.head? hrest
  rw [head?_append, hd] at hhead
  obtain rfl : d = c := by simpa using hhead
  rw [hc] at hsolid
  exact absurd hsolid (by simp)

theorem SolidEnds.prefix_append_blank (h : SolidEnds s) (hw : Blank w) :
    s <+: x ++ w ↔ s <+: x := by
  constructor
  · intro hs
    have hle : s.length ≤ x.length := by
      by_contra hlt
      obtain ⟨-, d, -, hd, -, hsolid⟩ := h
      have hx : x <+: s := prefix_of_prefix_length_le (prefix_append x w) hs (by omega)
      obtain ⟨v, rfl⟩ := hx
      have hv : v <+: w := (prefix_append_right_inj x).mp hs
      have hvne : v ≠ [] := by
        rintro rfl
        simp at hlt
      rw [getLast?_append_of_ne_nil _ hvne] at hd
      have hmem : d ∈ w := hv.subset (mem_of_getLast? hd)
      rw [blank_iff.mp hw d hmem] at hsolid
      exact absurd hsolid (by simp)
    exact prefix_of_prefix_length_le hs (prefix_append x w) hle
  · exact fun hs => hs.trans (prefix_append x w)

theorem SolidEnds.remove_blank_append (h : SolidEnds s) (hw : Blank w) :
    remove s (w ++ x) = w ++ remove s x := by
  induction w with
  | nil => rfl
  | cons c w ih =>
    rw [blank_iff, forall_mem_cons] at hw
    have hrest := ih (blank_iff.mpr hw.2)
    unfold remove at hrest ⊢
    rw [cons_append, removeFrom, if_neg (h.not_starts hw.1), hrest]
    rfl

private theorem SolidEnds.removeFrom_append_blank (h : SolidEnds s) (hw : Blank w) {k : ℕ}
    (hk : k ≤ x.length) :
    removeFrom s k (x ++ w) = removeFrom s k x ++ w := by
  induction x generalizing k with
  | nil =>
    obtain rfl : k = 0 := by simpa using hk
    have hrest := @SolidEnds.remove_blank_append s w [] h hw
    simpa [remove, removeFrom] using hrest
  | cons c x ih =>
    cases k with
    | succ k => exact ih (by simpa using hk)
    | zero =>
      have hiff := @SolidEnds.prefix_append_blank s w (c :: x) h hw
      rw [cons_append] at hiff ⊢
      simp only [removeFrom, hiff]
      split_ifs with hs
      · have hlen := hs.length_le
        rw [length_cons] at hlen
        exact ih (by omega)
      · rw [ih (Nat.zero_le _)]
        rfl

theorem SolidEnds.remove_between (h : SolidEnds s) (hw : Blank w) (hu : Blank u) :
    remove s (w ++ x ++ u) = w ++ remove s x ++ u := by
  have hright : remove s (x ++ u) = remove s x ++ u := h.removeFrom_append_blank hu (Nat.zero_le _)
  rw [append_assoc, h.remove_blank_append hw, hright, append_assoc]

theorem SolidEnds.infix_strip (h : SolidEnds s) : s <:+: strip t ↔ s <:+: t := by
  obtain ⟨w, u, hw, hu, ht⟩ := eq_append_strip t
  constructor
  · intro hs
    rw [ht]
    exact hs.trans ⟨w, u, rfl⟩
  · intro hs
    by_contra hno
    have hlt := remove_length_lt h.ne_nil hs
    rw [ht, h.remove_between hw hu, remove_eq_self hno] at hlt
    exact absurd hlt (lt_irrefl _)

/-! ### Finding words -/

theorem strip_strip (t : Text) : strip (strip t) = strip t := by
  obtain ⟨w, u, hw, hu, ht⟩ := eq_append_strip t
  have heq := strip_between (x := strip t) hw hu
  rw [← ht] at heq
  exact heq.symm

theorem strip_append_blank (hu : Blank u) : strip (x ++ u) = strip x :=
    strip_between (w := []) rfl hu

theorem exists_rstrip_append (x : Text) : ∃ w, Blank w ∧ rstrip x ++ w = x := by
  refine ⟨(x.reverse.takeWhile isSpace).reverse, ?_, ?_⟩
  · rw [blank_iff]
    intro c hc
    exact mem_takeWhile_imp (mem_reverse.mp hc)
  · have hsplit :=
      congrArg List.reverse (takeWhile_append_dropWhile (p := isSpace) (l := x.reverse))
    rw [reverse_append, reverse_reverse] at hsplit
    exact hsplit

theorem SolidEnds.le_of_prefix_drop (h : SolidEnds s) (hw : Blank w) {k : ℕ}
    (hs : s <+: (w ++ x).drop k) :
    w.length ≤ k := by
  by_contra hlt
  rw [drop_append_of_le_length (by omega)] at hs
  obtain ⟨c, w', hcons⟩ := exists_cons_of_ne_nil (l := w.drop k) (by
    intro hnil
    have hlen := congrArg List.length hnil
    rw [length_drop, length_nil] at hlen
    omega)
  have hc : isSpace c := blank_iff.mp hw c (mem_of_mem_drop (by rw [hcons]; exact mem_cons_self))
  rw [hcons] at hs
  exact h.not_starts hc hs

theorem SolidEnds.find_strip (h : SolidEnds s) {e : ℕ} (hfind : find s t = some e) :
    ∃ w u k, Blank w ∧ Blank u ∧ find s (strip t) = some k ∧ t.take e = w ++ (strip t).take k ∧
      t.drop (e + s.length) = (strip t).drop (k + s.length) ++ u := by
  obtain ⟨w, u, hw, hu, ht⟩ := eq_append_strip t
  generalize strip t = x at *
  rw [append_assoc] at ht
  subst ht
  have hpre := (find_eq_some hfind).1
  have hle := h.le_of_prefix_drop hw hpre
  have hdrop : ∀ k, (w ++ (x ++ u)).drop (w.length + k) = (x ++ u).drop k := by
    intro k
    rw [← drop_drop, drop_left]
  obtain ⟨k, rfl⟩ := Nat.exists_eq_add_of_le hle
  rw [hdrop] at hpre
  have hkx : k ≤ x.length := by
    by_contra hlt
    have hblank : (x ++ u).drop k = u.drop (k - x.length) := by
      rw [drop_append, drop_of_length_le (by omega), nil_append]
    rw [hblank] at hpre
    have hu' := h.le_of_prefix_drop (k := 0) (w := u.drop (k - x.length)) (x := [])
      (blank_iff.mpr fun c hc => blank_iff.mp hu c (mem_of_mem_drop hc))
      (by rw [append_nil, drop_zero]; exact hpre)
    have hlen := hpre.length_le
    have hpos := length_pos_iff.mpr h.ne_nil
    omega
  rw [drop_append_of_le_length hkx, h.prefix_append_blank hu] at hpre
  have hlen := hpre.length_le
  rw [length_drop] at hlen
  have hfound : find s x = some k := by
    apply find_of_prefix hpre
    intro j hj hprej
    apply (find_eq_some hfind).2 (w.length + j) (by omega)
    rw [hdrop, drop_append_of_le_length (by omega)]
    exact hprej.trans (prefix_append _ _)
  have hadd := find_add_le hfound
  refine ⟨w, u, k, hw, hu, hfound, ?_, ?_⟩
  · rw [take_append, take_of_length_le (by omega), Nat.add_sub_cancel_left,
      take_append_of_le_length hkx]
  · rw [Nat.add_assoc, hdrop, drop_append_of_le_length hadd]

theorem lstrip_append (h : lstrip x ≠ []) : lstrip (x ++ u) = lstrip x ++ u := by
  unfold lstrip at *
  rw [dropWhile_append]
  have hne : (x.dropWhile isSpace).isEmpty = false := isEmpty_eq_false_iff.mpr h
  rw [hne]
  rfl

theorem SolidEnds.lstrip_of_prefix (h : SolidEnds s) (hs : s <+: t) : lstrip t = t := by
  cases t with
  | nil => rfl
  | cons c t =>
    apply dropWhile_cons_of_neg
    exact fun hc => h.not_starts hc hs

/-- A word with solid ends is still there when what is before it has been stripped. -/
theorem SolidEnds.suffix_lstrip (h : SolidEnds s) : s <:+ lstrip (x ++ s) := by
  induction x with
  | nil =>
    rw [nil_append, h.lstrip_of_prefix (prefix_refl s)]
  | cons c x ih =>
    unfold lstrip at *
    rw [cons_append, dropWhile_cons]
    split_ifs
    · exact ih
    · exact suffix_append (c :: x) s

/-! ### The first occurrence removed -/

theorem remove_eq_removeFirst {i : ℕ} (hs : s ≠ []) (hfind : find s t = some i)
    (honce : ¬s <:+: t.drop (i + s.length)) : remove s t = t.take i ++ t.drop (i + s.length) := by
  induction t generalizing i with
  | nil =>
    have hle := find_add_le hfind
    have hpos := length_pos_iff.mpr hs
    rw [length_nil] at hle
    omega
  | cons c t ih =>
    unfold remove
    rw [removeFrom]
    rw [find] at hfind
    split_ifs at hfind ⊢ with hpre
    · obtain rfl := Option.some.inj hfind
      rw [Nat.zero_add] at honce ⊢
      have hskip : ∀ k (x : Text), ¬s <:+: x.drop k → removeFrom s k x = x.drop k := by
        intro k
        induction k with
        | zero =>
          intro x hx
          exact remove_eq_self hx
        | succ k ih =>
          intro x hx
          cases x with
          | nil => rfl
          | cons d x => exact ih x hx
      obtain ⟨n, hn⟩ := Nat.exists_eq_succ_of_ne_zero (length_pos_iff.mpr hs).ne'
      rw [hn] at honce ⊢
      rw [take_zero, nil_append]
      exact hskip n t honce
    · obtain ⟨j, hj, rfl⟩ := Option.map_eq_some_iff.mp hfind
      have hadd : j + 1 + s.length = j + s.length + 1 := by omega
      rw [hadd, drop_succ_cons] at honce ⊢
      rw [take_succ_cons, cons_append]
      exact congrArg (c :: ·) (ih hj honce)

end FreeToken.Text
