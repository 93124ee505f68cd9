import Mathlib.Algebra.Order.Group.Nat
import Mathlib.Data.List.Range

/-!
# Bitonic networks

A comparator stage at distance `d` leaves each pair of lanes `p` and `p + d` with its two entries,
in the direction that `flip` names.  A stage is a relation: nothing is said about the entries of a
pair whose keys are equal.

* `Merged`: the stages at distances `2 ^ (s - 1)`, …, `1`.
* `Stages`: merges of growing size, in alternating directions.
* `Merged.ordered`: two halves in opposite directions are merged into one that is ordered.
* `sorts`: the whole network sorts.

The proofs look at the entries from a threshold on: where they are in a window, a stage leaves each
half with a window, and one of the halves with all of them or none.
-/

namespace Bitonic

open List

variable {α κ : Type*} [LinearOrder κ]

/-! ### Windows -/

/-- The lanes with the property are those of an interval, or are those that are not. -/
def Window (A : ℕ → Prop) (o m : ℕ) : Prop :=
  ∃ a b, (∀ q < m, A (o + q) ↔ a ≤ q ∧ q < b) ∨ ∀ q < m, A (o + q) ↔ ¬(a ≤ q ∧ q < b)

theorem Window.not {A : ℕ → Prop} {o m : ℕ} (h : Window A o m) : Window (fun p => ¬A p) o m := by
  obtain ⟨a, b, hin | hout⟩ := h
  · exact ⟨a, b, .inr fun q hq => not_congr (hin q hq)⟩
  · exact ⟨a, b, .inl fun q hq => (not_congr (hout q hq)).trans not_not⟩

theorem Window.congr {A B : ℕ → Prop} {o m : ℕ} (h : Window A o m)
    (hAB : ∀ q < m, B (o + q) ↔ A (o + q)) :
    Window B o m := by
  obtain ⟨a, b, hin | hout⟩ := h
  · exact ⟨a, b, .inl fun q hq => (hAB q hq).trans (hin q hq)⟩
  · exact ⟨a, b, .inr fun q hq => (hAB q hq).trans (hout q hq)⟩

/-- An interval of `2 * d` lanes, folded. -/
theorem window_or (a b d : ℕ) : Window (fun q => (a ≤ q ∧ q < b) ∨ a ≤ q + d ∧ q + d < b) 0 d := by
  by_cases hleft : b ≤ d
  · exact ⟨a, b, .inl fun q hq => by omega⟩
  by_cases hright : d ≤ a
  · exact ⟨a - d, b - d, .inl fun q hq => by omega⟩
  -- the interval goes through the middle: what it leaves out lies between its ends
  · exact ⟨b - d, a, .inr fun q hq => by omega⟩

theorem window_and (a b d : ℕ) : Window (fun q => (a ≤ q ∧ q < b) ∧ a ≤ q + d ∧ q + d < b) 0 d :=
  ⟨a, b - d, .inl fun q hq => by omega⟩

theorem and_empty_or_or_full (a b d : ℕ) :
    (∀ q < d, ¬((a ≤ q ∧ q < b) ∧ a ≤ q + d ∧ q + d < b)) ∨ ∀ q < d, (a ≤ q ∧ q < b) ∨ a ≤ q + d ∧
    q + d < b := by
  by_cases h : b ≤ a + d ∨ d ≤ a
  · exact .inl fun q hq => by omega
  · exact .inr fun q hq => by omega

theorem Window.halves {A B : ℕ → Prop} {o d : ℕ} (h : Window A o (2 * d))
    (hlow : ∀ q < d, B (o + q) ↔ A (o + q) ∧ A (o + q + d))
    (hhigh : ∀ q < d, B (o + q + d) ↔ A (o + q) ∨ A (o + q + d)) :
    Window B o d ∧ Window B (o + d) d ∧ ((∀ q < d, ¬B (o + q)) ∨ ∀ q < d, B (o + q + d)) := by
  have hswap : ∀ q, o + d + q = o + q + d := fun q => add_right_comm o d q
  -- either the window holds an interval or the complement of one
  obtain ⟨a, b, hin | hout⟩ := h
  · have hA : ∀ q < d, A (o + q) ↔ a ≤ q ∧ q < b := fun q hq => hin q (by omega)
    have hAd : ∀ q < d, A (o + q + d) ↔ a ≤ q + d ∧ q + d < b := fun q hq => by
      rw [add_assoc]
      exact hin (q + d) (by omega)
    have hB : ∀ q < d, B (o + q) ↔ (a ≤ q ∧ q < b) ∧ a ≤ q + d ∧ q + d < b := fun q hq =>
      (hlow q hq).trans (and_congr (hA q hq) (hAd q hq))
    have hBd : ∀ q < d, B (o + q + d) ↔ (a ≤ q ∧ q < b) ∨ a ≤ q + d ∧ q + d < b := fun q hq =>
      (hhigh q hq).trans (or_congr (hA q hq) (hAd q hq))
    refine ⟨?_, ?_, ?_⟩
    · obtain ⟨a', b', hw⟩ := window_and a b d
      simp only [zero_add] at hw
      exact ⟨a', b', hw.imp (fun hw q hq => (hB q hq).trans (hw q hq)) fun hw q hq =>
        (hB q hq).trans (hw q hq)⟩
    · obtain ⟨a', b', hw⟩ := window_or a b d
      simp only [zero_add] at hw
      simp only [Window, hswap]
      exact ⟨a', b', hw.imp (fun hw q hq => (hBd q hq).trans (hw q hq)) fun hw q hq =>
        (hBd q hq).trans (hw q hq)⟩
    · rcases and_empty_or_or_full a b d with hnone | hall
      · exact .inl fun q hq hb => hnone q hq ((hB q hq).mp hb)
      · exact .inr fun q hq => (hBd q hq).mpr (hall q hq)
  · have hA : ∀ q < d, A (o + q) ↔ ¬(a ≤ q ∧ q < b) := fun q hq => hout q (by omega)
    have hAd : ∀ q < d, A (o + q + d) ↔ ¬(a ≤ q + d ∧ q + d < b) := fun q hq => by
      rw [add_assoc]
      exact hout (q + d) (by omega)
    have hB : ∀ q < d, B (o + q) ↔ ¬((a ≤ q ∧ q < b) ∨ a ≤ q + d ∧ q + d < b) := fun q hq =>
      (hlow q hq).trans ((and_congr (hA q hq) (hAd q hq)).trans not_or.symm)
    have hBd : ∀ q < d, B (o + q + d) ↔ ¬((a ≤ q ∧ q < b) ∧ a ≤ q + d ∧ q + d < b) := fun q hq =>
      (hhigh q hq).trans ((or_congr (hA q hq) (hAd q hq)).trans not_and_or.symm)
    refine ⟨?_, ?_, ?_⟩
    · obtain ⟨a', b', hw⟩ := (window_or a b d).not
      simp only [zero_add] at hw
      exact ⟨a', b', hw.imp (fun hw q hq => (hB q hq).trans (hw q hq)) fun hw q hq =>
        (hB q hq).trans (hw q hq)⟩
    · obtain ⟨a', b', hw⟩ := (window_and a b d).not
      simp only [zero_add] at hw
      simp only [Window, hswap]
      exact ⟨a', b', hw.imp (fun hw q hq => (hBd q hq).trans (hw q hq)) fun hw q hq =>
        (hBd q hq).trans (hw q hq)⟩
    · rcases and_empty_or_or_full a b d with hnone | hall
      · exact .inr fun q hq => (hBd q hq).mpr (hnone q hq)
      · exact .inl fun q hq hb => (hB q hq).mp hb (hall q hq)

/-! ### Order in a block -/

variable (key : α → κ) (down : Bool)

/-- The entries of a block, in the direction `down`. -/
def Ordered (x : ℕ → α) (o m : ℕ) : Prop :=
  ∀ p q, p ≤ q → q < m → if down then key (x (o + q)) ≤ key (x (o + p)) else key (x (o + p)) ≤
    key (x (o + q))

/-- An entry of those that go to the end of an ordered block. -/
def Late (t : κ) (a : α) : Prop := decide (t ≤ key a) ≠ down

variable {key down} {t : κ} {a : α}

theorem late_not : Late key (!down) t a ↔ ¬Late key down t a := by
  unfold Late
  cases down <;> cases decide (t ≤ key a) <;> decide

theorem late_true : Late key true t a ↔ key a < t := by simp [Late]

theorem late_false : Late key false t a ↔ t ≤ key a := by simp [Late]

variable {x : ℕ → α}

/-- What is in order has its late entries behind a cut. -/
theorem Ordered.exists_cut {o m : ℕ} (h : Ordered key down x o m) (t : κ) :
    ∃ c, ∀ q < m, Late key down t (x (o + q)) ↔ c ≤ q := by
  have hmono :
    ∀ p q, p ≤ q → q < m → Late key down t (x (o + p)) → Late key down t (x (o + q)) := by
    intro p q hpq hq hlate
    have hle := h p q hpq hq
    cases down with
    | true =>
      rw [late_true] at hlate ⊢
      exact lt_of_le_of_lt (by simpa using hle) hlate
    | false =>
      rw [late_false] at hlate ⊢
      exact le_trans hlate (by simpa using hle)
  induction m with
  | zero => exact ⟨0, fun q hq => absurd hq (Nat.not_lt_zero q)⟩
  | succ m ih =>
    obtain ⟨c, hc⟩ :=
      ih (fun p q hpq hq => h p q hpq (by omega)) fun p q hpq hq => hmono p q hpq (by omega)
    by_cases hlast : Late key down t (x (o + m))
    · refine ⟨min c m, fun q hq => ?_⟩
      rcases lt_or_eq_of_le (Nat.le_of_lt_succ hq) with hlt | rfl
      · rw [hc q hlt]
        omega
      · exact ⟨fun _ => min_le_right c q, fun _ => hlast⟩
    · refine ⟨m + 1, fun q hq =>
        ⟨fun hlate => absurd (hmono q m (by omega) (by omega) hlate) hlast, fun hle => ?_⟩⟩
      omega

theorem ordered_of_cuts {o m : ℕ} (h : ∀ t, ∃ c, ∀ q < m, Late key down t (x (o + q)) ↔ c ≤ q) :
    Ordered key down x o m := by
  intro p q hpq hq
  cases down with
  | true =>
    obtain ⟨c, hc⟩ := h (key (x (o + q)))
    simp only [late_true] at hc
    have hqc : ¬c ≤ q := fun hle => lt_irrefl _ ((hc q hq).mpr hle)
    have hp : ¬key (x (o + p)) < key (x (o + q)) :=
      fun hlt => hqc (((hc p (by omega)).mp hlt).trans hpq)
    simpa using hp
  | false =>
    obtain ⟨c, hc⟩ := h (key (x (o + p)))
    simp only [late_false] at hc
    have hpc : c ≤ p := (hc p (by omega)).mp le_rfl
    simpa using (hc q hq).mpr (hpc.trans hpq)

theorem window_of_ordered {o d : ℕ} (hleft : Ordered key down x o d)
    (hright : Ordered key (!down) x (o + d) d) (t : κ) :
    Window (fun p => Late key down t (x p)) o (2 * d) := by
  obtain ⟨a, ha⟩ := hleft.exists_cut t
  obtain ⟨b, hb⟩ := hright.exists_cut t
  refine ⟨min a d, d + b, .inl fun q hq => ?_⟩
  by_cases h : q < d
  · refine (ha q h).trans ?_
    omega
  · have hbq := hb (q - d) (by omega)
    rw [late_not, add_assoc, Nat.add_sub_cancel' (not_lt.mp h)] at hbq
    refine (not_iff_comm.mp hbq).symm.trans ?_
    omega

/-! ### Stages -/

variable (key) in
/-- A stage of comparators at distance `d`, on the lanes below `N`. -/
structure Exchanged (N d : ℕ) (flip : ℕ → Bool) (x y : ℕ → α) : Prop where
  pair : ∀ p, p % (2 * d) < d → p + d < N →
    y p = x p ∧ y (p + d) = x (p + d) ∨ y p = x (p + d) ∧ y (p + d) = x p
  directed : ∀ p, p % (2 * d) < d → p + d < N →
    if flip p then key (y (p + d)) ≤ key (y p) else key (y p) ≤ key (y (p + d))

variable {y : ℕ → α} {flip : ℕ → Bool}

/-- The late entries of a pair go up. -/
theorem Exchanged.late {N d p : ℕ} (h : Exchanged key N d flip x y)
    (hp : p % (2 * d) < d) (hN : p + d < N) (t : κ) :
    (Late key (flip p) t (y p) ↔ Late key (flip p) t (x p) ∧ Late key (flip p) t (x (p + d))) ∧
      (Late key (flip p) t (y (p + d)) ↔ Late key (flip p) t (x p) ∨
        Late key (flip p) t (x (p + d))) := by
  have hmono : Late key (flip p) t (y p) → Late key (flip p) t (y (p + d)) := by
    have hdir := h.directed p hp hN
    intro hlate
    cases hf : flip p with
    | true =>
      rw [hf, late_true] at hlate
      rw [hf, if_pos rfl] at hdir
      exact late_true.mpr (lt_of_le_of_lt hdir hlate)
    | false =>
      rw [hf, late_false] at hlate
      rw [hf, if_neg (by decide)] at hdir
      exact late_false.mpr (hlate.trans hdir)
  rcases h.pair p hp hN with ⟨hx, hy⟩ | ⟨hx, hy⟩
  · rw [hx, hy] at hmono ⊢
    tauto
  · rw [hx, hy] at hmono ⊢
    tauto

def block (x : ℕ → α) (o m : ℕ) : List α := (range m).map fun q => x (o + q)

theorem block_add (x : ℕ → α) (o m n : ℕ) :
    block x o (m + n) = block x o m ++ block x (o + m) n := by
  simp only [block, range_add, map_append, map_map]
  congr 1
  exact map_congr_left fun q _ => by simp [add_assoc]

theorem mem_block {o m : ℕ} : a ∈ block x o m ↔ ∃ q < m, x (o + q) = a := by
  simp [block]

theorem length_block (x : ℕ → α) (o m : ℕ) : (block x o m).length = m := by simp [block]

theorem block_take {o m k : ℕ} (hk : k ≤ m) : (block x o m).take k = block x o k := by
  obtain ⟨r, rfl⟩ := Nat.exists_eq_add_of_le hk
  rw [block_add, take_left' (length_block x o k)]

theorem Ordered.pairwise {o m : ℕ} (h : Ordered key down x o m) :
    (block x o m).Pairwise fun a b => if down then key b ≤ key a else key a ≤ key b := by
  refine pairwise_map.mpr (List.Pairwise.imp_of_mem (fun {p q} _ hq hpq => ?_) pairwise_lt_range)
  exact h p q hpq.le (mem_range.mp hq)

theorem Ordered.left {o m k : ℕ} (h : Ordered key down x o m) (hk : k ≤ m) :
    Ordered key down x o k :=
  fun p q hpq hq => h p q hpq (by omega)

theorem Ordered.right {o k m n : ℕ} (h : Ordered key down x o n) (hn : k + m ≤ n) :
    Ordered key down x (o + k) m := by
  intro p q hpq hq
  rw [add_assoc, add_assoc]
  exact h (k + p) (k + q) (by omega) (by omega)

theorem Ordered.congr {o m : ℕ} (h : Ordered key down x o m) (hxy : block x o m = block y o m) :
    Ordered key down y o m := by
  have heq : ∀ q < m, x (o + q) = y (o + q) := fun q hq => map_inj_left.mp hxy q (mem_range.mpr hq)
  intro p q hpq hq
  rw [← heq p (by omega), ← heq q hq]
  exact h p q hpq hq

theorem perm_of_pairs {lo hi a b : ℕ → α} {l : List ℕ} (h : ∀ q ∈ l, lo q = a q ∧ hi q = b q ∨
      lo q = b q ∧ hi q = a q) :
    (l.map lo ++ l.map hi).Perm (l.map a ++ l.map b) := by
  induction l with
  | nil => exact .refl _
  | cons q l ih =>
    have ihl := ih fun q' hq' => h q' (mem_cons_of_mem _ hq')
    have hlo :
        (lo q :: (l.map lo ++ hi q :: l.map hi)).Perm (lo q :: hi q :: (l.map lo ++ l.map hi)) :=
      .cons _ perm_middle
    have hab : (a q :: (l.map a ++ b q :: l.map b)).Perm (a q :: b q :: (l.map a ++ l.map b)) :=
      .cons _ perm_middle
    simp only [map_cons, cons_append]
    refine hlo.trans (List.Perm.trans ?_ hab.symm)
    rcases h q mem_cons_self with ⟨hl, hh⟩ | ⟨hl, hh⟩
    · rw [hl, hh]
      exact .cons _ (.cons _ ihl)
    · rw [hl, hh]
      exact (List.Perm.swap _ _ _).trans (.cons _ (.cons _ ihl))

theorem add_mod_lt {o d q : ℕ} (ho : 2 * d ∣ o) (hq : q < d) : (o + q) % (2 * d) < d := by
  obtain ⟨c, rfl⟩ := ho
  rw [Nat.mul_add_mod, Nat.mod_eq_of_lt (by omega)]
  exact hq

theorem Exchanged.perm {N d o : ℕ} (h : Exchanged key N d flip x y) (ho : 2 * d ∣ o)
    (hN : o + 2 * d ≤ N) : (block y o (2 * d)).Perm (block x o (2 * d)) := by
  rw [Nat.two_mul, block_add, block_add]
  apply perm_of_pairs
  intro q hq
  have hq : q < d := mem_range.mp hq
  have hpair := h.pair (o + q) (add_mod_lt ho hq) (by omega)
  rwa [add_right_comm] at hpair

variable (key) in
/-- The stages at distances `2 ^ (s - 1)`, …, `1`. -/
def Merged (N : ℕ) (flip : ℕ → Bool) : ℕ → (ℕ → α) → (ℕ → α) → Prop
  | 0, x, z => z = x
  | s + 1, x, z => ∃ y, Exchanged key N (2 ^ s) flip x y ∧ Merged N flip s y z

variable {N s o : ℕ} {flip : ℕ → Bool} {x y z : ℕ → α}

/-- The halves of an aligned block are aligned. -/
theorem pow_dvd_halves (ho : 2 ^ (s + 1) ∣ o) : 2 ^ s ∣ o ∧ 2 ^ s ∣ o + 2 ^ s := by
  have hdvd : 2 ^ s ∣ o := Nat.dvd_trans (Nat.pow_dvd_pow 2 (Nat.le_succ s)) ho
  exact ⟨hdvd, (Nat.dvd_add_right hdvd).mpr (Nat.dvd_refl _)⟩

theorem Merged.perm (h : Merged key N flip s x z) (ho : 2 ^ s ∣ o) (hN : o + 2 ^ s ≤ N) :
    (block z o (2 ^ s)).Perm (block x o (2 ^ s)) := by
  induction s generalizing x o with
  | zero =>
    cases h
    exact .refl _
  | succ s ih =>
    obtain ⟨y, hxy, hyz⟩ := h
    obtain ⟨hlow, hhigh⟩ := pow_dvd_halves ho
    have hpow : 2 ^ (s + 1) = 2 * 2 ^ s := Nat.pow_succ'
    rw [hpow] at ho hN ⊢
    refine List.Perm.trans ?_ (hxy.perm ho hN)
    rw [Nat.two_mul, block_add, block_add]
    exact (ih hyz hlow (by omega)).append (ih hyz hhigh (by omega))

theorem Merged.all {P : α → Prop} (h : Merged key N flip s x z) (ho : 2 ^ s ∣ o)
    (hN : o + 2 ^ s ≤ N) (hP : ∀ q < 2 ^ s, P (x (o + q))) : ∀ q < 2 ^ s, P (z (o + q)) := by
  intro q hq
  obtain ⟨q', hq', heq⟩ := mem_block.mp ((h.perm ho hN).mem_iff.mp (mem_block.mpr ⟨q, hq, rfl⟩))
  rw [← heq]
  exact hP q' hq'

theorem Merged.exists_cut (h : Merged key N flip s x z) (ho : 2 ^ s ∣ o) (hN : o + 2 ^ s ≤ N)
    (hflip : ∀ q < 2 ^ s, flip (o + q) = down)
    (hw : Window (fun p => Late key down t (x p)) o (2 ^ s)) :
    ∃ c, ∀ q < 2 ^ s, Late key down t (z (o + q)) ↔ c ≤ q := by
  induction s generalizing x o with
  | zero =>
    by_cases hlate : Late key down t (z o)
    · exact ⟨0, fun q hq => by
        rw [Nat.lt_one_iff.mp hq]
        exact iff_of_true hlate le_rfl⟩
    · exact ⟨1, fun q hq => by
        rw [Nat.lt_one_iff.mp hq]
        exact iff_of_false hlate (by decide)⟩
  | succ s ih =>
    obtain ⟨y, hxy, hyz⟩ := h
    obtain ⟨hlow, hhigh⟩ := pow_dvd_halves ho
    have hpow : 2 ^ (s + 1) = 2 * 2 ^ s := Nat.pow_succ'
    rw [hpow] at ho hN hflip hw ⊢
    have hlate :
        ∀ q < 2 ^ s, (Late key down t (y (o + q)) ↔ Late key down t (x (o + q)) ∧
          Late key down t (x (o + q + 2 ^ s))) ∧
        (Late key down t (y (o + q + 2 ^ s)) ↔ Late key down t (x (o + q)) ∨
          Late key down t (x (o + q + 2 ^ s))) := by
      intro q hq
      have hboth := hxy.late (add_mod_lt ho hq) (by omega) t
      rwa [hflip q (by omega)] at hboth
    obtain ⟨hwlow, hwhigh, hclean⟩ := Window.halves (B := fun p => Late key down t (y p)) hw
      (fun q hq => (hlate q hq).1) fun q hq => (hlate q hq).2
    obtain ⟨c, hc⟩ := ih hyz hlow (by omega) (fun q hq => hflip q (by omega)) hwlow
    obtain ⟨c', hc'⟩ := ih hyz hhigh (by omega) (fun q hq => by
      rw [add_assoc]
      exact hflip (2 ^ s + q) (by omega)) hwhigh
    have hc' : ∀ q, 2 ^ s ≤ q → q < 2 * 2 ^ s → (Late key down t (z (o + q)) ↔ c' ≤ q - 2 ^ s) := by
      intro q hle hq
      have hcut := hc' (q - 2 ^ s) (by omega)
      rwa [add_assoc, Nat.add_sub_cancel' hle] at hcut
    rcases hclean with hnone | hall
    · -- the late entries are all in the upper half
      have hzlow : ∀ q < 2 ^ s, ¬Late key down t (z (o + q)) :=
        hyz.all (P := fun a => ¬Late key down t a) hlow (by omega) hnone
      refine ⟨2 ^ s + c', fun q hq => ?_⟩
      by_cases hq' : q < 2 ^ s
      · exact iff_of_false (hzlow q hq') (by omega)
      · rw [hc' q (by omega) hq]
        omega
    · -- the upper half is late altogether
      have hzhigh : ∀ q < 2 ^ s, Late key down t (z (o + 2 ^ s + q)) :=
        hyz.all (P := Late key down t) hhigh (by omega) fun q hq => by
          rw [add_right_comm]
          exact hall q hq
      refine ⟨min c (2 ^ s), fun q hq => ?_⟩
      by_cases hq' : q < 2 ^ s
      · rw [hc q hq']
        omega
      · have hq'' := hzhigh (q - 2 ^ s) (by omega)
        rw [add_assoc, Nat.add_sub_cancel' (by omega)] at hq''
        exact iff_of_true hq'' (by omega)

theorem Merged.ordered {e : Bool} (h : Merged key N flip (s + 1) x z) (ho : 2 ^ (s + 1) ∣ o)
    (hN : o + 2 ^ (s + 1) ≤ N)
    (hflip : ∀ q < 2 ^ (s + 1), flip (o + q) = down) (hleft : Ordered key e x o (2 ^ s))
    (hright : Ordered key (!e) x (o + 2 ^ s) (2 ^ s)) : Ordered key down z o (2 ^ (s + 1)) := by
  refine ordered_of_cuts fun t => h.exists_cut ho hN hflip ?_
  have hw := window_of_ordered hleft hright t
  rw [← Nat.pow_succ'] at hw
  by_cases hde : down = e
  · rwa [hde]
  · have hne : down = !e := by
      cases down <;> cases e <;> first | rfl | exact absurd rfl hde
    rw [hne]
    exact hw.not.congr fun q _ => late_not

variable (key) in
/-- The merges of sizes `2 ^ 1`, …, `2 ^ j`, each lane in the direction of its block. -/
def Stages (N : ℕ) : ℕ → (ℕ → α) → (ℕ → α) → Prop
  | 0, x, z => z = x
  | j + 1, x, z => ∃ y, Stages N j x y ∧ Merged key N (fun p => p / 2 ^ (j + 1) % 2 == 1) (j + 1) y
    z

/-- The direction of a block. -/
theorem dir_block {q : ℕ} (ho : 2 ^ s ∣ o) (hq : q < 2 ^ s) : (o + q) / 2 ^ s = o / 2 ^ s := by
  obtain ⟨c, rfl⟩ := ho
  rw [Nat.mul_add_div (Nat.two_pow_pos s), Nat.mul_div_cancel_left _ (Nat.two_pow_pos s),
    Nat.div_eq_of_lt hq, Nat.add_zero]

theorem dir_halves (ho : 2 ^ (s + 1) ∣ o) :
    (o / 2 ^ s % 2 == 1) = false ∧ ((o + 2 ^ s) / 2 ^ s % 2 == 1) = true := by
  obtain ⟨c, rfl⟩ := ho
  have hpos := Nat.two_pow_pos s
  have heq : 2 ^ (s + 1) * c = 2 ^ s * (2 * c) := by rw [Nat.pow_succ, mul_assoc]
  rw [heq, Nat.add_div_right _ hpos, Nat.mul_div_cancel_left _ hpos, Nat.mul_mod_right]
  exact ⟨rfl, by rw [beq_iff_eq]; omega⟩

theorem Stages.block {j : ℕ} (h : Stages key N j x z) (ho : 2 ^ j ∣ o) (hN : o + 2 ^ j ≤ N) :
    (block z o (2 ^ j)).Perm (block x o (2 ^ j)) ∧ Ordered key (o / 2 ^ j % 2 == 1) z o
    (2 ^ j) := by
  induction j generalizing z o with
  | zero =>
    cases h
    refine ⟨.refl _, fun p q hpq hq => ?_⟩
    have hq : q = 0 := Nat.lt_one_iff.mp hq
    have hp : p = 0 := by omega
    rw [hq, hp]
    split <;> exact le_rfl
  | succ j ih =>
    obtain ⟨y, hxy, hyz⟩ := h
    obtain ⟨hlow, hhigh⟩ := pow_dvd_halves ho
    have hpow : 2 ^ (j + 1) = 2 ^ j + 2 ^ j := by rw [Nat.pow_succ, Nat.mul_two]
    obtain ⟨hplow, holow⟩ := ih hxy hlow (by omega)
    obtain ⟨hphigh, hohigh⟩ := ih hxy hhigh (by omega)
    rw [(dir_halves ho).1] at holow
    rw [(dir_halves ho).2] at hohigh
    refine ⟨(hyz.perm ho hN).trans ?_, ?_⟩
    · rw [hpow, block_add, block_add]
      exact hplow.append hphigh
    · exact hyz.ordered ho hN (fun q hq => by rw [dir_block ho hq]) holow hohigh

/-- **The network sorts.** -/
theorem sorts {n : ℕ} (hs : Stages key (2 ^ n) (n - 1) x y)
    (hm : Merged key (2 ^ n) (fun _ => down) n y z) :
    (block z 0 (2 ^ n)).Perm (block x 0 (2 ^ n)) ∧ Ordered key down z 0 (2 ^ n) := by
  cases n with
  | zero =>
    cases hs
    cases hm
    refine ⟨.refl _, fun p q hpq hq => ?_⟩
    have hq : q = 0 := Nat.lt_one_iff.mp hq
    have hp : p = 0 := by omega
    rw [hq, hp]
    split <;> exact le_rfl
  | succ n =>
    have hpow : 2 ^ (n + 1) = 2 ^ n + 2 ^ n := by rw [Nat.pow_succ, Nat.mul_two]
    have hdvd : 2 ^ (n + 1) ∣ 0 := Nat.dvd_zero _
    obtain ⟨hlow, hhigh⟩ := pow_dvd_halves hdvd
    have hs : Stages key (2 ^ (n + 1)) n x y := hs
    obtain ⟨hplow, holow⟩ := hs.block hlow (by omega)
    obtain ⟨hphigh, hohigh⟩ := hs.block hhigh (by omega)
    rw [(dir_halves hdvd).1] at holow
    rw [(dir_halves hdvd).2] at hohigh
    refine ⟨(hm.perm hdvd (by omega)).trans ?_, hm.ordered hdvd (by omega) (fun _ _ => rfl) holow
      hohigh⟩
    rw [hpow, block_add, block_add]
    exact hplow.append hphigh

end Bitonic
