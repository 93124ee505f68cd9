import FreeToken.Lib.Buffer
import Mathlib.Algebra.Order.BigOperators.Group.Finset
import Mathlib.Order.Interval.Finset.Nat

/-!
# Scattering into buckets

Every element has a key, and each key a bucket of cells.  The lanes scatter their elements in an
unknown order: the place in a bucket is what a counter has that each lane increments.

* `bucketStart`: where buckets of given sizes begin; `exists_bucket` and `bucket_unique` find the
  bucket of a cell.
* `exists_scatter`: whatever the order, each element is in one cell, of its own bucket, and all
  other cells are as they were.
-/

namespace BucketScatter

open List

/-! ### Buckets -/

variable {size : ℕ → ℕ} {e e' E b : ℕ}

def bucketStart (size : ℕ → ℕ) (e : ℕ) : ℕ := ∑ i ∈ Finset.range e, size i

@[simp] theorem bucketStart_zero : bucketStart size 0 = 0 := rfl

theorem bucketStart_succ : bucketStart size (e + 1) = bucketStart size e + size e :=
    Finset.sum_range_succ _ _

theorem bucketStart_mono (h : e ≤ e') : bucketStart size e ≤ bucketStart size e' :=
  Finset.sum_le_sum_of_subset (Finset.range_mono h)

theorem bucketStart_add_le (h : e < e') : bucketStart size e + size e ≤ bucketStart size e' :=
  bucketStart_succ.symm.trans_le (bucketStart_mono h)

theorem exists_bucket (h : b < bucketStart size E) :
    ∃ e < E, bucketStart size e ≤ b ∧ b < bucketStart size (e + 1) := by
  induction E with
  | zero => exact absurd h (Nat.not_lt_zero b)
  | succ E ih =>
    by_cases hb : b < bucketStart size E
    · obtain ⟨e, he, hbucket⟩ := ih hb
      exact ⟨e, Nat.lt_succ_of_lt he, hbucket⟩
    · exact ⟨E, Nat.lt_succ_self E, Nat.le_of_not_lt hb, h⟩

theorem lt_of_bucket (hb : b < bucketStart size (e + 1)) (hb' : bucketStart size e' ≤ b) :
    e' < e + 1 := by
  by_contra hlt
  have hle : bucketStart size (e + 1) ≤ bucketStart size e' :=
    bucketStart_mono (Nat.le_of_not_lt hlt)
  omega

/-- The bucket of a cell, among the first `E`. -/
def bucketOf (size : ℕ → ℕ) (E b : ℕ) : ℕ :=
  Nat.findGreatest (fun e => bucketStart size e ≤ b) (E - 1)

theorem bucketOf_eq (he : e < E) (hb : bucketStart size e ≤ b ∧ b < bucketStart size (e + 1)) :
    bucketOf size E b = e := by
  refine Nat.findGreatest_eq_iff.mpr ⟨by omega, fun _ => hb.1, fun e' hlt _ hle => ?_⟩
  exact absurd (lt_of_bucket hb.2 hle) (by omega)

/-! ### The scatter -/

/-- A lane takes a place in the bucket of its key, and stores its number there. -/
def scatterStep (key : ℕ → Option ℕ) (start : Buffer ℕ) (s : Buffer ℕ × Buffer ℕ) (n : ℕ) :
    Option (Buffer ℕ × Buffer ℕ) :=
  match key n with
  | none => some s
  | some e => do
    let base ← start.load e
    let (rank, fill) ← s.1.atomicAdd e 1
    let dest ← s.2.store (base + rank) n
    pure (fill, dest)

def rankIn (key : ℕ → Option ℕ) (lanes : List ℕ) (e : ℕ) : ℕ := lanes.countP fun n => key n = some e

/-- Places for `count e` elements from `base e` on. -/
structure Regions (E size : ℕ) (base count : ℕ → ℕ) : Prop where
  apart : ∀ e e', e < e' → e' < E → base e + count e ≤ base e'
  within : ∀ e < E, base e + count e ≤ size

def Taken (key : ℕ → Option ℕ) (E : ℕ) (base : ℕ → ℕ) (lanes : List ℕ) (p : ℕ) : Prop :=
  ∃ e < E, ∃ r < rankIn key lanes e, p = base e + r

/-- The counters and cells after some lanes. -/
structure Scattered (key : ℕ → Option ℕ) (E : ℕ) (base : ℕ → ℕ) (fill dest : Buffer ℕ)
    (lanes : List ℕ) (s : Buffer ℕ × Buffer ℕ) :
    Prop where
  fill : s.1.size = fill.size ∧ ∀ e < E, s.1.cell e = some (rankIn key lanes e)
  size_eq : s.2.size = dest.size
  free : ∀ p, ¬ Taken key E base lanes p → s.2.cell p = dest.cell p
  taken : ∀ e < E, ∀ r < rankIn key lanes e, ∃ n ∈ lanes, key n = some e ∧ s.2.cell (base e + r) =
    some n
  placed : ∀ n ∈ lanes, ∀ e < E, key n = some e → ∃ r < rankIn key lanes e, s.2.cell (base e + r) =
    some n
  unique : ∀ p p' n, Taken key E base lanes p → Taken key E base lanes p' → s.2.cell p = some n →
    s.2.cell p' = some n → p = p'

variable {key : ℕ → Option ℕ} {start fill dest : Buffer ℕ} {lanes : List ℕ} {base count : ℕ → ℕ}
  {s : Buffer ℕ × Buffer ℕ} {n p r r' : ℕ}

/-- Regions have no cell in common. -/
theorem Regions.inj {size : ℕ} (h : Regions E size base count) (he : e < E) (he' : e' < E)
    (hr : r < count e) (hr' : r' < count e')
    (heq : base e + r = base e' + r') : e = e' ∧ r = r' := by
  rcases lt_trichotomy e e' with hlt | rfl | hlt
  · have := h.apart e e' hlt he'
    omega
  · exact ⟨rfl, by omega⟩
  · have := h.apart e' e hlt he
    omega

theorem rankIn_append_self (h : key n = some e) :
    rankIn key (lanes ++ [n]) e = rankIn key lanes e + 1 := by
  simp [rankIn, h]

theorem rankIn_append_of_ne (h : key n ≠ some e) :
    rankIn key (lanes ++ [n]) e = rankIn key lanes e := by
  simp [rankIn, h]

theorem Regions.not_taken {size : ℕ} (h : Regions E size base count)
    (hrank : ∀ e < E, rankIn key lanes e ≤ count e) (he : e < E)
    (hlt : rankIn key lanes e < count e) :
    ¬ Taken key E base lanes (base e + rankIn key lanes e) := by
  rintro ⟨e', he', r, hr, heq⟩
  obtain ⟨rfl, rfl⟩ := h.inj he he' hlt (hr.trans_le (hrank e' he')) heq
  exact absurd hr (lt_irrefl _)

theorem taken_append (h : key n = some e) (he : e < E) :
    Taken key E base (lanes ++ [n]) p ↔ Taken key E base lanes p ∨
      p = base e + rankIn key lanes e := by
  constructor
  · rintro ⟨e', he', r, hr, rfl⟩
    by_cases heq : e' = e
    · subst heq
      rw [rankIn_append_self h] at hr
      rcases Nat.lt_succ_iff_lt_or_eq.mp hr with hr | rfl
      · exact .inl ⟨e', he', r, hr, rfl⟩
      · exact .inr rfl
    · rw [rankIn_append_of_ne (by rw [h]; simpa using Ne.symm heq)] at hr
      exact .inl ⟨e', he', r, hr, rfl⟩
  · rintro (⟨e', he', r, hr, rfl⟩ | rfl)
    · refine ⟨e', he', r, ?_, rfl⟩
      rw [rankIn, countP_append]
      exact Nat.lt_add_right _ hr
    · exact ⟨e, he, _, by rw [rankIn_append_self h]; exact Nat.lt_succ_self _, rfl⟩

theorem Scattered.nil (hfill : ∀ e < E, fill.cell e = some 0) :
    Scattered key E base fill dest [] (fill, dest) where
  fill := ⟨rfl, hfill⟩
  size_eq := rfl
  free _ _ := rfl
  taken e _ r hr := absurd hr (Nat.not_lt_zero r)
  placed n hn := absurd hn not_mem_nil
  unique := by
    rintro p p' n ⟨e, -, r, hr, -⟩
    exact absurd hr (Nat.not_lt_zero r)

theorem Scattered.skip (h : Scattered key E base fill dest lanes s) (hkey : key n = none) :
    Scattered key E base fill dest (lanes ++ [n]) s := by
  have hrank : ∀ e, rankIn key (lanes ++ [n]) e = rankIn key lanes e :=
    fun e => rankIn_append_of_ne (by simp [hkey])
  have htaken : ∀ p, Taken key E base (lanes ++ [n]) p ↔ Taken key E base lanes p :=
    fun p => by simp only [Taken, hrank]
  refine ⟨⟨h.fill.1, fun e he => ?_⟩, h.size_eq, fun p hp => ?_, fun e he r hr =>
    ?_, fun m hm e he hkey' => ?_, fun p p' m hp hp' => ?_⟩
  · rw [hrank]
    exact h.fill.2 e he
  · exact h.free p fun hp' => hp ((htaken p).mpr hp')
  · rw [hrank] at hr
    obtain ⟨m, hm, hfound⟩ := h.taken e he r hr
    exact ⟨m, mem_append_left _ hm, hfound⟩
  · rw [hrank]
    obtain hm | hm := mem_append.mp hm
    · exact h.placed m hm e he hkey'
    · rw [mem_singleton.mp hm, hkey] at hkey'
      cases hkey'
  · exact h.unique p p' m ((htaken p).mp hp) ((htaken p').mp hp')

theorem Scattered.step (h : Scattered key E base fill dest lanes s)
    (hregions : Regions E dest.size base count)
    (hstart : ∀ e < E, start.load e = some (base e)) (hfill : E ≤ fill.size)
    (hrank : ∀ e < E, rankIn key lanes e ≤ count e)
    (hnot : n ∉ lanes) (hkey : key n = some e) (he : e < E) (hlt : rankIn key lanes e < count e) :
    ∃ s', scatterStep key start s n = some s' ∧
      Scattered key E base fill dest (lanes ++ [n]) s' := by
  have hfree := hregions.not_taken hrank he hlt
  have hp : base e + rankIn key lanes e < s.2.size := by
    rw [h.size_eq]
    exact (Nat.add_lt_add_left hlt _).trans_le (hregions.within e he)
  have hother : ∀ p, Taken key E base lanes p → p ≠ base e + rankIn key lanes e :=
    fun p hp heq => hfree (heq ▸ hp)
  refine ⟨({ s.1 with cell := fun j => if j = e then some (rankIn key lanes e + 1) else s.1.cell j },
    { s.2 with cell := fun j => if j = base e + rankIn key lanes e then some n else s.2.cell j }), ?_, ?_⟩
  · have hadd := Buffer.atomicAdd_eq (n := 1) (by rw [h.fill.1]; omega) (h.fill.2 e he)
    simp only [scatterStep, hkey, hstart e he, hadd, Buffer.store_eq hp, Option.bind_eq_bind,
      Option.bind_some]
    rfl
  · have htoken : ∀ p, Taken key E base lanes p → ∃ m ∈ lanes, s.2.cell p = some m := by
      rintro p ⟨e', he', r, hr, rfl⟩
      obtain ⟨m, hm, -, hcell⟩ := h.taken e' he' r hr
      exact ⟨m, hm, hcell⟩
    refine ⟨⟨h.fill.1, fun e' he' => ?_⟩, h.size_eq, fun p hp' => ?_, fun e' he' r hr =>
      ?_, fun m hm e' he' hkey' => ?_, fun p p' m hp' hp'' hm hm' => ?_⟩
    · -- the counters
      by_cases heq : e' = e
      · subst heq
        exact (if_pos rfl).trans (by rw [rankIn_append_self hkey])
      · exact (if_neg heq).trans
          (by rw [h.fill.2 e' he', rankIn_append_of_ne (by rw [hkey]; simpa using Ne.symm heq)])
    · rw [taken_append hkey he, not_or] at hp'
      exact (if_neg hp'.2).trans (h.free p hp'.1)
    · have hold : r < rankIn key lanes e' → ∃ m ∈ lanes ++ [n], key m = some e' ∧
          (if base e' + r = base e + rankIn key lanes e then some n else s.2.cell (base e' + r)) =
            some m := by
        intro hr
        obtain ⟨m, hm, hkey', hcell⟩ := h.taken e' he' r hr
        exact ⟨m, mem_append_left _ hm, hkey', (if_neg (hother _ ⟨e', he', r, hr, rfl⟩)).trans
          hcell⟩
      by_cases heq : e' = e
      · subst heq
        rw [rankIn_append_self hkey] at hr
        rcases Nat.lt_succ_iff_lt_or_eq.mp hr with hr | rfl
        · exact hold hr
        · exact ⟨n, by simp, hkey, if_pos rfl⟩
      · rw [rankIn_append_of_ne (by rw [hkey]; simpa using Ne.symm heq)] at hr
        exact hold hr
    · obtain hm | hm := mem_append.mp hm
      · obtain ⟨r, hr, hcell⟩ := h.placed m hm e' he' hkey'
        refine ⟨r, ?_, (if_neg (hother _ ⟨e', he', r, hr, rfl⟩)).trans hcell⟩
        rw [rankIn, countP_append]
        exact Nat.lt_add_right _ hr
      · obtain rfl := mem_singleton.mp hm
        obtain rfl : e = e' := Option.some.inj (hkey.symm.trans hkey')
        exact ⟨rankIn key lanes e, by rw [rankIn_append_self hkey]; exact Nat.lt_succ_self _,
          if_pos rfl⟩
    · -- a token of an earlier lane is not the new one
      have hnew : ∀ p, Taken key E base lanes p → s.2.cell p ≠ some n := by
        intro p hp heq
        obtain ⟨m', hmem, hcell⟩ := htoken p hp
        exact hnot (Option.some.inj (hcell.symm.trans heq) ▸ hmem)
      rw [taken_append hkey he] at hp' hp''
      dsimp only at hm hm'
      rcases hp' with hp' | rfl <;> rcases hp'' with hp'' | rfl
      · rw [if_neg (hother _ hp')] at hm
        rw [if_neg (hother _ hp'')] at hm'
        exact h.unique p p' m hp' hp'' hm hm'
      · rw [if_neg (hother _ hp')] at hm
        rw [if_pos rfl] at hm'
        exact absurd (hm.trans hm'.symm) (hnew p hp')
      · rw [if_neg (hother _ hp'')] at hm'
        rw [if_pos rfl] at hm
        exact absurd (hm'.trans hm.symm) (hnew p' hp'')
      · rfl

/-- Whatever the order of the lanes, each one with a key gets a place of its own in its bucket. -/
theorem exists_scatter (hregions : Regions E dest.size base count)
    (hstart : ∀ e < E, start.load e = some (base e))
    (hfill : E ≤ fill.size ∧ ∀ e < E, fill.cell e = some 0)
    (hkeys : ∀ n ∈ lanes, ∀ e, key n = some e → e < E)
    (hcount : ∀ e < E, rankIn key lanes e ≤ count e) (hn : lanes.Nodup) :
    ∃ s, lanes.foldlM (scatterStep key start) (fill, dest) = some s ∧
      Scattered key E base fill dest lanes s := by
  induction lanes using reverseRecOn with
  | nil => exact ⟨_, rfl, Scattered.nil hfill.2⟩
  | append_singleton lanes n ih =>
    obtain ⟨hn', -, hdisjoint⟩ := nodup_append.mp hn
    have hnot : n ∉ lanes := fun h => hdisjoint n h n (by simp) rfl
    have hle : ∀ e, rankIn key lanes e ≤ rankIn key (lanes ++ [n]) e := fun e => by
      rw [rankIn, rankIn, countP_append]
      exact Nat.le_add_right _ _
    obtain ⟨s, hs, hscattered⟩ := ih (fun m hm => hkeys m (mem_append_left _ hm))
      (fun e he => (hle e).trans (hcount e he)) hn'
    rw [foldlM_append, hs, Option.bind_eq_bind, Option.bind_some]
    cases hkey : key n with
    | none => exact ⟨s, by simp [scatterStep, hkey], hscattered.skip hkey⟩
    | some e =>
      have he := hkeys n (by simp) e hkey
      have hlt : rankIn key lanes e < count e := by
        have := hcount e he
        rw [rankIn_append_self hkey] at this
        omega
      obtain ⟨s', hs', hscattered'⟩ := hscattered.step hregions hstart hfill.1
        (fun e he => (hle e).trans (hcount e he)) hnot hkey he hlt
      exact ⟨s', by simp [hs'], hscattered'⟩

end BucketScatter
