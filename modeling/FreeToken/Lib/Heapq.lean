import Mathlib.Data.List.Perm.Basic
import Mathlib.Tactic.Linarith

/-!
# Priority queues on lists

A `Heapq stamp` keeps a list in some heap order and pops an element of least stamp.  Which of
several elements with the least stamp is popped is left to the queue.

* `Heapq.heappop_spec`: what a pop from a heap gives.
* `Heapq.ofScan`: a queue that scans the list for the first least element.
-/

namespace FreeToken

/-- A priority queue on lists ordered by `stamp`. -/
structure Heapq {ν : Type*} (stamp : ν → ℤ) where
  /-- The lists in heap order. -/
  IsHeap : List ν → Prop
  heapify : List ν → List ν
  heappush : List ν → ν → List ν
  heappop : List ν → Option (ν × List ν)
  heapify_perm : ∀ l, (heapify l).Perm l
  isHeap_heapify : ∀ l, IsHeap (heapify l)
  heappush_perm : ∀ l x, (heappush l x).Perm (x :: l)
  isHeap_heappush : ∀ l x, IsHeap l → IsHeap (heappush l x)
  heappop_eq_none : ∀ l, heappop l = none ↔ l = []
  heappop_perm : ∀ l x l', heappop l = some (x, l') → l.Perm (x :: l')
  isHeap_heappop : ∀ l x l', IsHeap l → heappop l = some (x, l') → IsHeap l'
  heappop_le : ∀ l x l', IsHeap l → heappop l = some (x, l') → ∀ y ∈ l, stamp x ≤ stamp y

namespace Heapq

variable {ν : Type*} {stamp : ν → ℤ} (H : Heapq stamp) {l : List ν}

theorem mem_heapify {x : ν} : x ∈ H.heapify l ↔ x ∈ l := (H.heapify_perm l).mem_iff

theorem nodup_heapify : (H.heapify l).Nodup ↔ l.Nodup := (H.heapify_perm l).nodup_iff

theorem mem_heappush {x y : ν} : y ∈ H.heappush l x ↔ y = x ∨ y ∈ l := by
  rw [(H.heappush_perm l x).mem_iff, List.mem_cons]

/-- What a pop from a heap without repetitions gives. -/
theorem heappop_spec (hh : H.IsHeap l) (hnd : l.Nodup) {x : ν} {l' : List ν}
    (h : H.heappop l = some (x, l')) :
    x ∈ l ∧ (∀ y, y ∈ l' ↔ y ∈ l ∧ y ≠ x) ∧ l'.Nodup ∧ H.IsHeap l' ∧
      ∀ y ∈ l, stamp x ≤ stamp y := by
  have hp := H.heappop_perm l x l' h
  have hnd' : (x :: l').Nodup := hp.nodup_iff.mp hnd
  rw [List.nodup_cons] at hnd'
  refine ⟨hp.mem_iff.mpr List.mem_cons_self, fun y => ?_, hnd'.2, H.isHeap_heappop l x l' hh h,
    H.heappop_le l x l' hh h⟩
  rw [hp.mem_iff, List.mem_cons]
  constructor
  · intro hy
    exact ⟨Or.inr hy, fun heq => hnd'.1 (heq ▸ hy)⟩
  · rintro ⟨hy | hy, hne⟩
    · exact absurd hy hne
    · exact hy

/-! ### Scanning for the least element -/

/-- The first least element of `x :: l`, and the others. -/
def scan (stamp : ν → ℤ) (x : ν) : List ν → ν × List ν
  | [] => (x, [])
  | y :: l =>
    if stamp y < stamp x then ((scan stamp y l).1, x :: (scan stamp y l).2)
    else ((scan stamp x l).1, y :: (scan stamp x l).2)

theorem scan_perm (stamp : ν → ℤ) (x : ν) (l : List ν) :
    (x :: l).Perm ((scan stamp x l).1 :: (scan stamp x l).2) := by
  induction l generalizing x with
  | nil => exact List.Perm.refl _
  | cons y l ih =>
    unfold scan
    split
    · exact ((ih y).cons x).trans (List.Perm.swap ..)
    · exact (List.Perm.swap ..).trans (((ih x).cons y).trans (List.Perm.swap ..))

theorem scan_le (stamp : ν → ℤ) (x : ν) (l : List ν) :
    stamp (scan stamp x l).1 ≤ stamp x ∧ ∀ y ∈ l, stamp (scan stamp x l).1 ≤ stamp y := by
  induction l generalizing x with
  | nil => exact ⟨le_rfl, by simp⟩
  | cons y l ih =>
    unfold scan
    split
    · next hlt =>
      obtain ⟨h₁, h₂⟩ := ih y
      refine ⟨h₁.trans hlt.le, fun z hz => ?_⟩
      rcases List.mem_cons.mp hz with rfl | hz
      · exact h₁
      · exact h₂ z hz
    · next hge =>
      obtain ⟨h₁, h₂⟩ := ih x
      refine ⟨h₁, fun z hz => ?_⟩
      rcases List.mem_cons.mp hz with rfl | hz
      · exact h₁.trans (not_lt.mp hge)
      · exact h₂ z hz

/-- The queue that keeps the list as it is and scans for the first least element. -/
def ofScan (stamp : ν → ℤ) : Heapq stamp where
  IsHeap _ := True
  heapify l := l
  heappush l x := l ++ [x]
  heappop
    | [] => none
    | x :: l => some (scan stamp x l)
  heapify_perm _ := List.Perm.refl _
  isHeap_heapify _ := trivial
  heappush_perm l x := List.perm_append_singleton x l
  isHeap_heappush _ _ _ := trivial
  heappop_eq_none l := by cases l <;> simp
  heappop_perm l x l' h := by
    cases l with
    | nil => simp at h
    | cons y l =>
      have hp := scan_perm stamp y l
      rw [Option.some.injEq] at h
      rwa [h] at hp
  isHeap_heappop _ _ _ _ _ := trivial
  heappop_le l x l' _ h := by
    cases l with
    | nil => simp at h
    | cons y l =>
      obtain ⟨h₁, h₂⟩ := scan_le stamp y l
      rw [Option.some.injEq] at h
      rw [h] at h₁ h₂
      intro z hz
      rcases List.mem_cons.mp hz with rfl | hz
      · exact h₁
      · exact h₂ z hz

end Heapq

end FreeToken
