import Mathlib.Data.List.Perm.Subperm
import Mathlib.Data.List.Nodup

/-!
# Copies into a memory

A copy writes one cell, either with a value or with what another cell of the same memory holds.

* `runCopies_of_mem`: copies to distinct cells that read no written cell can be done in any order;
  each cell gets its value.
* `runs`: the maximal runs of consecutive numbers of a list; `flatMap_runs` gives the list back.
* `range'_mul`: an interval of blocks as the list of its cells.
-/

namespace FreeToken

open List

variable {α β : Type*} [DecidableEq α]

/-- What a copy writes, when the memory is `mem`. -/
def copyValue (mem : α → β) : α ⊕ β → β
  | .inl a => mem a
  | .inr v => v

def runCopies (mem : α → β) (l : List (α × (α ⊕ β))) : α → β :=
  l.foldl (fun mem w => Function.update mem w.1 (copyValue mem w.2)) mem

variable {mem : α → β} {l : List (α × (α ⊕ β))} {w : α × (α ⊕ β)} {a : α}

theorem runCopies_cons : runCopies mem (w :: l) =
    runCopies (Function.update mem w.1 (copyValue mem w.2)) l := rfl

theorem runCopies_of_notMem (h : a ∉ l.map Prod.fst) : runCopies mem l a = mem a := by
  induction l generalizing mem with
  | nil => rfl
  | cons w l ih =>
    rw [map_cons, mem_cons, not_or] at h
    rw [runCopies_cons, ih h.2, Function.update_of_ne h.1]

/-- Copies to distinct cells that read no written cell. -/
theorem runCopies_of_mem (hn : (l.map Prod.fst).Nodup)
    (hsrc : ∀ w ∈ l, ∀ a, w.2 = .inl a → a ∉ l.map Prod.fst) (hw : w ∈ l) :
    runCopies mem l w.1 = copyValue mem w.2 := by
  induction l generalizing mem with
  | nil => cases hw
  | cons x l ih =>
    rw [map_cons, nodup_cons] at hn
    rw [runCopies_cons]
    rcases mem_cons.mp hw with rfl | hw
    · rw [runCopies_of_notMem hn.1, Function.update_self]
    · have hsrc' : ∀ w ∈ l, ∀ a, w.2 = .inl a → a ∉ l.map Prod.fst := fun w hw a ha hmem =>
        hsrc w (mem_cons_of_mem x hw) a ha (mem_cons_of_mem _ hmem)
      rw [ih hn.2 hsrc' hw]
      -- the first copy leaves the cells that are read alone
      cases hval : w.2 with
      | inr v => rfl
      | inl a =>
        have ha := hsrc w (mem_cons_of_mem x hw) a hval
        rw [map_cons, mem_cons, not_or] at ha
        exact Function.update_of_ne ha.1 _ _

/-! ### Runs of consecutive numbers -/

/-- The maximal runs of consecutive numbers, as their starts and lengths. -/
def runs : List ℕ → List (ℕ × ℕ)
  | [] => []
  | a :: l =>
    match runs l with
    | [] => [(a, 1)]
    | (b, n) :: rs => if b = a + 1 then (a, n + 1) :: rs else (a, 1) :: (b, n) :: rs

/-- Runs cover a list, number by number. -/
theorem flatMap_runs (l : List ℕ) : (runs l).flatMap (fun r => range' r.1 r.2) = l := by
  induction l with
  | nil => rfl
  | cons a l ih =>
    rw [runs]
    cases hr : runs l with
    | nil =>
      rw [hr] at ih
      rw [← ih]
      rfl
    | cons bn rs =>
      obtain ⟨b, n⟩ := bn
      rw [hr, List.flatMap_cons] at ih
      show (if b = a + 1 then (a, n + 1) :: rs else (a, 1) :: (b, n) :: rs).flatMap _ = _
      split_ifs with hb
      · rw [List.flatMap_cons, List.range'_succ, cons_append, ← hb, ih]
      · rw [List.flatMap_cons, List.flatMap_cons, ih]
        rfl

theorem range'_mul (s n k : ℕ) : range' (s * k) (n * k) =
    (range' s n).flatMap fun i => range' (i * k) k := by
  induction n generalizing s with
  | zero => rw [Nat.zero_mul]; rfl
  | succ n ih =>
    rw [List.range'_succ, List.flatMap_cons, ← ih, Nat.succ_mul, Nat.succ_mul, Nat.add_comm (n * k),
      range'_append_1]

end FreeToken
