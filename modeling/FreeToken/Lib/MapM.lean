import Mathlib.Data.List.Forall2

/-!
# Lists of results

`List.mapM` of a function that may fail.

* `mapM_eq_map`, `exists_mapM`: what it gives when every element succeeds.
* `forall₂_of_mapM`: that every element did.
-/

namespace FreeToken

variable {α β : Type} {f : α → Option β} {l : List α}

theorem mapM_eq_map {g : α → β} (h : ∀ x ∈ l, f x = some (g x)) :
    l.mapM f = some (l.map g) := by
  induction l with
  | nil => rfl
  | cons x l ih =>
    rw [List.mapM_cons, h x List.mem_cons_self, ih fun y hy => h y (List.mem_cons_of_mem _ hy)]
    rfl

theorem forall₂_of_mapM {l' : List β} (h : l.mapM f = some l') :
    List.Forall₂ (fun x y => f x = some y) l l' := by
  induction l generalizing l' with
  | nil =>
    obtain rfl : [] = l' := Option.some.inj h
    exact List.Forall₂.nil
  | cons x l ih =>
    rw [List.mapM_cons] at h
    obtain ⟨y, hy, h⟩ := Option.bind_eq_some_iff.mp h
    obtain ⟨ys, hys, h⟩ := Option.bind_eq_some_iff.mp h
    obtain rfl : y :: ys = l' := Option.some.inj h
    exact List.Forall₂.cons hy (ih hys)

theorem exists_mapM {R : α → β → Prop}
    (h : ∀ x ∈ l, ∃ y, f x = some y ∧ R x y) : ∃ l', l.mapM f = some l' ∧ List.Forall₂ R l l' := by
  induction l with
  | nil => exact ⟨[], rfl, List.Forall₂.nil⟩
  | cons x l ih =>
    obtain ⟨y, hy, hR⟩ := h x List.mem_cons_self
    obtain ⟨ys, hys, hall⟩ := ih fun x hx => h x (List.mem_cons_of_mem _ hx)
    refine ⟨y :: ys, ?_, List.Forall₂.cons hR hall⟩
    rw [List.mapM_cons, hy, hys]
    rfl

end FreeToken
