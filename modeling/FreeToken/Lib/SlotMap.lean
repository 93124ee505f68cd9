import FreeToken.Lib.IndexPut
import Mathlib.Data.Int.Cast.Lemmas
import Mathlib.Algebra.Order.Group.Int

/-!
# Slot maps

Two integer tables that are inverse to each other where they are not `-1`: `fwd` gives the slot of
an identifier, `bwd` the identifier in a slot.

* `SlotMap.empty`: nothing is in a slot.
* `SlotMap.clear`: emptying some slots and forgetting the identifiers that were in them.
* `SlotMap.rebind`: putting an identifier that has no slot into a slot, which may have been taken.
-/

namespace FreeToken

open Function

variable {fwd bwd fwd' bwd' : ℕ → ℤ} {N C i s : ℕ}

/-- The tables `fwd` on the identifiers below `N` and `bwd` on the slots below `C` are inverse to
each other. -/
structure SlotMap (fwd bwd : ℕ → ℤ) (N C : ℕ) : Prop where
  fwd_range : ∀ i < N, fwd i = -1 ∨ 0 ≤ fwd i ∧ fwd i < C
  bwd_range : ∀ s < C, bwd s = -1 ∨ 0 ≤ bwd s ∧ bwd s < N
  link : ∀ i < N, ∀ s < C, fwd i = s ↔ bwd s = i

/-- The table without the identifier it may name. -/
def forget (fwd : ℕ → ℤ) (old : ℤ) : ℕ → ℤ :=
  if 0 ≤ old then update fwd old.toNat (-1) else fwd

theorem forget_eq_neg {old : ℤ} (h : old = i) : forget fwd old i = -1 := by
  subst h
  rw [forget, if_pos (Int.natCast_nonneg i), Int.toNat_natCast, update_self]

theorem forget_of_ne {old : ℤ} (h : old ≠ i) : forget fwd old i = fwd i := by
  unfold forget
  split_ifs with h0
  · apply update_of_ne
    rintro rfl
    exact h (Int.toNat_of_nonneg h0).symm
  · rfl

namespace SlotMap

theorem empty (h₁ : ∀ i < N, fwd i = -1) (h₂ : ∀ s < C, bwd s = -1) : SlotMap fwd bwd N C where
  fwd_range i hi := Or.inl (h₁ i hi)
  bwd_range s hs := Or.inl (h₂ s hs)
  link i hi s hs := by
    rw [h₁ i hi, h₂ s hs]
    omega

/-- An identifier with a slot is in that slot. -/
theorem exists_slot (h : SlotMap fwd bwd N C) (hi : i < N) (hne : fwd i ≠ -1) :
    ∃ s < C, fwd i = s ∧ bwd s = i := by
  obtain ⟨h0, hlt⟩ := (h.fwd_range i hi).resolve_left hne
  have hs := Int.toNat_of_nonneg h0
  have hsC : (fwd i).toNat < C := by omega
  exact ⟨_, hsC, hs.symm, (h.link i hi _ hsC).mp hs.symm⟩

theorem clear (h : SlotMap fwd bwd N C) (D : ℕ → Prop)
    (hb : ∀ s < C, D s → bwd' s = -1) (hb' : ∀ s < C, ¬D s → bwd' s = bwd s)
    (hf : ∀ i < N, ∀ s < C, fwd i = s → D s → fwd' i = -1)
    (hf' : ∀ i < N, (∀ s < C, fwd i = s → ¬D s) → fwd' i = fwd i) : SlotMap fwd' bwd' N C := by
  classical
  -- an index loses its slot exactly if that slot is cleared
  have hfwd : ∀ i < N, fwd' i = fwd i ∧ (∀ s < C, fwd i = s → ¬D s) ∨
      fwd' i = -1 ∧ ∃ s < C, fwd i = s ∧ D s := by
    intro i hi
    by_cases hd : ∃ s < C, fwd i = s ∧ D s
    · obtain ⟨s, hs, hsi, hds⟩ := hd
      exact Or.inr ⟨hf i hi s hs hsi hds, s, hs, hsi, hds⟩
    · exact Or.inl ⟨hf' i hi fun s hs hsi hds => hd ⟨s, hs, hsi, hds⟩,
        fun s hs hsi hds => hd ⟨s, hs, hsi, hds⟩⟩
  refine ⟨fun i hi => ?_, fun s hs => ?_, fun i hi s hs => ?_⟩
  · rcases hfwd i hi with ⟨heq, -⟩ | ⟨heq, -⟩
    · exact heq ▸ h.fwd_range i hi
    · exact Or.inl heq
  · by_cases hd : D s
    · exact Or.inl (hb s hs hd)
    · exact hb' s hs hd ▸ h.bwd_range s hs
  · by_cases hd : D s
    · rw [hb s hs hd]
      rcases hfwd i hi with ⟨heq, hnd⟩ | ⟨heq, -⟩
      · rw [heq]
        exact ⟨fun hsi => absurd hd (hnd s hs hsi), fun hi => by omega⟩
      · rw [heq]
        omega
    · rw [hb' s hs hd]
      rcases hfwd i hi with ⟨heq, -⟩ | ⟨heq, s', hs', hsi', hd'⟩
      · rw [heq]
        exact h.link i hi s hs
      · rw [heq]
        have hne : (s' : ℤ) ≠ s := fun hss => hd (Nat.cast_injective hss ▸ hd')
        have := h.link i hi s hs
        omega

theorem rebind (h : SlotMap fwd bwd N C) (hi : i < N) (hs : s < C) (hnone : fwd i = -1) :
    SlotMap (update (forget fwd (bwd s)) i s) (update bwd s i) N C := by
  have hfwd : ∀ j < N, j ≠ i → update (forget fwd (bwd s)) i (s : ℤ) j =
      if bwd s = j then -1 else fwd j := by
    intro j _ hji
    rw [update_of_ne hji]
    split_ifs with hj
    · exact forget_eq_neg hj
    · exact forget_of_ne hj
  refine ⟨fun j hj => ?_, fun t ht => ?_, fun j hj t ht => ?_⟩
  · by_cases hji : j = i
    · rw [hji, update_self]
      omega
    · rw [hfwd j hj hji]
      split_ifs
      · exact Or.inl rfl
      · exact h.fwd_range j hj
  · by_cases hts : t = s
    · rw [hts, update_self]
      omega
    · rw [update_of_ne hts]
      exact h.bwd_range t ht
  · by_cases hji : j = i
    · subst hji
      rw [update_self]
      by_cases hts : t = s
      · rw [hts, update_self]
        exact ⟨fun _ => rfl, fun _ => rfl⟩
      · rw [update_of_ne hts]
        have := h.link j hi t ht
        omega
    · rw [hfwd j hj hji]
      have hij : (i : ℤ) ≠ j := fun h => hji (Nat.cast_injective h).symm
      have hjt := h.link j hj t ht
      by_cases hts : t = s
      · rw [hts] at hjt ⊢
        rw [update_self]
        refine ⟨fun h => ?_, fun h => absurd h hij⟩
        split_ifs at h with hbj
        exact absurd (hjt.mp h) hbj
      · rw [update_of_ne hts]
        split_ifs with hbj
        · -- the identifier was in `s`, so it is in no other slot
          have hjs := (h.link j hj s hs).mpr hbj
          refine ⟨fun h => h.elim, fun h => ?_⟩
          have := hjt.mpr h
          omega
        · exact hjt

end SlotMap

end FreeToken
