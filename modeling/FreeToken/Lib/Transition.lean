import Mathlib.Logic.Basic

/-!
# Runs of a transition system

A system takes a step for each event, where the event can happen at all.  A run is a list of events.

* `run_append`: runs one after the other.
* `run_invariant`, `run_keeps`: what every step keeps, a run keeps.
* `run_relates`: what every step does to the state, a run does, for a preorder on the states.
* `run_history`: an invariant that tells of the states behind.
-/

namespace FreeToken

namespace Transition

variable {σ ε : Type*}

/-- The state after the events; `none` where one of them cannot happen. -/
def run (step : σ → ε → Option σ) : σ → List ε → Option σ
  | s, [] => some s
  | s, e :: es => (step s e).bind fun s' => run step s' es

/-- Every step of the run is taken in a state that allows it. -/
def Meets (step : σ → ε → Option σ) (allowed : σ → ε → Prop) : σ → List ε → Prop
  | _, [] => True
  | s, e :: es => allowed s e ∧ ∀ s', step s e = some s' → Meets step allowed s' es

variable {step : σ → ε → Option σ} {allowed : σ → ε → Prop} {s s' : σ} {e : ε} {es fs : List ε}

@[simp] theorem run_nil : run step s [] = some s := rfl

theorem run_cons : run step s (e :: es) = (step s e).bind fun t => run step t es := rfl

theorem run_cons_eq_some :
    run step s (e :: es) = some s' ↔ ∃ t, step s e = some t ∧ run step t es = some s' := by
  rw [run_cons, Option.bind_eq_some_iff]

theorem run_append : run step s (es ++ fs) = (run step s es).bind fun t => run step t fs := by
  induction es generalizing s with
  | nil => rfl
  | cons e es ih =>
    rw [List.cons_append, run_cons, run_cons, Option.bind_assoc]
    congr 1
    funext t
    exact ih

theorem Meets.cons (h : allowed s e) (hstep : step s e = some s')
    (hrest : Meets step allowed s' es) :
    Meets step allowed s (e :: es) := by
  refine ⟨h, fun t ht => ?_⟩
  rw [← Option.some.inj (hstep.symm.trans ht)]
  exact hrest

theorem meets_of_forall (h : ∀ s, ∀ e ∈ es, allowed s e) : Meets step allowed s es := by
  induction es generalizing s with
  | nil => trivial
  | cons e es ih =>
    exact ⟨h s e List.mem_cons_self, fun _ _ => ih fun s e he => h s e (List.mem_cons_of_mem _ he)⟩

theorem meets_true : Meets step (fun _ _ => True) s es := meets_of_forall fun _ _ _ => trivial

/-- **An invariant of the steps is one of the runs.** -/
theorem run_invariant {inv : σ → Prop}
    (hstep : ∀ {s e s'}, inv s → allowed s e → step s e = some s' → inv s')
    (hs : inv s) (hmeets : Meets step allowed s es) (hrun : run step s es = some s') : inv s' := by
  induction es generalizing s with
  | nil =>
    cases hrun
    exact hs
  | cons e es ih =>
    obtain ⟨t, ht, hrest⟩ := run_cons_eq_some.mp hrun
    exact ih (hstep hs hmeets.1 ht) (hmeets.2 t ht) hrest

theorem run_keeps {inv : σ → Prop} (hstep : ∀ {s e s'}, inv s → step s e = some s' → inv s')
    (hs : inv s) (hrun : run step s es = some s') : inv s' := by
  have hmeets : Meets step (fun _ _ => True) s es := meets_true
  exact run_invariant (fun h _ => hstep h) hs hmeets hrun

/-- **What each step does to a state, a run does to it**, for a preorder on the states. -/
theorem run_relates {inv : σ → Prop} {rel : σ → σ → Prop} (hrefl : ∀ s, rel s s)
    (htrans : ∀ {s t u}, rel s t → rel t u → rel s u)
    (hstep : ∀ {s e s'}, inv s → allowed s e → step s e = some s' → inv s' ∧ rel s s')
    (hs : inv s) (hmeets : Meets step allowed s es) (hrun : run step s es = some s') :
    rel s s' := by
  induction es generalizing s with
  | nil =>
    cases hrun
    exact hrefl _
  | cons e es ih =>
    obtain ⟨t, ht, hrest⟩ := run_cons_eq_some.mp hrun
    have hone := hstep hs hmeets.1 ht
    exact htrans hone.2 (ih hone.1 (hmeets.2 t ht) hrest)

def Visits (step : σ → ε → Option σ) (s : σ) (es : List ε) (t : σ) : Prop :=
  ∃ fs, fs <+: es ∧ run step s fs = some t

theorem Visits.start : Visits step s es s := ⟨[], es.nil_prefix, rfl⟩

theorem Visits.cons {t u : σ} (h : Visits step t es u) (hstep : step s e = some t) :
    Visits step s (e :: es) u := by
  obtain ⟨fs, hprefix, hrun⟩ := h
  exact ⟨e :: fs, (List.prefix_cons_inj e).mpr hprefix, run_cons_eq_some.mpr ⟨t, hstep, hrun⟩⟩

/-- **An invariant that tells of the states behind** is one of the runs, where it stays with more of
them. -/
theorem run_history (inv : (σ → Prop) → σ → Prop)
    (hmono : ∀ {V W : σ → Prop} {s}, (∀ t, V t → W t) → inv V s → inv W s)
    (hstep : ∀ {V s e s'}, V s → inv V s → allowed s e → step s e = some s' → inv V s')
    (hs : inv (· = s) s) (hmeets : Meets step allowed s es) (hrun : run step s es = some s') :
    inv (Visits step s es) s' := by
  have hall : ∀ V : σ → Prop, V s → inv V s → inv (fun t => V t ∨ Visits step s es t) s' := by
    clear hs
    induction es generalizing s with
    | nil =>
      intro V _ hinv
      cases hrun
      exact hmono (fun t => .inl) hinv
    | cons e es ih =>
      intro V hV hinv
      obtain ⟨t, ht, hrest⟩ := run_cons_eq_some.mp hrun
      have hnext := hmono (W := fun u => V u ∨ u = t) (fun u => .inl) (hstep hV hinv hmeets.1 ht)
      refine hmono (fun u hu => ?_) (ih (hmeets.2 t ht) hrest _ (.inr rfl) hnext)
      rcases hu with (hu | rfl) | hu
      · exact .inl hu
      · exact .inr (Visits.start.cons ht)
      · exact .inr (hu.cons ht)
  refine hmono (fun t ht => ?_) (hall (fun t => t = s) rfl hs)
  rcases ht with rfl | ht
  · exact .start
  · exact ht

end Transition

end FreeToken
