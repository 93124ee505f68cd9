import Mathlib.Tactic.Common

/-!
# Programs that fail at a point

A program works on a state, may raise, and keeps the state it has reached when it does.  Some of its
steps are points where a fault can strike: the fault that is armed raises at its point, and is used
up.

* `Keeps P m Q X`: from a state with `P` the program ends with `Q`; or the armed fault has struck,
  and `X` holds of its point and of the state it has left.
* `Keeps.bind`, `Keeps.forM`, `Keeps.zoom`: rules for sequences, loops and programs on a part of the
  state.
* `Refuses m s`: the program raises, and leaves `s` as it was.
-/

class FaultError (ε : Type) where
  fault : ε

/-- A program on `σ` with points `π` that returns an `α` or raises an `ε`. -/
def Faulting (π ε σ α : Type) : Type := Option π → σ → Except ε α × Option π × σ

namespace Faulting

variable {π ε σ τ α β : Type}

instance : Monad (Faulting π ε σ) where
  pure a := fun f s => (.ok a, f, s)
  bind m k := fun f s =>
    match m f s with
    | (.ok a, f', s') => k a f' s'
    | (.error e, f', s') => (.error e, f', s')

theorem bind_apply (m : Faulting π ε σ α) (k : α → Faulting π ε σ β) (f : Option π) (s : σ) :
    (m >>= k) f s =
      match m f s with
      | (.ok a, f', s') => k a f' s'
      | (.error e, f', s') => (.error e, f', s') := rfl

def read : Faulting π ε σ σ := fun f s => (.ok s, f, s)

def modify (g : σ → σ) : Faulting π ε σ Unit := fun f s => (.ok (), f, g s)

def raise (e : ε) : Faulting π ε σ α := fun f s => (.error e, f, s)

/-- A step that the fault of this point makes fail. -/
def point [DecidableEq π] [FaultError ε] (p : π) : Faulting π ε σ Unit := fun f s =>
  if f = some p then (.error FaultError.fault, none, s) else (.ok (), f, s)

def onlyIf (b : Bool) (m : Faulting π ε σ Unit) : Faulting π ε σ Unit := if b then m else pure ()

def ensure (e : ε) (b : Bool) : Faulting π ε σ Unit := if b then pure () else raise e

/-- What is done to the state when the program raises; the exception goes on. -/
def onRaise (m : Faulting π ε σ α) (g : σ → σ) : Faulting π ε σ α := fun f s =>
  match m f s with
  | (.ok a, f', s') => (.ok a, f', s')
  | (.error e, f', s') => (.error e, f', g s')

def zoom (get : σ → τ) (set : τ → σ → σ) (m : Faulting π ε τ α) : Faulting π ε σ α := fun f s =>
  let r := m f (get s)
  (r.1, r.2.1, set r.2.2 s)

/-- A program on a part that may be missing: a missing part raises. -/
def zoomSome (e : ε) (get : σ → Option τ) (set : τ → σ → σ) (m : Faulting π ε τ α) :
    Faulting π ε σ α := fun f s =>
  match get s with
  | some t =>
    let r := m f t
    (r.1, r.2.1, set r.2.2 s)
  | none => (.error e, f, s)

variable {k : Unit → Faulting π ε σ β} {R : β → σ → Prop} {g : σ → σ} {e : ε} {set : τ → σ → σ}
  {b : Bool} {p : π}

section

variable [FaultError ε]

/-- From a state with `P` the program ends with `Q`, or the armed fault leaves `X`. -/
def Keeps (P : σ → Prop) (m : Faulting π ε σ α) (Q : α → σ → Prop) (X : π → σ → Prop) : Prop :=
  ∀ f s, P s →
    (∃ a s', m f s = (.ok a, f, s') ∧ Q a s') ∨
      ∃ p s', m f s = (.error FaultError.fault, none, s') ∧ f = some p ∧ X p s'

variable {P P' : σ → Prop} {m : Faulting π ε σ α} {Q Q' : α → σ → Prop} {X X' : π → σ → Prop}

/-- Without a fault the program returns. -/
theorem Keeps.quiet (h : Keeps P m Q X) {s : σ} (hs : P s) :
    ∃ a s', m none s = (.ok a, none, s') ∧ Q a s' := by
  rcases h none s hs with hok | ⟨p, s', -, hnone, -⟩
  · exact hok
  · exact absurd hnone (by simp)

theorem Keeps.mono (h : Keeps P m Q X) (hP : ∀ s, P' s → P s) (hQ : ∀ a s, Q a s → Q' a s)
    (hX : ∀ p s, X p s → X' p s) :
    Keeps P' m Q' X' := by
  intro f s hs
  rcases h f s (hP s hs) with ⟨a, s', hrun, hq⟩ | ⟨p, s', hrun, hf, hx⟩
  · exact .inl ⟨a, s', hrun, hQ a s' hq⟩
  · exact .inr ⟨p, s', hrun, hf, hX p s' hx⟩

theorem Keeps.pure {a : α} (h : ∀ s, P s → Q a s) : Keeps P (Pure.pure a : Faulting π ε σ α) Q X :=
  fun _ s hs => .inl ⟨a, s, rfl, h s hs⟩

theorem Keeps.bind {k : α → Faulting π ε σ β} (hm : Keeps P m Q X)
    (hk : ∀ a, Keeps (Q a) (k a) R X) :
    Keeps P (m >>= k) R X := by
  intro f s hs
  rcases hm f s hs with ⟨a, s', hrun, hq⟩ | ⟨p, s', hrun, hf, hx⟩
  · have hbind : (m >>= k) f s = k a f s' := by rw [bind_apply, hrun]
    rw [hbind]
    exact hk a f s' hq
  · have hbind : (m >>= k) f s = (.error FaultError.fault, none, s') := by rw [bind_apply, hrun]
    exact .inr ⟨p, s', hbind, hf, hx⟩

theorem Keeps.read {k : σ → Faulting π ε σ β} {R : β → σ → Prop}
    (h : ∀ a, P a → Keeps (fun s => s = a) (k a) R X) :
    Keeps P (Faulting.read >>= k) R X := fun f s hs => h s hs f s rfl

theorem Keeps.modify {Q : σ → Prop} (h : ∀ s, P s → Q (g s)) :
    Keeps P (Faulting.modify g : Faulting π ε σ Unit) (fun _ => Q) X :=
  fun _ s hs => .inl ⟨(), g s, rfl, h s hs⟩

theorem Keeps.point [DecidableEq π] (h : ∀ s, P s → X p s) :
    Keeps P (Faulting.point p : Faulting π ε σ Unit) (fun _ => P) X := by
  intro f s hs
  by_cases hf : f = some p
  · exact .inr ⟨p, s, if_pos hf, hf, h s hs⟩
  · exact .inl ⟨(), s, if_neg hf, hs⟩

theorem Keeps.onlyIf {m : Faulting π ε σ Unit} {Q : σ → Prop}
    (htrue : b = true → Keeps P m (fun _ => Q) X)
    (hfalse : b = false → ∀ s, P s → Q s) : Keeps P (Faulting.onlyIf b m) (fun _ => Q) X := by
  cases b with
  | true => exact htrue rfl
  | false => exact Keeps.pure (hfalse rfl)

theorem Keeps.ensure (h : b = true) :
    Keeps P (Faulting.ensure e b : Faulting π ε σ Unit) (fun _ => P) X := by
  subst h
  exact Keeps.pure fun _ hs => hs

theorem Keeps.modify_bind (Q : σ → Prop)
    (h : ∀ s, P s → Q (g s)) (hk : Keeps Q (k ()) R X) : Keeps P (Faulting.modify g >>= k) R X :=
  (Keeps.modify h).bind fun _ => hk

theorem Keeps.point_bind [DecidableEq π]
    (h : ∀ s, P s → X p s) (hk : Keeps P (k ()) R X) : Keeps P (Faulting.point p >>= k) R X :=
  (Keeps.point h).bind fun _ => hk

theorem Keeps.forM {ι : Type} {l : List ι} {body : ι → Faulting π ε σ PUnit} {I : List ι → σ → Prop}
    (hbody : ∀ done i, Keeps (I done) (body i) (fun _ => I (done ++ [i])) X) (done : List ι) :
    Keeps (I done) (l.forM body) (fun _ => I (done ++ l)) X := by
  induction l generalizing done with
  | nil =>
    rw [List.append_nil]
    exact Keeps.pure fun _ hs => hs
  | cons i l ih =>
    have hl := ih (done ++ [i])
    rw [List.append_assoc, List.singleton_append] at hl
    exact (hbody done i).bind fun _ => hl

theorem Keeps.onRaise (h : Keeps P m Q X) (hg : ∀ p s, X p s → X' p (g s)) :
    Keeps P (Faulting.onRaise m g) Q X' := by
  intro f s hs
  unfold Faulting.onRaise
  rcases h f s hs with ⟨a, s', hrun, hq⟩ | ⟨p, s', hrun, hf, hx⟩
  · rw [hrun]
    exact .inl ⟨a, s', rfl, hq⟩
  · rw [hrun]
    exact .inr ⟨p, g s', rfl, hf, hg p s' hx⟩

variable {m : Faulting π ε τ α} {Q : α → τ → Prop} {X : π → τ → Prop} {P : τ → Prop}

theorem Keeps.zoom (h : Keeps P m Q X)
    (get : σ → τ) (set : τ → σ → σ) (R : σ → Prop) (hR : ∀ s, R s → P (get s)) :
    Keeps R (Faulting.zoom get set m) (fun a s => ∃ s₀ t, R s₀ ∧ s = set t s₀ ∧ Q a t)
      fun p s => ∃ s₀ t, R s₀ ∧ s = set t s₀ ∧ X p t := by
  intro f s hs
  unfold Faulting.zoom
  rcases h f (get s) (hR s hs) with ⟨a, t, hrun, hq⟩ | ⟨p, t, hrun, hf, hx⟩
  · rw [hrun]
    exact .inl ⟨a, set t s, rfl, s, t, hs, rfl, hq⟩
  · rw [hrun]
    exact .inr ⟨p, set t s, rfl, hf, s, t, hs, rfl, hx⟩

theorem Keeps.zoomSome {get : σ → Option τ} (h : Keeps P m Q X) (R : σ → Prop)
    (hR : ∀ s, R s → ∃ t, get s = some t ∧ P t) :
    Keeps R (Faulting.zoomSome e get set m) (fun a s => ∃ s₀ t, R s₀ ∧ s = set t s₀ ∧ Q a t)
      fun p s => ∃ s₀ t, R s₀ ∧ s = set t s₀ ∧ X p t := by
  intro f s hs
  obtain ⟨t₀, hget, hp⟩ := hR s hs
  unfold Faulting.zoomSome
  rw [hget]
  rcases h f t₀ hp with ⟨a, t, hrun, hq⟩ | ⟨p, t, hrun, hf, hx⟩
  · simp only [hrun]
    exact .inl ⟨a, set t s, rfl, s, t, hs, rfl, hq⟩
  · simp only [hrun]
    exact .inr ⟨p, set t s, rfl, hf, s, t, hs, rfl, hx⟩

theorem Keeps.embed (h : Keeps P m Q X) (inj : τ → σ)
    {Q' : α → σ → Prop} {X' : π → σ → Prop} (hQ : ∀ a t, Q a t → Q' a (inj t))
    (hX : ∀ p t, X p t → X' p (inj t)) (f : Option π) (t : τ) (ht : P t) :
    (∃ a s', ((m f t).1, (m f t).2.1, inj (m f t).2.2) = (.ok a, f, s') ∧ Q' a s') ∨
      ∃ p s', ((m f t).1, (m f t).2.1, inj (m f t).2.2) = (.error FaultError.fault, none, s') ∧
        f = some p ∧ X' p s' := by
  rcases h f t ht with ⟨a, t', hrun, hq⟩ | ⟨p, t', hrun, hf, hx⟩
  · rw [hrun]
    exact .inl ⟨a, inj t', rfl, hQ a t' hq⟩
  · rw [hrun]
    exact .inr ⟨p, inj t', rfl, hf, hX p t' hx⟩

end

/-- The program raises, and leaves the state as it was. -/
def Refuses (m : Faulting π ε σ α) (s : σ) : Prop := ∀ f, ∃ e f', m f s = (.error e, f', s)

section

variable {m : Faulting π ε σ α} {s : σ}

theorem Refuses.bind {k : α → Faulting π ε σ β} (h : Refuses m s) : Refuses (m >>= k) s := by
  intro f
  obtain ⟨e, f', hrun⟩ := h f
  exact ⟨e, f', by rw [bind_apply, hrun]⟩

theorem Refuses.read_bind {k : σ → Faulting π ε σ β} (h : Refuses (k s) s) :
    Refuses (Faulting.read >>= k) s := h

theorem Refuses.ensure : Refuses (Faulting.ensure e false : Faulting π ε σ Unit) s :=
    fun f => ⟨e, f, rfl⟩

/-- Past an assertion that holds. -/
theorem Refuses.ensure_bind (hb : b = true) (h : Refuses (k ()) s) :
    Refuses (Faulting.ensure e b >>= k) s := by
  subst hb
  exact h

theorem Refuses.point_bind [DecidableEq π] [FaultError ε] (h : Refuses (k ()) s) :
    Refuses (Faulting.point p >>= k) s := by
  intro f
  by_cases hf : f = some p
  · exact ⟨FaultError.fault, none, by rw [bind_apply, Faulting.point, if_pos hf]⟩
  · obtain ⟨e', f', hrun⟩ := h f
    refine ⟨e', f', ?_⟩
    rw [bind_apply, Faulting.point, if_neg hf]
    exact hrun

theorem Refuses.zoom {get : σ → τ} {m : Faulting π ε τ α} (h : Refuses m (get s))
    (hset : set (get s) s = s) :
    Refuses (Faulting.zoom get set m) s := by
  intro f
  obtain ⟨e, f', hrun⟩ := h f
  refine ⟨e, f', ?_⟩
  rw [Faulting.zoom, hrun]
  exact Prod.ext rfl (Prod.ext rfl hset)

end

end Faulting
