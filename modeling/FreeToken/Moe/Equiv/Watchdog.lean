import FreeToken.Moe.Equiv.FlagSync

/-!
# Whom the watchdog accuses

A doorbell is told from the next one on its slot by `rung`, and it is unanswered as long as
`answered` is behind.

* `Bell`: what holds of a slot in a run that rings it only after the service of its last doorbell
  was counted.
* `Verdict`: what the samples, the suspects and the accused of the watchdog tell,
  if no answer comes between a sample and the verdict.
-/

namespace FreeToken

open Function List

namespace FlagSync

variable {X Y : Type} {cfg : Setup X Y}

/-- What the coordinator has in its hands. -/
inductive Hand where
  | free
  | seen (slot : ℕ)
  | serving (slot : ℕ)
  /-- The answer is there, and not counted yet. -/
  | answered (slot : ℕ)
deriving DecidableEq

def Hand.slot : Hand → Option ℕ
  | .free => none
  | .seen slot | .serving slot | .answered slot => some slot

def WatchdogPC.Judges : WatchdogPC → Prop
  | .judging .. | .poisoning .. => True
  | _ => False

namespace Handshake

variable {s s' : Handshake X Y} {i : ℕ} {input : X} {V W : Handshake X Y → Prop}

def hand (s : Handshake X Y) : Hand :=
  match s.coord with
  | .consuming slot => .seen slot
  | .taken slot | .syncing slot _ | .finished slot => .serving slot
  | .answered slot => .answered slot
  | _ => .free

/-! ### What the steps do -/

/-- The watchdog is left alone, and time goes on. -/
structure Quiet (s s' : Handshake X Y) : Prop where
  watchdog : s'.watchdog = s.watchdog
  suspects : s'.suspects = s.suspects
  clock : s.clock ≤ s'.clock

structure Resting (s s' : Handshake X Y) : Prop where
  ready : s'.ready = s.ready
  rung : s'.rung = s.rung
  answered : s'.answered = s.answered
  flagServed : s'.flagServed = s.flagServed

/-- What a step of the coordinator does. -/
theorem coordStep_effect (hstep : s.coordStep cfg = some s') : Quiet s s' ∧ s'.rung = s.rung ∧
    ((Resting s s' ∧ s'.hand = s.hand) ∨
      (∃ i, Resting s s' ∧ s.hand = .free ∧ s'.hand = .seen i ∧ s.ready i ≠ 0) ∨
      (∃ i, s.hand = .seen i ∧ s'.hand = .serving i ∧ s'.ready = update s.ready i 0 ∧
        s'.answered = s.answered ∧ s'.flagServed = s.flagServed) ∨
      (∃ i, s.coord = .finished i ∧ s'.hand = .answered i ∧ s'.ready = s.ready ∧
        s'.answered = update s.answered i (s.answered i + 1) ∧ s'.flagServed = s.flagServed) ∨
      ∃ i, s.hand = .answered i ∧ s'.hand = .free ∧ s'.ready = s.ready ∧ s'.answered = s.answered ∧
        s'.flagServed = update s.flagServed i (s.flagServed i + 1)) := by
  have hquiet :
      ∀ {t : Handshake X Y}, t.watchdog = s.watchdog → t.suspects = s.suspects → t.clock = s.clock →
      Quiet s t :=
    fun hwatchdog hsuspects hclock => ⟨hwatchdog, hsuspects, hclock.ge⟩
  unfold coordStep at hstep
  split at hstep
  · next hcoord =>
    rw [← Option.some.inj hstep]
    refine ⟨hquiet rfl rfl rfl, rfl, .inl ⟨⟨rfl, rfl, rfl, rfl⟩, ?_⟩⟩
    unfold hand
    rw [hcoord]
    cases s.coordStop <;> rfl
  · -- the scan: it goes on, or finds a doorbell
    next slot hcoord =>
    rw [← Option.some.inj hstep]
    refine ⟨hquiet rfl rfl rfl, rfl, ?_⟩
    by_cases hseen : slot < cfg.numSlots ∧ s.ready slot ≠ 0
    · refine .inr (.inl ⟨slot, ⟨rfl, rfl, rfl, rfl⟩, ?_, ?_, hseen.2⟩)
      · unfold hand
        rw [hcoord]
      · unfold hand
        rw [if_pos hseen.1, if_pos hseen.2]
    · refine .inl ⟨⟨rfl, rfl, rfl, rfl⟩, ?_⟩
      unfold hand
      rw [hcoord]
      by_cases hslot : slot < cfg.numSlots
      · rw [if_pos hslot, if_neg fun hready => hseen ⟨hslot, hready⟩]
      · rw [if_neg hslot]
  · next slot hcoord =>
    rw [← Option.some.inj hstep]
    refine ⟨hquiet rfl rfl rfl, rfl, .inr (.inr (.inl ⟨slot, ?_, rfl, rfl, rfl, rfl⟩))⟩
    unfold hand
    rw [hcoord]
  · next slot hcoord =>
    rw [← Option.some.inj hstep]
    split
    · refine ⟨hquiet rfl rfl rfl, rfl, .inl ⟨⟨rfl, rfl, rfl, rfl⟩, ?_⟩⟩
      unfold hand
      rw [hcoord]
    · refine ⟨hquiet rfl rfl rfl, rfl, .inl ⟨⟨rfl, rfl, rfl, rfl⟩, ?_⟩⟩
      unfold hand
      rw [hcoord]
  · next slot target hcoord =>
    obtain ⟨-, heq⟩ := Option.ite_none_right_eq_some.mp hstep
    rw [← Option.some.inj heq]
    refine ⟨hquiet rfl rfl rfl, rfl, .inl ⟨⟨rfl, rfl, rfl, rfl⟩, ?_⟩⟩
    unfold hand
    rw [hcoord]
  · next slot hcoord =>
    rw [← Option.some.inj hstep]
    exact ⟨hquiet rfl rfl rfl, rfl, .inr (.inr (.inr (.inl ⟨slot, hcoord, rfl, rfl, rfl, rfl⟩)))⟩
  · next slot hcoord =>
    rw [← Option.some.inj hstep]
    refine ⟨hquiet rfl rfl rfl, rfl, .inr (.inr (.inr (.inr ⟨slot, ?_, rfl, rfl, rfl, rfl⟩)))⟩
    unfold hand
    rw [hcoord]
  · next slot hcoord =>
    rw [← Option.some.inj hstep]
    split
    · refine ⟨hquiet rfl rfl rfl, rfl, .inl ⟨⟨rfl, rfl, rfl, rfl⟩, ?_⟩⟩
      unfold hand
      rw [hcoord]
    · refine ⟨hquiet rfl rfl rfl, rfl, .inl ⟨⟨rfl, rfl, rfl, rfl⟩, ?_⟩⟩
      unfold hand
      rw [hcoord]
  · cases hstep

theorem watchdogStep_frame (cfg : Setup X Y) (s : Handshake X Y) :
    (s.watchdogStep cfg).ready = s.ready ∧ (s.watchdogStep cfg).answered = s.answered ∧
    (s.watchdogStep cfg).flagServed = s.flagServed ∧ (s.watchdogStep cfg).rung = s.rung ∧
    (s.watchdogStep cfg).coord = s.coord ∧ (s.watchdogStep cfg).stream = s.stream ∧
    (s.watchdogStep cfg).clock = s.clock := by
  unfold watchdogStep
  split
  · exact ⟨rfl, rfl, rfl, rfl, rfl, rfl, rfl⟩
  · split <;> exact ⟨rfl, rfl, rfl, rfl, rfl, rfl, rfl⟩
  · split
    · exact ⟨rfl, rfl, rfl, rfl, rfl, rfl, rfl⟩
    · unfold Handshake.decide
      dsimp only
      split <;> exact ⟨rfl, rfl, rfl, rfl, rfl, rfl, rfl⟩
  · unfold judge
    split
    · exact ⟨rfl, rfl, rfl, rfl, rfl, rfl, rfl⟩
    · split
      · exact ⟨rfl, rfl, rfl, rfl, rfl, rfl, rfl⟩
      · split <;> exact ⟨rfl, rfl, rfl, rfl, rfl, rfl, rfl⟩
  · exact ⟨rfl, rfl, rfl, rfl, rfl, rfl, rfl⟩
  · exact ⟨rfl, rfl, rfl, rfl, rfl, rfl, rfl⟩
  · exact ⟨rfl, rfl, rfl, rfl, rfl, rfl, rfl⟩
  · exact ⟨rfl, rfl, rfl, rfl, rfl, rfl, rfl⟩
  · exact ⟨rfl, rfl, rfl, rfl, rfl, rfl, rfl⟩

theorem step_effect {e : Event X Y} (hstep : s.step cfg e = some s') :
    (e = .watchdog ∧ s' = s.watchdogStep cfg) ∨ (e = .coord ∧ s.coordStep cfg = some s') ∨
      (∃ i input, e = .stream ∧ s.stream = .cleared i input ∧ Quiet s s' ∧
        s'.ready = update s.ready i 1 ∧ s'.rung = update s.rung i (s.rung i + 1) ∧
        s'.answered = s.answered ∧ s'.flagServed = s.flagServed ∧ s'.hand = s.hand) ∨
      Quiet s s' ∧ Resting s s' ∧ s'.hand = s.hand := by
  -- only the stream rings, and only the coordinator and the watchdog touch what they own
  cases e with
  | register slot =>
    rw [← Option.some.inj hstep]
    exact .inr (.inr (.inr ⟨⟨rfl, rfl, le_refl _⟩, ⟨rfl, rfl, rfl, rfl⟩, rfl⟩))
  | decode slot input =>
    change s.decode cfg slot input = some s' at hstep
    unfold decode at hstep
    split at hstep
    · obtain ⟨-, heq⟩ := Option.ite_none_right_eq_some.mp hstep
      rw [← Option.some.inj heq]
      exact .inr (.inr (.inr ⟨⟨rfl, rfl, le_refl _⟩, ⟨rfl, rfl, rfl, rfl⟩, rfl⟩))
    · cases hstep
  | stream =>
    change s.streamStep = some s' at hstep
    unfold streamStep at hstep
    split at hstep
    · cases hstep
    · rw [← Option.some.inj hstep]
      exact .inr (.inr (.inr ⟨⟨rfl, rfl, le_refl _⟩, ⟨rfl, rfl, rfl, rfl⟩, rfl⟩))
    · next slot input hcleared =>
      rw [← Option.some.inj hstep]
      exact .inr
        (.inr (.inl ⟨slot, input, rfl, hcleared, ⟨rfl, rfl, le_refl _⟩, rfl, rfl, rfl, rfl, rfl⟩))
    · obtain ⟨-, heq⟩ := Option.ite_none_right_eq_some.mp hstep
      rw [← Option.some.inj heq]
      exact .inr (.inr (.inr ⟨⟨rfl, rfl, le_refl _⟩, ⟨rfl, rfl, rfl, rfl⟩, rfl⟩))
    · rw [← Option.some.inj hstep]
      exact .inr (.inr (.inr ⟨⟨rfl, rfl, le_refl _⟩, ⟨rfl, rfl, rfl, rfl⟩, rfl⟩))
  | coord => exact .inr (.inl ⟨rfl, hstep⟩)
  | workerTake worker =>
    obtain ⟨-, heq⟩ := Option.ite_none_right_eq_some.mp hstep
    rw [← Option.some.inj heq]
    exact .inr (.inr (.inr ⟨⟨rfl, rfl, le_refl _⟩, ⟨rfl, rfl, rfl, rfl⟩, rfl⟩))
  | workerWrite worker value =>
    change s.workerWrite cfg worker value = some s' at hstep
    unfold workerWrite at hstep
    split at hstep
    · rw [← Option.some.inj hstep]
      exact .inr (.inr (.inr ⟨⟨rfl, rfl, le_refl _⟩, ⟨rfl, rfl, rfl, rfl⟩, rfl⟩))
    · cases hstep
  | workerDone worker value =>
    change s.workerDone cfg worker value = some s' at hstep
    unfold workerDone at hstep
    split at hstep
    · rw [← Option.some.inj hstep]
      split <;> exact .inr (.inr (.inr ⟨⟨rfl, rfl, le_refl _⟩, ⟨rfl, rfl, rfl, rfl⟩, rfl⟩))
    · cases hstep
  | stop =>
    rw [← Option.some.inj hstep]
    exact .inr (.inr (.inr ⟨⟨rfl, rfl, le_refl _⟩, ⟨rfl, rfl, rfl, rfl⟩, rfl⟩))
  | watchdog =>
    rw [← Option.some.inj hstep]
    exact .inl ⟨rfl, rfl⟩
  | elapse duration =>
    rw [← Option.some.inj hstep]
    exact .inr (.inr (.inr ⟨⟨rfl, rfl, Nat.le_add_right _ _⟩, ⟨rfl, rfl, rfl, rfl⟩, rfl⟩))

/-! ### The doorbells -/

/-- What holds of a slot whose doorbells are rung one after the other. -/
structure Bell (s : Handshake X Y) (i : ℕ) : Prop where
  bit : s.ready i = 0 ∨ s.ready i = 1
  idle : s.ready i = 0 → s.hand ≠ .serving i → s.rung i = s.answered i
  pending : s.ready i ≠ 0 ∨ s.hand = .serving i → s.rung i = s.answered i + 1
  seen : s.hand = .seen i → s.ready i ≠ 0
  busy : s.hand = .serving i ∨ s.hand = .answered i → s.ready i = 0
  counted : s.hand ≠ .answered i → s.answered i = s.flagServed i
  uncounted : s.hand = .answered i → s.answered i = s.flagServed i + 1

theorem Bell.unanswered_iff (h : Bell s i) :
    s.answered i < s.rung i ↔ s.ready i ≠ 0 ∨ s.hand = .serving i := by
  constructor
  · intro hlt
    by_contra hnot
    push Not at hnot
    have hidle := h.idle hnot.1 hnot.2
    omega
  · intro hpending
    have heq := h.pending hpending
    omega

/-- An unanswered doorbell is the only one, and the services before it are counted. -/
theorem Bell.unanswered (h : Bell s i) (hlt : s.answered i < s.rung i) :
    s.rung i = s.answered i + 1 ∧ s.flagServed i = s.answered i := by
  have hpending := h.unanswered_iff.mp hlt
  refine ⟨h.pending hpending, (h.counted fun heq => ?_).symm⟩
  rcases hpending with hready | hserving
  · exact hready (h.busy (.inr heq))
  · rw [heq] at hserving
    cases hserving

theorem Bell.frame (h : Bell s i) (hready : s'.ready i = s.ready i) (hrung : s'.rung i = s.rung i)
    (hanswered : s'.answered i = s.answered i) (hserved : s'.flagServed i = s.flagServed i)
    (hhand : s'.hand = s.hand ∨ s.hand.slot ≠ some i ∧ s'.hand.slot ≠ some i) : Bell s' i := by
  have hsame : ∀ k : ℕ → Hand, (∀ j, (k j).slot = some j) → (s'.hand = k i ↔ s.hand = k i) := by
    intro k hk
    rcases hhand with heq | ⟨hnot, hnot'⟩
    · rw [heq]
    · exact ⟨fun heq => absurd (heq ▸ hk i) hnot', fun heq => absurd (heq ▸ hk i) hnot⟩
  have hseen := hsame .seen fun _ => rfl
  have hserving := hsame .serving fun _ => rfl
  have hcounting := hsame .answered fun _ => rfl
  constructor
  · rw [hready]
    exact h.bit
  · rw [hready, ne_eq, hserving, hrung, hanswered]
    exact h.idle
  · rw [hready, hserving, hrung, hanswered]
    exact h.pending
  · rw [hready, hseen]
    exact h.seen
  · rw [hready, hserving, hcounting]
    exact h.busy
  · rw [ne_eq, hcounting, hanswered, hserved]
    exact h.counted
  · rw [hcounting, hanswered, hserved]
    exact h.uncounted

theorem Bell.of_seen (hhand : s.hand = .seen i) (hready : s.ready i = 1)
    (hrung : s.rung i = s.answered i + 1) (hserved : s.answered i = s.flagServed i) : Bell s i := by
  constructor <;> simp [hhand, hready, hrung, hserved]

theorem Bell.of_serving (hhand : s.hand = .serving i) (hready : s.ready i = 0)
    (hrung : s.rung i = s.answered i + 1) (hserved : s.answered i = s.flagServed i) : Bell s i := by
  constructor <;> simp [hhand, hready, hrung, hserved]

theorem Bell.of_answered (hhand : s.hand = .answered i) (hready : s.ready i = 0)
    (hrung : s.rung i = s.answered i) (hserved : s.answered i = s.flagServed i + 1) : Bell s i := by
  constructor <;> simp [hhand, hready, hrung, hserved]

theorem Bell.of_free (hhand : s.hand.slot ≠ some i) (hserved : s.answered i = s.flagServed i)
    (hrung : s.ready i = 0 ∧ s.rung i = s.answered i ∨ s.ready i = 1 ∧ s.rung i = s.answered i +
      1) : Bell s i := by
  have hnot : ∀ k : ℕ → Hand, (∀ j, (k j).slot = some j) → s.hand ≠ k i :=
    fun k hk heq => hhand (heq ▸ hk i)
  have hseen := hnot .seen fun _ => rfl
  have hserving := hnot .serving fun _ => rfl
  have hanswered := hnot .answered fun _ => rfl
  rcases hrung with ⟨hready, hrung⟩ | ⟨hready, hrung⟩ <;> constructor <;> simp_all

/-! ### Runs in order -/

/-- The slots that the watchdog has sampled as ringing and unanswered in its tick, and has not
acquitted or poisoned. -/
def Examines (s : Handshake X Y) (i : ℕ) : Prop :=
  match s.watchdog with
  | .readingDone slot ready done => i < slot ∧ ready i = true ∧ done i = true
  | .judging _ left dead => i ∈ left ∨ i ∈ dead
  | .poisoning left _ => i ∈ left
  | _ => False

/-- No doorbell is answered between the watchdog's samples of it and the verdict; a doorbell is rung
only after the service of the last one on its slot was counted; and `done` is not read as reset, of
a slot that was seen ringing, once that doorbell is answered and before the next one is rung. -/
def InOrder (s : Handshake X Y) : Event X Y → Prop
  | .coord => ∀ i, s.coord = .finished i → ¬ s.Examines i
  | .stream => ∀ i input, s.stream = .cleared i input → s.ready i = 0 ∧ s.hand.slot ≠ some i
  | .watchdog => ∀ i ready done, s.watchdog = .readingDone i ready done → ready i = true →
    s.done i = 0 →
    s.answered i < s.rung i
  | _ => True

theorem slot_ne {j : ℕ} {k : Hand} (hhand : s.hand = k) (hk : k.slot = some j) (hne : i ≠ j) :
    s.hand.slot ≠ some i :=
  fun heq => hne (Option.some.inj (heq.symm.trans (hhand ▸ hk)))

theorem slot_ne_of_free (hhand : s.hand = .free) : s.hand.slot ≠ some i := by
  rw [hhand]
  exact Option.noConfusion rfl ∘ heq_of_eq

theorem Bell.coordStep (h : ∀ i, Bell s i) (hstep : s.coordStep cfg = some s') (i : ℕ) :
    Bell s' i := by
  obtain ⟨-, hrung, heffect⟩ := coordStep_effect hstep
  have hi := h i
  rcases heffect with ⟨hrest, hhand⟩ | ⟨j, hrest, hfree, hseen, hready⟩ |
    ⟨j, hseen, hserving, hready, hanswered, hserved⟩ |
    ⟨j, hcoord, hanswering, hready, hanswered, hserved⟩ |
      ⟨j, hanswering, hfree, hready, hanswered, hserved⟩
  · exact hi.frame (congrFun hrest.ready i) (congrFun hrung i) (congrFun hrest.answered i)
      (congrFun hrest.flagServed i) (.inl hhand)
  · -- the scan sees the doorbell
    by_cases heq : i = j
    · subst heq
      have hcounted := hi.counted fun hbad => Hand.noConfusion (hfree.symm.trans hbad)
      refine .of_seen hseen ?_ ?_ ?_
      · rw [hrest.ready]
        exact hi.bit.resolve_left hready
      · rw [hrung, hrest.answered]
        exact hi.pending (.inl hready)
      · rw [hrest.answered, hrest.flagServed]
        exact hcounted
    · exact hi.frame (congrFun hrest.ready i) (congrFun hrung i) (congrFun hrest.answered i)
        (congrFun hrest.flagServed i) (.inr ⟨slot_ne_of_free hfree, slot_ne hseen rfl heq⟩)
  · -- it is cleared, and served
    by_cases heq : i = j
    · subst heq
      have hcounted := hi.counted fun hbad => Hand.noConfusion (hseen.symm.trans hbad)
      refine .of_serving hserving ?_ ?_ ?_
      · rw [hready, update_self]
      · rw [hrung, hanswered]
        exact hi.pending (.inl (hi.seen hseen))
      · rw [hanswered, hserved]
        exact hcounted
    · refine hi.frame ?_ (congrFun hrung i) (congrFun hanswered i) (congrFun hserved i)
        (.inr ⟨slot_ne hseen rfl heq, slot_ne hserving rfl heq⟩)
      rw [hready, update_of_ne heq]
  · -- the answer
    have hserving : s.hand = .serving j := by
      unfold hand
      rw [hcoord]
    by_cases heq : i = j
    · subst heq
      have hpending := hi.pending (.inr hserving)
      have hcounted := hi.counted fun hbad => Hand.noConfusion (hserving.symm.trans hbad)
      refine .of_answered hanswering ?_ ?_ ?_
      · rw [hready]
        exact hi.busy (.inl hserving)
      · rw [hrung, hanswered, update_self]
        exact hpending
      · rw [hanswered, hserved, update_self, hcounted]
    · refine hi.frame (congrFun hready i) (congrFun hrung i) ?_ (congrFun hserved i)
        (.inr ⟨slot_ne hserving rfl heq, slot_ne hanswering rfl heq⟩)
      rw [hanswered, update_of_ne heq]
  · -- the service is counted
    by_cases heq : i = j
    · subst heq
      have hzero := hi.busy (.inr hanswering)
      have hidle := hi.idle hzero fun hbad => Hand.noConfusion (hanswering.symm.trans hbad)
      refine .of_free (slot_ne_of_free hfree) ?_ (.inl ⟨?_, ?_⟩)
      · rw [hanswered, hserved, update_self]
        exact hi.uncounted hanswering
      · rw [hready]
        exact hzero
      · rw [hrung, hanswered]
        exact hidle
    · refine hi.frame (congrFun hready i) (congrFun hrung i) (congrFun hanswered i) ?_
        (.inr ⟨slot_ne hanswering rfl heq, slot_ne_of_free hfree⟩)
      rw [hserved, update_of_ne heq]

/-- **The doorbells of a run in order.** -/
theorem Bell.step {e : Event X Y} (h : ∀ i, Bell s i) (horder : s.InOrder e)
    (hstep : s.step cfg e = some s') (i : ℕ) :
    Bell s' i := by
  rcases step_effect hstep with ⟨-, rfl⟩ | ⟨-, hcoord⟩ |
    ⟨j, input, rfl, hcleared, -, hready, hrung, hanswered, hserved, hhand⟩ | ⟨-, hrest, hhand⟩
  · obtain ⟨hready, hanswered, hserved, hrung, hcoord, -⟩ := watchdogStep_frame cfg s
    refine (h i).frame (congrFun hready i) (congrFun hrung i) (congrFun hanswered i)
      (congrFun hserved i) (.inl ?_)
    unfold hand
    rw [hcoord]
  · exact Bell.coordStep h hcoord i
  · obtain ⟨hzero, hslot⟩ := horder j input hcleared
    by_cases heq : i = j
    · subst heq
      have hi := h i
      have hidle := hi.idle hzero fun hbad => hslot (hbad ▸ rfl)
      refine .of_free (hhand ▸ hslot) ?_ (.inr ⟨?_, ?_⟩)
      · rw [hanswered, hserved]
        exact hi.counted fun hbad => hslot (hbad ▸ rfl)
      · rw [hready, update_self]
      · rw [hrung, hanswered, update_self, hidle]
    · refine (h i).frame ?_ ?_ (congrFun hanswered i) (congrFun hserved i) (.inl hhand)
      · rw [hready, update_of_ne heq]
      · rw [hrung, update_of_ne heq]
  · exact (h i).frame (congrFun hrest.ready i) (congrFun hrest.rung i) (congrFun hrest.answered i)
      (congrFun hrest.flagServed i) (.inl hhand)

/-! ### The watchdog -/

/-- The slot was first suspected ten seconds ago, and not answered since. -/
def Guilty (s : Handshake X Y) (i : ℕ) : Prop :=
  ∃ suspect, s.suspects i = some suspect ∧ suspect.served = s.answered i ∧
    suspect.firstSeen + kDeadline ≤ s.clock

/-- What the watchdog has found out, with the states behind. -/
structure Verdict (V : Handshake X Y → Prop) (s : Handshake X Y) : Prop where
  -- each suspect rang, unanswered, when it was first seen
  suspects : ∀ i suspect, s.suspects i = some suspect →
    ∃ t, V t ∧ t.clock = suspect.firstSeen ∧ t.answered i = suspect.served ∧
      t.rung i = suspect.served + 1
  examined : ∀ i, s.Examines i → s.answered i < s.rung i
  judged : ∀ now left dead, s.watchdog = .judging now left dead → now ≤ s.clock ∧
    (∀ i ∈ left, ∃ t, V t ∧ t.clock = now ∧ t.answered i = s.answered i ∧ t.rung i = s.rung i) ∧
      ∀ i ∈ dead, s.Guilty i
  accused : ∀ left dead, s.watchdog = .poisoning left dead → ∀ i ∈ left, s.Guilty i

theorem Verdict.mono (h : Verdict V s) (hsub : ∀ t, V t → W t) : Verdict W s where
  suspects i suspect heq := by
    obtain ⟨t, ht, hrest⟩ := h.suspects i suspect heq
    exact ⟨t, hsub t ht, hrest⟩
  examined := h.examined
  judged now left dead heq := by
    obtain ⟨hnow, hleft, hdead⟩ := h.judged now left dead heq
    refine ⟨hnow, fun i hi => ?_, hdead⟩
    obtain ⟨t, ht, hrest⟩ := hleft i hi
    exact ⟨t, hsub t ht, hrest⟩
  accused := h.accused

theorem examines_congr (hwatchdog : s'.watchdog = s.watchdog) : s'.Examines i ↔ s.Examines i := by
  unfold Examines
  rw [hwatchdog]

theorem Guilty.frame (h : s.Guilty i) (hsuspects : s'.suspects = s.suspects)
    (hclock : s.clock ≤ s'.clock) (hanswered : s'.answered i = s.answered i) : s'.Guilty i := by
  obtain ⟨suspect, hsuspect, hserved, hdeadline⟩ := h
  exact ⟨suspect, hsuspects ▸ hsuspect, hserved.trans hanswered.symm, hdeadline.trans hclock⟩

/-- The watchdog does nothing, and the doorbells that it examines are left alone. -/
theorem Verdict.frame (h : Verdict V s) (hquiet : Quiet s s')
    (hcount : ∀ i, s.Examines i → s'.answered i = s.answered i ∧ s'.rung i = s.rung i) :
    Verdict V s' where
  suspects := by
    rw [hquiet.suspects]
    exact h.suspects
  examined i hi := by
    have hexamined := (examines_congr hquiet.watchdog).mp hi
    rw [(hcount i hexamined).1, (hcount i hexamined).2]
    exact h.examined i hexamined
  judged now left dead heq := by
    have hjudging := hquiet.watchdog.symm.trans heq
    have hexamines : ∀ i, i ∈ left ∨ i ∈ dead → s.Examines i := fun i hi => by
      unfold Examines
      rw [hjudging]
      exact hi
    obtain ⟨hnow, hleft, hdead⟩ := h.judged now left dead hjudging
    refine ⟨hnow.trans hquiet.clock, fun i hi => ?_, fun i hi => ?_⟩
    · rw [(hcount i (hexamines i (.inl hi))).1, (hcount i (hexamines i (.inl hi))).2]
      exact hleft i hi
    · exact (hdead i hi).frame hquiet.suspects hquiet.clock (hcount i (hexamines i (.inr hi))).1
  accused left dead heq i hi := by
    have hpoisoning := hquiet.watchdog.symm.trans heq
    have hexamined : s.Examines i := by
      unfold Examines
      rw [hpoisoning]
      exact hi
    exact (h.accused left dead hpoisoning i hi).frame hquiet.suspects hquiet.clock
      (hcount i hexamined).1

theorem Verdict.of_sampling (h : Verdict V s) {watchdog : WatchdogPC}
    {suspects : ℕ → Option Suspect} {err done : ℕ → ℤ}
    (hsuspects : ∀ i suspect, suspects i = some suspect → s.suspects i = some suspect)
    (hjudges : ¬ watchdog.Judges)
    (hexamined : ∀ i, Examines { s with watchdog, suspects, err, done } i →
      s.answered i < s.rung i) :
    Verdict V { s with watchdog, suspects, err, done } where
  suspects i suspect heq := h.suspects i suspect (hsuspects i suspect heq)
  examined := hexamined
  judged now left dead heq := by
    change watchdog = _ at heq
    exact absurd (heq ▸ trivial) hjudges
  accused left dead heq := by
    change watchdog = _ at heq
    exact absurd (heq ▸ trivial) hjudges

theorem Verdict.judge (h : Verdict V s) (hbell : ∀ i, Bell s i) {now slot : ℕ} {left dead : List ℕ}
    (hwatchdog : s.watchdog = .judging now (slot :: left) dead) :
    Verdict V (s.judge now slot left dead) := by
  have hexamines : ∀ i, i ∈ slot :: left ∨ i ∈ dead → s.Examines i := fun i hi => by
    unfold Examines
    rw [hwatchdog]
    exact hi
  obtain ⟨hnow, hleft, hdead⟩ := h.judged now (slot :: left) dead hwatchdog
  obtain ⟨hrung, hserved⟩ :=
    (hbell slot).unanswered (h.examined slot (hexamines slot (.inl mem_cons_self)))
  -- a new suspect, first seen now
  have harm : (∀ suspect, s.suspects slot = some suspect → s.flagServed slot ≠ suspect.served) →
      Verdict V { s.arm slot now with watchdog := .judging now left dead } := by
    intro hnew
    refine ⟨fun i suspect heq => ?_, fun i hi => ?_, fun now' left' dead' heq => ?_, fun _ _ heq =>
      WatchdogPC.noConfusion heq⟩
    · change update s.suspects slot _ i = some suspect at heq
      by_cases hi : i = slot
      · subst hi
        rw [update_self] at heq
        cases heq
        obtain ⟨t, ht, hclock, hanswered, hrung'⟩ := hleft i mem_cons_self
        exact ⟨t, ht, hclock, hanswered.trans hserved.symm, by rw [hrung', hrung, hserved]⟩
      · rw [update_of_ne hi] at heq
        exact h.suspects i suspect heq
    · exact h.examined i (hexamines i (hi.imp_left (mem_cons_of_mem slot)))
    · cases heq
      refine ⟨hnow, fun i hi => hleft i (mem_cons_of_mem slot hi), fun i hi => ?_⟩
      obtain ⟨suspect, hsuspect, hsame, hdeadline⟩ := hdead i hi
      refine ⟨suspect, ?_, hsame, hdeadline⟩
      have hne : i ≠ slot := fun heq => hnew suspect (heq ▸ hsuspect) (by rw [hserved, hsame, heq])
      show update s.suspects slot _ i = _
      rw [update_of_ne hne]
      exact hsuspect
  -- an old one, which is guilty when its deadline has passed
  have hpass :
      ∀ {dead' : List ℕ}, (∀ i ∈ dead', i ∈ slot :: left ∨ i ∈ dead) → (∀ i ∈ dead', s.Guilty i) →
      Verdict V { s with watchdog := .judging now left dead' } := by
    intro dead' hsub hguilty
    refine ⟨h.suspects, fun i hi => ?_, fun now' left' dead'' heq => ?_, fun _ _ heq =>
      WatchdogPC.noConfusion heq⟩
    · rcases hi with hi | hi
      · exact h.examined i (hexamines i (.inl (mem_cons_of_mem slot hi)))
      · exact h.examined i (hexamines i (hsub i hi))
    · cases heq
      exact ⟨hnow, fun i hi => hleft i (mem_cons_of_mem slot hi), hguilty⟩
  unfold Handshake.judge
  split
  · next hnone => exact harm fun suspect heq => by rw [hnone] at heq; cases heq
  · next suspect hsuspect =>
    split
    · next hprogress =>
      refine harm fun suspect' heq => ?_
      cases hsuspect.symm.trans heq
      exact hprogress
    · next hsame =>
      split
      · next hdeadline =>
        refine hpass (fun i hi => ?_) fun i hi => ?_
        · rcases mem_append.mp hi with hi | hi
          · exact .inr hi
          · exact .inl (mem_singleton.mp hi ▸ mem_cons_self)
        · rcases mem_append.mp hi with hi | hi
          · exact hdead i hi
          · rw [mem_singleton.mp hi]
            exact ⟨suspect, hsuspect, by rw [← not_not.mp hsame, hserved], hdeadline.trans hnow⟩
      · exact hpass (fun i => .inr) hdead

theorem Verdict.decide (h : Verdict V s) (hV : V s) {slot : ℕ} {ready done : ℕ → Bool}
    (hwatchdog : s.watchdog = .readingDone slot ready done) (hslot : ¬ slot < cfg.numSlots) :
    Verdict V (s.decide cfg ready done) := by
  have hpending :
      ∀ i ∈ (range cfg.numSlots).filter fun slot => ready slot && done slot, s.answered i <
      s.rung i := by
    intro i hi
    obtain ⟨hrange, hboth⟩ := mem_filter.mp hi
    have hlt := mem_range.mp hrange
    refine h.examined i ?_
    unfold Examines
    rw [hwatchdog]
    exact ⟨by omega, Bool.and_eq_true_iff.mp hboth⟩
  unfold Handshake.decide
  dsimp only
  split
  · exact h.of_sampling (fun _ _ heq => Option.noConfusion rfl (heq_of_eq heq)) id fun _ hfalse =>
      hfalse.elim
  · refine ⟨fun i suspect heq => ?_, fun i hi => ?_, fun now left dead heq => ?_, fun _ _ heq =>
      WatchdogPC.noConfusion heq⟩
    · dsimp only at heq
      split at heq
      · exact h.suspects i suspect heq
      · cases heq
    · rcases hi with hi | hi
      · exact hpending i (cfg.mem_setOrder.mp hi)
      · exact absurd hi not_mem_nil
    · cases heq
      -- the clock is read here
      exact ⟨le_refl _, fun i _ => ⟨s, hV, rfl, rfl, rfl⟩, fun i hi => absurd hi not_mem_nil⟩

theorem Verdict.watchdogStep (h : Verdict V s) (hV : V s) (hbell : ∀ i, Bell s i)
    (horder : s.InOrder .watchdog) :
    Verdict V (s.watchdogStep cfg) := by
  unfold Handshake.watchdogStep
  split
  · exact h.of_sampling (fun _ _ heq => heq) id fun _ hfalse => hfalse.elim
  · next slot ready hwatchdog =>
    split
    · exact h.of_sampling (fun _ _ heq => heq) id fun _ hfalse => hfalse.elim
    · exact h.of_sampling (fun _ _ heq => heq) id fun i hi => absurd hi.1 (Nat.not_lt_zero i)
  · next slot ready done hwatchdog =>
    split
    · have hexamined := h.examined
      unfold Examines at hexamined
      rw [hwatchdog] at hexamined
      refine h.of_sampling (fun _ _ heq => heq) id fun i ⟨hlt, hready, hdone⟩ => ?_
      by_cases heq : i = slot
      · subst heq
        rw [update_self, decide_eq_true_eq] at hdone
        -- the second sample: here the order of the flags is used
        exact horder i ready done hwatchdog hready hdone
      · rw [update_of_ne heq] at hdone
        exact hexamined i ⟨by omega, hready, hdone⟩
    · next hslot => exact h.decide hV hwatchdog hslot
  · next now slot left dead hwatchdog => exact h.judge hbell hwatchdog
  · next now dead hwatchdog =>
    -- all suspects are judged
    obtain ⟨-, -, hdead⟩ := h.judged now [] dead hwatchdog
    have hexamined := h.examined
    unfold Examines at hexamined
    rw [hwatchdog] at hexamined
    split
    · exact h.of_sampling (fun _ _ heq => heq) id fun _ hfalse => hfalse.elim
    · refine ⟨h.suspects, fun i hi => hexamined i (.inr hi), fun _ _ _ heq =>
        WatchdogPC.noConfusion heq, fun left dead' heq => ?_⟩
      cases heq
      exact hdead
  · next slot left dead hwatchdog =>
    have hexamined := h.examined
    unfold Examines at hexamined
    rw [hwatchdog] at hexamined
    refine ⟨h.suspects, fun i hi => hexamined i (mem_cons_of_mem slot hi), fun _ _ _ heq =>
      WatchdogPC.noConfusion heq, fun left' dead' heq => ?_⟩
    cases heq
    exact fun i hi => h.accused (slot :: left) dead hwatchdog i (mem_cons_of_mem slot hi)
  · exact h.of_sampling (fun _ _ heq => heq) id fun _ hfalse => hfalse.elim
  · next slot left hwatchdog =>
    refine h.of_sampling (fun i suspect heq => ?_) id fun _ hfalse => hfalse.elim
    by_cases hi : i = slot
    · rw [hi, update_self] at heq
      cases heq
    · rwa [update_of_ne hi] at heq
  · exact h.of_sampling (fun _ _ heq => heq) id fun _ hfalse => hfalse.elim

theorem Verdict.step {e : Event X Y} (h : Verdict V s) (hV : V s) (hbell : ∀ i, Bell s i)
    (horder : s.InOrder e) (hstep : s.step cfg e = some s') : Verdict V s' := by
  rcases step_effect hstep with ⟨rfl, rfl⟩ | ⟨rfl, hcoord⟩ |
    ⟨j, input, rfl, hcleared, hquiet, hready, hrung, hanswered, hserved, hhand⟩ | ⟨hquiet, hrest, -⟩
  · exact h.watchdogStep hV hbell horder
  · obtain ⟨hquiet, hrung, heffect⟩ := coordStep_effect hcoord
    refine h.frame hquiet fun i hi => ⟨?_, congrFun hrung i⟩
    rcases heffect with ⟨hrest, -⟩ | ⟨j, hrest, -⟩ | ⟨j, -, -, -, hanswered, -⟩ |
      ⟨j, hfinished, -, -, hanswered, -⟩ |
      ⟨j, -, -, -, hanswered, -⟩
    · exact congrFun hrest.answered i
    · exact congrFun hrest.answered i
    · exact congrFun hanswered i
    · have hne : i ≠ j := fun heq => horder j hfinished (heq ▸ hi)
      rw [hanswered, update_of_ne hne]
    · exact congrFun hanswered i
  · obtain ⟨hzero, hslot⟩ := horder j input hcleared
    refine h.frame hquiet fun i hi => ⟨congrFun hanswered i, ?_⟩
    have hne : i ≠ j := fun heq => by
      subst heq
      have hidle := (hbell i).idle hzero fun hbad => hslot (hbad ▸ rfl)
      have hlt := h.examined i hi
      omega
    rw [hrung, update_of_ne hne]
  · exact h.frame hquiet fun i _ => ⟨congrFun hrest.answered i, congrFun hrest.rung i⟩

end Handshake

open Transition

variable {s s' : Handshake X Y} {i : ℕ} {x : ℕ → X} {y : ℕ → Y} {es fs : List (Event X Y)}

theorem Handshake.init_bell (x : ℕ → X) (y : ℕ → Y) (i : ℕ) : Handshake.Bell { x, y } i :=
  .of_free (Handshake.slot_ne_of_free rfl) rfl (.inl ⟨rfl, rfl⟩)

theorem Handshake.init_verdict (V : Handshake X Y → Prop) (x : ℕ → X) (y : ℕ → Y) :
    Handshake.Verdict V { x, y } where
  suspects _ _ heq := by cases heq
  examined _ hfalse := hfalse.elim
  judged _ _ _ heq := by cases heq
  accused _ _ heq := by cases heq

/-- **A slot is poisoned for one doorbell only**, in a run in order: the doorbell rang when the slot
was first suspected, ten seconds ago, and has not been answered since. -/
theorem poisoned_unanswered (horder : Meets (Handshake.step cfg) Handshake.InOrder { x, y } es)
    (hrun : run (Handshake.step cfg) { x, y } es = some s) {left dead : List ℕ}
    (hpoisoning : s.watchdog = .poisoning (i :: left) dead) :
    ∃ suspect t, s.suspects i = some suspect ∧ Visits (Handshake.step cfg) { x, y } es t ∧
      t.clock = suspect.firstSeen ∧ suspect.firstSeen + kDeadline ≤ s.clock ∧
      t.rung i = s.rung i ∧ t.answered i = s.answered i ∧ s.answered i < s.rung i := by
  have hboth := run_history (fun V (s : Handshake X Y) => (∀ i, s.Bell i) ∧ s.Verdict V)
    (fun hsub h => ⟨h.1, h.2.mono hsub⟩)
    (fun hV h hallowed hstep =>
      ⟨Handshake.Bell.step h.1 hallowed hstep, h.2.step hV h.1 hallowed hstep⟩)
    ⟨Handshake.init_bell x y, Handshake.init_verdict _ x y⟩ horder hrun
  obtain ⟨hbell, hverdict⟩ := hboth
  obtain ⟨suspect, hsuspect, hserved, hdeadline⟩ := hverdict.accused _ _ hpoisoning i mem_cons_self
  obtain ⟨t, ht, hclock, hanswered, hrung⟩ := hverdict.suspects i suspect hsuspect
  have hlt : s.answered i < s.rung i := by
    refine hverdict.examined i ?_
    unfold Handshake.Examines
    rw [hpoisoning]
    exact mem_cons_self
  have hnext := ((hbell i).unanswered hlt).1
  exact ⟨suspect, t, hsuspect, ht, hclock, hdeadline, by omega, hanswered.trans hserved, hlt⟩

end FlagSync

end FreeToken
