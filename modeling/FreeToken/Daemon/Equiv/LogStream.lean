import FreeToken.Daemon.LogStream
import FreeToken.Lib.Consecutive
import FreeToken.Lib.Transition
import Mathlib.Order.Lattice

/-!
# A log stream is honest about its gaps

What a stream has not sent lies in one line: the records that were dropped, the queue, the callbacks
and the records that have still to be pushed, each with consecutive numbers.  Sent frames account
for all numbers before that line.

* `Accounted`: which numbers the frames account for.
* `LiveAt`: the line, with the numbers at which its parts begin.
* `step_inv`: every orderly step keeps the invariant.
-/

namespace FreeToken

open List Option

variable {boundary : ℕ} {l callbacks : List Record} {old : Record}

namespace LogStream

/-! ### Frames -/

variable {out : List Frame} {a skip : ℕ} {first : ℤ}

theorem tally_append (out out' : List Frame) (m : ℕ) :
    tally (out ++ out') m = tally out m + tally out' m :=
  countP_append

theorem tally_record (record : Record) (m : ℕ) :
    tally [.record record] m = if record.seq = m then 1 else 0 := by
  rw [tally, countP_singleton]
  simp only [Frame.covers, decide_eq_true_eq]

theorem tally_gap (dropped fromSeq toSeq : ℤ) (m : ℕ) :
    tally [.gap dropped (some fromSeq) (some toSeq)] m = if fromSeq ≤ m ∧ (m : ℤ) ≤ toSeq then 1
      else 0 := by
  rw [tally, countP_singleton]
  simp only [Frame.covers, any_some, Bool.and_eq_true, decide_eq_true_eq]

theorem records_append (out out' : List Frame) :
    records (out ++ out') = records out ++ records out' := by
  induction out with
  | nil => rfl
  | cons frame out ih =>
    cases frame with
    | record record => exact congrArg (record :: ·) ih
    | gap => exact ih

@[simp] theorem records_record (record : Record) : records [.record record] = [record] := rfl

@[simp] theorem records_gap (dropped : ℤ) (fromSeq toSeq : Option ℤ) :
    records [.gap dropped fromSeq toSeq] = [] := rfl

/-- The frames account once for the numbers from `first` on up to `a`, except for `skip`, and for no
others. -/
def Accounted (out : List Frame) (first : ℤ) (a skip : ℕ) : Prop :=
  ∀ m : ℕ, tally out m = if first ≤ m ∧ m < a ∧ m ≠ skip then 1 else 0

/-- The next record. -/
theorem Accounted.next {r : Record} (h : Accounted out first r.seq r.seq) (hlo : first ≤ r.seq) :
    Accounted (out ++ [.record r]) first (r.seq + 1) (r.seq + 1) := by
  intro m
  rw [tally_append, h m, tally_record]
  split_ifs <;> omega

theorem Accounted.skipped {r : Record} (h : Accounted out first a r.seq) (hlo : first ≤ r.seq)
    (hlt : r.seq < a) :
    Accounted (out ++ [.record r]) first a a := by
  intro m
  rw [tally_append, h m, tally_record]
  split_ifs <;> omega

theorem Accounted.widen (h : Accounted out first a a) : Accounted out first (a + 1) a := by
  intro m
  rw [h m]
  split_ifs <;> omega

theorem Accounted.gap {f t : ℕ} {dropped : ℤ} (h : Accounted out first a a) (hlo : first ≤ a)
    (hlt : f < t) (hf : f = a ∧ skip = t ∨ f = a + 1 ∧ skip = a) :
    Accounted (out ++ [.gap dropped (some (f : ℤ)) (some ((t - 1 : ℕ) : ℤ))]) first t skip := by
  intro m
  rw [tally_append, h m, tally_gap]
  split_ifs <;> omega

/-! ### The invariant of a stream -/

/-- The records that come after the backlog. -/
def live (boundary : ℕ) (l : List Record) : List Record := l.filter fun r => boundary ≤ r.seq

/-- The drop counters stand for the numbers from `f` to `t`. -/
structure Dropped (drop : Drop) (f t : ℕ) : Prop where
  count : drop.n + f = t
  none_eq : f = t → drop.fromSeq = none
  some_eq : f < t → drop.fromSeq = some f ∧ drop.toSeq = some (t - 1)

theorem Dropped.add {drop : Drop} {f t : ℕ} (h : Dropped drop f t) (hold : old.seq = t) :
    Dropped (drop.add old) f (t + 1) := by
  have hcount := h.count
  refine ⟨?_, fun heq => by omega, fun _ => ⟨?_, ?_⟩⟩
  · show drop.n + 1 + f = t + 1
    omega
  · show some (drop.fromSeq.getD old.seq) = some f
    rcases lt_or_ge f t with hlt | hge
    · rw [(h.some_eq hlt).1]
      rfl
    · have heq : f = t := by omega
      rw [h.none_eq heq, hold, heq]
      rfl
  · show some old.seq = some (t + 1 - 1)
    rw [hold]
    rfl

theorem dropped_empty (t : ℕ) : Dropped {} t t :=
  ⟨Nat.zero_add t, fun _ => rfl, fun h => absurd h (lt_irrefl t)⟩

namespace Stream

variable {st st' : Stream} {history : List Record} {next f t h e : ℕ} {r : Record} {ring : LogRing}

/-- The first number that the stream has to do with. -/
def origin (st : Stream) : ℤ := min st.since st.boundary

/-- The records that the generator of the stream holds. -/
def held (st : Stream) : List Record :=
  match st.phase with
  | .starting backlog _ => backlog
  | .replaying left _ => left
  | .got r => [r]
  | .announced r => [r]
  | _ => []

/-- What was sent, where the drop counters begin at `f`, end at `t`, and the queue begins at `h`. -/
def Sent (st : Stream) (f t h : ℕ) : Prop :=
  match st.phase with
  | .opening => False
  | .starting backlog cursor => cursor = st.boundary ∧ f = st.boundary ∧ t = h ∧ st.out = [] ∧
    ∃ o, Consecutive Record.seq o backlog cursor ∧ (st.since ≤ o ∨ o = cursor)
  | .replaying left cursor => cursor = st.boundary ∧ f = st.boundary ∧ t = h ∧
    ∃ o, Consecutive Record.seq o left cursor ∧ st.origin ≤ o ∧ Accounted st.out st.origin o o ∧
      ∀ r ∈ records st.out, r.seq < o
  | .waiting => t = h ∧ Accounted st.out st.origin f f ∧ st.lastSeq < f ∧
    ∀ r ∈ records st.out, (r.seq : ℤ) ≤ st.lastSeq
  -- what was dropped was dropped before the record was taken, or else after
  | .got r => (t = r.seq ∧ h = r.seq + 1 ∧ Accounted st.out st.origin f f ∧ st.lastSeq < f ∨
      t = h ∧ f = r.seq + 1 ∧ st.boundary ≤ r.seq ∧ Accounted st.out st.origin r.seq r.seq) ∧
        st.lastSeq < r.seq ∧
    ∀ r ∈ records st.out, (r.seq : ℤ) ≤ st.lastSeq
  | .announced r => t = h ∧ Accounted st.out st.origin f r.seq ∧ r.seq < f ∧ st.boundary ≤ r.seq ∧
    st.lastSeq < r.seq ∧
    ∀ r ∈ records st.out, (r.seq : ℤ) ≤ st.lastSeq
  | .closed => False

/-- What was not sent: dropped records from `f` on, the queue and the callbacks from `h` on, and
from `e` on the records that have still to be pushed. -/
structure LiveAt (st : Stream) (next f t h e : ℕ) : Prop where
  base : st.boundary ≤ f
  dropped : Dropped st.drop f t
  full : f < t → t = h → st.queue ≠ []
  queued : Consecutive Record.seq h (st.queue ++ live st.boundary st.callbacks) e
  pushed : Consecutive Record.seq e (live st.boundary st.pushes) next
  sent : st.Sent f t h

/-- What a client can rely on at any time. -/
structure Output (history : List Record) (since : ℤ) (out : List Frame) : Prop where
  increasing : (records out).Pairwise fun a b => a.seq < b.seq
  genuine : ∀ r ∈ records out, history[r.seq]? = some r
  once : ∀ m : ℕ, since ≤ m → tally out m ≤ 1
  complete : ∀ r ∈ records out, ∀ m : ℕ, since ≤ m → m ≤ r.seq → tally out m = 1
  counted : ∀ dropped fromSeq toSeq, Frame.gap dropped (some fromSeq) (some toSeq) ∈ out →
    dropped = toSeq - fromSeq + 1

/-- What holds of a stream that was opened, with `next` records in the history. -/
structure Inv (history : List Record) (next : ℕ) (st : Stream) : Prop where
  output : Output history st.since st.out
  known : ∀ r ∈ st.pushes ++ st.callbacks ++ st.queue ++ st.held, history[r.seq]? = some r
  bounded : st.boundary ≤ next
  fresh : st.phase = .opening → st.out = [] ∧ st.queue = [] ∧ st.drop = {} ∧
    ∀ r ∈ st.pushes ++ st.callbacks, r.seq < next
  flows : st.phase ≠ .opening → st.phase ≠ .closed → ∃ f t h e, st.LiveAt next f t h e

theorem init_inv (history : List Record) (next : ℕ) (since : ℤ) :
    Stream.Inv history next { since } where
  output :=
    { increasing := .nil
      genuine := fun _ h => absurd h not_mem_nil
      once := fun _ _ => Nat.zero_le 1
      complete := fun _ h => absurd h not_mem_nil
      counted := fun _ _ _ h => absurd h not_mem_nil }
  known _ h := absurd h not_mem_nil
  bounded := Nat.zero_le next
  fresh _ := ⟨rfl, rfl, rfl, fun _ h => absurd h not_mem_nil⟩
  flows h := absurd rfl h

/-! ### The steps of a stream -/

theorem live_append (boundary : ℕ) (l l' : List Record) :
    live boundary (l ++ l') = live boundary l ++ live boundary l' :=
  filter_append ..

theorem live_cons_of_le (hr : boundary ≤ r.seq) (l : List Record) :
    live boundary (r :: l) = r :: live boundary l := by
  rw [live, filter_cons, if_pos (decide_eq_true hr)]
  rfl

theorem live_cons_of_lt (hr : r.seq < boundary) (l : List Record) :
    live boundary (r :: l) = live boundary l := by
  rw [live, filter_cons, if_neg (by simpa using hr)]
  rfl

theorem live_erase (boundary : ℕ) (l : List Record) (r : Record) :
    live boundary (l.erase r) = (live boundary l).erase r :=
  erase_filter.symm

theorem mem_live : r ∈ live boundary l ↔ r ∈ l ∧ boundary ≤ r.seq := by
  rw [live, mem_filter, decide_eq_true_eq]

/-- Only the lists of callbacks have changed. -/
theorem Inv.of_callbacks {pushes : List Record} (hinv : st.Inv history next)
    (hsub : ∀ r ∈ pushes ++ callbacks, r ∈ st.pushes ++ st.callbacks)
    (hflows : st.phase ≠ .opening → st.phase ≠ .closed →
      ∃ f t h e, Stream.LiveAt { st with pushes, callbacks } next f t h e) :
    Stream.Inv history next { st with pushes, callbacks } where
  output := hinv.output
  known r hr := by
    rw [append_assoc] at hr
    refine hinv.known r ?_
    rw [append_assoc]
    exact mem_append.mpr ((mem_append.mp hr).imp_left (hsub r))
  bounded := hinv.bounded
  fresh hphase := by
    obtain ⟨hout, hqueue, hdrop, hlt⟩ := hinv.fresh hphase
    exact ⟨hout, hqueue, hdrop, fun r hr => hlt r (hsub r hr)⟩
  flows := hflows

theorem Inv.push (hinv : st.Inv history next) (horder : st.phase ≠ .opening → st.subscribed →
    ∀ earlier ∈ st.pushes, st.boundary ≤ earlier.seq → r.seq ≤ earlier.seq)
    (hstep : st.push r = some st') : st'.Inv history next := by
  obtain ⟨hmem, heq⟩ := ite_none_right_eq_some.mp hstep
  rw [← Option.some.inj heq]
  refine hinv.of_callbacks (fun x hx => ?_) fun hopening hclosed => ?_
  · simp only [mem_append, mem_singleton] at hx ⊢
    rcases hx with hx | hx | rfl
    · exact .inl (mem_of_mem_erase hx)
    · exact .inr hx
    · exact .inl hmem
  · obtain ⟨f, t, h, e, hlive⟩ := hinv.flows hopening hclosed
    rcases lt_or_ge r.seq st.boundary with hlt | hge
    · -- the backlog has the record
      have hnot : r ∉ live st.boundary st.pushes := fun hr => absurd (mem_live.mp hr).2 (by omega)
      refine ⟨f, t, h, e, hlive.base, hlive.dropped, hlive.full, ?_, ?_, hlive.sent⟩
      · show Consecutive Record.seq h (st.queue ++ live st.boundary (st.callbacks ++ [r])) e
        rw [live_append, live_cons_of_lt hlt]
        exact (append_nil (live st.boundary st.callbacks)).symm ▸ hlive.queued
      · show Consecutive Record.seq e (live st.boundary (st.pushes.erase r)) next
        rw [live_erase, erase_of_not_mem hnot]
        exact hlive.pushed
    · -- the record is the first of those that are left
      have hrest : ∃ rest, live st.boundary st.pushes = r :: rest := by
        have hr := mem_live.mpr ⟨hmem, hge⟩
        have hpushed := hlive.pushed
        cases hl : live st.boundary st.pushes with
        | nil =>
          rw [hl] at hr
          cases hr
        | cons x rest =>
          rw [hl] at hr hpushed
          have hx : x ∈ live st.boundary st.pushes := by rw [hl]; exact mem_cons_self
          have hle :=
            horder hopening (decide_eq_true hclosed) x (mem_live.mp hx).1 (mem_live.mp hx).2
          rcases mem_cons.mp hr with rfl | hr
          · exact ⟨rest, rfl⟩
          · have hlater := hpushed.2.of_mem hr
            have hfirst := hpushed.1
            omega
      obtain ⟨rest, hl⟩ := hrest
      have hpushed := hlive.pushed
      rw [hl] at hpushed
      refine ⟨f, t, h, e + 1, hlive.base, hlive.dropped, hlive.full, ?_, ?_, hlive.sent⟩
      · show Consecutive Record.seq h (st.queue ++ live st.boundary (st.callbacks ++ [r])) (e + 1)
        rw [live_append, live_cons_of_le hge, ← append_assoc]
        exact hlive.queued.snoc hpushed.1
      · show Consecutive Record.seq (e + 1) (live st.boundary (st.pushes.erase r)) next
        rw [live_erase, hl, erase_cons_head]
        exact hpushed.2

theorem LiveAt.overflow (hlive : st.LiveAt next f t h e) (hold : old.seq = h)
    (horder : ∀ r, st.phase = .got r → ∀ fromSeq, st.drop.fromSeq = some fromSeq →
      r.seq < fromSeq) :
    ∃ f', st.boundary ≤ f' ∧ Dropped (st.drop.add old) f' (h + 1) ∧ st.Sent f' (h + 1) (h + 1) := by
  have hsent := hlive.sent
  have hbase := hlive.base
  have hadd : t = h → Dropped (st.drop.add old) f (h + 1) := fun heq => by
    rw [← heq]
    exact hlive.dropped.add (hold.trans heq.symm)
  unfold Sent at hsent ⊢
  cases hphase : st.phase with
  | opening =>
    rw [hphase] at hsent
    exact hsent.elim
  | starting backlog cursor =>
    rw [hphase] at hsent
    exact ⟨f, hbase, hadd hsent.2.2.1, hsent.1, hsent.2.1, rfl, hsent.2.2.2⟩
  | replaying left cursor =>
    rw [hphase] at hsent
    exact ⟨f, hbase, hadd hsent.2.2.1, hsent.1, hsent.2.1, rfl, hsent.2.2.2⟩
  | waiting =>
    rw [hphase] at hsent
    exact ⟨f, hbase, hadd hsent.1, rfl, hsent.2⟩
  | got r =>
    rw [hphase] at hsent
    obtain ⟨⟨ht, hh, hacc, -⟩ | ⟨ht, hf, hb, hacc⟩, hlast, hle⟩ := hsent
    · -- nothing was dropped before the record was taken
      have hft : f = t := by
        by_contra hne
        have hlt : f < t := by have hcount := hlive.dropped.count; omega
        have hlater := horder r hphase f (hlive.dropped.some_eq hlt).1
        omega
      have hnone : Dropped st.drop h h := by
        have hcount := hlive.dropped.count
        have hfrom := hlive.dropped.none_eq hft
        exact ⟨by omega, fun _ => hfrom, fun hlt => absurd hlt (lt_irrefl h)⟩
      have hrf : f = r.seq := hft.trans ht
      refine ⟨h, by omega, hnone.add hold, .inr ⟨rfl, hh, by omega, ?_⟩, hlast, hle⟩
      rw [← hrf]
      exact hacc
    · exact ⟨f, hbase, hadd ht, .inr ⟨rfl, hf, hb, hacc⟩, hlast, hle⟩
  | announced r =>
    rw [hphase] at hsent
    exact ⟨f, hbase, hadd hsent.1, rfl, hsent.2⟩
  | closed =>
    rw [hphase] at hsent
    exact hsent.elim

theorem enqueue_cases (st : Stream) (r : Record) :
    st.enqueue r = { st with queue := st.queue ++ [r] } ∨ ∃ old queue, st.queue = old :: queue ∧
      kQueueSize ≤ st.queue.length ∧
        st.enqueue r = { st with queue := queue ++ [r], drop := st.drop.add old } := by
  unfold enqueue
  cases hqueue : st.queue with
  | nil => exact .inl rfl
  | cons old queue =>
    dsimp only
    split
    · next hfull => exact .inr ⟨old, queue, rfl, hfull, rfl⟩
    · exact .inl rfl

theorem Inv.enqueue (hinv : st.Inv history next) (hopening : st.phase ≠ .opening)
    (hcallbacks : st.callbacks = r :: callbacks) (hge : st.boundary ≤ r.seq)
    (horder : kQueueSize ≤ st.queue.length → ∀ r, st.phase = .got r →
      ∀ fromSeq, st.drop.fromSeq = some fromSeq → r.seq < fromSeq) :
    (Stream.enqueue { st with callbacks } r).Inv history next := by
  have hknown : ∀ queue, (∀ x ∈ queue, x ∈ st.queue) →
      ∀ x ∈ st.pushes ++ callbacks ++ (queue ++ [r]) ++ st.held, history[x.seq]? = some x := by
    intro queue hqueue x hx
    refine hinv.known x ?_
    rw [hcallbacks]
    simp only [mem_append, mem_cons, not_mem_nil, or_false] at hx ⊢
    rcases hx with ((hx | hx) | hx | hx) | hx
    · exact .inl (.inl (.inl hx))
    · exact .inl (.inl (.inr (.inr hx)))
    · exact .inl (.inr (hqueue x hx))
    · exact .inl (.inl (.inr (.inl hx)))
    · exact .inr hx
  have hlive : st.phase ≠ .closed → ∃ f t h e, st.LiveAt next f t h e ∧
      Consecutive Record.seq h (st.queue ++ (r :: live st.boundary callbacks)) e :=
        fun hclosed => by
    obtain ⟨f, t, h, e, hlive⟩ := hinv.flows hopening hclosed
    have hqueued := hlive.queued
    rw [hcallbacks, live_cons_of_le hge] at hqueued
    exact ⟨f, t, h, e, hlive, hqueued⟩
  -- there is room, or the oldest record is dropped
  rcases enqueue_cases { st with callbacks } r with heq | ⟨old, queue, hqueue, hfull, heq⟩
  · rw [heq]
    refine ⟨hinv.output, hknown st.queue fun _ => id, hinv.bounded, fun hphase =>
      absurd hphase hopening, fun _ hclosed => ?_⟩
    obtain ⟨f, t, h, e, hlive, hqueued⟩ := hlive hclosed
    refine ⟨f, t, h, e, hlive.base, hlive.dropped, fun _ _ => append_ne_nil_of_right_ne_nil _
      (cons_ne_nil r []), ?_, hlive.pushed, hlive.sent⟩
    show Consecutive Record.seq h (st.queue ++ [r] ++ live st.boundary callbacks) e
    rw [append_assoc]
    exact hqueued
  · rw [heq]
    change st.queue = old :: queue at hqueue
    refine ⟨hinv.output, hknown queue fun x hx => ?_, hinv.bounded, fun hphase =>
      absurd hphase hopening, fun _ hclosed => ?_⟩
    · rw [hqueue]
      exact mem_cons_of_mem old hx
    · obtain ⟨f, t, h, e, hlive, hqueued⟩ := hlive hclosed
      rw [hqueue] at hqueued
      obtain ⟨f', hbase, hdropped, hsent⟩ := hlive.overflow hqueued.1 (horder hfull)
      refine ⟨f', h + 1, h + 1, e, hbase, hdropped,
        fun _ _ => append_ne_nil_of_right_ne_nil _ (cons_ne_nil r []), ?_, hlive.pushed, hsent⟩
      show Consecutive Record.seq (h + 1) (queue ++ [r] ++ live st.boundary callbacks) e
      rw [append_assoc]
      exact hqueued.2

theorem Inv.put (hinv : st.Inv history next) (horder : st.Overflows → ∀ r, st.phase = .got r →
    ∀ fromSeq, st.drop.fromSeq = some fromSeq → r.seq < fromSeq) (hstep : st.put = some st') :
    st'.Inv history next := by
  unfold Stream.put at hstep
  split at hstep
  · next r callbacks hcallbacks =>
    split at hstep
    · cases hstep
    · next hopening =>
      rw [← Option.some.inj hstep]
      have hsub : ∀ x ∈ callbacks, x ∈ st.callbacks := fun x hx => by
        rw [hcallbacks]
        exact mem_cons_of_mem r hx
      split
      · next hlt =>
        refine hinv.of_callbacks (fun x hx => ?_) fun _ hclosed => ?_
        · exact mem_append.mpr ((mem_append.mp hx).imp_right (hsub x))
        · obtain ⟨f, t, h, e, hlive⟩ := hinv.flows hopening hclosed
          have hqueued := hlive.queued
          rw [hcallbacks, live_cons_of_lt hlt] at hqueued
          exact ⟨f, t, h, e, hlive.base, hlive.dropped, hlive.full, hqueued, hlive.pushed,
            hlive.sent⟩
      · next hge =>
        exact hinv.enqueue hopening hcallbacks (not_lt.mp hge) fun hfull =>
          horder ⟨hfull, r, callbacks, hcallbacks, not_lt.mp hge⟩
  · cases hstep

theorem Inv.take (hinv : st.Inv history next) (hstep : st.take = some st') :
    st'.Inv history next := by
  obtain ⟨hphase, hstep⟩ := ite_none_right_eq_some.mp hstep
  split at hstep
  · next r queue hqueue =>
    rw [← Option.some.inj hstep]
    refine ⟨hinv.output, fun x hx => hinv.known x ?_, hinv.bounded, fun hp =>
      Phase.noConfusion hp, fun _ _ => ?_⟩
    · have hheld : x ∈ [r] ∨ x ∈ st.pushes ++ st.callbacks ++ queue :=
        (mem_append.mp hx).symm
      rw [hqueue]
      simp only [mem_append, mem_cons, not_mem_nil, or_false] at hheld ⊢
      tauto
    · have hne : st.phase ≠ .opening := by rw [hphase]; exact Phase.noConfusion
      have hne' : st.phase ≠ .closed := by rw [hphase]; exact Phase.noConfusion
      obtain ⟨f, t, h, e, hlive⟩ := hinv.flows hne hne'
      have hqueued := hlive.queued
      rw [hqueue] at hqueued
      have hsent := hlive.sent
      unfold Sent at hsent
      rw [hphase] at hsent
      obtain ⟨ht, hacc, hlast, hle⟩ := hsent
      have hseq : r.seq = h := hqueued.1
      have hcount := hlive.dropped.count
      refine ⟨f, t, h + 1, e, hlive.base, hlive.dropped, fun _ heq => by omega, hqueued.2,
        hlive.pushed, ?_⟩
      have hlt : st.lastSeq < r.seq := by omega
      exact ⟨.inl ⟨by omega, by omega, hacc, hlast⟩, hlt, hle⟩
  · cases hstep

theorem Output.record (hout : Output history st.since st.out) (hknown : history[r.seq]? = some r)
    (hlt : ∀ x ∈ records st.out, x.seq < r.seq) (hfirst : st.origin ≤ st.since)
    (hacc : Accounted (st.out ++ [.record r]) st.origin a a) (hle : r.seq < a) :
    Output history st.since (st.out ++ [.record r]) where
  increasing := by
    rw [records_append, records_record]
    refine pairwise_append.mpr ⟨hout.increasing, pairwise_singleton _ r, fun x hx y hy => ?_⟩
    rw [mem_singleton.mp hy]
    exact hlt x hx
  genuine x hx := by
    rw [records_append, records_record] at hx
    rcases mem_append.mp hx with hx | hx
    · exact hout.genuine x hx
    · rw [mem_singleton.mp hx]
      exact hknown
  once m _ := by
    rw [hacc m]
    split <;> omega
  complete x hx m hm hmx := by
    rw [records_append, records_record] at hx
    have hxr : x.seq ≤ r.seq := by
      rcases mem_append.mp hx with hx | hx
      · exact (hlt x hx).le
      · rw [mem_singleton.mp hx]
    rw [hacc m, if_pos ⟨hfirst.trans hm, by omega, by omega⟩]
  counted dropped fromSeq toSeq hmem := by
    rcases mem_append.mp hmem with hmem | hmem
    · exact hout.counted dropped fromSeq toSeq hmem
    · cases mem_singleton.mp hmem

theorem Output.gap {skip : ℕ} {dropped fromSeq toSeq : ℤ} (hout : Output history st.since st.out)
    (hfirst : st.origin ≤ st.since)
    (hacc : Accounted (st.out ++ [.gap dropped (some fromSeq) (some toSeq)]) st.origin a skip)
    (hlt : ∀ x ∈ records st.out, x.seq < a ∧ x.seq < skip)
    (hcount : dropped = toSeq - fromSeq + 1) :
    Output history st.since (st.out ++ [.gap dropped (some fromSeq) (some toSeq)]) := by
  have hrecords :
    records (st.out ++ [.gap dropped (some fromSeq) (some toSeq)]) = records st.out := by
    rw [records_append, records_gap, append_nil]
  constructor
  · rw [hrecords]
    exact hout.increasing
  · rw [hrecords]
    exact hout.genuine
  · intro m _
    rw [hacc m]
    split <;> omega
  · intro x hx m hm hmx
    rw [hrecords] at hx
    have hboth := hlt x hx
    rw [hacc m, if_pos ⟨hfirst.trans hm, by omega, by omega⟩]
  · intro dropped' fromSeq' toSeq' hmem
    rcases mem_append.mp hmem with hmem | hmem
    · exact hout.counted dropped' fromSeq' toSeq' hmem
    · cases mem_singleton.mp hmem
      exact hcount

theorem origin_le (st : Stream) : st.origin ≤ st.since := min_le_left ..

theorem origin_le_boundary (st : Stream) : st.origin ≤ st.boundary := min_le_right ..

theorem Inv.send (hinv : st.Inv history next) (hknown : history[r.seq]? = some r)
    (hphase : st.phase ≠ .opening) (hclosed : st.phase ≠ .closed)
    (hheld : ∀ f t h e, st.LiveAt next f t h e → ∃ f', st.LiveAt next f' h h e ∧ r.seq < f' ∧
      Accounted (st.out ++ [.record r]) st.origin f' f' ∧ ∀ x ∈ records st.out, (x.seq : ℤ) <
        r.seq) :
    (st.send r).Inv history next := by
  obtain ⟨f, t, h, e, hlive⟩ := hinv.flows hphase hclosed
  obtain ⟨f', hlive', hlt, hacc, hle⟩ := hheld f t h e hlive
  refine ⟨hinv.output.record hknown (fun x hx => Int.ofNat_lt.mp (hle x hx)) st.origin_le hacc hlt,
    fun x hx => hinv.known x ?_, hinv.bounded, fun hp => Phase.noConfusion hp, fun _ _ => ?_⟩
  · exact mem_append_left _ ((mem_append.mp hx).resolve_right not_mem_nil)
  · refine ⟨f', h, h, e, hlive'.base, hlive'.dropped, hlive'.full, hlive'.queued, hlive'.pushed,
      rfl, hacc, ?_, ?_⟩
    · show (r.seq : ℤ) < f'
      omega
    · show ∀ x ∈ records (st.out ++ [.record r]), (x.seq : ℤ) ≤ r.seq
      intro x hx
      rw [records_append, records_record] at hx
      rcases mem_append.mp hx with hx | hx
      · exact (hle x hx).le
      · rw [mem_singleton.mp hx]

theorem Inv.deliver (hinv : st.Inv history next) (hstep : st.deliver = some st') :
    st'.Inv history next := by
  unfold Stream.deliver at hstep
  split at hstep
  · next r hphase =>
    rw [← Option.some.inj hstep]
    have hknown :=
      hinv.known r (mem_append_right _ (by unfold held; rw [hphase]; exact mem_singleton.mpr rfl))
    refine hinv.send hknown (by rw [hphase]; exact Phase.noConfusion)
      (by rw [hphase]; exact Phase.noConfusion) fun f t h e hlive => ?_
    have hsent := hlive.sent
    unfold Sent at hsent
    rw [hphase] at hsent
    obtain ⟨ht, hacc, hlt, hb, hlast, hle⟩ := hsent
    have hfirst : st.origin ≤ r.seq := st.origin_le_boundary.trans (by omega)
    exact ⟨f, ht ▸ hlive, hlt, hacc.skipped hfirst hlt, fun x hx => (hle x hx).trans_lt hlast⟩
  · cases hstep

/-- Where no record was dropped before the generator took its record, `f` comes after that record.
-/
theorem LiveAt.of_count_eq_zero (hlive : st.LiveAt next f t h e) (hphase : st.phase = .got r)
    (hzero : st.drop.n = 0) :
    st.LiveAt next (r.seq + 1) h h e := by
  have hcount := hlive.dropped.count
  have hbase := hlive.base
  have hft : f = t := by omega
  have hnone : ∀ k, Dropped st.drop k k := fun k => by
    have hfrom := hlive.dropped.none_eq hft
    exact ⟨by omega, fun _ => hfrom, fun hlt => absurd hlt (lt_irrefl k)⟩
  have hsent := hlive.sent
  unfold Sent at hsent
  rw [hphase] at hsent
  have hh : h = r.seq + 1 := by
    rcases hsent.1 with ⟨-, hh, -⟩ | ⟨ht, hf, -⟩
    · exact hh
    · omega
  subst hh
  refine ⟨?_, hnone _, fun hlt _ => absurd hlt (lt_irrefl _), hlive.queued, hlive.pushed, ?_⟩
  · rcases hsent.1 with ⟨ht, -⟩ | ⟨-, -, hb, -⟩ <;> omega
  · unfold Sent
    rw [hphase]
    refine ⟨.inr ⟨rfl, rfl, ?_, ?_⟩, hsent.2⟩
    · rcases hsent.1 with ⟨ht, -⟩ | ⟨-, -, hb, -⟩ <;> omega
    · rcases hsent.1 with ⟨ht, -, hacc, -⟩ | ⟨-, -, -, hacc⟩
      · have hf : f = r.seq := by omega
        rw [← hf]
        exact hacc
      · exact hacc

theorem Inv.announce (hinv : st.Inv history next) (hphase : st.phase = .got r)
    (hn : st.drop.n ≠ 0) :
    Stream.Inv history next
      { st with phase := .announced r, drop := {}, out := st.out ++ [st.drop.toFrame] } := by
  obtain ⟨f, t, h, e, hlive⟩ := hinv.flows (by rw [hphase]; exact Phase.noConfusion)
    (by rw [hphase]; exact Phase.noConfusion)
  have hcount := hlive.dropped.count
  have hbase := hlive.base
  have hlt : f < t := by omega
  have hframe : st.drop.toFrame = .gap st.drop.n (some (f : ℤ)) (some ((t - 1 : ℕ) : ℤ)) := by
    unfold Drop.toFrame
    rw [(hlive.dropped.some_eq hlt).1, (hlive.dropped.some_eq hlt).2]
    rfl
  have hsent := hlive.sent
  unfold Sent at hsent
  rw [hphase] at hsent
  obtain ⟨hside, hlast, hle⟩ := hsent
  have horigin := st.origin_le_boundary
  -- the numbers that are accounted for now: all before `h`, except for the record
  have hacc :
      Accounted (st.out ++ [st.drop.toFrame]) st.origin h r.seq ∧ st.boundary ≤ r.seq ∧
      r.seq < h := by
    rw [hframe]
    rcases hside with ⟨ht, hh, hacc, -⟩ | ⟨ht, hf, hb, hacc⟩
    · rw [hh]
      refine ⟨Accounted.widen (ht ▸ hacc.gap (by omega) hlt (.inl ⟨rfl, rfl⟩)), by omega, by omega⟩
    · refine ⟨ht ▸ hacc.gap (by omega) hlt (.inr ⟨hf, rfl⟩), hb, by omega⟩
  refine ⟨?_, fun x hx => hinv.known x ?_, hinv.bounded, fun hp => Phase.noConfusion hp, fun _ _ =>
    ?_⟩
  · have hacc' := hacc.1
    show Output history st.since (st.out ++ [st.drop.toFrame])
    rw [hframe] at hacc' ⊢
    refine hinv.output.gap st.origin_le hacc' (fun x hx => ?_) (by omega)
    have hxle := hle x hx
    omega
  · unfold held at hx ⊢
    rw [hphase]
    exact hx
  · refine ⟨h, h, h, e, by show st.boundary ≤ h; omega, dropped_empty h, fun hlt =>
      absurd hlt (lt_irrefl h), hlive.queued, hlive.pushed, rfl, hacc.1, hacc.2.2, hacc.2.1, hlast,
      ?_⟩
    show ∀ x ∈ records (st.out ++ [st.drop.toFrame]), (x.seq : ℤ) ≤ st.lastSeq
    rw [records_append, hframe, records_gap, append_nil]
    exact hle

theorem Inv.process (hinv : st.Inv history next) (hstep : st.process = some st') :
    st'.Inv history next := by
  unfold Stream.process at hstep
  split at hstep
  · next r hphase =>
    have hopening : st.phase ≠ .opening := by rw [hphase]; exact Phase.noConfusion
    have hclosed : st.phase ≠ .closed := by rw [hphase]; exact Phase.noConfusion
    have hgot : ∀ {f t h e}, st.LiveAt next f t h e → st.lastSeq < r.seq ∧
        ∀ x ∈ records st.out, (x.seq : ℤ) ≤ st.lastSeq := fun hlive => by
      have hsent := hlive.sent
      unfold Sent at hsent
      rw [hphase] at hsent
      exact hsent.2
    rw [← Option.some.inj hstep]
    split
    · -- the record is newer than all that were sent
      next hold =>
      obtain ⟨f, t, h, e, hlive⟩ := hinv.flows hopening hclosed
      have hlast := (hgot hlive).1
      omega
    · split
      · next hn => exact hinv.announce hphase hn
      · next hn =>
        have hknown := hinv.known r
          (mem_append_right _ (by unfold held; rw [hphase]; exact mem_singleton.mpr rfl))
        refine hinv.send hknown hopening hclosed fun f t h e hlive => ?_
        have hnext := hlive.of_count_eq_zero hphase (not_not.mp hn)
        have hsent := hnext.sent
        unfold Sent at hsent
        rw [hphase] at hsent
        refine ⟨r.seq + 1, hnext, Nat.lt_succ_self r.seq, ?_, fun x hx => ?_⟩
        · rcases hsent.1 with ⟨hr, hh, -⟩ | ⟨-, -, hb, hacc⟩
          · omega
          · exact hacc.next (st.origin_le_boundary.trans (by omega))
        · exact ((hgot hlive).2 x hx).trans_lt (hgot hlive).1
  · cases hstep

theorem oldest_eq {o cursor : ℕ} {backlog : List Record}
    (hrun : Consecutive Record.seq o backlog cursor) :
    (backlog.head?.map Record.seq).getD cursor = o := by
  cases backlog with
  | nil => exact hrun.symm
  | cons r backlog => exact hrun.1

theorem Inv.start (hinv : st.Inv history next) (hstep : st.start = some st') :
    st'.Inv history next := by
  unfold Stream.start at hstep
  split at hstep
  · next backlog cursor hphase =>
    obtain ⟨f, t, h, e, hlive⟩ := hinv.flows (by rw [hphase]; exact Phase.noConfusion)
      (by rw [hphase]; exact Phase.noConfusion)
    have hsent := hlive.sent
    unfold Sent at hsent
    rw [hphase] at hsent
    obtain ⟨hcursor, hf, ht, hout, o, hrun, hside⟩ := hsent
    have hle := hrun.le
    have horigin : st.origin = min st.since st.boundary := rfl
    -- `o` is the number of the oldest record of the backlog
    have hlo : st.origin ≤ o := by omega
    have hknown :
      ∀ x ∈ st.pushes ++ st.callbacks ++ st.queue ++ backlog, history[x.seq]? = some x := by
      have hheld := hinv.known
      unfold held at hheld
      rw [hphase] at hheld
      exact hheld
    have hflows : ∀ out, Accounted out st.origin o o → records out = [] →
        ∃ f t h e, Stream.LiveAt { st with phase := .replaying backlog cursor, out } next f t h e :=
      fun out hacc hnone =>
        ⟨f, t, h, e, hlive.base, hlive.dropped, hlive.full, hlive.queued, hlive.pushed,
        hcursor, hf, ht, o, hrun, hlo, hacc, fun x hx => by rw [hnone] at hx; cases hx⟩
    rw [← Option.some.inj hstep]
    dsimp only
    rw [oldest_eq hrun]
    split
    · next hlt =>
      have hacc :
          Accounted (st.out ++ [.gap (o - st.since) (some st.since) (some (o - 1))]) st.origin o
          o := by
        intro m
        rw [hout, nil_append, tally_gap]
        split_ifs <;> omega
      refine ⟨hinv.output.gap st.origin_le hacc (fun x hx => ?_) (by omega), hknown, hinv.bounded,
        fun hp => Phase.noConfusion hp, fun _ _ => hflows _ hacc ?_⟩
      · rw [hout] at hx
        cases hx
      · rw [hout]
        rfl
    · next hge =>
      have hacc : Accounted st.out st.origin o o := by
        intro m
        rw [hout, if_neg (by omega)]
        rfl
      exact ⟨hinv.output, hknown, hinv.bounded, fun hp => Phase.noConfusion hp,
        fun _ _ => hflows st.out hacc (by rw [hout]; rfl)⟩
  · cases hstep

theorem Inv.replay (hinv : st.Inv history next) (hstep : st.replay = some st') :
    st'.Inv history next := by
  unfold Stream.replay at hstep
  split at hstep
  · next r left cursor hphase =>
    obtain ⟨f, t, h, e, hlive⟩ := hinv.flows (by rw [hphase]; exact Phase.noConfusion)
      (by rw [hphase]; exact Phase.noConfusion)
    have hsent := hlive.sent
    unfold Sent at hsent
    rw [hphase] at hsent
    obtain ⟨hcursor, hf, ht, o, hrun, hlo, hacc, hlt⟩ := hsent
    have hheld := hinv.known
    unfold held at hheld
    rw [hphase] at hheld
    -- the backlog is a run, so its head is the next sequence number
    have hseq : r.seq = o := hrun.1
    subst hseq
    have hnext := hacc.next hlo
    rw [← Option.some.inj hstep]
    refine ⟨hinv.output.record (hheld r (mem_append_right _ mem_cons_self)) hlt st.origin_le hnext
      (Nat.lt_succ_self r.seq), fun x hx => hheld x ?_, hinv.bounded, fun hp =>
      Phase.noConfusion hp, fun _ _ => ?_⟩
    · exact mem_append.mpr ((mem_append.mp hx).imp_right (mem_cons_of_mem r))
    · refine ⟨f, t, h, e, hlive.base, hlive.dropped, hlive.full, hlive.queued, hlive.pushed,
        hcursor, hf, ht, r.seq + 1, hrun.2, ?_, hnext, ?_⟩
      · show st.origin ≤ ((r.seq + 1 : ℕ) : ℤ)
        omega
      · intro x hx
        change x ∈ records (st.out ++ [.record r]) at hx
        rw [records_append, records_record] at hx
        rcases mem_append.mp hx with hx | hx
        · exact Nat.lt_succ_of_lt (hlt x hx)
        · rw [mem_singleton.mp hx]
          exact Nat.lt_succ_self r.seq
  · next cursor hphase =>
    obtain ⟨f, t, h, e, hlive⟩ := hinv.flows (by rw [hphase]; exact Phase.noConfusion)
      (by rw [hphase]; exact Phase.noConfusion)
    have hsent := hlive.sent
    unfold Sent at hsent
    rw [hphase] at hsent
    obtain ⟨hcursor, hf, ht, o, hrun, hlo, hacc, hlt⟩ := hsent
    have hheld := hinv.known
    unfold held at hheld
    rw [hphase] at hheld
    -- the backlog is used up, and the live records come next
    have ho : o = f := (show o = cursor from hrun).trans (hcursor.trans hf.symm)
    subst ho
    rw [← Option.some.inj hstep]
    refine ⟨hinv.output, hheld, hinv.bounded, fun hp => Phase.noConfusion hp, fun _ _ =>
      ⟨o, t, h, e, hlive.base, hlive.dropped, hlive.full, hlive.queued, hlive.pushed, ht, hacc,
        ?_, fun x hx => ?_⟩⟩
    · show (cursor : ℤ) - 1 < o
      omega
    · have hxo := hlt x hx
      show (x.seq : ℤ) ≤ (cursor : ℤ) - 1
      omega
  · cases hstep

theorem live_eq_nil (hl : ∀ r ∈ l, r.seq < boundary) : live boundary l = [] := by
  refine filter_eq_nil_iff.mpr fun r hr hle => ?_
  have hlt := hl r hr
  have hge := of_decide_eq_true hle
  omega

theorem Inv.snapshot (hinv : st.Inv history ring.next) {first : ℕ}
    (hring : Consecutive Record.seq first ring.buf ring.next)
    (hbuf : ∀ r ∈ ring.buf, history[r.seq]? = some r)
    (hstep : st.snapshot ring = some st') : st'.Inv history ring.next := by
  obtain ⟨hphase, heq⟩ := ite_none_right_eq_some.mp hstep
  obtain ⟨hout, hqueue, hdrop, hlt⟩ := hinv.fresh hphase
  obtain ⟨o, hrun, -, hside⟩ := hring.filter_le st.since
  rw [← Option.some.inj heq]
  refine ⟨hinv.output, fun x hx => ?_, le_refl ring.next, fun hp => Phase.noConfusion hp, fun _ _ =>
    ?_⟩
  · rcases mem_append.mp hx with hx | hx
    · exact hinv.known x (mem_append_left _ hx)
    · exact hbuf x (mem_filter.mp hx).1
  · refine ⟨ring.next, ring.next, ring.next, ring.next, le_refl ring.next, ?_, fun hlt =>
      absurd hlt (lt_irrefl _), ?_, ?_, rfl, rfl, rfl, hout, o, hrun, hside⟩
    · show Dropped st.drop ring.next ring.next
      rw [hdrop]
      exact dropped_empty ring.next
    · show Consecutive Record.seq ring.next (st.queue ++ live ring.next st.callbacks) ring.next
      rw [hqueue, live_eq_nil fun r hr => hlt r (mem_append_right _ hr)]
      exact .nil ring.next
    · show Consecutive Record.seq ring.next (live ring.next st.pushes) ring.next
      rw [live_eq_nil fun r hr => hlt r (mem_append_left _ hr)]
      exact .nil ring.next

theorem Inv.close (hinv : st.Inv history next) (hstep : st.close = some st') :
    st'.Inv history next := by
  obtain ⟨-, heq⟩ := ite_none_right_eq_some.mp hstep
  rw [← Option.some.inj heq]
  refine ⟨hinv.output, fun x hx => hinv.known x ?_, hinv.bounded, fun hp => Phase.noConfusion hp,
    fun _ hclosed => absurd rfl hclosed⟩
  exact mem_append_left _ ((mem_append.mp hx).resolve_right not_mem_nil)

theorem history_append {x : Record} (hx : history[x.seq]? = some x) (new : List Record) :
    (history ++ new)[x.seq]? = some x := by
  obtain ⟨hlt, -⟩ := List.getElem?_eq_some_iff.mp hx
  rw [getElem?_append_left hlt]
  exact hx

theorem Output.append {since : ℤ} {out : List Frame} (hout : Output history since out)
    (new : List Record) :
    Output (history ++ new) since out where
  increasing := hout.increasing
  genuine r hr := history_append (hout.genuine r hr) new
  once := hout.once
  complete := hout.complete
  counted := hout.counted

theorem Inv.onAppend (hinv : st.Inv history next) (hlength : history.length = next)
    (hr : r.seq = next) :
    (st.onAppend r).Inv (history ++ [r]) (next + 1) := by
  unfold Stream.onAppend
  split
  · refine ⟨hinv.output.append [r], fun x hx => ?_, Nat.le_succ_of_le hinv.bounded, fun hphase =>
      ?_, fun hopening hclosed => ?_⟩
    -- the new record is the last of the history
    · by_cases hxr : x = r
      · rw [hxr, hr, ← hlength, getElem?_concat_length]
      · refine history_append (hinv.known x ?_) [r]
        simp only [mem_append, mem_singleton] at hx ⊢
        exact hx.imp_left (Or.imp_left (Or.imp_left (Or.resolve_right · hxr)))
    · obtain ⟨hout, hqueue, hdrop, hlt⟩ := hinv.fresh hphase
      refine ⟨hout, hqueue, hdrop, fun x hx => ?_⟩
      simp only [mem_append, mem_singleton] at hx hlt
      rcases hx with (hx | rfl) | hx
      · exact Nat.lt_succ_of_lt (hlt x (.inl hx))
      · omega
      · exact Nat.lt_succ_of_lt (hlt x (.inr hx))
    · obtain ⟨f, t, h, e, hlive⟩ := hinv.flows hopening hclosed
      refine ⟨f, t, h, e, hlive.base, hlive.dropped, hlive.full, hlive.queued, ?_, hlive.sent⟩
      show Consecutive Record.seq e (live st.boundary (st.pushes ++ [r])) (next + 1)
      have hbounded := hinv.bounded
      rw [live_append, live_cons_of_le (by omega)]
      exact hlive.pushed.snoc hr
  -- a closed stream does not see it
  · next hclosed =>
    have hphase : st.phase = .closed := by
      unfold subscribed at hclosed
      simpa using hclosed
    exact ⟨hinv.output.append [r], fun x hx => history_append (hinv.known x hx)
      [r], Nat.le_succ_of_le hinv.bounded, fun hp => Phase.noConfusion (hphase.symm.trans hp),
      fun _ hne => absurd hphase hne⟩

end Stream

/-! ### Runs -/

variable {s s' : System} {e : Event} {es : List Event}

/-- What holds in every state of a run that is orderly for the stream `id`. -/
structure System.Inv (id : ℕ) (s : System) : Prop where
  length : s.history.length = s.ring.next
  ring : ∃ first, Consecutive Record.seq first s.ring.buf s.ring.next
  kept : ∀ r ∈ s.ring.buf, s.history[r.seq]? = some r
  stream : ∀ st, s.streams id = some st → st.Inv s.history s.ring.next

theorem System.init_inv (capacity id : ℕ) : System.Inv id { ring := { capacity } } where
  length := rfl
  ring := ⟨0, rfl⟩
  kept _ h := absurd h not_mem_nil
  stream _ h := by cases h

/-- A step of one stream leaves the others alone. -/
theorem System.Inv.onStream {id id₀ : ℕ} {f : Stream → Option Stream} (h : s.Inv id)
    (hf : id₀ = id → ∀ st st', s.streams id = some st → f st = some st' →
      st'.Inv s.history s.ring.next) (hstep : s.onStream id₀ f = some s') : s'.Inv id := by
  obtain ⟨st', hst', rfl⟩ := map_eq_some_iff.mp hstep
  obtain ⟨st, hst, hfst⟩ := bind_eq_some_iff.mp hst'
  refine ⟨h.length, h.ring, h.kept, fun st'' hst'' => ?_⟩
  change Function.update s.streams id₀ (some st') id = some st'' at hst''
  by_cases hid : id = id₀
  · subst hid
    rw [Function.update_self] at hst''
    rw [← Option.some.inj hst'']
    exact hf rfl st st' hst hfst
  · rw [Function.update_of_ne hid] at hst''
    exact h.stream st'' hst''

theorem System.Inv.append {id : ℕ} (h : s.Inv id) (text : Text) (kind : RecordKind) (ts : ℤ)
    (hstep : s.step (.append text kind ts) = some s') : s'.Inv id := by
  rw [← Option.some.inj hstep]
  obtain ⟨first, hring⟩ := h.ring
  have hlength := h.length
  refine ⟨?_, ⟨_, (hring.snoc (x := (s.ring.append text kind ts).1) rfl).drop _⟩, fun r hr =>
    ?_, fun st hst => ?_⟩
  · show (s.history ++ [_]).length = s.ring.next + 1
    rw [length_append, hlength, length_singleton]
  · rcases mem_append.mp (mem_of_mem_drop hr) with hr | hr
    · exact Stream.history_append (h.kept r hr) _
    · rw [mem_singleton.mp hr]
      show (s.history ++ [_])[s.ring.next]? = _
      rw [← hlength, getElem?_concat_length]
  · obtain ⟨st', hst', rfl⟩ := map_eq_some_iff.mp hst
    exact (h.stream st' hst').onAppend hlength rfl

/-- **Every orderly step keeps the invariant.** -/
theorem step_inv {id : ℕ} (h : s.Inv id) (horderly : Orderly id s e) (hstep : s.step e = some s') :
    s'.Inv id := by
  cases e with
  | append text kind ts => exact h.append text kind ts hstep
  | openStream id₀ since lastEventId =>
    obtain ⟨-, heq⟩ := ite_none_right_eq_some.mp hstep
    rw [← Option.some.inj heq]
    refine ⟨h.length, h.ring, h.kept, fun st hst => ?_⟩
    change Function.update s.streams id₀ _ id = some st at hst
    by_cases hid : id = id₀
    · subst hid
      rw [Function.update_self] at hst
      rw [← Option.some.inj hst]
      exact Stream.init_inv ..
    · rw [Function.update_of_ne hid] at hst
      exact h.stream st hst
  | snapshot =>
    obtain ⟨first, hring⟩ := h.ring
    exact h.onStream (fun _ st _ hst hstep => (h.stream st hst).snapshot hring h.kept hstep) hstep
  | push =>
    exact h.onStream (fun hid st _ hst hstep => (h.stream st hst).push (horderly hid st hst) hstep)
      hstep
  | put => exact h.onStream (fun hid st _ hst hstep => (h.stream st hst).put (horderly hid st hst) hstep) hstep
  | start => exact h.onStream (fun _ st _ hst hstep => (h.stream st hst).start hstep) hstep
  | replay => exact h.onStream (fun _ st _ hst hstep => (h.stream st hst).replay hstep) hstep
  | take => exact h.onStream (fun _ st _ hst hstep => (h.stream st hst).take hstep) hstep
  | process => exact h.onStream (fun _ st _ hst hstep => (h.stream st hst).process hstep) hstep
  | deliver => exact h.onStream (fun _ st _ hst hstep => (h.stream st hst).deliver hstep) hstep
  | close => exact h.onStream (fun _ st _ hst hstep => (h.stream st hst).close hstep) hstep

theorem Stream.Inv.gapHonest {st : Stream} (h : st.Inv s.history s.ring.next) : GapHonest s st where
  increasing := h.output.increasing
  genuine := h.output.genuine
  once := h.output.once
  complete := h.output.complete
  counted := h.output.counted
  caughtUp := by
    rintro ⟨hphase, hpushes, hcallbacks, hqueue⟩ m hm hlt
    obtain ⟨f, t, h, e, hlive⟩ := h.flows (by rw [hphase]; exact Phase.noConfusion)
      (by rw [hphase]; exact Phase.noConfusion)
    have hsent := hlive.sent
    unfold Sent at hsent
    rw [hphase] at hsent
    obtain ⟨ht, hacc, -⟩ := hsent
    -- the line is empty
    have hpushed := hlive.pushed
    have hqueued := hlive.queued
    rw [hpushes] at hpushed
    rw [hqueue, hcallbacks] at hqueued
    have he : e = s.ring.next := hpushed
    have hh : h = e := hqueued
    have hft : f = t := by
      by_contra hne
      have hcount := hlive.dropped.count
      exact hlive.full (by omega) ht hqueue
    rw [hacc m, if_pos ⟨st.origin_le.trans hm, by omega, by omega⟩]

open Transition

/-- **The log stream is gap-honest**, in a run in which no producer overtakes another on the way to
it. -/
theorem log_stream_gapHonest {capacity id : ℕ} {st : Stream}
    (hmeets : Meets System.step (Orderly id) { ring := { capacity } } es)
    (hrun : run System.step { ring := { capacity } } es = some s) (hst : s.streams id = some st) :
    GapHonest s st := by
  have hinv : s.Inv id := run_invariant step_inv (System.init_inv capacity id) hmeets hrun
  exact (hinv.stream st hst).gapHonest

private def note (seq : ℕ) : Record := ⟨seq, 0, .event, []⟩

/-- A ring for one record has evicted the first of two when a client comes; a third comes while the
client is there. -/
private def evictedRun : List Event :=
  [.append [] .event 0, .append [] .event 0, .openStream 0 0 none, .snapshot 0, .start 0, .replay 0,
    .replay 0, .append [] .event 0, .push 0 (note 2), .put 0, .take 0, .process 0]

theorem log_stream_gapHonest_evicted : ∃ s st, s.streams 0 = some st ∧
    st.out = [.gap 1 (some 0) (some 0), .record (note 1), .record (note 2)] ∧ GapHonest s st := by
  have hmeets : Meets System.step (Orderly 0) { ring := { capacity := 1 } } evictedRun := by
    refine .cons trivial rfl
      (.cons trivial rfl
      (.cons trivial rfl
      (.cons trivial rfl
      (.cons trivial rfl
      (.cons trivial rfl
      (.cons trivial rfl
      (.cons trivial rfl
      (.cons ?_ rfl (.cons ?_ rfl (.cons trivial rfl (.cons trivial rfl trivial)))))))))))
    · intro _ st hst _ _ earlier hmem _
      cases hst
      rw [mem_singleton.mp hmem]
      exact le_refl 2
    · intro _ st hst hover
      cases hst
      exact absurd hover.1 (by decide)
  have hrun : run System.step { ring := { capacity := 1 } } evictedRun = some _ := rfl
  exact ⟨_, _, rfl, rfl, @log_stream_gapHonest _ _ 1 0 _ hmeets hrun rfl⟩

/-- The second of two producers is the first to push: the record of the other is never sent, and no
gap says so. -/
theorem not_log_stream_gapHonest :
    ¬ ∀ (capacity id : ℕ) (es : List Event) (s : System) (st : Stream),
    run System.step { ring := { capacity } } es = some s → s.streams id = some st →
      GapHonest s st := by
  intro h
  have hhonest :=
    h 10 0 [.openStream 0 0 none, .snapshot 0, .start 0, .replay 0, .append [] .event 0,
    .append [] .event 0, .push 0 (note 1), .push 0 (note 0), .put 0, .put 0, .take 0, .process 0,
      .take 0, .process 0]
    _ _ rfl rfl
  exact absurd (hhonest.caughtUp ⟨rfl, rfl, rfl, rfl⟩ 0 (by decide) (by decide)) (by decide)

end LogStream

end FreeToken
