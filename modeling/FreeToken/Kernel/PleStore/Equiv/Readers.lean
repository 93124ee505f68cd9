import FreeToken.Kernel.PleStore.Store
import Mathlib.Data.List.Perm.Basic
import Mathlib.Tactic.Linarith

/-!
# What a batch reader promises

* `BatchReader.Laws`: the reads that a reader carries, through submissions, completions and drains.
* `poolLaws`, `ringLaws`: the two readers keep the promise.
-/

namespace FreeToken

open List

variable {fin : List (Req × Option ℕ)} {r r' : Req} {done tag : ℕ} {reqs : List Req}
  {out : Option ℕ} {bounce : Memory} {all : Bool}

namespace Ple

/-- The first bytes of a read are in its buffer. -/
def HoldsTo (disk : ℕ → Bytes) (r : Req) (n : ℕ) (m : Memory) : Prop :=
  ∀ i < n, (disk r.fd)[r.off + i]? = some (m (r.buf + i))

/-- Two reads with tags and buffers of their own. -/
def Req.Apart (r r' : Req) : Prop :=
  r.tag ≠ r'.tag ∧ (r.buf + r.len ≤ r'.buf ∨ r'.buf + r'.len ≤ r.buf)

theorem Req.Apart.symm (h : r.Apart r') : r'.Apart r := ⟨h.1.symm, h.2.symm⟩

/-- Reads that may be in flight together. -/
structure Ready (reqs : List Req) : Prop where
  apart : reqs.Pairwise Req.Apart
  need_le : ∀ r ∈ reqs, r.need ≤ r.len

theorem Ready.perm {reqs' : List Req} (h : Ready reqs) (hperm : reqs.Perm reqs') : Ready reqs' :=
  ⟨(hperm.pairwise_iff Req.Apart.symm).mp h.apart, fun r hr => h.need_le r (hperm.mem_iff.mpr hr)⟩

theorem Ready.tail (h : Ready (r :: reqs)) : Ready reqs :=
  ⟨(List.pairwise_cons.mp h.apart).2, fun r' hr => h.need_le r' (mem_cons_of_mem _ hr)⟩

theorem Ready.head (h : Ready (r :: reqs)) (hr : r' ∈ reqs) : r.Apart r' :=
  (List.pairwise_cons.mp h.apart).1 r' hr

theorem Ready.cons {r : Req} {reqs : List Req} (h : Ready reqs) (hneed : r.need ≤ r.len)
    (hapart : ∀ r' ∈ reqs, r.Apart r') : Ready (r :: reqs) := by
  refine ⟨List.pairwise_cons.mpr ⟨hapart, h.apart⟩, fun r' hr => ?_⟩
  rcases List.mem_cons.mp hr with rfl | hr
  · exact hneed
  · exact h.need_le r' hr

/-- What a reader promises of the reads that are in flight. -/
structure BatchReader.Laws (disk : ℕ → Bytes) (B : BatchReader) where
  /-- These reads are in flight. -/
  Carries : B.State → List Req → Prop
  perm : ∀ {s reqs reqs'}, Carries s reqs → reqs.Perm reqs' → Carries s reqs'
  idle_iff : ∀ {s}, B.idle s ↔ Carries s []
  tags_perm : ∀ {s reqs}, Carries s reqs → (B.tags s).Perm (reqs.map Req.tag)
  room_of_lt : ∀ {s reqs}, Carries s reqs → reqs.length < B.capacity → B.room s
  carries_submit : ∀ {s reqs r}, Carries s reqs → r.need ≤ r.len → (∀ r' ∈ reqs, r.Apart r') →
    Carries (B.submit s r) (r :: reqs)
  bounce_submit : ∀ s r, B.bounce (B.submit s r) = B.bounce s
  /-- Only the buffers of reads in flight change behind the engine thread. -/
  carries_background : ∀ {s s' reqs}, Carries s reqs → B.background s s' → Carries s' reqs ∧
    ∀ a, (∀ r ∈ reqs, ¬(r.buf ≤ a ∧ a < r.buf + r.len)) → B.bounce s' a = B.bounce s a
  /-- A tag that is given is of a read whose bytes are there. -/
  carries_wait : ∀ {s s' reqs tag}, Carries s reqs → B.waitOne s (some tag) s' →
    ∃ r rest, reqs.Perm (r :: rest) ∧ r.tag = tag ∧ Carries s' rest ∧
      HoldsTo disk r r.need (B.bounce s')
  carries_error : ∀ {s s' reqs}, Carries s reqs → B.waitOne s none s' → ∃ rest, Carries s' rest
  carries_drain : ∀ {s s' reqs}, Carries s reqs → B.drain s true s' → Carries s' []

variable {disk : ℕ → Bytes}

theorem Scratched.holdsTo {n : ℕ} {m m' : Memory} (h : Scratched r done m m') (hapart : r.Apart r')
    (hn : n ≤ r'.len) (hold : HoldsTo disk r' n m) : HoldsTo disk r' n m' := by
  intro i hi
  have hout : ¬(r.buf + done ≤ r'.buf + i ∧ r'.buf + i < r.buf + r.len) := by
    have hsep := hapart.2
    omega
  rw [h _ hout]
  exact hold i hi

/-- What was read stays, and more is there. -/
theorem Got.holdsTo {got : ℕ} {m m' : Memory} (h : Got disk r done got m m')
    (hold : HoldsTo disk r done m) :
    HoldsTo disk r (done + got) m' := by
  intro i hi
  by_cases hlt : i < done
  · have hout : ¬(r.buf + done ≤ r.buf + i ∧ r.buf + i < r.buf + r.len) := by omega
    rw [h.2.1 _ hout]
    exact hold i hlt
  · have hget := h.2.2 (i - done) (by omega)
    have hsum : done + (i - done) = i := by omega
    rwa [hsum] at hget

theorem Scratched.outside {m m' : Memory} (h : Scratched r done m m') {a : ℕ}
    (ha : ¬(r.buf ≤ a ∧ a < r.buf + r.len)) : m' a = m a := h a (by omega)

/-! ### The pool -/

namespace Pool

variable {workers : ℕ} {s s' : Pool} {reqs : List Req}

/-- The reads of a pool; `fin` are those that are done. -/
structure Carrying (disk : ℕ → Bytes) (s : Pool) (reqs : List Req) (fin : List (Req × Bool)) :
    Prop where
  done : s.done = fin.map fun x => (x.1.tag, x.2)
  perm : (s.queue ++ s.working.map Prod.fst ++ fin.map Prod.fst).Perm reqs
  inFlight : s.inFlight = reqs.length
  ready : Ready reqs
  working : ∀ w ∈ s.working, w.2 ≤ w.1.len ∧ HoldsTo disk w.1 w.2 s.bounce
  finished : ∀ x ∈ fin, x.2 = false → HoldsTo disk x.1 x.1.need s.bounce

variable {fin : List (Req × Bool)}

/-- The read of a thread, and all others. -/
theorem Carrying.split (h : Carrying disk s reqs fin) {front back : List (Req × ℕ)}
    (hworking : s.working = front ++ (r, done) :: back) :
    (r :: (s.queue ++ (front ++ back).map Prod.fst ++ fin.map Prod.fst)).Perm reqs := by
  refine List.Perm.trans ?_ h.perm
  rw [hworking, perm_iff_count]
  intro a
  simp only [map_append, map_cons, count_append, count_cons]
  omega

theorem Carrying.scratch (h : Carrying disk s reqs fin) {front back : List (Req × ℕ)}
    (hworking : s.working = front ++ (r, done) :: back)
    (hscratched : Scratched r done s.bounce bounce) :
    (∀ w ∈ front ++ back, w.2 ≤ w.1.len ∧ HoldsTo disk w.1 w.2 bounce) ∧
      (∀ x ∈ fin, x.2 = false → HoldsTo disk x.1 x.1.need bounce) ∧
      ∀ a, (∀ r ∈ reqs, ¬(r.buf ≤ a ∧ a < r.buf + r.len)) → bounce a = s.bounce a := by
  have hsplit := h.split hworking
  have hready := h.ready.perm hsplit.symm
  refine ⟨fun w hw => ?_, fun x hx hok => ?_, fun a ha => ?_⟩
  · have hmem : w ∈ s.working := by
      rw [hworking]
      rcases List.mem_append.mp hw with hw | hw
      · exact mem_append_left _ hw
      · exact mem_append_right _ (mem_cons_of_mem _ hw)
    obtain ⟨hle, hold⟩ := h.working w hmem
    have hin : w.1 ∈ s.queue ++ (front ++ back).map Prod.fst ++ fin.map Prod.fst :=
      mem_append_left _ (mem_append_right _ (mem_map_of_mem hw))
    exact ⟨hle, hscratched.holdsTo (hready.head hin) hle hold⟩
  · have hin : x.1 ∈ s.queue ++ (front ++ back).map Prod.fst ++ fin.map Prod.fst :=
      mem_append_right _ (mem_map_of_mem hx)
    exact hscratched.holdsTo (hready.head hin) (hready.need_le _ (mem_cons_of_mem _ hin))
      (h.finished x hx hok)
  · exact hscratched.outside (ha r (hsplit.mem_iff.mp mem_cons_self))

theorem work_spec (h : Carrying disk s reqs fin) (hwork : Work disk workers s s') :
    (∃ fin', Carrying disk s' reqs fin') ∧
      ∀ a, (∀ r ∈ reqs, ¬(r.buf ≤ a ∧ a < r.buf + r.len)) → s'.bounce a = s.bounce a := by
  cases hwork with
  | @take r queue hqueue hfree =>
    refine ⟨⟨fin, h.done, ?_, h.inFlight, h.ready, fun w hw => ?_, h.finished⟩, fun a _ => rfl⟩
    · refine List.Perm.trans ?_ h.perm
      rw [hqueue, perm_iff_count]
      intro a
      simp only [map_cons, count_append, count_cons]
      omega
    · rcases List.mem_cons.mp hw with rfl | hw
      · exact ⟨Nat.zero_le _, fun i hi => absurd hi (Nat.not_lt_zero i)⟩
      · exact h.working w hw
  | @pread front back r done got bounce hworking hmore hgot =>
    -- the other reads go elsewhere, so what they have read stays
    obtain ⟨hothers, hfin, hframe⟩ := h.scratch hworking hgot.2.1
    refine ⟨⟨fin, h.done, ?_, h.inFlight, h.ready, fun w hw => ?_, hfin⟩, hframe⟩
    · refine List.Perm.trans ?_ h.perm
      rw [hworking, map_append, map_append, map_cons, map_cons]
    · rcases List.mem_append.mp hw with hw | hw
      · exact hothers w (mem_append_left _ hw)
      · rcases List.mem_cons.mp hw with rfl | hw
        · have hold := (h.working (r, done) (hworking ▸ mem_append_right _ mem_cons_self)).2
          exact ⟨hgot.1, hgot.holdsTo hold⟩
        · exact hothers w (mem_append_right _ hw)
  | @finish front back r done hworking henough =>
    have hmem : (r, done) ∈ s.working := hworking ▸ mem_append_right _ mem_cons_self
    refine ⟨⟨fin ++ [(r, false)], ?_, ?_, h.inFlight, h.ready, fun w hw => ?_, fun x hx hok =>
      ?_⟩, fun a _ => rfl⟩
    · show s.done ++ [(r.tag, false)] = _
      rw [h.done, map_append]
      rfl
    · refine List.Perm.trans ?_ (h.split hworking)
      rw [perm_iff_count]
      intro a
      simp only [map_append, map_cons, map_nil, count_append, count_cons, count_nil]
      omega
    · refine h.working w ?_
      rw [hworking]
      rcases List.mem_append.mp hw with hw | hw
      · exact mem_append_left _ hw
      · exact mem_append_right _ (mem_cons_of_mem _ hw)
    · rcases List.mem_append.mp hx with hx | hx
      · exact h.finished x hx hok
      · rw [List.mem_singleton.mp hx]
        exact fun i hi => (h.working _ hmem).2 i (lt_of_lt_of_le hi henough)
  | @fail front back r done bounce hworking hmore hscratched =>
    obtain ⟨hothers, hfin, hframe⟩ := h.scratch hworking hscratched
    refine ⟨⟨fin ++ [(r, true)], ?_, ?_, h.inFlight, h.ready, hothers, fun x hx hok => ?_⟩, hframe⟩
    · show s.done ++ [(r.tag, true)] = _
      rw [h.done, map_append]
      rfl
    · refine List.Perm.trans ?_ (h.split hworking)
      rw [perm_iff_count]
      intro a
      simp only [map_append, map_cons, map_nil, count_append, count_cons, count_nil]
      omega
    · rcases List.mem_append.mp hx with hx | hx
      · exact hfin x hx hok
      · rw [List.mem_singleton.mp hx] at hok
        exact absurd hok.symm Bool.false_ne_true

theorem carrying_pop (h : Carrying disk s reqs fin) {error : Bool}
    {done : List (ℕ × Bool)} (hdone : s.done = (tag, error) :: done) :
    ∃ r rest fin', reqs.Perm (r :: rest) ∧ r.tag = tag ∧
      Carrying disk { s with done, inFlight := s.inFlight - 1 } rest fin' ∧
      (error = false → HoldsTo disk r r.need s.bounce) := by
  cases fin with
  | nil =>
    have hnil := h.done
    rw [hdone] at hnil
    exact absurd hnil (cons_ne_nil _ _)
  | cons x fin =>
    have hcons := h.done
    rw [hdone, map_cons] at hcons
    obtain ⟨hx, hrest⟩ := List.cons.inj hcons
    obtain ⟨rfl, rfl⟩ := Prod.mk.inj hx
    have hperm : (x.1 :: (s.queue ++ s.working.map Prod.fst ++ fin.map Prod.fst)).Perm reqs := by
      refine List.Perm.trans ?_ h.perm
      rw [map_cons]
      exact List.perm_middle.symm
    have hready := h.ready.perm hperm.symm
    refine ⟨x.1, _, fin, hperm.symm, rfl,
      ⟨hrest, List.Perm.refl _, ?_, hready.tail, h.working, fun y hy =>
      h.finished y (mem_cons_of_mem _ hy)⟩, h.finished x mem_cons_self⟩
    show s.inFlight - 1 = _
    rw [h.inFlight, ← hperm.length_eq]
    rfl

theorem wait_spec (h : Carrying disk s reqs fin)
    (hwait : WaitOne disk workers s out s') :
    ∃ r rest fin', reqs.Perm (r :: rest) ∧ Carrying disk s' rest fin' ∧
      ∀ tag, out = some tag → r.tag = tag ∧ HoldsTo disk r r.need s'.bounce := by
  induction hwait generalizing fin with
  | work hwork _ ih =>
    obtain ⟨⟨fin', h'⟩, -⟩ := work_spec h hwork
    exact ih h'
  | @pop s tag error done hdone =>
    obtain ⟨r, rest, fin', hperm, htag, h', hold⟩ := carrying_pop h hdone
    refine ⟨r, rest, fin', hperm, h', fun tag' hout => ?_⟩
    cases error with
    | true => exact absurd hout (by simp)
    | false => exact ⟨htag.trans (Option.some.inj hout), hold rfl⟩

theorem drain_spec (h : Carrying disk s reqs fin)
    (hdrain : Drain disk workers s all s') : Carrying disk s' [] [] := by
  induction hdrain generalizing fin with
  | work hwork _ ih =>
    obtain ⟨⟨fin', h'⟩, -⟩ := work_spec h hwork
    exact ih h'
  | @clear s hall =>
    -- every read is done
    have hlen := h.perm.length_eq
    have hdone : s.done.length = fin.length := by rw [h.done, length_map]
    rw [length_append, length_append, length_map, length_map] at hlen
    have hqueue : s.queue = [] := eq_nil_of_length_eq_zero (by rw [h.inFlight] at hall; omega)
    have hworking : s.working = [] := eq_nil_of_length_eq_zero (by rw [h.inFlight] at hall; omega)
    refine ⟨rfl, ?_, rfl, ⟨List.Pairwise.nil, fun _ h => absurd h not_mem_nil⟩, fun w hw => ?_,
      fun _ hx => absurd hx not_mem_nil⟩
    · show (s.queue ++ s.working.map Prod.fst ++ [].map Prod.fst).Perm []
      rw [hqueue, hworking]
      exact List.Perm.refl _
    · have hw' : w ∈ s.working := hw
      rw [hworking] at hw'
      exact absurd hw' not_mem_nil

theorem carrying_nil :
    Carrying disk s [] [] ↔ s.queue = [] ∧ s.working = [] ∧ s.done = [] ∧ s.inFlight = 0 := by
  constructor
  · intro h
    have hnil := List.perm_nil.mp h.perm
    rw [map_nil, append_nil, append_eq_nil_iff] at hnil
    exact ⟨hnil.1, List.map_eq_nil_iff.mp hnil.2, h.done, h.inFlight⟩
  · rintro ⟨hqueue, hworking, hdone, hinFlight⟩
    refine ⟨hdone, ?_, hinFlight, ⟨List.Pairwise.nil, fun _ h => absurd h not_mem_nil⟩, ?_,
      fun _ hx => absurd hx not_mem_nil⟩
    · rw [hqueue, hworking]
      exact List.Perm.refl _
    · rw [hworking]
      exact fun _ hw => absurd hw not_mem_nil

end Pool

def poolLaws (disk : ℕ → Bytes) (workers : ℕ) : (Pool.reader disk workers).Laws disk where
  Carries s reqs := ∃ fin, Pool.Carrying disk s reqs fin
  perm := by
    rintro s reqs reqs' ⟨fin, h⟩ hperm
    exact ⟨fin, h.done, h.perm.trans hperm, h.inFlight.trans hperm.length_eq, h.ready.perm hperm,
      h.working, h.finished⟩
  idle_iff := by
    intro s
    refine Pool.carrying_nil.symm.trans ⟨fun h => ⟨[], h⟩, ?_⟩
    rintro ⟨fin, h⟩
    have hnil := List.perm_nil.mp h.perm
    obtain rfl : fin = [] := List.map_eq_nil_iff.mp (List.append_eq_nil_iff.mp hnil).2
    exact h
  tags_perm := by
    rintro s reqs ⟨fin, h⟩
    refine List.Perm.trans ?_ (h.perm.map Req.tag)
    show (s.queue.map Req.tag ++ s.working.map (fun w => w.1.tag) ++ s.done.map Prod.fst).Perm _
    rw [h.done, map_append, map_append, map_map, map_map, map_map]
    exact List.Perm.refl _
  room_of_lt := fun _ _ => trivial
  carries_submit := by
    rintro s reqs r ⟨fin, h⟩ hneed hapart
    refine ⟨fin, h.done, ?_, congrArg (· + 1) h.inFlight, h.ready.cons hneed hapart, h.working,
      h.finished⟩
    show (s.queue ++ [r] ++ s.working.map Prod.fst ++ fin.map Prod.fst).Perm _
    refine List.Perm.trans ?_ (h.perm.cons r)
    rw [append_assoc, append_assoc, append_assoc]
    exact perm_middle
  bounce_submit := fun _ _ => rfl
  carries_background := by
    rintro s s' reqs ⟨fin, h⟩ hwork
    exact Pool.work_spec h hwork
  carries_wait := by
    rintro s s' reqs tag ⟨fin, h⟩ hwait
    obtain ⟨r, rest, fin', hperm, h', hout⟩ := Pool.wait_spec h hwait
    exact ⟨r, rest, hperm, (hout tag rfl).1, ⟨fin', h'⟩, (hout tag rfl).2⟩
  carries_error := by
    rintro s s' reqs ⟨fin, h⟩ hwait
    obtain ⟨r, rest, fin', -, h', -⟩ := Pool.wait_spec h hwait
    exact ⟨rest, fin', h'⟩
  carries_drain := by
    rintro s s' reqs ⟨fin, h⟩ hdrain
    exact ⟨[], Pool.drain_spec h hdrain⟩

/-! ### The ring -/

namespace Ring

variable {s s' : Ring} {reqs : List Req}

/-- The reads of a ring; `fin` are those that are completed. -/
structure Carrying (disk : ℕ → Bytes) (s : Ring) (reqs : List Req) (fin : List (Req × Option ℕ)) :
    Prop where
  completions : s.completions = fin.map fun x => (x.1.tag, x.2)
  perm : (s.queue ++ s.running ++ fin.map Prod.fst).Perm reqs
  inFlight : s.inFlight = reqs.length
  toSubmit : s.toSubmit = s.queue.length
  ready : Ready reqs
  lens : ∀ r ∈ reqs, s.lens r.tag = r.need
  finished : ∀ x ∈ fin, ∀ res, x.2 = some res → res ≤ x.1.len ∧ HoldsTo disk x.1 res s.bounce

/-- A read that the kernel runs, and all others. -/
theorem Carrying.split (h : Carrying disk s reqs fin) {front back : List Req}
    (hrunning : s.running = front ++ r :: back) :
    (r :: (s.queue ++ (front ++ back) ++ fin.map Prod.fst)).Perm reqs := by
  refine List.Perm.trans ?_ h.perm
  rw [hrunning, perm_iff_count]
  intro a
  simp only [count_append, count_cons]
  omega

theorem Carrying.scratch (h : Carrying disk s reqs fin) {front back : List Req}
    (hrunning : s.running = front ++ r :: back) (hscratched : Scratched r 0 s.bounce bounce) :
    (∀ x ∈ fin, ∀ res, x.2 = some res → res ≤ x.1.len ∧ HoldsTo disk x.1 res bounce) ∧
      ∀ a, (∀ r ∈ reqs, ¬(r.buf ≤ a ∧ a < r.buf + r.len)) → bounce a = s.bounce a := by
  have hsplit := h.split hrunning
  have hready := h.ready.perm hsplit.symm
  refine ⟨fun x hx res hres => ?_, fun a ha => ?_⟩
  · obtain ⟨hle, hold⟩ := h.finished x hx res hres
    have hin : x.1 ∈ s.queue ++ (front ++ back) ++ fin.map Prod.fst :=
      mem_append_right _ (mem_map_of_mem hx)
    exact ⟨hle, hscratched.holdsTo (hready.head hin) hle hold⟩
  · exact hscratched.outside (ha r (hsplit.mem_iff.mp mem_cons_self))

theorem kernel_spec (h : Carrying disk s reqs fin) (hkernel : Kernel disk s s') :
    (∃ fin', Carrying disk s' reqs fin') ∧
      ∀ a, (∀ r ∈ reqs, ¬(r.buf ≤ a ∧ a < r.buf + r.len)) → s'.bounce a = s.bounce a := by
  -- a read that the kernel is done with moves to the completions
  have hmove :
      ∀ {front back : List Req} {r : Req} (res : Option ℕ), s.running = front ++ r :: back →
      s.completions ++ [(r.tag, res)] = (fin ++ [(r, res)]).map (fun x => (x.1.tag, x.2)) ∧
        (s.queue ++ (front ++ back) ++ (fin ++ [(r, res)]).map Prod.fst).Perm reqs := by
    intro front back r res hrunning
    refine ⟨?_, ?_⟩
    · rw [h.completions, map_append]
      rfl
    · refine List.Perm.trans ?_ (h.split hrunning)
      rw [perm_iff_count]
      intro a
      simp only [map_append, map_cons, map_nil, count_append, count_cons, count_nil]
      omega
  cases hkernel with
  | @read front back r bounce hrunning hscratched =>
    obtain ⟨hfin, hframe⟩ := h.scratch hrunning hscratched
    exact ⟨⟨fin, h.completions, h.perm, h.inFlight, h.toSubmit, h.ready, h.lens, hfin⟩, hframe⟩
  | @complete front back r res bounce hrunning hgot =>
    obtain ⟨hfin, hframe⟩ := h.scratch hrunning hgot.2.1
    obtain ⟨hcompletions, hperm⟩ := hmove (some res) hrunning
    refine ⟨⟨fin ++ [(r, some res)], hcompletions, hperm, h.inFlight, h.toSubmit, h.ready,
      h.lens, fun x hx res' hres => ?_⟩, hframe⟩
    rcases List.mem_append.mp hx with hx | hx
    · exact hfin x hx res' hres
    · rw [List.mem_singleton.mp hx] at hres ⊢
      obtain rfl := Option.some.inj hres
      have hold := hgot.holdsTo (fun i hi => absurd hi (Nat.not_lt_zero i))
      have hle := hgot.1
      rw [Nat.zero_add] at hold hle
      exact ⟨hle, hold⟩
  | @fail front back r bounce hrunning hscratched =>
    obtain ⟨hfin, hframe⟩ := h.scratch hrunning hscratched
    obtain ⟨hcompletions, hperm⟩ := hmove none hrunning
    refine ⟨⟨fin ++ [(r, none)], hcompletions, hperm, h.inFlight, h.toSubmit, h.ready,
      h.lens, fun x hx res' hres => ?_⟩, hframe⟩
    rcases List.mem_append.mp hx with hx | hx
    · exact hfin x hx res' hres
    · rw [List.mem_singleton.mp hx] at hres
      exact absurd hres.symm (Option.some_ne_none res')

theorem enter_spec (h : Carrying disk s reqs fin) (k : ℕ) :
    Carrying disk (s.enter k) reqs fin := by
  refine ⟨h.completions, ?_, h.inFlight, ?_, h.ready, h.lens, h.finished⟩
  · refine List.Perm.trans ?_ h.perm
    have htake : (s.queue.take k ++ s.queue.drop k).Perm s.queue := by rw [take_append_drop]
    refine List.Perm.append_right _ ?_
    show (s.queue.drop k ++ (s.queue.take k ++ s.running)).Perm (s.queue ++ s.running)
    rw [← append_assoc]
    exact (List.perm_append_comm.trans htake).append_right _
  · show s.toSubmit - k = (s.queue.drop k).length
    rw [h.toSubmit, length_drop]

theorem carrying_pop (h : Carrying disk s reqs fin) {res : Option ℕ}
    {completions : List (ℕ × Option ℕ)} (hcompletions : s.completions = (tag, res) :: completions) :
    ∃ r rest fin', reqs.Perm (r :: rest) ∧ r.tag = tag ∧ s.lens tag = r.need ∧
      Carrying disk { s with completions, inFlight := s.inFlight - 1 } rest fin' ∧
      ∀ n, res = some n → HoldsTo disk r n s.bounce := by
  cases fin with
  | nil =>
    have hnil := h.completions
    rw [hcompletions] at hnil
    exact absurd hnil (cons_ne_nil _ _)
  | cons x fin =>
    have hcons := h.completions
    rw [hcompletions, map_cons] at hcons
    obtain ⟨hx, hrest⟩ := List.cons.inj hcons
    obtain ⟨rfl, rfl⟩ := Prod.mk.inj hx
    have hperm : (x.1 :: (s.queue ++ s.running ++ fin.map Prod.fst)).Perm reqs := by
      refine List.Perm.trans ?_ h.perm
      rw [map_cons]
      exact List.perm_middle.symm
    have hready := h.ready.perm hperm.symm
    refine ⟨x.1, _, fin, hperm.symm, rfl, h.lens _ (hperm.mem_iff.mp mem_cons_self),
      ⟨hrest, List.Perm.refl _, ?_, h.toSubmit, hready.tail, fun r hr =>
      h.lens r (hperm.mem_iff.mp (mem_cons_of_mem _ hr)), fun y hy =>
      h.finished y (mem_cons_of_mem _ hy)⟩, fun n hn => (h.finished x mem_cons_self n hn).2⟩
    show s.inFlight - 1 = _
    rw [h.inFlight, ← hperm.length_eq]
    rfl

theorem wait_spec (h : Carrying disk s reqs fin)
    (hwait : WaitOne disk s out s') :
    (∃ rest fin', Carrying disk s' rest fin') ∧
      ∀ tag, out = some tag → ∃ r rest fin', reqs.Perm (r :: rest) ∧ r.tag = tag ∧
        Carrying disk s' rest fin' ∧
        HoldsTo disk r r.need s'.bounce := by
  induction hwait generalizing fin with
  | kernel hkernel _ ih =>
    obtain ⟨⟨fin', h'⟩, -⟩ := kernel_spec h hkernel
    exact ih h'
  | enter _ _ _ ih => exact ih (enter_spec h _)
  | @pop s tag res completions hcompletions =>
    obtain ⟨r, rest, fin', hperm, htag, hlens, h', hold⟩ := carrying_pop h hcompletions
    refine ⟨⟨rest, fin', h'⟩, fun tag' hout => ?_⟩
    cases res with
    | none => exact absurd hout.symm (Option.some_ne_none tag')
    | some n =>
      unfold outcome at hout
      rw [Option.bind_some, hlens] at hout
      by_cases hshort : n < r.need
      · rw [if_pos hshort] at hout
        exact absurd hout.symm (Option.some_ne_none tag')
      · rw [if_neg hshort] at hout
        exact ⟨r, rest, fin', hperm, htag.trans (Option.some.inj hout), h',
          fun i hi => hold n rfl i (lt_of_lt_of_le hi (not_lt.mp hshort))⟩
  | enterFailed _ =>
    exact ⟨⟨reqs, fin, h⟩, fun tag hout => absurd hout.symm (Option.some_ne_none tag)⟩

theorem drain_spec (h : Carrying disk s reqs fin) (hdrain : Drain disk s all s')
    (hall : all = true) : ∃ fin', Carrying disk s' [] fin' := by
  induction hdrain generalizing fin reqs with
  | kernel hkernel _ ih =>
    obtain ⟨⟨fin', h'⟩, -⟩ := kernel_spec h hkernel
    exact ih h' hall
  | enter _ _ _ _ ih => exact ih (enter_spec h _) hall
  | @empty s hnone =>
    rw [h.inFlight] at hnone
    obtain rfl := eq_nil_of_length_eq_zero hnone
    exact ⟨fin, h⟩
  | @pop s s2 completion completions all hsome hcompletions hrest ih =>
    obtain ⟨tag, res⟩ := completion
    obtain ⟨r, rest, fin', -, -, -, h', -⟩ := carrying_pop h hcompletions
    exact ih h' hall
  | enterFailed _ _ => exact absurd hall Bool.false_ne_true

theorem carrying_nil : (∃ fin, Carrying disk s [] fin) ↔
    s.queue = [] ∧ s.toSubmit = 0 ∧ s.running = [] ∧ s.completions = [] ∧ s.inFlight = 0 := by
  constructor
  · rintro ⟨fin, h⟩
    have hnil := List.perm_nil.mp h.perm
    rw [append_eq_nil_iff, append_eq_nil_iff] at hnil
    obtain rfl : fin = [] := List.map_eq_nil_iff.mp hnil.2
    refine ⟨hnil.1.1, ?_, hnil.1.2, h.completions, h.inFlight⟩
    rw [h.toSubmit, hnil.1.1]
    rfl
  · rintro ⟨hqueue, hsubmit, hrunning, hcompletions, hinFlight⟩
    refine ⟨[], hcompletions, ?_, hinFlight, ?_,
      ⟨List.Pairwise.nil, fun _ h => absurd h not_mem_nil⟩, fun _ h =>
      absurd h not_mem_nil, fun _ hx => absurd hx not_mem_nil⟩
    · rw [hqueue, hrunning]
      exact List.Perm.refl _
    · rw [hsubmit, hqueue]
      rfl

end Ring

def ringLaws (disk : ℕ → Bytes) (entries : ℕ) : (Ring.reader disk entries).Laws disk where
  Carries s reqs := ∃ fin, Ring.Carrying disk s reqs fin
  perm := by
    rintro s reqs reqs' ⟨fin, h⟩ hperm
    exact ⟨fin, h.completions, h.perm.trans hperm, h.inFlight.trans hperm.length_eq, h.toSubmit,
      h.ready.perm hperm, fun r hr => h.lens r (hperm.mem_iff.mpr hr), h.finished⟩
  idle_iff := Ring.carrying_nil.symm
  tags_perm := by
    rintro s reqs ⟨fin, h⟩
    refine List.Perm.trans ?_ (h.perm.map Req.tag)
    show (s.queue.map Req.tag ++ s.running.map Req.tag ++ s.completions.map Prod.fst).Perm _
    rw [h.completions, map_append, map_append, map_map, map_map]
    exact List.Perm.refl _
  room_of_lt := by
    rintro s reqs ⟨fin, h⟩ hlt
    have hlen := h.perm.length_eq
    rw [length_append, length_append] at hlen
    show s.queue.length < entries
    have hcap : reqs.length < entries := hlt
    omega
  carries_submit := by
    rintro s reqs r ⟨fin, h⟩ hneed hapart
    refine ⟨fin, h.completions, ?_, congrArg (· + 1) h.inFlight, ?_,
      h.ready.cons hneed hapart, fun r' hr => ?_, h.finished⟩
    · show (s.queue ++ [r] ++ s.running ++ fin.map Prod.fst).Perm _
      refine List.Perm.trans ?_ (h.perm.cons r)
      rw [append_assoc, append_assoc, append_assoc]
      exact perm_middle
    · show s.toSubmit + 1 = (s.queue ++ [r]).length
      rw [h.toSubmit, length_append, length_singleton]
    · show (if r'.tag = r.tag then r.need else s.lens r'.tag) = r'.need
      rcases List.mem_cons.mp hr with rfl | hr
      · rw [if_pos rfl]
      · rw [if_neg (hapart r' hr).1.symm]
        exact h.lens r' hr
  bounce_submit := fun _ _ => rfl
  carries_background := by
    rintro s s' reqs ⟨fin, h⟩ hkernel
    exact Ring.kernel_spec h hkernel
  carries_wait := by
    rintro s s' reqs tag ⟨fin, h⟩ hwait
    obtain ⟨r, rest, fin', hperm, htag, h', hold⟩ := (Ring.wait_spec h hwait).2 tag rfl
    exact ⟨r, rest, hperm, htag, ⟨fin', h'⟩, hold⟩
  carries_error := by
    rintro s s' reqs ⟨fin, h⟩ hwait
    exact (Ring.wait_spec h hwait).1
  carries_drain := by
    rintro s s' reqs ⟨fin, h⟩ hdrain
    exact Ring.drain_spec h hdrain rfl

end Ple

end FreeToken
