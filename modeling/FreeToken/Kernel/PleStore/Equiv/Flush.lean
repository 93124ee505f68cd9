import FreeToken.Kernel.PleStore.Equiv.Store
import Mathlib.Data.List.Perm.Subperm

/-!
# Every row is delivered

* `Going`: the reads that a flush has in flight, and the rows that are in place.
* `step_spec`: what every step keeps, and what it does.
* `ple_delivers_iff`: this holds of every run, up to a drain that gives up.
-/

namespace FreeToken

open Function List

variable {tag workers k : ℕ} {out : List ℕ} {staged : List (ℤ × ℕ)} {p : Pending} {held : Option ℕ}
  {q : Queue} {tagPending : ℕ → ℕ} {all : Bool} {disk : ℕ → Bytes} {labels : List Label}

namespace Ple

variable {s : PleStore} {B : BatchReader} {L : B.Laws (diskOf s.files)}

def RowAt (s : PleStore) (mem : Memory) (row : ℤ) (dst : ℕ) : Prop :=
  ∀ i < s.rowBytes, s.rowByte row i = some (mem (dst + i))

def reqAt (s : PleStore) (q : Queue) (tagPending : ℕ → ℕ) (tag : ℕ) : Req :=
  s.slotReq (q.pending.getD (tagPending tag) ⟨0, 0, 0, 0, []⟩) tag

/-- A flush at work: the tags in flight, and the entry of the queue whose row is being copied. -/
structure Going (L : B.Laws (diskOf s.files)) (sys : Sys B) (f : Flush) (out : List ℕ)
    (held : Option ℕ) : Prop where
  carries : L.Carries sys.reader (out.map (reqAt s sys.queue f.tagPending))
  nodup : out.Nodup
  tags : ∀ tag ∈ out, tag < B.capacity ∧ f.tagPending tag < f.next
  next_le : f.next ≤ sys.queue.pending.length
  /-- What was submitted is in flight, is being copied or is in place. -/
  delivered : ∀ row k, sys.queue.index row = some k → k < f.next →
    k ∈ out.map f.tagPending ∨ held = some k ∨ ∀ dst, (row, dst) ∈ sys.staged →
      RowAt s sys.mem row dst

inductive Flying (L : B.Laws (diskOf s.files)) (sys : Sys B) (f : Flush) : Prop where
  | fill {tag : ℕ} {out : List ℕ} (hphase : f.phase = .fill tag) (h : Going L sys f out none)
      (hnext : f.next = tag)
      (hcompleted : f.completed = 0) (hlt : ∀ t ∈ out, t < tag) (hlen : out.length = tag)
  | wait {out : List ℕ} (hphase : f.phase = .wait) (h : Going L sys f out none)
      (hcount : f.completed + out.length = f.next)
  | copy {tag : ℕ} {dsts out : List ℕ} {row : ℤ} {p : Pending} (hphase : f.phase = .copy tag dsts)
      (h : Going L sys f out (some (f.tagPending tag)))
      (hcount : f.completed + 1 + out.length = f.next)
      (htag : tag ∉ out ∧ tag < B.capacity) (hp : sys.queue.pending[f.tagPending tag]? = some p)
      (hrow : sys.queue.index row = some (f.tagPending tag))
      (hslot : ∀ i < s.rowBytes, s.rowByte row i =
        some (B.bounce sys.reader (tag * kSpanMax + p.rowOff + i)))
      (hdsts : ∀ dst ∈ dsts, (row, dst) ∈ sys.staged)
      (hrest : ∀ dst, (row, dst) ∈ sys.staged → RowAt s sys.mem row dst ∨ dst ∈ dsts)
  | failed {reqs : List Req} (hphase : f.phase = .failed) (h : L.Carries sys.reader reqs)

structure Inv (L : B.Laws (diskOf s.files)) (sys : Sys B) : Prop where
  staged : Staged s sys.staged sys.queue
  apart : ∀ r ∈ sys.staged, ∀ r' ∈ sys.staged, r = r' ∨ Apart s.rowBytes r.2 r'.2
  idle : sys.flush = none → L.Carries sys.reader []
  flying : ∀ f, sys.flush = some f → Flying L sys f

/-! ### Slots -/

/-- An entry of the queue, with its row. -/
theorem Staged.entry (h : Staged s staged q)
    (hp : q.pending[k]? = some p) :
    ∃ row, q.index row = some k ∧ p.Reads s row ∧ ∀ dst, dst ∈ p.dsts ↔ (row, dst) ∈ staged := by
  obtain ⟨row, hrow⟩ := h.all k (List.getElem?_eq_some_iff.mp hp).1
  obtain ⟨p', hp', hreads, hdsts⟩ := h.get row k hrow
  obtain rfl := Option.some.inj (hp.symm.trans hp')
  exact ⟨row, hrow, hreads, hdsts⟩

theorem reqAt_eq (hp : q.pending[tagPending tag]? = some p) :
    reqAt s q tagPending tag = s.slotReq p tag := by
  unfold reqAt
  rw [getD_eq_getElem?_getD, hp]
  rfl

theorem reqAt_spec (h : Staged s staged q)
    (hlt : tagPending tag < q.pending.length) :
    ∃ p row, reqAt s q tagPending tag = s.slotReq p tag ∧ p.Reads s row := by
  have hp := List.getElem?_eq_getElem hlt
  obtain ⟨row, -, hreads, -⟩ := h.entry hp
  exact ⟨_, row, reqAt_eq hp, hreads⟩

theorem slotReq_apart {p' : Pending} {row row' : ℤ} (h : p.Reads s row) (h' : p'.Reads s row')
    {tag' : ℕ} (hne : tag ≠ tag') : (s.slotReq p tag).Apart (s.slotReq p' tag') := by
  refine ⟨hne, ?_⟩
  have hlen := h.len_le
  have hlen' := h'.len_le
  show tag * kSpanMax + p.readLen ≤ tag' * kSpanMax ∨ tag' * kSpanMax + p'.readLen ≤ tag * kSpanMax
  rcases lt_or_gt_of_ne hne with hlt | hlt
  · left
    have hle : (tag + 1) * kSpanMax ≤ tag' * kSpanMax := Nat.mul_le_mul_right _ hlt
    rw [Nat.succ_mul] at hle
    omega
  · right
    have hle : (tag' + 1) * kSpanMax ≤ tag * kSpanMax := Nat.mul_le_mul_right _ hlt
    rw [Nat.succ_mul] at hle
    omega

variable {sys : Sys B} {f : Flush}

theorem Going.mem_tags (h : Going L sys f out held) :
    tag ∈ B.tags sys.reader ↔ tag ∈ out := by
  have hperm := L.tags_perm h.carries
  have hmap : (out.map (reqAt s sys.queue f.tagPending)).map Req.tag = out := by
    rw [map_map]
    exact map_id _
  rw [hmap] at hperm
  exact hperm.mem_iff

theorem Going.room (h : Going L sys f out held)
    (htag : tag ∉ out) (hcap : tag < B.capacity) : B.room sys.reader := by
  refine L.room_of_lt h.carries ?_
  have hsub : (tag :: out).Subperm (List.range B.capacity) := by
    refine subperm_of_subset (List.nodup_cons.mpr ⟨htag, h.nodup⟩) fun t ht => List.mem_range.mpr ?_
    rcases List.mem_cons.mp ht with rfl | ht
    · exact hcap
    · exact (h.tags t ht).1
  have hle := hsub.length_le
  rw [length_cons, length_range] at hle
  rw [length_map]
  omega

theorem Going.submit (h : Going L sys f out none)
    (hstaged : Staged s sys.staged sys.queue) (htag : tag ∉ out) (hcap : tag < B.capacity)
    (hp : sys.queue.pending[f.next]? = some p) (completed : ℕ) (phase : Phase) :
    Going L (submitSlot s sys f p tag completed phase)
      ⟨f.next + 1, completed, update f.tagPending tag f.next, phase⟩ (tag :: out) none := by
  obtain ⟨row, -, hreads, -⟩ := hstaged.entry hp
  -- the other tags keep their reads
  have hold : ∀ t ∈ out, update f.tagPending tag f.next t = f.tagPending t := by
    intro t ht
    refine update_of_ne ?_ _ _
    rintro rfl
    exact htag ht
  have hlt : f.next < sys.queue.pending.length := (List.getElem?_eq_some_iff.mp hp).1
  refine ⟨?_, List.nodup_cons.mpr ⟨htag, h.nodup⟩, fun t ht => ?_, hlt, fun row' k hrow' hk => ?_⟩
  · have hcarries :=
      L.carries_submit h.carries (r := s.slotReq p tag) hreads.need_le (fun r' hr' => by
      obtain ⟨t, ht, rfl⟩ := List.mem_map.mp hr'
      obtain ⟨p', row', hreq, hreads'⟩ := reqAt_spec hstaged ((h.tags t ht).2.trans_le h.next_le)
      rw [hreq]
      refine slotReq_apart hreads hreads' ?_
      rintro rfl
      exact htag ht)
    have hmap : (tag :: out).map (reqAt s sys.queue (update f.tagPending tag f.next)) =
        s.slotReq p tag :: out.map (reqAt s sys.queue f.tagPending) := by
      rw [map_cons]
      congr 1
      · apply reqAt_eq
        rwa [update_self]
      · apply map_congr_left
        intro t ht
        unfold reqAt
        rw [hold t ht]
    show L.Carries (B.submit sys.reader (s.slotReq p tag))
      ((tag :: out).map (reqAt s sys.queue (update f.tagPending tag f.next)))
    rw [hmap]
    exact hcarries
  · rcases List.mem_cons.mp ht with rfl | ht
    · refine ⟨hcap, ?_⟩
      dsimp only
      rw [update_self]
      exact Nat.lt_succ_self _
    · refine ⟨(h.tags t ht).1, ?_⟩
      dsimp only
      rw [hold t ht]
      exact (h.tags t ht).2.trans (Nat.lt_succ_self _)
  · rcases Nat.lt_succ_iff_lt_or_eq.mp hk with hk | rfl
    · rcases h.delivered row' k hrow' hk with hin | hnone | hplace
      · left
        obtain ⟨t, ht, rfl⟩ := List.mem_map.mp hin
        exact List.mem_map.mpr ⟨t, mem_cons_of_mem _ ht, hold t ht⟩
      · exact absurd hnone.symm (Option.some_ne_none k)
      · exact Or.inr (Or.inr hplace)
    · left
      exact List.mem_map.mpr ⟨tag, mem_cons_self, update_self _ _ _⟩

theorem Going.outside (h : Going L sys f out held)
    (hstaged : Staged s sys.staged sys.queue) {a : ℕ} (htag : tag ∉ out) (hlo : tag * kSpanMax ≤ a)
    (hhi : a < (tag + 1) * kSpanMax) :
    ∀ r ∈ out.map (reqAt s sys.queue f.tagPending), ¬(r.buf ≤ a ∧ a < r.buf + r.len) := by
  intro r hr
  obtain ⟨t, ht, rfl⟩ := List.mem_map.mp hr
  obtain ⟨p, row, hreq, hreads⟩ := reqAt_spec hstaged ((h.tags t ht).2.trans_le h.next_le)
  rw [hreq]
  show ¬(t * kSpanMax ≤ a ∧ a < t * kSpanMax + p.readLen)
  have hlen := hreads.len_le
  have hne : t ≠ tag := by
    rintro rfl
    exact htag ht
  rcases lt_or_gt_of_ne hne with hlt | hlt
  · have hle : (t + 1) * kSpanMax ≤ tag * kSpanMax := Nat.mul_le_mul_right _ hlt
    rw [Nat.succ_mul] at hle
    omega
  · have hle : (tag + 1) * kSpanMax ≤ t * kSpanMax := Nat.mul_le_mul_right _ hlt
    omega

/-! ### Copies -/

theorem memcpy_rowAt {mem bounce : Memory} {off dst : ℕ} {row : ℤ} {staged : List (ℤ × ℕ)}
    (hslot : ∀ i < s.rowBytes, s.rowByte row i = some (bounce (off + i)))
    (hapart : ∀ r ∈ staged, ∀ r' ∈ staged, r = r' ∨ Apart s.rowBytes r.2 r'.2)
    (hmem : (row, dst) ∈ staged) :
    RowAt s (memcpy mem dst bounce off s.rowBytes) row dst ∧
      ∀ row' dst', (row', dst') ∈ staged → RowAt s mem row' dst' →
        RowAt s (memcpy mem dst bounce off s.rowBytes) row' dst' := by
  have hown : RowAt s (memcpy mem dst bounce off s.rowBytes) row dst := by
    intro i hi
    have hin : dst ≤ dst + i ∧ dst + i < dst + s.rowBytes := by omega
    unfold memcpy
    rw [if_pos hin, Nat.add_sub_cancel_left]
    exact hslot i hi
  refine ⟨hown, fun row' dst' hmem' h => ?_⟩
  rcases hapart _ hmem _ hmem' with heq | hsep
  · obtain ⟨rfl, rfl⟩ := Prod.mk.inj heq
    exact hown
  · intro i hi
    have hout : ¬(dst ≤ dst' + i ∧ dst' + i < dst + s.rowBytes) := by
      rcases hsep with hsep | hsep
      · dsimp only at hsep
        omega
      · dsimp only at hsep
        omega
    unfold memcpy
    rw [if_neg hout]
    exact h i hi

theorem Going.release {row : ℤ} (h : Going L sys f out (some k))
    (hstaged : Staged s sys.staged sys.queue) (hrow : sys.queue.index row = some k)
    (hplace : ∀ dst, (row, dst) ∈ sys.staged → RowAt s sys.mem row dst) :
    Going L sys f out none := by
  refine ⟨h.carries, h.nodup, h.tags, h.next_le, fun row' k' hrow' hk' => ?_⟩
  rcases h.delivered row' k' hrow' hk' with hin | hheld | hdone
  · exact Or.inl hin
  · obtain rfl := Option.some.inj hheld
    obtain rfl := hstaged.inj row row' k hrow hrow'
    exact Or.inr (Or.inr hplace)
  · exact Or.inr (Or.inr hdone)

/-- **A completion**: the tag is of a read in flight, and its row is in the slot. -/
theorem Going.completion {sys : Sys B} {f : Flush} {out : List ℕ} (h : Going L sys f out none)
    (hstaged : Staged s sys.staged sys.queue) {tag : ℕ} {reader : B.State}
    (hwait : B.waitOne sys.reader (some tag) reader)
    {p : Pending} (hp : sys.queue.pending[f.tagPending tag]? = some p) (phase : Phase) :
    tag ∈ out ∧
      Going L { sys with reader, flush := some { f with phase } } { f with phase } (out.erase tag)
        (some (f.tagPending tag)) ∧
      ∃ row, sys.queue.index row = some (f.tagPending tag) ∧
        (∀ dst, dst ∈ p.dsts ↔ (row, dst) ∈ sys.staged) ∧
        ∀ i < s.rowBytes, s.rowByte row i =
          some (B.bounce reader (tag * kSpanMax + p.rowOff + i)) := by
  obtain ⟨r, rest, hperm, hrtag, hcarries, hholds⟩ := L.carries_wait h.carries hwait
  obtain ⟨t, ht, rfl⟩ := List.mem_map.mp (hperm.mem_iff.mpr mem_cons_self)
  obtain rfl : t = tag := hrtag
  have herase : out.Perm (t :: out.erase t) := perm_cons_erase ht
  -- the other reads are still under way
  have hrest : rest.Perm ((out.erase t).map (reqAt s sys.queue f.tagPending)) :=
    (hperm.symm.trans (herase.map _)).cons_inv
  obtain ⟨row, hrow, hreads, hdsts⟩ := hstaged.entry hp
  refine ⟨ht,
    ⟨L.perm hcarries hrest, h.nodup.erase t, fun t' ht' =>
    h.tags t' (mem_of_mem_erase ht'), h.next_le, fun row' k hrow' hk => ?_⟩, row, hrow, hdsts,
    fun i hi => ?_⟩
  · rcases h.delivered row' k hrow' hk with hin | hnone | hplace
    · obtain ⟨t', ht', rfl⟩ := List.mem_map.mp hin
      rcases List.mem_cons.mp (herase.mem_iff.mp ht') with rfl | ht'
      · exact Or.inr (Or.inl rfl)
      · exact Or.inl (mem_map_of_mem ht')
    · exact absurd hnone.symm (Option.some_ne_none k)
    · exact Or.inr (Or.inr hplace)
  · have hbyte := hholds (p.rowOff + i) (by
      rw [reqAt_eq hp]
      exact Nat.add_lt_add_left hi _)
    rw [reqAt_eq hp] at hbyte
    rw [hreads.bytes i hi, add_assoc]
    exact hbyte

/-! ### Steps -/

def Delivers (s : PleStore) (sys : Sys B) : Label → Sys B → Prop
  -- the slot is not in flight
  | .submit tag, sys' => tag ∉ B.tags sys.reader ∧ B.room sys.reader ∧ sys'.mem = sys.mem
  -- the row that the tag was submitted for goes to a destination of its own
  | .copy tag dst, sys' =>
    (∃ f row, sys.flush = some f ∧ sys.queue.index row = some (f.tagPending tag) ∧
      (row, dst) ∈ sys.staged ∧
      RowAt s sys'.mem row dst) ∧ ∀ a, ¬(dst ≤ a ∧ a < dst + s.rowBytes) → sys'.mem a = sys.mem a
  | .flushed _, sys' => (∀ row dst, (row, dst) ∈ sys.staged → RowAt s sys'.mem row dst) ∧
    sys'.mem = sys.mem ∧ sys'.Fresh
  | .drained _, sys' => sys'.mem = sys.mem ∧ sys'.Fresh
  | _, sys' => sys'.mem = sys.mem

theorem Inv.of_fresh (h : sys.Fresh) : Inv L sys := by
  refine ⟨?_, fun r hr => ?_, fun _ => L.idle_iff.mp h.idle, fun f hf => ?_⟩
  · rw [h.staged, h.queue]
    exact Staged.empty
  · rw [h.staged] at hr
    exact absurd hr not_mem_nil
  · rw [h.flush] at hf
    exact absurd hf.symm (Option.some_ne_none f)

theorem fresh_clear {reader : B.State} (h : L.Carries reader []) (mem : Memory) :
    (⟨Queue.empty, reader, mem, none, []⟩ : Sys B).Fresh := ⟨rfl, L.idle_iff.mpr h, rfl, rfl⟩

theorem Staged.of_nil (h : Staged s staged q) (hnone : q.pending = []) :
    staged = [] ∧ q = Queue.empty := by
  have hindex : ∀ row, q.index row = none := by
    intro row
    cases hrow : q.index row with
    | none => rfl
    | some k =>
      obtain ⟨p, hp, -⟩ := h.get row k hrow
      rw [hnone] at hp
      exact absurd hp.symm (Option.some_ne_none p)
  constructor
  · refine List.eq_nil_iff_forall_not_mem.mpr fun r hr => ?_
    obtain ⟨k, hk⟩ := h.mem r hr
    rw [hindex] at hk
    exact absurd hk.symm (Option.some_ne_none k)
  · cases q
    dsimp only at hnone hindex
    rw [hnone, funext hindex]
    rfl

theorem Going.finish {sys : Sys B} {f : Flush} {out : List ℕ} (h : Going L sys f out none)
    (hstaged : Staged s sys.staged sys.queue)
    (hcount : f.completed + out.length = f.next) (hall : ¬f.completed < sys.queue.pending.length) :
    L.Carries sys.reader [] ∧ ∀ row dst, (row, dst) ∈ sys.staged → RowAt s sys.mem row dst := by
  have hle := h.next_le
  obtain rfl : out = [] := eq_nil_of_length_eq_zero (by omega)
  refine ⟨h.carries, fun row dst hmem => ?_⟩
  obtain ⟨k, hk⟩ := hstaged.mem _ hmem
  obtain ⟨p, hp, -⟩ := hstaged.get row k hk
  have hlt : k < f.next := by
    have hlen := (List.getElem?_eq_some_iff.mp hp).1
    rw [length_nil] at hcount
    omega
  rcases h.delivered row k hk hlt with hin | hnone | hplace
  · exact absurd hin not_mem_nil
  · exact absurd hnone.symm (Option.some_ne_none k)
  · exact hplace dst hmem

theorem Flying.background {sys : Sys B} {f : Flush} (h : Flying L sys f)
    (hstaged : Staged s sys.staged sys.queue)
    {reader : B.State} (hback : B.background sys.reader reader) :
    Flying L { sys with reader } f := by
  have hgoing : ∀ {out held}, Going L sys f out held → Going L { sys with reader } f out held :=
    fun hg =>
    ⟨(L.carries_background hg.carries hback).1, hg.nodup, hg.tags, hg.next_le, hg.delivered⟩
  cases h with
  | fill hphase hg hnext hcompleted hlt hlen => exact .fill hphase (hgoing hg) hnext hcompleted hlt hlen
  | wait hphase hg hcount => exact .wait hphase (hgoing hg) hcount
  | failed hphase hcarries => exact .failed hphase (L.carries_background hcarries hback).1
  | @copy tag dsts out row p hphase hg hcount htag hp hrow hslot hdsts hrest =>
    refine .copy hphase (hgoing hg) hcount htag hp hrow (fun i hi => ?_) hdsts hrest
    -- the slot is not of a read in flight
    obtain ⟨row', hrow', hreads, -⟩ := hstaged.entry hp
    have hneed := hreads.need_le
    have hlen := hreads.len_le
    have hhi : tag * kSpanMax + p.rowOff + i < (tag + 1) * kSpanMax := by
      rw [Nat.succ_mul]
      omega
    have hsame :=
      (L.carries_background hg.carries hback).2 _ (hg.outside hstaged htag.1 (by omega) hhi)
    rw [hslot i hi]
    exact congrArg some hsame.symm

theorem Flying.of_wait (h : Flying L sys f) (hphase : f.phase = .wait) :
    ∃ out, Going L sys f out none ∧ f.completed + out.length = f.next := by
  cases h with
  | wait _ hg hcount => exact ⟨_, hg, hcount⟩
  | fill hphase' => exact absurd (hphase.symm.trans hphase') Phase.noConfusion
  | copy hphase' => exact absurd (hphase.symm.trans hphase') Phase.noConfusion
  | failed hphase' => exact absurd (hphase.symm.trans hphase') Phase.noConfusion

theorem Flying.of_failed (h : Flying L sys f) (hphase : f.phase = .failed) :
    ∃ reqs, L.Carries sys.reader reqs := by
  cases h with
  | failed _ hcarries => exact ⟨_, hcarries⟩
  | fill hphase' => exact absurd (hphase.symm.trans hphase') Phase.noConfusion
  | wait hphase' => exact absurd (hphase.symm.trans hphase') Phase.noConfusion
  | copy hphase' => exact absurd (hphase.symm.trans hphase') Phase.noConfusion

theorem Flying.of_fill (h : Flying L sys f) (hphase : f.phase = .fill tag) :
    ∃ out, Going L sys f out none ∧ f.next = tag ∧ f.completed = 0 ∧ (∀ t ∈ out, t < tag) ∧
      out.length = tag := by
  cases h with
  | fill hphase' hg hnext hcompleted hlt hlen =>
    obtain rfl := Phase.fill.inj (hphase.symm.trans hphase')
    exact ⟨_, hg, hnext, hcompleted, hlt, hlen⟩
  | wait hphase' => exact absurd (hphase.symm.trans hphase') Phase.noConfusion
  | copy hphase' => exact absurd (hphase.symm.trans hphase') Phase.noConfusion
  | failed hphase' => exact absurd (hphase.symm.trans hphase') Phase.noConfusion

theorem Flying.of_copied (h : Flying L sys f) (hstaged : Staged s sys.staged sys.queue)
    (hphase : f.phase = .copy tag []) :
    ∃ out, Going L sys f out none ∧ f.completed + 1 + out.length = f.next ∧ tag ∉ out ∧
      tag < B.capacity := by
  cases h with
  | @copy tag' dsts out row p hphase' hg hcount htag hp hrow hslot hdsts hrest =>
    obtain ⟨rfl, rfl⟩ := Phase.copy.inj (hphase.symm.trans hphase')
    refine ⟨out, hg.release hstaged hrow fun dst hmem => ?_, hcount, htag⟩
    exact (hrest dst hmem).resolve_right not_mem_nil
  | fill hphase' => exact absurd (hphase.symm.trans hphase') Phase.noConfusion
  | wait hphase' => exact absurd (hphase.symm.trans hphase') Phase.noConfusion
  | failed hphase' => exact absurd (hphase.symm.trans hphase') Phase.noConfusion

theorem Flying.copy_spec (h : Flying L sys f)
    (hapart : ∀ r ∈ sys.staged, ∀ r' ∈ sys.staged, r = r' ∨ Apart s.rowBytes r.2 r'.2) {dst : ℕ}
    {dsts : List ℕ} (hphase : f.phase = .copy tag (dst :: dsts))
    (hp : sys.queue.pending[f.tagPending tag]? = some p)
    {mem : Memory}
    (hmem : mem = memcpy sys.mem dst (B.bounce sys.reader) (tag * kSpanMax + p.rowOff) s.rowBytes) :
    Flying L { sys with mem, flush := some { f with phase := .copy tag dsts } }
      { f with phase := .copy tag dsts } ∧
      ∃ row, sys.queue.index row = some (f.tagPending tag) ∧ (row, dst) ∈ sys.staged ∧
        RowAt s mem row dst := by
  subst hmem
  cases h with
  | @copy tag' dsts' out row p' hphase' hg hcount htag hp' hrow hslot hdsts hrest =>
    obtain ⟨rfl, rfl⟩ := Phase.copy.inj (hphase.symm.trans hphase')
    obtain rfl := Option.some.inj (hp.symm.trans hp')
    have hmem := hdsts dst mem_cons_self
    obtain ⟨hown, hkeep⟩ := @memcpy_rowAt s sys.mem _ _ _ _ _ hslot hapart hmem
    refine ⟨.copy rfl ⟨hg.carries, hg.nodup, hg.tags, hg.next_le, fun row' k hrow' hk => ?_⟩ hcount
      htag hp hrow hslot (fun d hd => hdsts d (mem_cons_of_mem _ hd)) fun d hd =>
      ?_, row, hrow, hmem, hown⟩
    · rcases hg.delivered row' k hrow' hk with hin | hheld | hplace
      · exact Or.inl hin
      · exact Or.inr (Or.inl hheld)
      · exact Or.inr (Or.inr fun d hd => hkeep row' d hd (hplace d hd))
    · rcases hrest d hd with hplace | hin
      · exact Or.inl (hkeep row d hd hplace)
      · rcases List.mem_cons.mp hin with rfl | hin
        · exact Or.inl hown
        · exact Or.inr hin
  | fill hphase' => exact absurd (hphase.symm.trans hphase') Phase.noConfusion
  | wait hphase' => exact absurd (hphase.symm.trans hphase') Phase.noConfusion
  | failed hphase' => exact absurd (hphase.symm.trans hphase') Phase.noConfusion

variable {sys' : Sys B}

/-- **What a step keeps, and what it does**, unless it is a drain that gives up. -/
theorem step_spec {label : Label} (h : Inv L sys) (hstep : Step s B sys label sys')
    (hdrain : label ≠ .drained false) : Inv L sys' ∧ Delivers s sys label sys' := by
  have hsome : ∀ {f : Flush} {queue : Queue} {reader : B.State} {mem : Memory},
      Staged s sys.staged queue → Flying L ⟨queue, reader, mem, some f, sys.staged⟩ f →
        Inv L ⟨queue, reader, mem, some f, sys.staged⟩ := by
    intro f queue reader mem hstaged hflying
    refine ⟨hstaged, h.apart, fun hnone => absurd hnone (Option.some_ne_none f), fun f' hf' => ?_⟩
    obtain rfl := Option.some.inj hf'
    exact hflying
  cases hstep with
  | @stage tokens staging queue hflush hqueue hapart =>
    obtain ⟨queue', hqueue', hstaged⟩ := stage_spec h.staged tokens staging
    obtain rfl := Option.some.inj (hqueue.symm.trans hqueue')
    refine ⟨⟨hstaged, fun r hr r' hr' => ?_, h.idle, fun f hf =>
      absurd (hf.symm.trans hflush) (Option.some_ne_none f)⟩, rfl⟩
    rcases List.mem_append.mp hr with hr | hr
    · rcases List.mem_append.mp hr' with hr' | hr'
      · exact h.apart r hr r' hr'
      · exact Or.inr (hapart r' hr' r hr).symm
    · rcases List.mem_append.mp hr' with hr' | hr'
      · exact Or.inr (hapart r hr r' hr')
      · exact requests_apart hr hr'
  | flushNone hflush hnone =>
    obtain ⟨hnil, hempty⟩ := h.staged.of_nil hnone
    have hfresh : ({ sys with staged := [] } : Sys B).Fresh :=
      ⟨hempty, L.idle_iff.mpr (h.idle hflush), hflush, rfl⟩
    refine ⟨Inv.of_fresh hfresh, fun row dst hmem => ?_, rfl, hfresh⟩
    rw [hnil] at hmem
    exact absurd hmem not_mem_nil
  | begin hflush hne =>
    have hgoing :
      Going L { sys with flush := some ⟨0, 0, fun _ => 0, .fill 0⟩ } ⟨0, 0, fun _ => 0, .fill 0⟩
      [] none :=
      ⟨h.idle hflush, nodup_nil, fun t ht => absurd ht not_mem_nil, Nat.zero_le _,
        fun row k _ hk => absurd hk (Nat.not_lt_zero k)⟩
    exact ⟨hsome h.staged (.fill rfl hgoing rfl rfl (fun t ht => absurd ht not_mem_nil) rfl), rfl⟩
  | @fill f tag p hflush hphase hmore hp =>
    -- the first reads take the tags in order, so the next one is not in flight
    obtain ⟨out, hg, hnext, hcompleted, hlt, hlen⟩ := (h.flying f hflush).of_fill hphase
    have htag : tag ∉ out := fun hin => lt_irrefl _ (hlt tag hin)
    have hcap : tag < B.capacity := hmore.trans_le (min_le_left _ _)
    refine ⟨hsome h.staged
      (.fill rfl (hg.submit h.staged htag hcap hp f.completed (.fill (tag + 1))) ?_ hcompleted ?_
      ?_), fun hin => htag (hg.mem_tags.mp hin), hg.room htag hcap, rfl⟩
    · exact congrArg (· + 1) hnext
    · intro t ht
      rcases List.mem_cons.mp ht with rfl | ht
      · exact Nat.lt_succ_self t
      · exact (hlt t ht).trans (Nat.lt_succ_self tag)
    · rw [length_cons, hlen]
  | @filled f tag hflush hphase hall =>
    obtain ⟨out, hg, hnext, hcompleted, hlt, hlen⟩ := (h.flying f hflush).of_fill hphase
    refine ⟨hsome h.staged (.wait rfl ⟨hg.carries, hg.nodup, hg.tags, hg.next_le, hg.delivered⟩ ?_),
      rfl⟩
    show f.completed + out.length = f.next
    omega
  | @completion f tag reader p hflush hphase hmore hwait hp =>
    obtain ⟨out, hg, hcount⟩ := (h.flying f hflush).of_wait hphase
    obtain ⟨htag, hg', row, hrow, hdsts, hslot⟩ :=
      hg.completion h.staged hwait hp (.copy tag p.dsts)
    -- the read left the flight, and its destinations are still to be copied
    refine ⟨hsome h.staged
      (.copy rfl hg' ?_ ⟨?_, (hg.tags tag htag).1⟩ hp hrow hslot (fun d hd => (hdsts d).mp hd)
      fun d hd => Or.inr ((hdsts d).mpr hd)), rfl⟩
    · have hpos := length_pos_of_mem htag
      rw [length_erase_of_mem htag]
      show f.completed + 1 + (out.length - 1) = f.next
      omega
    · exact fun hin => (List.Nodup.mem_erase_iff hg.nodup).mp hin |>.1 rfl
  | @waitFailed f reader hflush hphase hmore hwait =>
    obtain ⟨out, hg, hcount⟩ := (h.flying f hflush).of_wait hphase
    obtain ⟨rest, hcarries⟩ := L.carries_error hg.carries hwait
    exact ⟨hsome h.staged (.failed rfl hcarries), rfl⟩
  | @copy f tag dst dsts p hflush hphase hp =>
    obtain ⟨hflying, row, hrow, hmem, hown⟩ := (h.flying f hflush).copy_spec h.apart hphase hp rfl
    refine ⟨hsome h.staged hflying, ⟨f, row, hflush, hrow, hmem, hown⟩, fun a ha => ?_⟩
    show memcpy _ _ _ _ _ a = _
    unfold memcpy
    exact if_neg ha
  | @refill f tag p hflush hphase hmore hp =>
    obtain ⟨out, hg, hcount, htag, hcap⟩ := (h.flying f hflush).of_copied h.staged hphase
    refine ⟨hsome h.staged (.wait rfl (hg.submit h.staged htag hcap hp (f.completed + 1) .wait) ?_),
      fun hin => htag (hg.mem_tags.mp hin), hg.room htag hcap, rfl⟩
    rw [length_cons]
    show f.completed + 1 + (out.length + 1) = f.next + 1
    omega
  | @copied f tag hflush hphase hlast =>
    obtain ⟨out, hg, hcount, htag, hcap⟩ := (h.flying f hflush).of_copied h.staged hphase
    exact ⟨hsome h.staged
      (.wait rfl ⟨hg.carries, hg.nodup, hg.tags, hg.next_le, hg.delivered⟩ hcount), rfl⟩
  | @finish f hflush hphase hall =>
    obtain ⟨out, hg, hcount⟩ := (h.flying f hflush).of_wait hphase
    obtain ⟨hcarries, hplace⟩ := hg.finish h.staged hcount hall
    have hfresh := fresh_clear hcarries sys.mem
    exact ⟨Inv.of_fresh hfresh, hplace, rfl, hfresh⟩
  | @drain f reader all hflush hphase hdrained =>
    -- after a failed flush only the drain makes the bounce buffer free again
    obtain rfl : all = true := by
      cases all with
      | true => rfl
      | false => exact absurd rfl hdrain
    obtain ⟨reqs, hcarries⟩ := (h.flying f hflush).of_failed hphase
    have hfresh := fresh_clear (L.carries_drain hcarries hdrained) sys.mem
    exact ⟨Inv.of_fresh hfresh, rfl, hfresh⟩
  | @background reader hback =>
    refine ⟨⟨h.staged, h.apart, fun hnone => (L.carries_background (h.idle hnone) hback).1,
      fun f hf => ?_⟩, rfl⟩
    exact (h.flying f hf).background h.staged hback

theorem Pool.drain_all {pool pool' : Pool}
    (h : Pool.Drain disk workers pool all pool') : all = true := by
  induction h with
  | work _ _ ih => exact ih
  | clear _ => rfl

theorem Ring.drain_false {ring ring' : Ring} (h : Ring.Drain disk ring all ring')
    (hall : all = false) : 0 < ring'.inFlight := by
  induction h with
  | kernel _ _ ih => exact ih hall
  | empty _ => exact absurd hall.symm Bool.false_ne_true
  | pop _ _ _ ih => exact ih hall
  | enter _ _ _ _ ih => exact ih hall
  | enterFailed hsome _ => exact hsome

theorem run_inv (h : Inv L sys) (hrun : Run s B sys labels sys')
    (hdrain : .drained false ∉ labels) : Inv L sys' := by
  induction hrun with
  | nil => exact h
  | snoc hrest hstep ih =>
    rw [mem_append, not_or, mem_singleton] at hdrain
    exact (step_spec (ih hdrain.1) hstep fun heq => hdrain.2 heq.symm).1

theorem Step.drain_of (h : Step s B sys (.drained all) sys') :
    B.drain sys.reader all sys'.reader := by
  cases h with
  | drain _ _ hdrain => exact hdrain

theorem Run.pool_drained {sys sys' : Sys (Pool.reader (diskOf s.files) workers)}
    (h : Run s _ sys labels sys') : .drained false ∉ labels := by
  induction h with
  | nil => exact not_mem_nil
  | snoc hrest hstep ih =>
    rw [mem_append, not_or, mem_singleton]
    refine ⟨ih, ?_⟩
    rintro rfl
    exact Bool.false_ne_true (Pool.drain_all hstep.drain_of)

/-- **Every row is delivered**: in every run of a store with a pool, and in every run with a ring up
to a drain whose `io_uring_enter` fails, which leaves reads in flight. -/
theorem ple_delivers_iff (s : PleStore) (workers entries : ℕ) :
    (∀ (start sys sys' : Sys (Pool.reader (diskOf s.files) workers)) (labels : List Label)
      (label : Label), start.Fresh →
      Run s _ start labels sys → Step s _ sys label sys' →
        Delivers s sys label sys' ∧ ∀ tokens staging, ∃ queue, s.stage sys'.queue tokens staging =
          some queue) ∧
    ∀ (start sys sys' : Sys (Ring.reader (diskOf s.files) entries)) (labels : List Label)
      (label : Label), start.Fresh →
      Run s _ start labels sys → .drained false ∉ labels → Step s _ sys label sys' →
        (label ≠ .drained false ↔
          Delivers s sys label sys' ∧ ∀ tokens staging, ∃ queue, s.stage sys'.queue tokens staging =
            some queue) := by
  constructor
  -- the pool always drains
  · intro start sys sys' labels label hfresh hrun hstep
    have hlabels := (Run.snoc hrun hstep).pool_drained
    rw [mem_append, not_or, mem_singleton] at hlabels
    have hinv := run_inv (Inv.of_fresh (L := poolLaws _ _) hfresh) hrun hlabels.1
    obtain ⟨hinv', hdelivers⟩ := step_spec hinv hstep fun heq => hlabels.2 heq.symm
    refine ⟨hdelivers, fun tokens staging => ?_⟩
    obtain ⟨queue, hqueue, -⟩ := stage_spec hinv'.staged tokens staging
    exact ⟨queue, hqueue⟩
  · intro start sys sys' labels label hfresh hrun hlabels hstep
    constructor
    · intro hdrain
      have hinv := run_inv (Inv.of_fresh (L := ringLaws _ _) hfresh) hrun hlabels
      obtain ⟨hinv', hdelivers⟩ := step_spec hinv hstep hdrain
      refine ⟨hdelivers, fun tokens staging => ?_⟩
      obtain ⟨queue, hqueue, -⟩ := stage_spec hinv'.staged tokens staging
      exact ⟨queue, hqueue⟩
    -- a drain that gives up leaves a read in flight
    · rintro ⟨hdelivers, -⟩ rfl
      have hpos : 0 < sys'.reader.inFlight := Ring.drain_false hstep.drain_of rfl
      have hidle := hdelivers.2.idle.2.2.2.2
      exact hpos.ne' hidle

def twoRows : PleStore where
  files := [⟨[7, 8], false⟩]
  extents := [⟨0, 0⟩]
  rowsPerExtent := 2
  rowBytes := 1
  rowStride := 1
  mult0 := 1
  mult1 := 1
  mult2 := 1
  sizes := [1, 1]
  offsets := [0, 1]
  eos := 0
  length_offsets := rfl
  rowBytes_le := by decide
  extents_fit := fun e he => by
    rw [List.mem_singleton.mp he]
    exact ⟨⟨[7, 8], false⟩, rfl, by decide⟩
  heads_fit := by decide

/-- A ring that has read nothing yet, with one slot. -/
def oneSlot : Sys (Ring.reader (diskOf twoRows.files) 1) :=
  ⟨Queue.empty, ⟨[], 0, [], [], 0, fun _ => 0, fun _ => 0⟩, fun _ => 0, none, []⟩

theorem oneSlot_fresh : oneSlot.Fresh := ⟨rfl, ⟨rfl, rfl, rfl, rfl, rfl⟩, rfl, rfl⟩

/-- The rows are staged, and the read of the first one is submitted. -/
theorem oneSlot_run :
    ∃ (sys : Sys (Ring.reader (diskOf twoRows.files) 1)) (tagPending : ℕ → ℕ) (lens : ℕ → ℕ),
    Run twoRows _ oneSlot [.stage, .begin, .submit 0, .filled] sys ∧
      sys.queue.pending = [⟨0, 0, 1, 0, [0]⟩, ⟨0, 1, 1, 0, [1]⟩] ∧ sys.staged = [(0, 0), (1, 1)] ∧
      sys.flush = some ⟨1, 0, tagPending, .wait⟩ ∧ tagPending 0 = 0 ∧ lens 0 = 1 ∧
      sys.reader = ⟨[⟨0, 0, 0, 1, 1, 0⟩], 1, [], [], 1, lens, fun _ => 0⟩ := by
  have hstage :
      twoRows.stage Queue.empty [0, 0, 0] 0 = some ⟨[⟨0, 0, 1, 0, [0]⟩, ⟨0, 1, 1, 0, [1]⟩], _⟩ :=
      rfl
  have h1 : Run twoRows (Ring.reader (diskOf twoRows.files) 1) oneSlot [.stage] _ :=
    .snoc .nil (.stage rfl hstage fun r _ r' hr' => absurd hr' not_mem_nil)
  have h2 := h1.snoc (.begin rfl (cons_ne_nil _ _))
  have h3 := h2.snoc (.fill rfl rfl (by decide) rfl)
  have h4 := h3.snoc (.filled rfl rfl (by decide))
  exact ⟨_, _, _, h4, rfl, rfl, rfl, rfl, rfl, rfl⟩

theorem waitOne_oneSlot {lens : ℕ → ℕ} {bounce : Memory} {off : ℕ} {byte : UInt8}
    (hlens : lens 0 = 1) (hbyte : (diskOf twoRows.files 0)[off]? = some byte) :
    Ring.WaitOne (diskOf twoRows.files) ⟨[⟨0, 0, 0, 1, 1, off⟩], 1, [], [], 1, lens, bounce⟩
      (some 0)
      ⟨[], 0, [], [], 0, lens, update bounce 0 byte⟩ := by
  have hgot :
    Got (diskOf twoRows.files) ⟨0, 0, 0, 1, 1, off⟩ 0 1 bounce (update bounce 0 byte) := by
    refine ⟨le_refl _, fun a ha => update_of_ne ?_ _ _, fun i hi => ?_⟩
    · dsimp only at ha
      omega
    · obtain rfl : i = 0 := Nat.lt_one_iff.mp hi
      exact hbyte
  have hread := @Ring.Kernel.complete _ ⟨[], 0, [⟨0, 0, 0, 1, 1, off⟩], [], 1, lens, bounce⟩ []
    [] _ _ _ rfl hgot
  have hpop := @Ring.WaitOne.pop (diskOf twoRows.files)
    ⟨[], 0, [], [(0, some 1)], 1, lens, update bounce 0 byte⟩ 0 (some 1) [] rfl
  have hout : Ring.outcome lens 0 (some 1) = some 0 := by
    show (if 1 < lens 0 then none else some 0) = some 0
    rw [hlens]
    rfl
  rw [hout] at hpop
  exact .enter (k := 1) rfl (le_refl _) (.kernel hread hpop)

/-- Both rows are delivered, through the one slot. -/
theorem ple_delivers_twoRows : ∃ sys : Sys (Ring.reader (diskOf twoRows.files) 1),
    Run twoRows _ oneSlot [.stage, .begin, .submit 0, .filled, .completion 0, .copy 0 0, .submit 0,
      .completion 0, .copy 0 1, .copied, .flushed true] sys ∧ sys.mem 0 = 7 ∧ sys.mem 1 = 8 := by
  obtain ⟨⟨queue, reader, mem, flush, staged⟩, tagPending, lens, hrun, hpending, hstaged, rfl,
    hzero, hlens, rfl⟩ := oneSlot_run
  dsimp only at hpending hstaged
  have hp : queue.pending[tagPending 0]? = some ⟨0, 0, 1, 0, [0]⟩ := by
    rw [hzero, hpending]
    rfl
  have hp' : queue.pending[1]? = some ⟨0, 1, 1, 0, [1]⟩ := by
    rw [hpending]
    rfl
  have hlen : queue.pending.length = 2 := congrArg List.length hpending
  have h5 := hrun.snoc (.completion rfl rfl (hlen ▸ two_pos) (waitOne_oneSlot hlens rfl) hp)
  have h6 := h5.snoc (.copy rfl rfl hp)
  -- the slot is read again, for the second row
  have h7 := h6.snoc (.refill rfl rfl (hlen ▸ one_lt_two) hp')
  have htag : queue.pending[update tagPending 0 1 0]? = some ⟨0, 1, 1, 0, [1]⟩ := by
    rw [update_self]
    exact hp'
  have h8 := h7.snoc (.completion rfl rfl (hlen ▸ one_lt_two) (waitOne_oneSlot rfl rfl) htag)
  have h9 := h8.snoc (.copy rfl rfl htag)
  have h10 := h9.snoc (.copied rfl rfl hlen.not_gt)
  have hdelivers := ((ple_delivers_iff twoRows 1 1).2 _ _ _ _ _ oneSlot_fresh h10 (by decide)
    (.finish rfl rfl hlen.not_gt)).mp (by decide)
  have hmem : ∀ row dst, (row, dst) ∈ [((0 : ℤ), 0), (1, 1)] → _ := fun row dst hmem =>
    hdelivers.1.1 row dst (hstaged.symm ▸ hmem) 0 one_pos
  exact ⟨_, h10.snoc (.finish rfl rfl hlen.not_gt), (Option.some.inj (hmem 0 0 (by decide))).symm,
    (Option.some.inj (hmem 1 1 (by decide))).symm⟩

/-- When `io_uring_enter` fails, in `wait_one` and again in `drain`, a read stays in flight. -/
theorem ple_drain_gives_up : ∃ sys sys' : Sys (Ring.reader (diskOf twoRows.files) 1),
    Run twoRows _ oneSlot [.stage, .begin, .submit 0, .filled, .failed] sys ∧
      Step twoRows _ sys (.drained false) sys' ∧ ¬Delivers twoRows sys (.drained false) sys' ∧
        (Ring.reader (diskOf twoRows.files) 1).tags sys'.reader = [0] := by
  obtain ⟨⟨queue, reader, mem, flush, staged⟩, tagPending, lens, hrun, hpending, -, rfl, -, -,
    rfl⟩ := oneSlot_run
  have hlen : queue.pending.length = 2 := congrArg List.length hpending
  have h5 := hrun.snoc (.waitFailed rfl rfl (hlen ▸ two_pos) (.enterFailed rfl))
  refine ⟨_, _, h5, .drain rfl rfl (.enterFailed one_pos rfl), fun hdelivers => ?_, rfl⟩
  exact one_ne_zero hdelivers.2.idle.2.2.2.2

end Ple

end FreeToken
