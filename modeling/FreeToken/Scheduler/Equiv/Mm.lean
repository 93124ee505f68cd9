import FreeToken.Mm.Equiv.EncoderCache
import FreeToken.Scheduler.Mm
import Mathlib.Data.List.Chain

/-!
# Correctness of the multimodal planning

* `copies_chunks`: the gather plans of the chunks of a prompt copy every embedding row behind the
  cached prefix once.
* `placed_planMMBatch`: a gathered row lands in the batch row of its token.
* `MMRun.inv`: the encoder cache holds what the live requests still have to gather.
-/

namespace FreeToken

open List

/-! ### The rows of a prompt -/

/-- The embedding rows of the tokens in `[c, n)`, with the tokens: those of the spans of one image,
from the row `rowBase` on. -/
def spanRows (hash c n : ℕ) : ℕ → List (ℕ × ℕ) → List ((ℕ × ℕ) × ℕ)
  | _, [] => []
  | rowBase, (spanLo, spanHi) :: spans =>
    ((range' (max spanLo c) (min spanHi n - max spanLo c)).map fun p =>
      ((hash, rowBase + p - spanLo), p)) ++ spanRows hash c n (rowBase + (spanHi - spanLo)) spans

/-- The embedding rows of the tokens in `[c, n)`: those of all items. -/
def itemRows (items : List MMItem) (c n : ℕ) : List ((ℕ × ℕ) × ℕ) :=
  items.flatMap fun item => spanRows item.hash c n 0 item.offsets

/-- The rows that a plan row copies, with the tokens of the window that they land on. -/
def PlanRow.copies (windowLo : ℕ) (row : PlanRow) : List ((ℕ × ℕ) × ℕ) :=
  (range (row.rowHi - row.rowLo)).map fun i =>
    ((row.hash, row.rowLo + i), windowLo + row.pos + i)

variable {uid c m n hash rowBase windowLo windowHi : ℕ} {item : MMItem} {items : List MMItem}
  {spans : List (ℕ × ℕ)} {cached : ℕ → Bool}

theorem copies_planSpans : (planSpans uid item windowLo windowHi rowBase spans).flatMap
    (PlanRow.copies windowLo) = spanRows item.hash windowLo windowHi rowBase spans := by
  induction spans generalizing rowBase with
  | nil => rfl
  | cons span spans ih =>
    obtain ⟨spanLo, spanHi⟩ := span
    rw [planSpans, spanRows]
    split_ifs with hlt
    · rw [flatMap_cons, ih, PlanRow.copies, range'_eq_map_range, map_map]
      congr 1
      have hlen :
          rowBase + min spanHi windowHi - spanLo - (rowBase + max spanLo windowLo - spanLo) =
          min spanHi windowHi - max spanLo windowLo := by omega
      rw [hlen]
      refine map_congr_left fun i _ => ?_
      rw [Prod.mk.injEq, Prod.mk.injEq]
      refine ⟨⟨rfl, ?_⟩, ?_⟩
      · show rowBase + max spanLo windowLo - spanLo + i = rowBase + (max spanLo windowLo + i) -
          spanLo
        omega
      · show windowLo + (max spanLo windowLo - windowLo) + i = max spanLo windowLo + i
        omega
    · rw [ih, show min spanHi windowHi - max spanLo windowLo = 0 by omega]
      rfl

theorem planMMChunk_snd : (planMMChunk uid items windowLo windowHi cached).2 =
    items.flatMap fun item => planSpans uid item windowLo windowHi 0 item.offsets := by
  suffices h : ∀ st : List MMItem × List PlanRow,
      (items.foldl (planMMItem uid windowLo windowHi cached) st).2 =
        st.2 ++ items.flatMap fun item => planSpans uid item windowLo windowHi 0 item.offsets from
    h ([], [])
  induction items with
  | nil => exact fun st => (append_nil st.2).symm
  | cons item items ih =>
    intro st
    rw [foldl_cons, ih, flatMap_cons, ← append_assoc]
    rfl

/-- A chunk copies the rows of its tokens. -/
theorem copies_planMMChunk : (planMMChunk uid items windowLo windowHi cached).2.flatMap
    (PlanRow.copies windowLo) = itemRows items windowLo windowHi := by
  rw [planMMChunk_snd, flatMap_assoc]
  exact flatMap_congr fun item _ => copies_planSpans

theorem spanRows_append (hcm : c ≤ m) (hmn : m ≤ n) :
    (spanRows hash c m rowBase spans ++ spanRows hash m n rowBase spans).Perm
      (spanRows hash c n rowBase spans) := by
  induction spans generalizing rowBase with
  | nil => exact List.Perm.refl _
  | cons span spans ih =>
    obtain ⟨spanLo, spanHi⟩ := span
    have hsplit : range' (max spanLo c) (min spanHi m - max spanLo c) ++
        range' (max spanLo m) (min spanHi n - max spanLo m) =
          range' (max spanLo c) (min spanHi n - max spanLo c) := by
      by_cases hlo : m ≤ spanLo
      · rw [show min spanHi m - max spanLo c = 0 by omega, show max spanLo m =
          max spanLo c by omega]
        rfl
      · by_cases hhi : spanHi ≤ m
        · rw [show min spanHi n - max spanLo m = 0 by omega, show min spanHi m =
            min spanHi n by omega, range'_zero, append_nil]
        · have hstart : max spanLo m = max spanLo c + (min spanHi m - max spanLo c) := by omega
          rw [hstart, range'_append_1]
          congr 1
          omega
    rw [spanRows, spanRows, spanRows, ← hsplit, map_append]
    rw [append_assoc, append_assoc]
    apply List.Perm.append_left
    exact (perm_append_comm_assoc _ _ _).trans (ih.append_left _)

theorem itemRows_append (hcm : c ≤ m) (hmn : m ≤ n) :
    (itemRows items c m ++ itemRows items m n).Perm (itemRows items c n) :=
  (flatMap_append_perm _ _ _).trans (List.Perm.flatMap_left _ fun _ _ => spanRows_append hcm hmn)

theorem itemRows_self : itemRows items n n = [] := by
  have hspans : ∀ hash rowBase spans, spanRows hash n n rowBase spans = [] := by
    intro hash rowBase spans
    induction spans generalizing rowBase with
    | nil => rfl
    | cons span spans ih =>
      rw [spanRows, ih, show min span.2 n - max span.1 n = 0 by omega]
      rfl
  rw [itemRows, flatMap_eq_nil_iff]
  exact fun item _ => hspans _ _ _

/-! ### The chunks of a prompt -/

/-- The windows of the chunks with the given ends, from `c` on. -/
def windows : ℕ → List ℕ → List (ℕ × ℕ)
  | _, [] => []
  | c, e :: ends => (c, e) :: windows e ends

/-- **The chunks copy every row once.** -/
theorem copies_chunks {ends : List ℕ} (hends : (c :: ends).IsChain (· < ·))
    (hlast : (c :: ends).getLast? = some n) (cached : ℕ × ℕ → ℕ → Bool) :
    ((windows c ends).flatMap fun w => (planMMChunk uid items w.1 w.2 (cached w)).2.flatMap
      (PlanRow.copies w.1)).Perm (itemRows items c n) := by
  induction ends generalizing c with
  | nil =>
    obtain rfl : c = n := Option.some.inj hlast
    rw [itemRows_self]
    exact List.Perm.refl _
  | cons e ends ih =>
    rw [isChain_cons_cons] at hends
    rw [getLast?_cons_cons] at hlast
    have hle : e ≤ n := by
      rcases mem_cons.mp (mem_of_getLast? hlast) with rfl | hn
      · exact le_rfl
      · exact (rel_of_pairwise_cons (isChain_iff_pairwise.mp hends.2) hn).le
    rw [windows, flatMap_cons, copies_planMMChunk]
    exact ((ih hends.2 hlast).append_left _).trans (itemRows_append hends.1.le hle)

/-- All spans of the items lie in the first `n` tokens. -/
def Within (items : List MMItem) (n : ℕ) : Prop := ∀ item ∈ items, ∀ span ∈ item.offsets, span.2 ≤ n

instance (items : List MMItem) (n : ℕ) : Decidable (Within items n) :=
  inferInstanceAs (Decidable (∀ item ∈ items, ∀ span ∈ item.offsets, span.2 ≤ n))

/-- The rows of all items behind the first `c` tokens. -/
def rowsAfter (items : List MMItem) (c : ℕ) : ℕ :=
  items.foldr (fun item n => mmRowsAfter item c + n) 0

theorem length_spanRows (h : ∀ span ∈ spans, span.2 ≤ n) :
    (spanRows hash c n rowBase spans).length =
    spans.foldr (fun (spanLo, spanHi) n => (spanHi - max spanLo c) + n) 0 := by
  induction spans generalizing rowBase with
  | nil => rfl
  | cons span spans ih =>
    have hspan := h span mem_cons_self
    rw [spanRows, length_append, length_map, length_range', foldr_cons,
      ih fun span hs => h span (mem_cons_of_mem _ hs), min_eq_left hspan]

theorem length_itemRows (h : Within items n) : (itemRows items c n).length = rowsAfter items c := by
  induction items with
  | nil => rfl
  | cons item items ih =>
    rw [itemRows, flatMap_cons, length_append, length_spanRows (h item mem_cons_self),
      rowsAfter, foldr_cons]
    exact congrArg _ (ih fun item hi => h item (mem_cons_of_mem _ hi))

/-- The tokens of the spans, for the whole window. -/
theorem mem_spanRows {w : (ℕ × ℕ) × ℕ} (hw : w ∈ spanRows hash c n rowBase spans) :
    (c ≤ w.2 ∧ w.2 < n) ∧ ∃ span ∈ spans, span.1 ≤ w.2 ∧ w.2 < span.2 := by
  induction spans generalizing rowBase with
  | nil => cases hw
  | cons span spans ih =>
    rw [spanRows, mem_append] at hw
    rcases hw with hw | hw
    · obtain ⟨p, hp, rfl⟩ := mem_map.mp hw
      rw [mem_range'_1] at hp
      exact ⟨by dsimp only; omega, span, mem_cons_self, by dsimp only; omega⟩
    · obtain ⟨hwin, span', hspan', hin⟩ := ih hw
      exact ⟨hwin, span', mem_cons_of_mem _ hspan', hin⟩

theorem exists_mem_spanRows {p : ℕ} (hwin : c ≤ p ∧ p < n)
    (hspan : ∃ span ∈ spans, span.1 ≤ p ∧ p < span.2) :
    ∃ w ∈ spanRows hash c n rowBase spans, w.2 = p := by
  obtain ⟨span, hmem, hin⟩ := hspan
  induction spans generalizing rowBase with
  | nil => cases hmem
  | cons first spans ih =>
    rw [spanRows]
    rcases mem_cons.mp hmem with rfl | hmem
    · refine ⟨_, mem_append_left _ (mem_map.mpr ⟨p, ?_, rfl⟩), rfl⟩
      rw [mem_range'_1]
      omega
    · obtain ⟨w, hw, hwp⟩ := @ih (rowBase + (first.2 - first.1)) hmem
      exact ⟨w, mem_append_right _ hw, hwp⟩

theorem mem_itemRows_snd {p : ℕ} : p ∈ (itemRows items c n).map Prod.snd ↔
    (c ≤ p ∧ p < n) ∧ ∃ item ∈ items, ∃ span ∈ item.offsets, span.1 ≤ p ∧ p < span.2 := by
  constructor
  · intro hp
    obtain ⟨w, hw, rfl⟩ := mem_map.mp hp
    obtain ⟨item, hitem, hw⟩ := mem_flatMap.mp hw
    obtain ⟨hwin, hspan⟩ := mem_spanRows hw
    exact ⟨hwin, item, hitem, hspan⟩
  · rintro ⟨hwin, item, hitem, hspan⟩
    obtain ⟨w, hw, rfl⟩ := @exists_mem_spanRows _ _ item.hash 0 _ _ hwin hspan
    exact mem_map.mpr ⟨w, mem_flatMap.mpr ⟨item, hitem, hw⟩, rfl⟩

def SpanDisjoint (a b : ℕ × ℕ) : Prop := a.2 ≤ b.1 ∨ b.2 ≤ a.1

instance (a b : ℕ × ℕ) : Decidable (SpanDisjoint a b) :=
  inferInstanceAs (Decidable (a.2 ≤ b.1 ∨ b.2 ≤ a.1))

theorem nodup_spanRows (h : spans.Pairwise SpanDisjoint) :
    ((spanRows hash c n rowBase spans).map Prod.snd).Nodup := by
  induction spans generalizing rowBase with
  | nil => exact nodup_nil
  | cons span spans ih =>
    rw [pairwise_cons] at h
    rw [spanRows, map_append, map_map, nodup_append]
    refine ⟨?_, ih h.2, ?_⟩
    · have hid : (Prod.snd ∘ fun p => ((hash, rowBase + p - span.1), p)) = id := rfl
      rw [hid, map_id]
      exact nodup_range'
    · intro p hp q hq hpq
      obtain ⟨i, hi, rfl⟩ := mem_map.mp hp
      obtain ⟨w, hw, rfl⟩ := mem_map.mp hq
      obtain ⟨-, span', hspan', hin⟩ := mem_spanRows hw
      rw [mem_range'_1] at hi
      have := h.1 span' hspan'
      unfold SpanDisjoint at this
      dsimp only [Function.comp_apply] at hpq
      omega

theorem nodup_itemRows (h : (items.flatMap MMItem.offsets).Pairwise SpanDisjoint) :
    ((itemRows items c n).map Prod.snd).Nodup := by
  induction items with
  | nil => exact nodup_nil
  | cons item items ih =>
    rw [flatMap_cons, pairwise_append] at h
    rw [itemRows, flatMap_cons, map_append, nodup_append]
    refine ⟨nodup_spanRows h.1, ih h.2.1, ?_⟩
    intro p hp q hq hpq
    obtain ⟨w, hw, rfl⟩ := mem_map.mp hp
    obtain ⟨w', hw', rfl⟩ := mem_map.mp hq
    obtain ⟨item', hitem', hw'⟩ := mem_flatMap.mp hw'
    obtain ⟨-, span, hspan, hin⟩ := mem_spanRows hw
    obtain ⟨-, span', hspan', hin'⟩ := mem_spanRows hw'
    have := h.2.2 span hspan span' (mem_flatMap.mpr ⟨item', hitem', hspan'⟩)
    unfold SpanDisjoint at this
    omega

/-! ### The batch rows -/

/-- The rows that a plan row gathers, in order, for its request. -/
def PlanRow.sources (row : PlanRow) : List (ℕ × ℕ × ℕ) :=
  (range (row.rowHi - row.rowLo)).map fun i => (row.uid, row.hash, row.rowLo + i)

/-- The rows of the requests of a batch, each with the batch row of its token; the first request
starts at the batch row `offset`. -/
def placed : ℕ → List MMReq → List ((ℕ × ℕ × ℕ) × ℕ)
  | _, [] => []
  | offset, r :: reqs =>
    ((itemRows r.mmItems r.cachedLen r.deviceLen).map fun w =>
      ((r.uid, w.1), offset + (w.2 - r.cachedLen))) ++ placed (offset + r.extendLen) reqs

theorem mem_planSpans {row : PlanRow}
    (h : row ∈ planSpans uid item windowLo windowHi rowBase spans) :
    row.uid = uid ∧ row.hash = item.hash ∧ row.rowLo < row.rowHi := by
  induction spans generalizing rowBase with
  | nil => cases h
  | cons span spans ih =>
    rw [planSpans] at h
    split_ifs at h with hlt
    · rcases mem_cons.mp h with rfl | h
      · refine ⟨rfl, rfl, ?_⟩
        dsimp only
        omega
      · exact ih h
    · exact ih h

theorem mem_planMMChunk {row : PlanRow}
    (h : row ∈ (planMMChunk uid items windowLo windowHi cached).2) :
    row.uid = uid ∧ row.rowLo < row.rowHi := by
  rw [planMMChunk_snd] at h
  obtain ⟨item, -, hrow⟩ := mem_flatMap.mp h
  obtain ⟨huid, -, hlt⟩ := mem_planSpans hrow
  exact ⟨huid, hlt⟩

/-- The batch rows of one request. -/
theorem rows_planMMChunk (offset : ℕ) :
    (planMMChunk uid items windowLo windowHi cached).2.flatMap (fun row =>
      range' (offset + row.pos) (row.rowHi - row.rowLo)) =
      (itemRows items windowLo windowHi).map fun w => offset + (w.2 - windowLo) := by
  rw [← @copies_planMMChunk uid _ _ _ cached, map_flatMap]
  refine flatMap_congr fun row _ => ?_
  rw [PlanRow.copies, map_map, range'_eq_map_range]
  refine map_congr_left fun i _ => ?_
  show offset + row.pos + i = offset + (windowLo + row.pos + i - windowLo)
  omega

theorem sources_planMMChunk : (planMMChunk uid items windowLo windowHi cached).2.flatMap
    PlanRow.sources = (itemRows items windowLo windowHi).map fun w => (uid, w.1) := by
  rw [← @copies_planMMChunk uid _ _ _ cached, map_flatMap]
  refine flatMap_congr fun row hrow => ?_
  rw [PlanRow.copies, map_map, PlanRow.sources, (mem_planMMChunk hrow).1]
  rfl

theorem planMMReq_spec (cached : ℕ → Bool) (total : ℕ) (p : MMPlan) (r : MMReq) :
    (planMMReq cached total p r).plan =
        p.plan ++ (planMMChunk r.uid r.mmItems r.cachedLen r.deviceLen cached).2 ∧
      (planMMReq cached total p r).jobs =
        p.jobs ++ (planMMChunk r.uid r.mmItems r.cachedLen r.deviceLen cached).1 ∧
      (planMMReq cached total p r).rows = p.rows ++
        (itemRows r.mmItems r.cachedLen r.deviceLen).map (fun w => p.offset + (w.2 - r.cachedLen)) ∧
      (planMMReq cached total p r).offset = p.offset + r.extendLen := by
  rw [← @rows_planMMChunk r.uid _ _ _ cached]
  unfold planMMReq
  by_cases hmm : r.mmItems = []
  · rw [if_neg (not_not.mpr hmm), hmm]
    simp [planMMChunk]
  · rw [if_pos hmm]
    exact ⟨rfl, rfl, rfl, rfl⟩

theorem planMMBatch_plan (reqs : List MMReq) (cached : ℕ → Bool) : (planMMBatch reqs cached).plan =
    reqs.flatMap fun r => (planMMChunk r.uid r.mmItems r.cachedLen r.deviceLen cached).2 := by
  suffices h : ∀ (total : ℕ) (p : MMPlan), (reqs.foldl (planMMReq cached total) p).plan = p.plan ++
      reqs.flatMap fun r => (planMMChunk r.uid r.mmItems r.cachedLen r.deviceLen cached).2 from h _
        {}
  intro total
  induction reqs with
  | nil => exact fun p => (append_nil _).symm
  | cons r reqs ih =>
    intro p
    rw [foldl_cons, ih, (planMMReq_spec cached total p r).1, flatMap_cons, append_assoc]

/-- **A gathered row lands in the batch row of its token.** -/
theorem placed_planMMBatch (reqs : List MMReq) (cached : ℕ → Bool) :
    ((planMMBatch reqs cached).plan.flatMap PlanRow.sources).zip (planMMBatch reqs cached).rows =
      placed 0 reqs := by
  suffices h : ∀ (total : ℕ) (p : MMPlan), (p.plan.flatMap PlanRow.sources).length = p.rows.length →
      ((reqs.foldl (planMMReq cached total) p).plan.flatMap PlanRow.sources).zip
        (reqs.foldl (planMMReq cached total) p).rows =
          (p.plan.flatMap PlanRow.sources).zip p.rows ++ placed p.offset reqs from h _ {} rfl
  intro total
  induction reqs with
  | nil => exact fun p _ => (append_nil _).symm
  | cons r reqs ih =>
    intro p hp
    obtain ⟨hplan, -, hrows, hoffset⟩ := planMMReq_spec cached total p r
    rw [foldl_cons, ih, hplan, hrows, hoffset, flatMap_append, sources_planMMChunk,
      zip_append hp, zip_map', placed, append_assoc]
    rw [hplan, hrows, flatMap_append, sources_planMMChunk, length_append, length_append,
      length_map, length_map, hp]

/-! ### The encoder jobs -/

/-- The jobs and the plan fit: each job is gathered, and each planned image is cached or a job. -/
def JobsFit (cached : ℕ → Bool) (jobs : List MMItem) (plan : List PlanRow) : Prop :=
  (∀ job ∈ jobs, ∃ row ∈ plan, row.hash = job.hash) ∧
    ∀ row ∈ plan, cached row.hash = true ∨ ∃ job ∈ jobs, job.hash = row.hash

theorem JobsFit.append {jobs jobs' : List MMItem} {plan plan' : List PlanRow}
    (h : JobsFit cached jobs plan) (h' : JobsFit cached jobs' plan') :
    JobsFit cached (jobs ++ jobs') (plan ++ plan') := by
  constructor
  · intro job hjob
    rcases mem_append.mp hjob with hj | hj
    · obtain ⟨row, hrow, heq⟩ := h.1 job hj
      exact ⟨row, mem_append_left _ hrow, heq⟩
    · obtain ⟨row, hrow, heq⟩ := h'.1 job hj
      exact ⟨row, mem_append_right _ hrow, heq⟩
  · intro row hrow
    rcases mem_append.mp hrow with hr | hr
    · refine (h.2 row hr).imp_right fun ⟨job, hjob, heq⟩ => ?_
      exact ⟨job, mem_append_left _ hjob, heq⟩
    · refine (h'.2 row hr).imp_right fun ⟨job, hjob, heq⟩ => ?_
      exact ⟨job, mem_append_right _ hjob, heq⟩

theorem jobsFit_planMMChunk : JobsFit cached (planMMChunk uid items windowLo windowHi cached).1
    (planMMChunk uid items windowLo windowHi cached).2 := by
  suffices h : ∀ st : List MMItem × List PlanRow, JobsFit cached st.1 st.2 →
      JobsFit cached (items.foldl (planMMItem uid windowLo windowHi cached) st).1
        (items.foldl (planMMItem uid windowLo windowHi cached) st).2 from
    h ([], []) ⟨fun _ hjob => absurd hjob not_mem_nil, fun _ hrow => absurd hrow not_mem_nil⟩
  induction items with
  | nil => exact fun st h => h
  | cons item items ih =>
    intro st h
    rw [foldl_cons]
    apply ih
    obtain ⟨rows, hrows⟩ : ∃ rows, rows = planSpans uid item windowLo windowHi 0 item.offsets :=
      ⟨_, rfl⟩
    have hhash : ∀ row ∈ rows, row.hash = item.hash := fun row hrow => by
      rw [hrows] at hrow
      exact (mem_planSpans hrow).2.1
    unfold planMMItem
    dsimp only
    rw [← hrows]
    constructor
    · intro job hjob
      have hkeep : ∀ job ∈ st.1, ∃ row ∈ st.2 ++ rows, row.hash = job.hash := fun job hjob => by
        obtain ⟨row, hrow, heq⟩ := h.1 job hjob
        exact ⟨row, mem_append_left _ hrow, heq⟩
      split_ifs at hjob with hneed
      · rcases mem_append.mp hjob with hj | hj
        · exact hkeep job hj
        · obtain rfl := mem_singleton.mp hj
          rw [Bool.and_eq_true, Bool.not_eq_true'] at hneed
          obtain ⟨row, rest, hcons⟩ := exists_cons_of_ne_nil (isEmpty_eq_false_iff.mp hneed.2)
          have hrow : row ∈ rows := hcons ▸ mem_cons_self
          exact ⟨row, mem_append_right _ hrow, hhash row hrow⟩
      · exact hkeep job hjob
    · intro row hrow
      rcases mem_append.mp hrow with hr | hr
      · refine (h.2 row hr).imp_right fun ⟨job, hjob, heq⟩ => ⟨job, ?_, heq⟩
        split_ifs
        · exact mem_append_left _ hjob
        · exact hjob
      · rw [hhash row hr]
        by_cases hcached : cached item.hash = true
        · exact Or.inl hcached
        · refine Or.inr ?_
          have hne : rows.isEmpty = false :=
            isEmpty_eq_false_iff.mpr (ne_nil_of_mem hr)
          rw [hne, Bool.eq_false_iff.mpr hcached, Bool.not_false, Bool.and_true, Bool.and_true]
          -- a job for the image is queued already, or queued now
          by_cases hqueued : (st.1.any fun job => job.hash == item.hash) = true
          · obtain ⟨job, hjob, heq⟩ := any_eq_true.mp hqueued
            rw [hqueued]
            exact ⟨job, hjob, eq_of_beq heq⟩
          · rw [Bool.eq_false_iff.mpr hqueued]
            exact ⟨item, mem_append_right _ mem_cons_self, rfl⟩

theorem jobsFit_planMMBatch (reqs : List MMReq) (cached : ℕ → Bool) :
    JobsFit cached (planMMBatch reqs cached).jobs (planMMBatch reqs cached).plan := by
  suffices h : ∀ (total : ℕ) (p : MMPlan), JobsFit cached p.jobs p.plan →
      JobsFit cached (reqs.foldl (planMMReq cached total) p).jobs
        (reqs.foldl (planMMReq cached total) p).plan from
    h _ {} ⟨fun _ hjob => absurd hjob not_mem_nil, fun _ hrow => absurd hrow not_mem_nil⟩
  intro total
  induction reqs with
  | nil => exact fun p h => h
  | cons r reqs ih =>
    intro p h
    rw [foldl_cons]
    apply ih
    obtain ⟨hplan, hjobs, -, -⟩ := planMMReq_spec cached total p r
    rw [hplan, hjobs]
    exact h.append jobsFit_planMMChunk

/-! ### The engine -/

section engine

variable {α : Type} {cache : EncoderCache α} {encode : MMItem → List α} {plan : List PlanRow}
  {jobs : List MMItem} {row : PlanRow}

/-- How many rows of the image `h` a plan gathers for the request `uid`. -/
def planned (plan : List PlanRow) (h uid : ℕ) : ℕ :=
  (plan.flatMap PlanRow.sources).countP fun s => s.1 == uid && s.2.1 == h

theorem planned_cons (h u : ℕ) : planned (row :: plan) h u =
    (if h = row.hash ∧ u = row.uid then row.rowHi - row.rowLo else 0) + planned plan h u := by
  rw [planned, flatMap_cons, countP_append, PlanRow.sources, countP_map]
  congr 1
  by_cases hhu : h = row.hash ∧ u = row.uid
  · rw [if_pos hhu, countP_eq_length.mpr, length_range]
    intro i _
    simp [hhu]
  · rw [if_neg hhu, countP_eq_zero]
    intro i _ hi
    simp only [Function.comp_apply, Bool.and_eq_true, beq_iff_eq] at hi
    exact hhu ⟨hi.2.symm, hi.1.symm⟩

theorem planned_pos (hrow : row ∈ plan) (hlt : row.rowLo < row.rowHi) :
    0 < planned plan row.hash row.uid := by
  rw [planned, countP_pos_iff]
  refine ⟨(row.uid, row.hash, row.rowLo + 0), mem_flatMap.mpr ⟨row, hrow, ?_⟩, by simp⟩
  exact mem_map.mpr ⟨0, mem_range.mpr (by omega), rfl⟩

variable (encode) in
/-- The encoder jobs store all their images. -/
theorem runJobs_spec (hc : cache.Wf) (hjobs : ∀ job ∈ jobs, ∃ u, 0 < cache.left job.hash u) :
    ∃ cache', jobs.foldlM (runJob encode) cache = some cache' ∧ cache'.Wf ∧
      (∀ h u, cache'.left h u = cache.left h u) ∧
      ∀ h, (cache.has h = true ∨ ∃ job ∈ jobs, job.hash = h) → cache'.has h = true := by
  induction jobs generalizing cache with
  | nil =>
    refine ⟨cache, rfl, hc, fun _ _ => rfl, fun h hh => hh.resolve_right ?_⟩
    rintro ⟨job, hjob, -⟩
    cases hjob
  | cons job jobs ih =>
    obtain ⟨u, hu⟩ := hjobs job mem_cons_self
    obtain ⟨c₁, hrun, hc₁, hleft₁, hhas₁⟩ : ∃ c₁, runJob encode cache job = some c₁ ∧ c₁.Wf ∧
        (∀ h u, c₁.left h u = cache.left h u) ∧ ∀ h, c₁.has h = (cache.has h || h == job.hash) := by
      unfold runJob
      split_ifs with hhas
      · refine ⟨cache, rfl, hc, fun _ _ => rfl, fun h => ?_⟩
        by_cases hh : h = job.hash
        · rw [hh, hhas, Bool.true_or]
        · rw [beq_false_of_ne hh, Bool.or_false]
      · exact EncoderCache.put_spec hc hu _
    obtain ⟨c₂, hrun₂, hc₂, hleft₂, hhas₂⟩ := ih hc₁ fun job hjob => by
      obtain ⟨u, hu⟩ := hjobs job (mem_cons_of_mem _ hjob)
      exact ⟨u, hleft₁ job.hash u ▸ hu⟩
    refine ⟨c₂, ?_, hc₂, fun h u => (hleft₂ h u).trans (hleft₁ h u), fun h hh => hhas₂ h ?_⟩
    · rw [foldlM_cons, hrun]
      exact hrun₂
    · rw [hhas₁, Bool.or_eq_true, beq_iff_eq]
      rcases hh with hh | ⟨job', hjob', rfl⟩
      · exact Or.inl (Or.inl hh)
      · rcases mem_cons.mp hjob' with rfl | hjob'
        · exact Or.inl (Or.inr rfl)
        · exact Or.inr ⟨job', hjob', rfl⟩

/-- **Gathering never trips an assertion**, if the requests hold what the plan gathers. -/
theorem gatherRows_spec (hc : cache.Wf) (hplan : ∀ row ∈ plan, row.rowLo < row.rowHi)
    (hhas : ∀ row ∈ plan, cache.has row.hash = true)
    (hle : ∀ h u, planned plan h u ≤ cache.left h u) (parts : List α) :
    ∃ cache' parts', plan.foldlM gatherRow (cache, parts) = some (cache', parts') ∧ cache'.Wf ∧
      ∀ h u, cache'.left h u = cache.left h u - planned plan h u := by
  induction plan generalizing cache parts with
  | nil => exact ⟨cache, parts, rfl, hc, fun _ _ => rfl⟩
  | cons row plan ih =>
    have hlt := hplan row mem_cons_self
    obtain ⟨slice, hslice⟩ := EncoderCache.getSlice_isSome (hhas row mem_cons_self)
      row.rowLo row.rowHi
    have hself := hle row.hash row.uid
    rw [planned_cons, if_pos ⟨rfl, rfl⟩] at hself
    have hrows : 0 < row.rowHi - row.rowLo := by omega
    have hheld : row.rowHi - row.rowLo ≤ cache.left row.hash row.uid := by omega
    obtain ⟨c₁, hrun, hc₁, hleft₁, hhas₁⟩ := EncoderCache.consume_spec hc hrows hheld
    have hle₁ : ∀ h u, planned plan h u ≤ c₁.left h u := by
      intro h u
      have := hle h u
      rw [planned_cons] at this
      rw [hleft₁]
      omega
    -- a row that is still planned is held, so its image is still stored
    have hheld' : ∀ row' ∈ plan, 0 < c₁.left row'.hash row'.uid := fun row' hrow' =>
      (planned_pos hrow' (hplan row' (mem_cons_of_mem _ hrow'))).trans_le (hle₁ _ _)
    obtain ⟨c₂, parts₂, hrun₂, hc₂, hleft₂⟩ := ih hc₁
      (fun row' hrow' => hplan row' (mem_cons_of_mem _ hrow'))
      (fun row' hrow' => (hhas₁ row'.hash row'.uid (hheld' row' hrow')).trans
        (hhas row' (mem_cons_of_mem _ hrow'))) hle₁ (parts ++ slice)
    refine ⟨c₂, parts₂, ?_, hc₂, fun h u => ?_⟩
    · have hstep : gatherRow (cache, parts) row = some (c₁, parts ++ slice) := by
        unfold gatherRow
        rw [hslice]
        rw [hrun]
        rfl
      rw [foldlM_cons, hstep]
      exact hrun₂
    · rw [hleft₂, hleft₁, planned_cons]
      omega

variable (encode) in
/-- A batch is encoded and gathered, if its requests hold what its chunks gather. -/
theorem runMMEncoder_spec (reqs : List MMReq) (hc : cache.Wf)
    (hle : ∀ h u, planned (planMMBatch reqs cache.has).plan h u ≤ cache.left h u) :
    ∃ cache' embeds, runMMEncoder encode cache (planMMBatch reqs cache.has).jobs
        (planMMBatch reqs cache.has).plan = some (cache', embeds) ∧ cache'.Wf ∧
      ∀ h u, cache'.left h u = cache.left h u - planned (planMMBatch reqs cache.has).plan h u := by
  obtain ⟨hjobs, hcached⟩ := jobsFit_planMMBatch reqs cache.has
  have hrows : ∀ row ∈ (planMMBatch reqs cache.has).plan, row.rowLo < row.rowHi := by
    intro row hrow
    rw [planMMBatch_plan] at hrow
    obtain ⟨r, -, hrow⟩ := mem_flatMap.mp hrow
    exact (mem_planMMChunk hrow).2
  obtain ⟨p, hp⟩ : ∃ p, p = planMMBatch reqs cache.has := ⟨_, rfl⟩
  rw [← hp] at hjobs hcached hrows hle ⊢
  have hheld : ∀ job ∈ p.jobs, ∃ u, 0 < cache.left job.hash u := by
    intro job hjob
    obtain ⟨row, hrow, heq⟩ := hjobs job hjob
    exact ⟨row.uid, heq ▸ (planned_pos hrow (hrows row hrow)).trans_le (hle _ _)⟩
  obtain ⟨c₁, hrun₁, hc₁, hleft₁, hhas₁⟩ := runJobs_spec encode hc hheld
  obtain ⟨c₂, parts, hrun₂, hc₂, hleft₂⟩ := gatherRows_spec hc₁ hrows
    (fun row hrow => hhas₁ row.hash (hcached row hrow)) (fun h u => hleft₁ h u ▸ hle h u) []
  refine ⟨c₂, parts, ?_, hc₂, fun h u => (hleft₂ h u).trans (by rw [hleft₁])⟩
  have hall : (p.jobs.all fun item => p.plan.any fun row => row.hash == item.hash) = true := by
    rw [all_eq_true]
    intro job hjob
    obtain ⟨row, hrow, heq⟩ := hjobs job hjob
    exact any_eq_true.mpr ⟨row, hrow, beq_iff_eq.mpr heq⟩
  rw [runMMEncoder, if_pos hall, hrun₁]
  exact hrun₂

end engine

/-! ### Runs -/

/-- An admitted request: its items, how many tokens its chunks have covered, and its prompt. -/
structure MMLive where
  uid : ℕ
  mmItems : List MMItem
  cachedLen : ℕ
  inputLen : ℕ
deriving DecidableEq, Repr

/-- The next chunk of a request, up to `stop`. -/
def MMLive.chunk (r : MMLive) (stop : ℕ) : MMReq := ⟨r.uid, r.mmItems, r.cachedLen, stop⟩

/-- The encoder cache and the requests that use it. -/
structure MMSys (α : Type) where
  cache : EncoderCache α := {}
  live : List MMLive := []

/-- How many rows of the image `h` a request still has to gather. -/
def MMLive.rowsOf (r : MMLive) (h : ℕ) : ℕ :=
  (itemRows r.mmItems r.cachedLen r.inputLen).countP fun w => w.1.1 == h

/-- One step: a request is admitted, some requests run their next chunk in one batch, a request that
has run its prompt finishes, or a request is aborted. -/
inductive MMStep {α : Type} (encode : MMItem → List α) (s : MMSys α) : MMSys α → Prop
  | enter (r : MMLive) (hfresh : ∀ r' ∈ s.live, r'.uid ≠ r.uid) (hlen : r.cachedLen ≤ r.inputLen)
      (hitems : Within r.mmItems r.inputLen) :
      MMStep encode s ⟨claimRows s.cache r.uid r.mmItems r.cachedLen, r :: s.live⟩
  | batch (chunks : List (MMLive × ℕ)) (others : List MMLive) (cache : EncoderCache α)
      (embeds : List α) (hlive : s.live.Perm (chunks.map Prod.fst ++ others))
      (hstop : ∀ x ∈ chunks, x.1.cachedLen ≤ x.2 ∧ x.2 ≤ x.1.inputLen)
      (hrun : runMMEncoder encode s.cache
        (planMMBatch (chunks.map fun x => x.1.chunk x.2) s.cache.has).jobs
        (planMMBatch (chunks.map fun x => x.1.chunk x.2) s.cache.has).plan = some (cache, embeds)) :
      MMStep encode s ⟨cache, (chunks.map fun x => { x.1 with cachedLen := x.2 }) ++ others⟩
  | finish (r : MMLive) (others : List MMLive) (hlive : s.live.Perm (r :: others))
      (hdone : r.cachedLen = r.inputLen) : MMStep encode s ⟨s.cache, others⟩
  | abort (r : MMLive) (others : List MMLive) (hlive : s.live.Perm (r :: others)) :
      MMStep encode s ⟨dropClaims s.cache r.uid r.mmItems, others⟩

/-- The states that are reached from an empty cache. -/
inductive MMRun {α : Type} (encode : MMItem → List α) : MMSys α → Prop
  | init : MMRun encode {}
  | step (s s' : MMSys α) (h : MMRun encode s) (hs : MMStep encode s s') : MMRun encode s'

/-- The invariant: the cache holds for each live request what it still has to gather, and nothing
for any other request. -/
structure MMSys.Inv {α : Type} (s : MMSys α) : Prop where
  wf : s.cache.Wf
  nodup : (s.live.map MMLive.uid).Nodup
  len_le : ∀ r ∈ s.live, r.cachedLen ≤ r.inputLen
  within : ∀ r ∈ s.live, Within r.mmItems r.inputLen
  left_live : ∀ r ∈ s.live, ∀ h, s.cache.left h r.uid = r.rowsOf h
  left_other : ∀ u, (∀ r ∈ s.live, r.uid ≠ u) → ∀ h, s.cache.left h u = 0

section run

variable {α : Type} {encode : MMItem → List α} {s s' : MMSys α}

theorem MMSys.Inv.perm {live : List MMLive} (h : s.Inv) (hp : s.live.Perm live) :
    MMSys.Inv ⟨s.cache, live⟩ :=
  ⟨h.wf, (hp.map _).nodup_iff.mp h.nodup, fun r hr => h.len_le r (hp.mem_iff.mpr hr),
    fun r hr => h.within r (hp.mem_iff.mpr hr), fun r hr => h.left_live r (hp.mem_iff.mpr hr),
    fun u hu => h.left_other u fun r hr => hu r (hp.mem_iff.mp hr)⟩

theorem hash_spanRows {w : (ℕ × ℕ) × ℕ} (hw : w ∈ spanRows hash c n rowBase spans) :
    w.1.1 = hash := by
  induction spans generalizing rowBase with
  | nil => cases hw
  | cons span spans ih =>
    rw [spanRows, mem_append] at hw
    rcases hw with hw | hw
    · obtain ⟨p, -, rfl⟩ := mem_map.mp hw
      rfl
    · exact ih hw

theorem countP_itemRows_cons (h : Within (item :: items) n) (h' : ℕ) :
    (itemRows (item :: items) c n).countP (fun w => w.1.1 == h') =
      (if h' = item.hash then mmRowsAfter item c else 0) +
        (itemRows items c n).countP fun w => w.1.1 == h' := by
  rw [itemRows, flatMap_cons, countP_append]
  congr 1
  split_ifs with hh
  · rw [countP_eq_length.mpr fun w hw => beq_iff_eq.mpr ((hash_spanRows hw).trans hh.symm),
      length_spanRows (h item mem_cons_self), mmRowsAfter]
  · rw [countP_eq_zero]
    exact fun w hw heq => hh ((beq_iff_eq.mp heq).symm.trans (hash_spanRows hw))

/-- What an admitted request claims is what its chunks will gather. -/
theorem claimRows_spec {cache : EncoderCache α} (hc : cache.Wf) (uid : ℕ) (h : Within items n) :
    (claimRows cache uid items c).Wf ∧ ∀ h' u, (claimRows cache uid items c).left h' u =
      cache.left h' u +
        if u = uid then (itemRows items c n).countP (fun w => w.1.1 == h') else 0 := by
  induction items generalizing cache with
  | nil =>
    refine ⟨hc, fun h' u => ?_⟩
    rw [itemRows, flatMap_nil, countP_nil, ite_self]
    rfl
  | cons item items ih =>
    obtain ⟨hwf, hleft⟩ := @EncoderCache.register_spec _ _ item.hash uid (mmRowsAfter item c) hc
    obtain ⟨hwf', hleft'⟩ := ih hwf fun item hi => h item (mem_cons_of_mem _ hi)
    refine ⟨hwf', fun h' u => ?_⟩
    have hstep := hleft' h' u
    rw [hleft] at hstep
    refine hstep.trans ?_
    rw [countP_itemRows_cons h]
    by_cases hu : u = uid
    · by_cases hh : h' = item.hash
      · rw [if_pos ⟨hh, hu⟩, if_pos hu, if_pos hu, if_pos hh, add_assoc]
      · rw [if_neg fun h => hh h.1, if_pos hu, if_pos hu, if_neg hh, add_zero, zero_add]
    · rw [if_neg fun h => hu h.2, if_neg hu, if_neg hu, add_zero]

theorem planned_append (plan plan' : List PlanRow) (h u : ℕ) :
    planned (plan ++ plan') h u = planned plan h u + planned plan' h u := by
  rw [planned, flatMap_append, countP_append]
  rfl

theorem planned_planMMChunk (h u : ℕ) :
    planned (planMMChunk uid items windowLo windowHi cached).2 h u =
      if u = uid then (itemRows items windowLo windowHi).countP (fun w => w.1.1 == h) else 0 := by
  rw [planned, sources_planMMChunk, countP_map]
  split_ifs with hu
  · refine countP_congr fun w _ => ?_
    simp [hu]
  · rw [countP_eq_zero]
    intro w _ hw
    simp only [Function.comp_apply, Bool.and_eq_true, beq_iff_eq] at hw
    exact hu hw.1.symm

theorem planned_planMMBatch {reqs : List MMReq} (hn : (reqs.map MMReq.uid).Nodup) (h : ℕ) :
    (∀ r ∈ reqs, planned (planMMBatch reqs cached).plan h r.uid =
      (itemRows r.mmItems r.cachedLen r.deviceLen).countP fun w => w.1.1 == h) ∧
    ∀ u, (∀ r ∈ reqs, r.uid ≠ u) → planned (planMMBatch reqs cached).plan h u = 0 := by
  rw [planMMBatch_plan]
  induction reqs with
  | nil => exact ⟨fun r hr => absurd hr not_mem_nil, fun u _ => rfl⟩
  | cons r reqs ih =>
    rw [map_cons, nodup_cons] at hn
    obtain ⟨hin, hout⟩ := ih hn.2
    have hfirst : ∀ r' ∈ reqs, r'.uid ≠ r.uid := fun r' hr' heq =>
      hn.1 (mem_map.mpr ⟨r', hr', heq⟩)
    simp only [flatMap_cons, planned_append, planned_planMMChunk]
    constructor
    · intro r' hr'
      rcases mem_cons.mp hr' with rfl | hr'
      · rw [if_pos rfl, hout r'.uid hfirst, add_zero]
      · rw [if_neg (hfirst r' hr'), hin r' hr', zero_add]
    · intro u hu
      obtain ⟨hne, hu⟩ := forall_mem_cons.mp hu
      rw [if_neg (Ne.symm hne), hout u hu]

variable (encode) in
/-- **A batch of chunks runs**, and leaves in the cache what the requests still have to gather. -/
theorem MMSys.Inv.runBatch {chunks : List (MMLive × ℕ)} {others : List MMLive} (h : s.Inv)
    (hlive : s.live.Perm (chunks.map Prod.fst ++ others))
    (hstop : ∀ x ∈ chunks, x.1.cachedLen ≤ x.2 ∧ x.2 ≤ x.1.inputLen) :
    ∃ cache embeds, runMMEncoder encode s.cache
      (planMMBatch (chunks.map fun x => x.1.chunk x.2) s.cache.has).jobs
      (planMMBatch (chunks.map fun x => x.1.chunk x.2) s.cache.has).plan = some (cache, embeds) ∧
      MMSys.Inv ⟨cache, (chunks.map fun x => { x.1 with cachedLen := x.2 }) ++ others⟩ := by
  have h := h.perm hlive
  have huids : (chunks.map Prod.fst).map MMLive.uid =
      (chunks.map fun x => x.1.chunk x.2).map MMReq.uid := by
    rw [map_map, map_map]
    rfl
  have hnd := h.nodup
  rw [map_append, huids] at hnd
  have hchunk : ∀ x ∈ chunks, x.1 ∈ chunks.map Prod.fst ++ others := fun x hx =>
    mem_append_left _ (mem_map_of_mem hx)
  have hplanned := fun h => @planned_planMMBatch s.cache.has _
    (nodup_append.mp hnd).1 h
  -- the rows of a request are those of its chunk and the later ones
  have hsplit : ∀ x ∈ chunks, ∀ h' : ℕ, s.cache.left h' x.1.uid =
      planned (planMMBatch (chunks.map fun x => x.1.chunk x.2) s.cache.has).plan h' x.1.uid +
        MMLive.rowsOf { x.1 with cachedLen := x.2 } h' := by
    intro x hx h'
    have hrow := (hplanned h').1 _ (mem_map_of_mem hx)
    have hperm := @itemRows_append _ _ _ x.1.mmItems (hstop x hx).1 (hstop x hx).2
    rw [h.left_live x.1 (hchunk x hx), MMLive.rowsOf, ← hperm.countP_eq, countP_append]
    exact congrArg (· + _) hrow.symm
  have hnone : ∀ u, (∀ x ∈ chunks, x.1.uid ≠ u) → ∀ h',
      planned (planMMBatch (chunks.map fun x => x.1.chunk x.2) s.cache.has).plan h' u = 0 := by
    refine fun u hu h' => (hplanned h').2 u fun r hr => ?_
    obtain ⟨x, hx, rfl⟩ := mem_map.mp hr
    exact hu x hx
  obtain ⟨cache, embeds, hrun, hwf, hleft⟩ := runMMEncoder_spec encode
    (chunks.map fun x => x.1.chunk x.2) h.wf fun h' u => by
      by_cases hu : ∃ x ∈ chunks, x.1.uid = u
      · obtain ⟨x, hx, rfl⟩ := hu
        rw [hsplit x hx]
        exact Nat.le_add_right _ _
      · rw [hnone u fun x hx heq => hu ⟨x, hx, heq⟩]
        exact Nat.zero_le _
  refine ⟨cache, embeds, hrun, hwf, ?_, ?_, ?_, ?_, fun u hu h' => ?_⟩
  · rw [map_append, map_map]
    rw [map_map] at hnd
    exact hnd
  · intro r hr
    rcases mem_append.mp hr with hr | hr
    · obtain ⟨x, hx, rfl⟩ := mem_map.mp hr
      exact (hstop x hx).2
    · exact h.len_le r (mem_append_right _ hr)
  · intro r hr
    rcases mem_append.mp hr with hr | hr
    · obtain ⟨x, hx, rfl⟩ := mem_map.mp hr
      exact h.within x.1 (hchunk x hx)
    · exact h.within r (mem_append_right _ hr)
  · intro r hr h'
    rcases mem_append.mp hr with hr | hr
    · obtain ⟨x, hx, rfl⟩ := mem_map.mp hr
      refine (hleft h' x.1.uid).trans ?_
      rw [hsplit x hx, Nat.add_sub_cancel_left]
    · have hne : ∀ x ∈ chunks, x.1.uid ≠ r.uid := fun x hx heq => by
        refine (nodup_append.mp hnd).2.2 x.1.uid ?_ r.uid (mem_map_of_mem hr) heq
        exact mem_map.mpr ⟨_, mem_map_of_mem hx, rfl⟩
      refine (hleft h' r.uid).trans ?_
      rw [hnone r.uid hne, Nat.sub_zero]
      exact h.left_live r (mem_append_right _ hr) h'
  · have hchunks : ∀ x ∈ chunks, x.1.uid ≠ u := fun x hx =>
      hu { x.1 with cachedLen := x.2 } (mem_append_left _ (mem_map.mpr ⟨x, hx, rfl⟩))
    refine (hleft h' u).trans ?_
    rw [hnone u hchunks, Nat.sub_zero]
    refine h.left_other u (fun r hr => ?_) h'
    rcases mem_append.mp hr with hr | hr
    · obtain ⟨x, hx, rfl⟩ := mem_map.mp hr
      exact hchunks x hx
    · exact hu r (mem_append_right _ hr)

theorem MMSys.Inv.drop {cache cache' : EncoderCache α} {r : MMLive} {others : List MMLive}
    (h : MMSys.Inv ⟨cache, r :: others⟩) (hwf : cache'.Wf)
    (hsame : ∀ u, u ≠ r.uid → ∀ h, cache'.left h u = cache.left h u)
    (hnone : ∀ h, cache'.left h r.uid = 0) : MMSys.Inv ⟨cache', others⟩ := by
  have hnd := h.nodup
  rw [map_cons, nodup_cons] at hnd
  refine ⟨hwf, hnd.2, fun r' hr' => h.len_le r' (mem_cons_of_mem _ hr'),
    fun r' hr' => h.within r' (mem_cons_of_mem _ hr'), fun r' hr' h' => ?_, fun u hu h' => ?_⟩
  · have hne : r'.uid ≠ r.uid := fun heq => hnd.1 (mem_map.mpr ⟨r', hr', heq⟩)
    rw [hsame r'.uid hne]
    exact h.left_live r' (mem_cons_of_mem _ hr') h'
  · by_cases hur : u = r.uid
    · exact hur ▸ hnone h'
    · rw [hsame u hur]
      exact h.left_other u (forall_mem_cons.mpr ⟨Ne.symm hur, hu⟩) h'

theorem MMStep.inv (h : s.Inv) (hs : MMStep encode s s') : s'.Inv := by
  cases hs with
  | enter r hfresh hlen hitems =>
    obtain ⟨hwf, hleft⟩ := claimRows_spec (c := r.cachedLen) h.wf r.uid hitems
    refine ⟨hwf, ?_, ?_, ?_, fun r' hr' h' => ?_, fun u hu h' => ?_⟩
    · rw [map_cons, nodup_cons]
      refine ⟨fun hmem => ?_, h.nodup⟩
      obtain ⟨r', hr', heq⟩ := mem_map.mp hmem
      exact hfresh r' hr' heq
    · exact forall_mem_cons.mpr ⟨hlen, h.len_le⟩
    · exact forall_mem_cons.mpr ⟨hitems, h.within⟩
    · rw [hleft]
      rcases mem_cons.mp hr' with rfl | hr'
      · rw [h.left_other r'.uid hfresh, if_pos rfl, zero_add]
        rfl
      · rw [h.left_live r' hr', if_neg (hfresh r' hr'), add_zero]
    · obtain ⟨hne, hu⟩ := forall_mem_cons.mp hu
      rw [hleft, h.left_other u hu, if_neg (Ne.symm hne)]
  | batch chunks others cache embeds hlive hstop hrun =>
    obtain ⟨cache', embeds', hrun', hinv⟩ := h.runBatch encode hlive hstop
    obtain ⟨rfl, rfl⟩ := Prod.ext_iff.mp (Option.some.inj (hrun'.symm.trans hrun))
    exact hinv
  | finish r others hlive hdone =>
    have h := h.perm hlive
    refine h.drop h.wf (fun _ _ _ => rfl) fun h' => ?_
    rw [h.left_live r mem_cons_self, MMLive.rowsOf, hdone, itemRows_self]
    rfl
  | abort r others hlive =>
    have h := h.perm hlive
    obtain ⟨hwf, hleft⟩ := @EncoderCache.release_spec _ _ r.uid h.wf (r.mmItems.map MMItem.hash)
    refine h.drop hwf (fun u hu h' => ?_) fun h' => ?_
    · exact (hleft h' u).trans (if_neg fun h => hu h.2)
    · refine (hleft h' r.uid).trans ?_
      split_ifs with hmem
      · rfl
      · -- the request has no item with this hash, so it held nothing of it
        rw [h.left_live r mem_cons_self, MMLive.rowsOf, countP_eq_zero]
        intro w hw heq
        obtain ⟨item, hitem, hw⟩ := mem_flatMap.mp hw
        refine hmem ⟨mem_map.mpr ⟨item, hitem, ?_⟩, rfl⟩
        exact (hash_spanRows hw).symm.trans (beq_iff_eq.mp heq)

theorem MMRun.inv (h : MMRun encode s) : s.Inv := by
  induction h with
  | init =>
    refine ⟨fun h entry he => ?_, nodup_nil, ?_, ?_, ?_, fun _ _ h => ?_⟩
    · rw [AList.lookup_empty] at he
      cases he
    · exact fun r hr => absurd hr not_mem_nil
    · exact fun r hr => absurd hr not_mem_nil
    · exact fun r hr => absurd hr not_mem_nil
    · exact EncoderCache.left_of_none (AList.lookup_empty h)
  | step s s' _ hs ih => exact hs.inv ih

/-- An image is in the cache exactly while a live request has rows of it to gather. -/
theorem MMSys.Inv.mem_entries (hs : s.Inv) (h : ℕ) :
    h ∈ s.cache.entries ↔ ∃ r ∈ s.live, 0 < r.rowsOf h := by
  rw [hs.wf.mem_entries]
  constructor
  · rintro ⟨u, hu⟩
    by_cases hlive : ∃ r ∈ s.live, r.uid = u
    · obtain ⟨r, hr, rfl⟩ := hlive
      exact ⟨r, hr, hs.left_live r hr h ▸ hu⟩
    · rw [hs.left_other u fun r hr heq => hlive ⟨r, hr, heq⟩] at hu
      exact absurd hu (lt_irrefl 0)
  · rintro ⟨r, hr, hpos⟩
    exact ⟨r.uid, (hs.left_live r hr h).symm ▸ hpos⟩

/-- The copies of the chunks of a prompt with the given ends, from `c` on. -/
def chunkCopies (uid : ℕ) (items : List MMItem) (cached : ℕ × ℕ → ℕ → Bool) (c : ℕ)
    (ends : List ℕ) : List ((ℕ × ℕ) × ℕ) :=
  (windows c ends).flatMap fun w => (planMMChunk uid items w.1 w.2 (cached w)).2.flatMap
    (PlanRow.copies w.1)

/-- **Rows are gathered once and released once.**

* Whatever the chunks of a prompt, they copy each embedding row behind the cached prefix once, one
  row for each token of a span, as many as `mm_rows_after` counts.
* In a batch, each row lands in the batch row of its token.
* In a run, gathering a batch never trips an assertion, and an image is in the cache exactly while a
  live request has rows of it to gather. -/
theorem mmRows_exactlyOnce (encode : MMItem → List α) :
    (∀ (uid : ℕ) (items : List MMItem) (c n : ℕ) (ends : List ℕ) (cached : ℕ × ℕ → ℕ → Bool),
      (items.flatMap MMItem.offsets).Pairwise SpanDisjoint → Within items n →
      (c :: ends).IsChain (· < ·) → (c :: ends).getLast? = some n →
      (chunkCopies uid items cached c ends).Perm (itemRows items c n) ∧
        ((chunkCopies uid items cached c ends).map Prod.snd).Nodup ∧
        (∀ p, p ∈ (chunkCopies uid items cached c ends).map Prod.snd ↔
          (c ≤ p ∧ p < n) ∧ ∃ item ∈ items, ∃ span ∈ item.offsets, span.1 ≤ p ∧ p < span.2) ∧
        (chunkCopies uid items cached c ends).length = rowsAfter items c) ∧
    (∀ (reqs : List MMReq) (cached : ℕ → Bool),
      ((planMMBatch reqs cached).plan.flatMap PlanRow.sources).zip (planMMBatch reqs cached).rows =
        placed 0 reqs) ∧
    ∀ s, MMRun encode s →
      (∀ (chunks : List (MMLive × ℕ)) (others : List MMLive),
        s.live.Perm (chunks.map Prod.fst ++ others) →
        (∀ x ∈ chunks, x.1.cachedLen ≤ x.2 ∧ x.2 ≤ x.1.inputLen) →
        (runMMEncoder encode s.cache
          (planMMBatch (chunks.map fun x => x.1.chunk x.2) s.cache.has).jobs
          (planMMBatch (chunks.map fun x => x.1.chunk x.2) s.cache.has).plan).isSome) ∧
      ∀ h, h ∈ s.cache.entries ↔ ∃ r ∈ s.live, 0 < r.rowsOf h := by
  refine ⟨?_, placed_planMMBatch, ?_⟩
  · intro uid items c n ends cached hdisj hwithin hends hlast
    have hperm : (chunkCopies uid items cached c ends).Perm (itemRows items c n) :=
      copies_chunks hends hlast cached
    refine ⟨hperm, ?_, fun p => ?_, ?_⟩
    · exact (hperm.map Prod.snd).nodup_iff.mpr (nodup_itemRows hdisj)
    · rw [(hperm.map Prod.snd).mem_iff, mem_itemRows_snd]
    · rw [hperm.length_eq, length_itemRows hwithin]
  · intro s hs
    refine ⟨fun chunks others hlive hstop => ?_, hs.inv.mem_entries⟩
    obtain ⟨cache, embeds, hrun, -⟩ := hs.inv.runBatch encode hlive hstop
    rw [hrun]
    rfl

def sharedImage : MMItem := ⟨7, [(2, 6)]⟩

/-- Two requests share an image; a chunk border cuts it for the first, the cached prefix for the
second.  The second one's chunk runs to the end, and the first is aborted. -/
theorem mmRows_exactlyOnce_shared :
    (chunkCopies 1 [sharedImage] (fun _ _ => false) 0 [4, 8]).length = 4 ∧
    ∃ s, MMRun (fun item => range item.numTokens) s ∧
      s.live = [⟨2, [sharedImage], 8, 8⟩] ∧ 7 ∉ s.cache.entries := by
  constructor
  · exact ((mmRows_exactlyOnce (α := ℕ) fun _ => []).1 1 [sharedImage] 0 8 [4, 8] _ (by decide)
      (by decide) (by decide) rfl).2.2.2
  · have h₁ : MMRun (fun item => range item.numTokens) _ :=
      .step _ _ .init (.enter ⟨1, [sharedImage], 0, 8⟩ (by decide) (by decide) (by decide))
    have h₂ :=
      MMRun.step _ _ h₁ (.enter ⟨2, [sharedImage], 3, 8⟩ (by decide) (by decide) (by decide))
    have h₃ :=
      MMRun.step _ _ h₂ (.batch [(⟨2, [sharedImage], 3, 8⟩, 8), (⟨1, [sharedImage], 0, 8⟩, 4)]
      [] _ _ (.refl _) (by decide) rfl)
    have h₄ :=
      MMRun.step _ _ h₃ (.abort ⟨1, [sharedImage], 4, 8⟩ [⟨2, [sharedImage], 8, 8⟩] (.swap _ _ _))
    refine ⟨_, h₄, rfl, ?_⟩
    rw [((mmRows_exactlyOnce _).2.2 _ h₄).2]
    decide

end run

end FreeToken
