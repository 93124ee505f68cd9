import FreeToken.Scheduler.Mm

/-!
# Where a chunk is cut

* `ChunkCut`: the loop over the spans has looked at some of them and cuts at a boundary.
* `mmChunkEnd_isGreatest`: the cut is the largest boundary that is inside no span.
-/

namespace FreeToken

open List

/-- A position that is strictly inside a span. -/
def InSpan (items : List MMItem) (b : ℕ) : Prop :=
  ∃ s ∈ items.flatMap MMItem.offsets, s.1 < b ∧ b < s.2

/-- Where a chunk may end: at its own end, or at a boundary of pages. -/
def ChunkBoundary (chunkLo end_ align b : ℕ) : Prop :=
  chunkLo < b ∧ b ≤ end_ ∧ (b = end_ ∨ align ∣ b)

def wholeBoundaries (items : List MMItem) (chunkLo end_ align : ℕ) : Set ℕ :=
  {b | ChunkBoundary chunkLo end_ align b ∧ ¬ InSpan items b}

variable {items : List MMItem} {chunkLo end_ align cut : ℕ} {spans : List (ℕ × ℕ)}

/-- The cut so far, in front of the spans that are left: it cuts none of the others, and what is
behind it cuts one. -/
structure ChunkCut (items : List MMItem) (chunkLo end_ align : ℕ) (spans : List (ℕ × ℕ)) (cut : ℕ) :
    Prop where
  boundary : ChunkBoundary chunkLo end_ align cut
  done : ∀ s ∈ items.flatMap MMItem.offsets, s ∈ spans ∨ (s.1 < cut → s.2 ≤ cut) ∧
    ∀ t ∈ spans, t.1 ≤ s.1
  skipped : ∀ b, cut < b → ChunkBoundary chunkLo end_ align b → InSpan items b

/-- Everything that may be an end is inside of a span. -/
theorem ChunkCut.none_of_le (h : ChunkCut items chunkLo end_ align spans cut) {s : ℕ × ℕ}
    (hs : s ∈ items.flatMap MMItem.offsets) (hin : s.1 < cut ∧ cut < s.2)
    (hlo : alignDown s.1 align ≤ chunkLo)
    {b : ℕ} (hb : ChunkBoundary chunkLo end_ align b) : InSpan items b := by
  by_cases hlt : cut < b
  · exact h.skipped b hlt hb
  · refine ⟨s, hs, ?_, by omega⟩
    obtain ⟨hpos, hle, rfl | hdvd⟩ := hb
    · have hend := h.boundary.2.1
      omega
    · by_contra hnot
      have hdown := (le_alignDown_iff hdvd).mpr (not_lt.mp hnot)
      omega

/-- The loop keeps the cut at a boundary, and gives up only where every boundary is inside of a
span. -/
theorem mmChunkEndLoop_spec (hspans : ∀ s ∈ spans, s ∈ items.flatMap MMItem.offsets)
    (hsorted : spans.Pairwise fun s t => t.1 ≤ s.1)
    (h : ChunkCut items chunkLo end_ align spans cut) :
    IsGreatest (wholeBoundaries items chunkLo end_ align)
      (mmChunkEndLoop chunkLo end_ align spans cut) ∨
      wholeBoundaries items chunkLo end_ align = ∅ ∧ mmChunkEndLoop chunkLo end_ align spans cut =
        end_ := by
  induction spans generalizing cut with
  | nil =>
    refine Or.inl ⟨⟨h.boundary, ?_⟩, fun b hb => ?_⟩
    · rintro ⟨s, hs, hlt, hgt⟩
      exact absurd (((h.done s hs).resolve_left not_mem_nil).1 hlt) (not_le.mpr hgt)
    · by_contra hlt
      exact hb.2 (h.skipped b (not_le.mp hlt) hb.1)
  | cons span spans ih =>
    obtain ⟨spanLo, spanHi⟩ := span
    rw [pairwise_cons] at hsorted
    have hrest : ∀ s ∈ spans, s ∈ items.flatMap MMItem.offsets :=
      fun s hs => hspans s (mem_cons_of_mem _ hs)
    have hspan := hspans _ mem_cons_self
    rw [mmChunkEndLoop]
    by_cases hin : spanLo < cut ∧ cut < spanHi
    · rw [if_pos hin]
      have hempty :
        alignDown spanLo align ≤ chunkLo → wholeBoundaries items chunkLo end_ align = ∅ := by
        intro hlo
        exact Set.eq_empty_iff_forall_notMem.mpr fun b hb => hb.2 (h.none_of_le hspan hin hlo hb.1)
      by_cases hlo : spanLo ≤ chunkLo
      · rw [if_pos hlo]
        exact Or.inr ⟨hempty ((alignDown_le _ _).trans hlo), rfl⟩
      · rw [if_neg hlo]
        by_cases hcut : alignDown spanLo align ≤ chunkLo
        · rw [if_pos hcut]
          exact Or.inr ⟨hempty hcut, rfl⟩
        · rw [if_neg hcut]
          have hdown := alignDown_le spanLo align
          refine ih hrest hsorted.2 ⟨⟨not_le.mp hcut, ?_, Or.inr (dvd_alignDown _ _)⟩, fun s hs =>
            ?_, fun b hlt hb => ?_⟩
          · have hle := h.boundary.2.1
            omega
          · -- the spans that were looked at start behind this one, or at it
            rcases h.done s hs with hmem | ⟨-, hfront⟩
            · rcases mem_cons.mp hmem with rfl | hmem
              · exact Or.inr ⟨fun hlt => absurd hlt (not_lt.mpr hdown), hsorted.1⟩
              · exact Or.inl hmem
            · have hle := hfront _ mem_cons_self
              refine Or.inr ⟨fun hlt => absurd hlt (not_lt.mpr (hdown.trans hle)), fun t ht =>
                hfront t (mem_cons_of_mem _ ht)⟩
          · by_cases hcut' : cut < b
            · exact h.skipped b hcut' hb
            · refine ⟨_, hspan, ?_, by omega⟩
              obtain ⟨-, -, rfl | hdvd⟩ := hb
              · have hend := h.boundary.2.1
                omega
              · by_contra hnot
                exact absurd ((le_alignDown_iff hdvd).mpr (not_lt.mp hnot)) (not_le.mpr hlt)
    · rw [if_neg hin]
      refine ih hrest hsorted.2 ⟨h.boundary, fun s hs => ?_, h.skipped⟩
      rcases h.done s hs with hmem | ⟨hout, hfront⟩
      · rcases mem_cons.mp hmem with rfl | hmem
        · exact Or.inr ⟨fun hlt => not_lt.mp fun hgt => hin ⟨hlt, hgt⟩, hsorted.1⟩
        · exact Or.inl hmem
      · exact Or.inr ⟨hout, fun t ht => hfront t (mem_cons_of_mem _ ht)⟩

theorem sortedSpans (spans : List (ℕ × ℕ)) :
    (spans.mergeSort spanLE).reverse.Pairwise fun s t => t.1 ≤ s.1 := by
  have htrans : ∀ a b c : ℕ × ℕ, spanLE a b = true → spanLE b c = true → spanLE a c = true := by
    intro a b c hab hbc
    simp only [spanLE, Bool.or_eq_true, Bool.and_eq_true, decide_eq_true_eq, beq_iff_eq] at *
    omega
  have htotal : ∀ a b : ℕ × ℕ, (spanLE a b || spanLE b a) = true := by
    intro a b
    simp only [spanLE, Bool.or_eq_true, Bool.and_eq_true, decide_eq_true_eq, beq_iff_eq]
    omega
  rw [pairwise_reverse]
  refine (pairwise_mergeSort htrans htotal spans).imp fun {a b} hab => ?_
  simp only [spanLE, Bool.or_eq_true, Bool.and_eq_true, decide_eq_true_eq, beq_iff_eq] at hab
  omega

/-- **The end of a chunk** is inside of it, and it is the largest boundary that cuts no image; only
where there is none, the chunk keeps its end. -/
theorem mmChunkEnd_isGreatest (items : List MMItem) (align : ℕ) (hlt : chunkLo < end_) :
    (chunkLo < mmChunkEnd items chunkLo end_ align ∧ mmChunkEnd items chunkLo end_ align ≤ end_) ∧
      (IsGreatest (wholeBoundaries items chunkLo end_ align) (mmChunkEnd items chunkLo end_ align) ∨
        wholeBoundaries items chunkLo end_ align = ∅ ∧ mmChunkEnd items chunkLo end_ align =
          end_) := by
  have hmem :
      ∀ s, s ∈ ((items.flatMap MMItem.offsets).mergeSort spanLE).reverse ↔
      s ∈ items.flatMap MMItem.offsets := by
    intro s
    rw [mem_reverse, mem_mergeSort]
  have hspec := mmChunkEndLoop_spec (fun s hs => (hmem s).mp hs) (sortedSpans _)
    (⟨⟨hlt, le_refl _, Or.inl rfl⟩, fun s hs => Or.inl ((hmem s).mpr hs), fun b hgt hb =>
      absurd hb.2.1 (not_le.mpr hgt)⟩ :
      ChunkCut items chunkLo end_ align _ end_)
  refine ⟨?_, hspec⟩
  rcases hspec with hgreatest | ⟨-, heq⟩
  · exact ⟨hgreatest.1.1.1, hgreatest.1.1.2.1⟩
  · have heq' : mmChunkEnd items chunkLo end_ align = end_ := heq
    rw [heq']
    exact ⟨hlt, le_refl _⟩

/-- A chunk of ten tokens that ends inside of an image, which starts right behind another one. -/
theorem mmChunkEnd_two_images :
    (0 < mmChunkEnd [⟨1, [(6, 7), (7, 12)]⟩] 0 10 4 ∧ mmChunkEnd [⟨1, [(6, 7), (7, 12)]⟩] 0 10 4 ≤
      10) ∧
      (IsGreatest (wholeBoundaries [⟨1, [(6, 7), (7, 12)]⟩] 0 10 4)
        (mmChunkEnd [⟨1, [(6, 7), (7, 12)]⟩] 0 10 4) ∨
        wholeBoundaries [⟨1, [(6, 7), (7, 12)]⟩] 0 10 4 = ∅ ∧
          mmChunkEnd [⟨1, [(6, 7), (7, 12)]⟩] 0 10 4 = 10) :=
  mmChunkEnd_isGreatest _ _ (by decide)

end FreeToken
