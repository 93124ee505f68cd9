import FreeToken.Mm.Equiv.ImagePositions
import FreeToken.Mm.Equiv.Splice

/-!
# Correctness of the image processors

The result of `apply` is the spliced prompt with the items' offsets and positions (`exists_apply`,
`exists_positions`).
-/

namespace FreeToken

open List

variable {δ ι : Type} {start length : ℕ} {items : List (ProcessedItem δ)} {marked : List (ℕ × Bool)}
  {item : ProcessedItem δ} {ids target : List ℕ}

theorem exists_blocks {grid : ProcessedItem δ → ℕ × ℕ}
    (hordered : SpansOrdered start (spansOf items))
    (hlast : ∀ s ∈ spansOf items, s.2 ≤ length) (hstart : start ≤ length)
    (hgrid : ∀ item ∈ items, ∃ s, item.offsets = [s] ∧ s.2 - s.1 = (grid item).1 * (grid item).2) :
    ∃ blocks, items.mapM (imageBlock grid) = some blocks ∧ Fit length start blocks := by
  induction items generalizing start with
  | nil => exact ⟨[], rfl, hstart⟩
  | cons item items ih =>
    obtain ⟨s, hs, hsize⟩ := hgrid item mem_cons_self
    have hspans : spansOf (item :: items) = s :: spansOf items := by simp [spansOf, hs]
    rw [hspans] at hordered hlast
    obtain ⟨hle, hlt⟩ := hordered.lt s mem_cons_self
    obtain ⟨hbefore, hpairwise⟩ := pairwise_cons.mp hordered.pairwise
    obtain ⟨blocks, hblocks, hfit⟩ := @ih s.2
      ⟨fun s' hs' => ⟨hbefore s' hs', (hordered.lt s' (mem_cons_of_mem _ hs')).2⟩, hpairwise⟩
      (fun s' hs' => hlast s' (mem_cons_of_mem _ hs')) (hlast s mem_cons_self)
      fun item' hitem' => hgrid item' (mem_cons_of_mem _ hitem')
    refine ⟨⟨s.1, s.2 - s.1, (grid item).1, (grid item).2⟩ :: blocks, ?_, hle,
      Nat.sub_pos_of_lt hlt, hsize, ?_⟩
    · rw [mapM_cons, hblocks, imageBlock, hs]
      rfl
    · rwa [Nat.add_sub_cancel' hlt.le]

/-! ### The result -/

theorem PromptReplacement.mem_marks {r : PromptReplacement} {pad : ℕ} {e : ℕ × Bool}
    (h : e ∈ r.marks pad) :
    (e.2 = true ∧ e.1 = pad) ∨ (e.2 = false ∧ e.1 ∈ r.full) := by
  obtain ⟨p, hp⟩ := mem_iff_getElem?.mp h
  rw [r.getElem?_marks, Option.bind_eq_some_iff] at hp
  obtain ⟨t, ht, hp⟩ := hp
  obtain ⟨embed, -, rfl⟩ := Option.map_eq_some_iff.mp hp
  cases embed with
  | true => exact .inl ⟨rfl, rfl⟩
  | false => exact .inr ⟨rfl, mem_of_getElem? ht⟩

theorem Spliced.mem {repls : List (List (ℕ × Bool))} (h : Spliced target ids repls marked)
    {e : ℕ × Bool} (he : e ∈ marked) :
    (e.2 = false ∧ e.1 ∈ ids) ∨ ∃ repl ∈ repls, e ∈ repl := by
  induction h with
  | rest h =>
    obtain ⟨t, ht, rfl⟩ := mem_map.mp he
    exact .inl ⟨rfl, ht⟩
  | @next gap rest repl repls out hfirst h ih =>
    obtain he | he := mem_append.mp he
    · obtain he | he := mem_append.mp he
      · obtain ⟨t, ht, rfl⟩ := mem_map.mp he
        exact .inl ⟨rfl, by simp [ht]⟩
      · exact .inr ⟨repl, mem_cons_self, he⟩
    · obtain ⟨hfalse, hmem⟩ | ⟨repl', hrepl', hmem⟩ := ih he
      · exact .inl ⟨hfalse, mem_append_right _ hmem⟩
      · exact .inr ⟨repl', mem_cons_of_mem _ hrepl', hmem⟩

theorem Spliced.ne_nil {repls : List (List (ℕ × Bool))} (h : Spliced target ids repls marked)
    (hids : ids ≠ []) (hrepls : ∀ repl ∈ repls, repl ≠ []) : marked ≠ [] := by
  cases h with
  | rest h => simpa using hids
  | next hfirst h =>
    have := hrepls _ mem_cons_self
    simp [this]

namespace MMProcessor

variable {P : MMProcessor ι δ} {images : List ι}

theorem marksOf_ne_nil (h : P.Accepts item) : P.marksOf item ≠ [] := by
  have hmask := length_pos_of_mem h.embeds
  rw [PromptReplacement.length_mask, ← PromptReplacement.length_marks _ item.padValue] at hmask
  exact ne_nil_of_length_pos hmask

/-- Pads are apart from tokens, so that an embedding position is seen by its token. -/
theorem inSpans_iff_pad {items' : List (ProcessedItem δ)}
    (hspliced : Spliced P.placeholder ids (items.map P.marksOf) marked)
    (hcovers : SpansCover 0 items' marked) (hids : ∀ t ∈ ids, t < mmPadShiftValue)
    (hitems : ∀ item ∈ items, mmPadShiftValue ≤ item.padValue ∧
      ∀ t ∈ (P.promptReplacement item).full, t < mmPadShiftValue) (p : ℕ) :
    InSpans (spansOf items') p ↔ ∃ t, (marked.map Prod.fst)[p]? = some t ∧ mmPadShiftValue ≤ t := by
  have hmark : ∀ e ∈ marked, e.2 = true ↔ mmPadShiftValue ≤ e.1 := by
    intro e he
    obtain ⟨hfalse, hmem⟩ | ⟨repl, hrepl, hmem⟩ := hspliced.mem he
    · have := hids e.1 hmem
      simp [hfalse, this]
    · obtain ⟨item, hitem, rfl⟩ := mem_map.mp hrepl
      obtain ⟨hpad, hfull⟩ := hitems item hitem
      obtain ⟨htrue, heq⟩ | ⟨hfalse, hmem⟩ := PromptReplacement.mem_marks hmem
      · simp [htrue, heq, hpad]
      · have := hfull e.1 hmem
        simp [hfalse, this]
  rw [hcovers.mem_iff, List.getElem?_map]
  simp only [Nat.zero_le, true_and, Nat.sub_zero]
  constructor
  · rintro ⟨tok, htok⟩
    exact ⟨tok, by rw [htok]; rfl, (hmark _ (mem_of_getElem? htok)).mp rfl⟩
  · rintro ⟨t, ht, hle⟩
    obtain ⟨e, he, rfl⟩ := Option.map_eq_some_iff.mp ht
    have htrue := (hmark e (mem_of_getElem? he)).mpr hle
    exact ⟨e.1, by rw [he, ← htrue]⟩

theorem exists_apply (hprocess : P.process images = some items)
    (hcount : (findAll ids P.placeholder P.placeholder_pos).length = images.length)
    (haccepts : ∀ item ∈ items, P.Accepts item) :
    ∃ marked items', P.apply ids images = P.result (marked.map Prod.fst) items' ∧
      Spliced P.placeholder ids (items.map P.marksOf) marked ∧
        List.Forall₂ P.IsPlaced items items' ∧ SpansCover 0 items' marked := by
  have hlen : items.length = (findAll ids P.placeholder P.placeholder_pos).length :=
    (P.length_process images items hprocess).trans hcount.symm
  obtain ⟨s, marked, items', hloop, hspliced, hout, hitems, hplaced, hcovers⟩ :=
    exists_loop (s := ⟨[], 0, []⟩) (slots_findAll P.placeholder_pos) rfl hlen haccepts
  refine ⟨marked, items', ?_, hspliced, hplaced, hcovers⟩
  simp only [apply, hcount, ne_eq, not_true_eq_false, if_false, hprocess, hloop]
  rw [nil_append] at hout hitems
  exact congrArg₂ P.result hout hitems

theorem accepts_of_apply {r : MMResult δ} (h : P.apply ids images = .ok r) :
    (findAll ids P.placeholder P.placeholder_pos).length = images.length ∧
      ∃ items, P.process images = some items ∧ ∀ item ∈ items, P.Accepts item := by
  by_cases hcount : (findAll ids P.placeholder P.placeholder_pos).length = images.length
  · refine ⟨hcount, ?_⟩
    cases hprocess : P.process images with
    | none =>
      simp only [apply, hcount, ne_eq, not_true_eq_false, if_false, hprocess] at h
      cases h
    | some items =>
      refine ⟨items, rfl, ?_⟩
      simp only [apply, hcount, ne_eq, not_true_eq_false, if_false, hprocess] at h
      cases hloop : ((findAll ids P.placeholder P.placeholder_pos).zip items).foldlM
        (P.spliceItem ids) ⟨[], 0, []⟩ with
      | error e =>
        rw [hloop] at h
        cases h
      | ok s => exact accepts_of_loop ((P.length_process images items hprocess).trans hcount.symm) hloop
  · simp only [apply, ne_eq, hcount, not_false_eq_true, if_true] at h
    cases h

variable {items' : List (ProcessedItem δ)}

/-- The positions of items with one span each, which has a token for every cell of a grid. -/
theorem exists_positions (hcovers : SpansCover 0 items' marked) (hmarked : marked ≠ [])
    {grid : ProcessedItem δ → ℕ × ℕ}
    (hgrid : ∀ item ∈ items', ∃ s, item.offsets = [s] ∧ s.2 - s.1 = (grid item).1 * (grid item).2) :
    ∃ blocks coords delta, items'.mapM (imageBlock grid) = some blocks ∧
      imagePositions marked.length blocks = some (rowsOf marked.length coords, delta) ∧
        coords.length = marked.length ∧
      Rope blocks coords ∧ (marked.length : ℤ) + delta = nextPosition coords := by
  have hlast : ∀ s ∈ spansOf items', s.2 ≤ marked.length := by
    intro s hs
    have hlt := (hcovers.ordered.lt s hs).2
    obtain ⟨-, tok, htok⟩ := (hcovers.mem_iff (s.2 - 1)).mp ⟨s, hs, by omega, by omega⟩
    have := (List.getElem?_eq_some_iff.mp htok).1
    omega
  obtain ⟨blocks, hblocks, hfit⟩ := exists_blocks hcovers.ordered hlast (Nat.zero_le _) hgrid
  obtain ⟨coords, delta, h⟩ := exists_imagePositions (length_pos_of_ne_nil hmarked) hfit
  exact ⟨blocks, coords, delta, hblocks, h⟩

/-- `apply` succeeds only where every placeholder has an image whose replacement takes embeddings;
there it splices the prompt, and the offsets and positions are those of the spliced prompt. -/
theorem apply_splices (P : MMProcessor ι δ) (ids : List ℕ) (images : List ι) :
    (∀ r, P.apply ids images = .ok r → (findAll ids P.placeholder P.placeholder_pos).length =
      images.length ∧
      ∃ items, P.process images = some items ∧ ∀ item ∈ items, P.Accepts item) ∧
    ∀ items, P.process images = some items → (findAll ids P.placeholder P.placeholder_pos).length =
      images.length →
      (∀ item ∈ items, P.Accepts item) →
        ∃ marked items', P.apply ids images = P.result (marked.map Prod.fst) items' ∧
          Spliced P.placeholder ids (items.map P.marksOf) marked ∧
            List.Forall₂ P.IsPlaced items items' ∧ SpansCover 0 items' marked ∧
          ((∀ t ∈ ids, t < mmPadShiftValue) →
            (∀ item ∈ items, mmPadShiftValue ≤ item.padValue ∧
              ∀ t ∈ (P.promptReplacement item).full, t < mmPadShiftValue) →
              ∀ p, InSpans (spansOf items') p ↔ ∃ t, (marked.map Prod.fst)[p]? = some t ∧
                mmPadShiftValue ≤ t) ∧
          (ids ≠ [] → ∀ grid : ProcessedItem δ → ℕ × ℕ,
            (∀ item ∈ items', ∃ s, item.offsets = [s] ∧ s.2 - s.1 = (grid item).1 * (grid item).2) →
              ∃ blocks coords delta, items'.mapM (imageBlock grid) = some blocks ∧
                imagePositions marked.length blocks = some (rowsOf marked.length coords, delta) ∧
                  coords.length = marked.length ∧
                Rope blocks coords ∧ (marked.length : ℤ) + delta = nextPosition coords) := by
  refine ⟨fun r hr => accepts_of_apply hr, fun items hprocess hcount haccepts => ?_⟩
  obtain ⟨marked, items', happly, hspliced, hplaced, hcovers⟩ :=
    exists_apply hprocess hcount haccepts
  refine ⟨marked, items', happly, hspliced, hplaced, hcovers, inSpans_iff_pad hspliced
    hcovers, fun hids grid hgrid => ?_⟩
  refine exists_positions hcovers (hspliced.ne_nil hids fun repl hrepl => ?_) hgrid
  obtain ⟨item, hitem, rfl⟩ := mem_map.mp hrepl
  exact marksOf_ne_nil (haccepts item hitem)

/-- Images of four by six patches, with two by two of them in a token. -/
def small : QwenVL ℕ := ⟨7, 2, true, fun itemHash => some (itemHash, 1, 4, 6)⟩

theorem apply_splices_small :
    ∃ marked items', small.processor.apply [1, 7, 2] [5] =
      small.processor.result (marked.map Prod.fst) items' ∧
      SpansCover 0 items' marked ∧
      (∀ p, InSpans (spansOf items') p ↔ ∃ t, (marked.map Prod.fst)[p]? = some t ∧
        mmPadShiftValue ≤ t) ∧
      ∃ blocks coords delta, imagePositions marked.length blocks =
        some (rowsOf marked.length coords, delta) ∧
        Rope blocks coords ∧ (marked.length : ℤ) + delta = nextPosition coords := by
  have hcount : (findAll [1, 7, 2] [7] one_pos).length = 1 := by simp [findAll, findAllFrom]
  obtain ⟨marked, items', happly, -, hplaced, hcovers, hpads, hpositions⟩ :=
    (apply_splices small.processor [1, 7, 2] [5]).2 _ rfl hcount fun item hitem => by
      obtain rfl := mem_singleton.mp hitem
      exact ⟨by decide, by decide⟩
  obtain ⟨blocks, coords, delta, -, himage, -, hrope, hdelta⟩ :=
    hpositions (by decide) small.imageGrid fun item hitem => by
    cases hplaced with
    | cons h hnil =>
      cases hnil
      obtain rfl := mem_singleton.mp hitem
      obtain ⟨base, rfl⟩ := h
      exact ⟨_, rfl, by simp [small, QwenVL.imageGrid, placed]⟩
  refine ⟨marked, items', happly, hcovers, hpads (by decide) fun item hitem => ?_, blocks, coords,
    delta, himage, hrope, hdelta⟩
  obtain rfl := mem_singleton.mp hitem
  exact ⟨by decide, by decide⟩

end MMProcessor

end FreeToken
