import FreeToken.Mm.Processor
import Mathlib.Data.List.Range

/-!
# Correctness of the image splice

`embedSpans` are the runs of a mask (`runs_embedSpans`), and `findAll` the first placeholders
(`slots_findAll`).  So the loop of `apply` puts every replacement in the place of its placeholder
(`Spliced`), with offsets that cover the embedding tokens (`SpansCover`).
-/

namespace FreeToken

open List

/-! ### Runs of a mask -/

structure SpansOrdered (start : ℕ) (spans : List (ℕ × ℕ)) : Prop where
  lt : ∀ s ∈ spans, start ≤ s.1 ∧ s.1 < s.2
  pairwise : spans.Pairwise fun s s' => s.2 ≤ s'.1

def InSpans (spans : List (ℕ × ℕ)) (p : ℕ) : Prop := ∃ s ∈ spans, s.1 ≤ p ∧ p < s.2

variable {start i p : ℕ} {flags : List Bool} {s : ℕ × ℕ} {spans spans' : List (ℕ × ℕ)}

@[simp] theorem inSpans_nil : ¬ InSpans [] p := by simp [InSpans]

@[simp] theorem inSpans_cons : InSpans (s :: spans) p ↔ (s.1 ≤ p ∧ p < s.2) ∨ InSpans spans p := by
  simp [InSpans]

@[simp] theorem inSpans_append :
    InSpans (spans ++ spans') p ↔ InSpans spans p ∨ InSpans spans' p := by
  simp [InSpans, or_and_right, exists_or]

theorem SpansOrdered.nil : SpansOrdered start [] := ⟨by simp, List.Pairwise.nil⟩

theorem SpansOrdered.cons (hs : start ≤ s.1 ∧ s.1 < s.2) (h : SpansOrdered s.2 spans) :
    SpansOrdered start (s :: spans) where
  lt s' hs' := by
    obtain rfl | hs' := List.mem_cons.mp hs'
    · exact hs
    · exact ⟨by have := (h.lt s' hs').1; omega, (h.lt s' hs').2⟩
  pairwise := List.pairwise_cons.mpr ⟨fun s' hs' => (h.lt s' hs').1, h.pairwise⟩

theorem SpansOrdered.mono {start' : ℕ} (h : SpansOrdered start spans) (hle : start' ≤ start) :
    SpansOrdered start' spans :=
  ⟨fun s hs => ⟨hle.trans (h.lt s hs).1, (h.lt s hs).2⟩, h.pairwise⟩

theorem SpansOrdered.append (h : SpansOrdered start spans) (h' : SpansOrdered i spans')
    (hle : start ≤ i) (hi : ∀ s ∈ spans, s.2 ≤ i) :
    SpansOrdered start (spans ++ spans') where
  lt s hs := by
    obtain hs | hs := List.mem_append.mp hs
    · exact h.lt s hs
    · exact (h'.mono hle).lt s hs
  pairwise := List.pairwise_append.mpr ⟨h.pairwise, h'.pairwise, fun s hs s' hs' =>
    (hi s hs).trans (h'.lt s' hs').1⟩

theorem SpansOrdered.map_add (h : SpansOrdered start spans) (base : ℕ) :
    SpansOrdered (base + start) (spans.map fun s => (base + s.1, base + s.2)) where
  lt s hs := by
    obtain ⟨s', hs', rfl⟩ := List.mem_map.mp hs
    have hlt := h.lt s' hs'
    exact ⟨by simpa using hlt.1, by simpa using hlt.2⟩
  pairwise := List.pairwise_map.mpr (h.pairwise.imp fun hle => by simpa using hle)

theorem inSpans_map_add {base : ℕ} :
    InSpans (spans.map fun s => (base + s.1, base + s.2)) p ↔ base ≤ p ∧
      InSpans spans (p - base) := by
  simp only [InSpans, mem_map, Prod.exists]
  constructor
  · rintro ⟨a, b, ⟨c, d, hs, heq⟩, hle, hlt⟩
    obtain ⟨rfl, rfl⟩ := Prod.mk.inj heq
    exact ⟨by omega, c, d, hs, by omega, by omega⟩
  · rintro ⟨hbase, c, d, hs, hle, hlt⟩
    exact ⟨_, _, ⟨c, d, hs, rfl⟩, by omega, by omega⟩

theorem runs_spansLoop (lo : Option ℕ) (i : ℕ) (hlo : ∀ l ∈ lo, l < i) :
    SpansOrdered (lo.getD i) (PromptReplacement.spansLoop i lo (flags ++ [false])) ∧
      ∀ p, InSpans (PromptReplacement.spansLoop i lo (flags ++ [false])) p ↔
        (lo.getD i ≤ p ∧ p < i) ∨ (i ≤ p ∧ flags[p - i]? = some true) := by
  induction flags generalizing i lo with
  | nil =>
    cases lo with
    | none => exact ⟨SpansOrdered.nil, fun p => by simp [PromptReplacement.spansLoop]⟩
    | some l =>
      have hl := hlo l rfl
      exact ⟨SpansOrdered.cons ⟨le_rfl, hl⟩
        SpansOrdered.nil, fun p => by simp [PromptReplacement.spansLoop]⟩
  | cons flag flags ih =>
    have hstep : ∀ p, (i ≤ p ∧ (flag :: flags)[p - i]? = some true) ↔
        (p = i ∧ flag = true) ∨ (i + 1 ≤ p ∧ flags[p - (i + 1)]? = some true) := by
      intro p
      rcases Nat.lt_trichotomy p i with hp | rfl | hp
      · simp [show ¬ i ≤ p by omega, show ¬ i + 1 ≤ p by omega, show p ≠ i by omega]
      · simp
      · rw [show p - i = p - (i + 1) + 1 by omega, List.getElem?_cons_succ]
        simp [show i ≤ p by omega, show i + 1 ≤ p by omega, show p ≠ i by omega]
    simp only [hstep, cons_append]
    cases lo with
    | none =>
      cases flag with
      | true =>
        obtain ⟨hordered, hmem⟩ := ih (some i) (i + 1) (by simp)
        refine ⟨hordered, fun p => (hmem p).trans ?_⟩
        simp only [Option.getD_some, Option.getD_none]
        grind
      | false =>
        obtain ⟨hordered, hmem⟩ := ih none (i + 1) (by simp)
        refine ⟨hordered.mono (Nat.le_succ i), fun p => (hmem p).trans ?_⟩
        simp only [Option.getD_none]
        grind
    | some l =>
      have hl := hlo l rfl
      cases flag with
      | true =>
        obtain ⟨hordered, hmem⟩ := ih (some l) (i + 1) (fun l' hl' => by cases hl'; omega)
        refine ⟨hordered, fun p => (hmem p).trans ?_⟩
        simp only [Option.getD_some]
        grind
      | false =>
        -- the open run ends here
        obtain ⟨hordered, hmem⟩ := ih none (i + 1) (by simp)
        refine ⟨SpansOrdered.cons ⟨le_rfl, hl⟩ (hordered.mono (Nat.le_succ i)), fun p => ?_⟩
        rw [PromptReplacement.spansLoop, inSpans_cons, hmem p]
        simp only [Option.getD_some, Option.getD_none]
        grind

namespace PromptReplacement

variable (r : PromptReplacement) (pad : ℕ)

theorem length_mask : r.mask.length = r.full.length := by
  rw [mask]
  cases h : r.isEmbed with
  | none => simp
  | some mask => exact r.length_isEmbed mask h

/-- The tokens with the pad value for those that take embeddings, which are marked. -/
def marks : List (ℕ × Bool) :=
  List.zipWith (fun t embed => if embed then (pad, true) else (t, false)) r.full r.mask

@[simp] theorem length_marks : (r.marks pad).length = r.full.length := by simp [marks, length_mask]

theorem runs_embedSpans :
    SpansOrdered 0 r.embedSpans ∧ ∀ p, InSpans r.embedSpans p ↔ r.mask[p]? = some true := by
  obtain ⟨hordered, hmem⟩ := @runs_spansLoop r.mask none 0 (by simp)
  exact ⟨hordered, fun p => (hmem p).trans (by simp)⟩

theorem le_length_of_mem (h : s ∈ r.embedSpans) : s.1 < s.2 ∧ s.2 ≤ r.full.length := by
  obtain ⟨hordered, hmem⟩ := r.runs_embedSpans
  have hlt := (hordered.lt s h).2
  have hlast := (hmem (s.2 - 1)).mp ⟨s, h, by omega, by omega⟩
  have hlen := (List.getElem?_eq_some_iff.mp hlast).1
  rw [length_mask] at hlen
  exact ⟨hlt, by omega⟩

theorem getElem?_marks : (r.marks pad)[p]? =
    (r.full[p]?).bind fun t => (r.mask[p]?).map fun embed => if embed then (pad, true)
    else (t, false) := by
  rw [marks, List.getElem?_zipWith]
  cases r.full[p]? <;> cases r.mask[p]? <;> rfl

/-- The marked tokens are those in the spans. -/
theorem inSpans_iff_marks : InSpans r.embedSpans p ↔ ∃ t, (r.marks pad)[p]? = some (t, true) := by
  rw [r.runs_embedSpans.2 p, getElem?_marks]
  by_cases hp : p < r.full.length
  · have hp' : p < r.mask.length := r.length_mask ▸ hp
    rw [List.getElem?_eq_getElem hp, List.getElem?_eq_getElem hp']
    cases hm : r.mask[p] <;> simp
  · rw [List.getElem?_eq_none (by rw [length_mask]; omega), List.getElem?_eq_none (by omega)]
    simp

theorem getElem?_padLoop (full : List ℕ) (h : ∀ s ∈ spans, s.1 < s.2 ∧ s.2 ≤ full.length) :
    let filled := spans.foldl (fun full s => full.take s.1 ++ List.replicate (s.2 - s.1) pad ++
        full.drop s.2) full
    filled.length = full.length ∧ (InSpans spans p → filled[p]? = some pad) ∧
      (¬ InSpans spans p → filled[p]? = full[p]?) := by
  induction spans generalizing full with
  | nil => simp
  | cons s spans ih =>
    obtain ⟨hlt, hle⟩ := h s mem_cons_self
    have hlen :
        (full.take s.1 ++ List.replicate (s.2 - s.1) pad ++ full.drop s.2).length =
        full.length := by
      simp only [length_append, length_take, length_replicate, length_drop]
      omega
    obtain ⟨hlength, hin, hout⟩ :=
      ih (full.take s.1 ++ List.replicate (s.2 - s.1) pad ++ full.drop s.2) fun s' hs' =>
      hlen ▸ h s' (mem_cons_of_mem _ hs')
    rw [foldl_cons]
    refine ⟨hlength.trans hlen, fun hp => ?_, fun hp => ?_⟩
    · by_cases hrest : InSpans spans p
      · exact hin hrest
      · have hp' := (inSpans_cons.mp hp).resolve_right hrest
        rw [hout hrest, append_assoc, List.getElem?_append_right (by simp; omega),
          List.getElem?_append_left (by simp; omega)]
        exact List.getElem?_replicate_of_lt (by simp; omega)
    · rw [inSpans_cons, not_or] at hp
      rw [hout hp.2]
      by_cases hbefore : p < s.1
      · rw [append_assoc, List.getElem?_append_left (by simp; omega), List.getElem?_take_of_lt
          hbefore]
      · rw [List.getElem?_append_right (by simp; omega), List.getElem?_drop]
        congr 1
        simp only [length_append, length_take, length_replicate]
        omega

theorem padded_eq : r.padded pad = (r.marks pad).map Prod.fst := by
  refine ext_getElem? fun p => ?_
  obtain ⟨hlen, hin, hout⟩ :=
    @getElem?_padLoop p r.embedSpans pad r.full fun s hs => r.le_length_of_mem hs
  rw [List.getElem?_map, getElem?_marks]
  by_cases hp : p < r.full.length
  · have hp' : p < r.mask.length := r.length_mask ▸ hp
    have hmem := r.runs_embedSpans.2 p
    rw [List.getElem?_eq_getElem hp'] at hmem ⊢
    rw [List.getElem?_eq_getElem hp] at hout ⊢
    cases hm : r.mask[p] with
    | true =>
      have hpad : (r.padded pad)[p]? = some pad := hin (hmem.mpr (by rw [hm]))
      rw [hpad]
      rfl
    | false =>
      have hkeep : (r.padded pad)[p]? = some r.full[p] :=
        hout fun h => by simpa [hm] using hmem.mp h
      rw [hkeep]
      rfl
  · rw [padded, List.getElem?_eq_none (by omega), List.getElem?_eq_none (by omega)]
    rfl

end PromptReplacement

/-! ### Offsets -/

variable {δ ι : Type} {base : ℕ} {items items' : List (ProcessedItem δ)}
  {marked marked' : List (ℕ × Bool)} {item : ProcessedItem δ}

def spansOf (items : List (ProcessedItem δ)) : List (ℕ × ℕ) :=
  items.flatMap fun item => item.offsets

/-- The items' spans are in order and have exactly the marked tokens, each with the pad value of its
item. -/
structure SpansCover (base : ℕ) (items : List (ProcessedItem δ)) (marked : List (ℕ × Bool)) :
    Prop where
  ordered : SpansOrdered base (spansOf items)
  mem_iff : ∀ p, InSpans (spansOf items) p ↔ base ≤ p ∧ ∃ tok, marked[p - base]? = some (tok, true)
  pad : ∀ item ∈ items, ∀ p, InSpans item.offsets p → marked[p - base]? = some (item.padValue, true)

theorem inSpans_spansOf (h : item ∈ items) (hp : InSpans item.offsets p) :
    InSpans (spansOf items) p := by
  obtain ⟨s, hs, hp⟩ := hp
  exact ⟨s, List.mem_flatMap.mpr ⟨item, h, hs⟩, hp⟩

/-- Tokens that take no embedding. -/
theorem SpansCover.plain (base : ℕ) (l : List ℕ) :
    SpansCover base ([] : List (ProcessedItem δ)) (l.map fun t => (t, false)) where
  ordered := SpansOrdered.nil
  mem_iff p := by simp [spansOf]
  pad item h := absurd h (by simp)

theorem SpansCover.append (h : SpansCover base items marked)
    (h' : SpansCover (base + marked.length) items' marked') :
    SpansCover base (items ++ items') (marked ++ marked') := by
  have hbefore : ∀ p, InSpans (spansOf items) p → p - base < marked.length := fun p hp => by
    obtain ⟨-, tok, hp⟩ := (h.mem_iff p).mp hp
    exact (List.getElem?_eq_some_iff.mp hp).1
  have hspans : spansOf (items ++ items') = spansOf items ++ spansOf items' := flatMap_append
  have hright :
      ∀ p, base + marked.length ≤ p → (marked ++ marked')[p - base]? =
      marked'[p - (base + marked.length)]? := by
    intro p hp
    rw [List.getElem?_append_right (by omega), Nat.sub_sub]
  refine ⟨?_, fun p => ?_, fun item hitem p hp => ?_⟩
  · rw [hspans]
    refine h.ordered.append h'.ordered (Nat.le_add_right _ _) fun s hs => ?_
    obtain ⟨hle, hlt⟩ := h.ordered.lt s hs
    have := hbefore (s.2 - 1) ⟨s, hs, by omega, by omega⟩
    omega
  · rw [hspans, inSpans_append, h.mem_iff, h'.mem_iff]
    by_cases hp : p - base < marked.length
    · rw [List.getElem?_append_left hp]
      exact or_iff_left fun h => by omega
    · have hnone : marked[p - base]? = none := List.getElem?_eq_none (by omega)
      by_cases hbase : base ≤ p
      · rw [hright p (by omega), hnone]
        simp [hbase, show base + marked.length ≤ p by omega]
      · simp [hbase, show ¬ base + marked.length ≤ p by omega]
  · obtain hitem | hitem := List.mem_append.mp hitem
    · rw [List.getElem?_append_left (hbefore p (inSpans_spansOf hitem hp))]
      exact h.pad item hitem p hp
    · rw [hright p ((h'.mem_iff p).mp (inSpans_spansOf hitem hp)).1]
      exact h'.pad item hitem p hp

theorem SpansCover.replacement (r : PromptReplacement)
    (h : item.offsets = r.embedSpans.map fun s => (base + s.1, base + s.2)) :
    SpansCover base [item] (r.marks item.padValue) := by
  have hspans : spansOf [item] = r.embedSpans.map fun s => (base + s.1, base + s.2) := by
    rw [← h]
    simp [spansOf]
  refine ⟨?_, fun p => ?_, fun item' hitem p hp => ?_⟩
  · rw [hspans]
    exact r.runs_embedSpans.1.map_add base
  · rw [hspans, inSpans_map_add, r.inSpans_iff_marks]
  · obtain rfl := List.mem_singleton.mp hitem
    rw [h, inSpans_map_add, r.inSpans_iff_marks item'.padValue] at hp
    obtain ⟨-, t, ht⟩ := hp
    have hpad : t = item'.padValue := by
      rw [r.getElem?_marks, Option.bind_eq_some_iff] at ht
      obtain ⟨t', -, ht⟩ := ht
      obtain ⟨embed, -, ht⟩ := Option.map_eq_some_iff.mp ht
      cases embed <;> simp_all
    rw [ht, hpad]

/-! ### Placeholders -/

variable {ids target : List ℕ} {slots : List ℕ}

/-- The first place of the target from `i` on, the first one after it, and so on. -/
inductive Slots (ids target : List ℕ) : ℕ → List ℕ → Prop
  | nil {i : ℕ} (h : ∀ j, i ≤ j → ¬ target <+: ids.drop j) : Slots ids target i []
  | cons {i slot : ℕ} {slots : List ℕ} (hle : i ≤ slot)
      (hfirst : ∀ j, i ≤ j → j < slot → ¬ target <+: ids.drop j)
      (hat : target <+: ids.drop slot) (h : Slots ids target (slot + target.length) slots) :
      Slots ids target i (slot :: slots)

theorem Slots.skip {i : ℕ} (hnot : ¬ target <+: ids.drop i) (h : Slots ids target (i + 1) slots) :
    Slots ids target i slots := by
  have hstep : ∀ j, i ≤ j → j = i ∨ i + 1 ≤ j := fun j hj => by omega
  cases h with
  | nil h =>
    refine .nil fun j hj => ?_
    obtain rfl | hj := hstep j hj
    · exact hnot
    · exact h j hj
  | cons hle hfirst hat h =>
    refine .cons (by omega) (fun j hj hlt => ?_) hat h
    obtain rfl | hj := hstep j hj
    · exact hnot
    · exact hfirst j hj hlt

theorem slots_findAllFrom (ht : 0 < target.length) (i : ℕ) :
    Slots ids target i (findAllFrom ids target ht i) := by
  induction i using findAllFrom.induct ids target ht with
  | case1 i hle hat ih =>
    rw [findAllFrom, if_pos hle, if_pos hat]
    exact .cons le_rfl (fun j hj hlt => absurd hj (by omega)) (List.prefix_iff_eq_take.mpr hat.symm)
      ih
  | case2 i hle hnot ih =>
    rw [findAllFrom, if_pos hle, if_neg hnot]
    exact ih.skip fun h => hnot (List.prefix_iff_eq_take.mp h).symm
  | case3 i hgt =>
    rw [findAllFrom, if_neg hgt]
    refine .nil fun j hj h => ?_
    have hlen := h.length_le
    rw [length_drop] at hlen
    omega

theorem slots_findAll (ht : 0 < target.length) : Slots ids target 0 (findAll ids target ht) :=
    slots_findAllFrom ht 0

/-- The prompt with the replacements in the place of the first targets, from left to right. -/
inductive Spliced (target : List ℕ) : List ℕ → List (List (ℕ × Bool)) → List (ℕ × Bool) → Prop
  | rest {ids : List ℕ} (h : ¬ target <:+: ids) :
      Spliced target ids [] (ids.map fun t => (t, false))
  | next {gap rest : List ℕ} {repl : List (ℕ × Bool)} {repls : List (List (ℕ × Bool))}
      {out : List (ℕ × Bool)}
      (hfirst : ∀ j < gap.length, ¬ target <+: (gap ++ target ++ rest).drop j)
      (h : Spliced target rest repls out) :
      Spliced target (gap ++ target ++ rest) (repl :: repls)
        (gap.map (fun t => (t, false)) ++ repl ++ out)

/-! ### The splice -/

namespace MMProcessor

variable (P : MMProcessor ι δ)

def marksOf (item : ProcessedItem δ) : List (ℕ × Bool) :=
  (P.promptReplacement item).marks item.padValue

/-- An item whose replacement takes embeddings, with exactly one of features and embeddings. -/
structure Accepts (item : ProcessedItem δ) : Prop where
  embeds : true ∈ (P.promptReplacement item).mask
  source : item.hasFeature ≠ item.hasEmbeddings

/-- The item with the offsets of its replacement, which begins at `base`. -/
def placed (item : ProcessedItem δ) (base : ℕ) : ProcessedItem δ :=
  { item with offsets := (P.promptReplacement item).embedSpans.map fun span =>
    (base + span.1, base + span.2) }

/-- The item with the offsets of its replacement somewhere. -/
def IsPlaced (item item' : ProcessedItem δ) : Prop := ∃ base, item' = P.placed item base

variable {P}

theorem validate_placed (base : ℕ) : (P.placed item base).validate = .ok () ↔ P.Accepts item := by
  obtain ⟨-, hmem⟩ := (P.promptReplacement item).runs_embedSpans
  have hany : ((P.placed item base).offsets.any fun s => decide (s.2 ≤ s.1)) = false := by
    refine List.any_eq_false.mpr fun s hs => ?_
    obtain ⟨s', hs', rfl⟩ := List.mem_map.mp hs
    have := ((P.promptReplacement item).le_length_of_mem hs').1
    simpa using this
  have hnil : (P.placed item base).offsets = [] ↔ true ∉ (P.promptReplacement item).mask := by
    rw [placed, map_eq_nil_iff, eq_nil_iff_forall_not_mem]
    constructor
    · intro h htrue
      obtain ⟨p, hp⟩ := mem_iff_getElem?.mp htrue
      obtain ⟨s, hs, -⟩ := (hmem p).mpr hp
      exact h s hs
    · intro h s hs
      exact h (mem_of_getElem?
        ((hmem s.1).mp ⟨s, hs, le_rfl, ((P.promptReplacement item).le_length_of_mem hs).1⟩))
  rw [ProcessedItem.validate, hany]
  by_cases hembeds : true ∈ (P.promptReplacement item).mask
  · rw [if_neg (by simpa [hnil] using hembeds)]
    by_cases hsource : (P.placed item base).hasFeature = (P.placed item base).hasEmbeddings
    · rw [if_pos hsource]
      exact ⟨fun h => (by cases h), fun h => absurd hsource h.source⟩
    · rw [if_neg hsource]
      exact ⟨fun _ => ⟨hembeds, hsource⟩, fun _ => rfl⟩
  · rw [if_pos (.inl (hnil.mpr hembeds))]
    exact ⟨fun h => (by cases h), fun h => absurd h.embeds hembeds⟩

variable {s s' : SpliceState δ} {slot : ℕ}

theorem spliceItem_eq (h : P.Accepts item) :
    P.spliceItem ids s (slot, item) =
      .ok { out := s.out ++ (ids.take slot).drop s.cursor ++ (P.promptReplacement item).padded item.padValue,
            cursor := slot + P.placeholder.length,
            items := s.items ++ [P.placed item (s.out ++ (ids.take slot).drop s.cursor).length] } := by
  have hvalid := (validate_placed (s.out ++ (ids.take slot).drop s.cursor).length).mpr h
  rw [placed] at hvalid
  rw [spliceItem]
  simp only
  rw [hvalid]
  rfl

theorem accepts_of_spliceItem (h : P.spliceItem ids s (slot, item) = .ok s') : P.Accepts item := by
  refine (validate_placed (s.out ++ (ids.take slot).drop s.cursor).length).mp ?_
  rw [spliceItem] at h
  simp only at h
  rw [placed]
  cases hv : ({ item with offsets := (P.promptReplacement item).embedSpans.map fun span =>
      ((s.out ++ (ids.take slot).drop s.cursor).length + span.1,
        (s.out ++ (ids.take slot).drop s.cursor).length + span.2) } :
        ProcessedItem δ).validate with
  | ok u => rfl
  | error e =>
    rw [hv] at h
    cases h

theorem accepts_of_loop (hlen : items.length = slots.length)
    (h : (slots.zip items).foldlM (P.spliceItem ids) s = .ok s') :
    ∀ item ∈ items, P.Accepts item := by
  induction slots generalizing items s with
  | nil =>
    rw [List.length_eq_zero_iff.mp hlen]
    simp
  | cons slot slots ih =>
    cases items with
    | nil => simp at hlen
    | cons item items =>
      rw [zip_cons_cons, foldlM_cons] at h
      cases hitem : P.spliceItem ids s (slot, item) with
      | error e =>
        rw [hitem] at h
        cases h
      | ok mid =>
        rw [hitem] at h
        intro item' hitem'
        obtain rfl | hitem' := List.mem_cons.mp hitem'
        · exact accepts_of_spliceItem hitem
        · exact ih (Nat.succ.inj hlen) h item' hitem'

/-- The loop of `apply` puts the replacements in the place of the placeholders that are left. -/
theorem exists_loop {i : ℕ} (hslots : Slots ids P.placeholder i slots) (hcursor : s.cursor = i)
    (hlen : items.length = slots.length) (haccepts : ∀ item ∈ items, P.Accepts item) :
    ∃ s' marked items', (slots.zip items).foldlM (P.spliceItem ids) s = .ok s' ∧
      Spliced P.placeholder (ids.drop i) (items.map P.marksOf) marked ∧
      s'.out ++ ids.drop s'.cursor = s.out ++ marked.map Prod.fst ∧
      s'.items = s.items ++ items' ∧ List.Forall₂ P.IsPlaced items items' ∧
        SpansCover s.out.length items' marked := by
  induction hslots generalizing items s with
  | @nil i h =>
    obtain rfl := List.length_eq_zero_iff.mp hlen
    refine ⟨s, _, [], rfl, .rest fun hin => ?_, by simp [hcursor, Function.comp_def], by simp, .nil,
      .plain _ _⟩
    obtain ⟨before, after, heq⟩ := hin
    refine h (i + before.length) (Nat.le_add_right _ _) ⟨after, ?_⟩
    rw [← drop_drop, ← heq, append_assoc, drop_left]
  | @cons i slot slots hle hfirst hat h ih =>
    cases items with
    | nil => simp at hlen
    | cons item items =>
      have hitem := haccepts item mem_cons_self
      obtain ⟨rest, hrest⟩ := hat
      have hslot : slot ≤ ids.length := by
        by_contra hgt
        rw [drop_of_length_le (by omega)] at hrest
        have := P.placeholder_pos
        simp_all
      have hdrop : ids.drop (slot + P.placeholder.length) = rest := by
        rw [← drop_drop, ← hrest, drop_left]
      -- the prompt from the cursor on: a gap, the placeholder and what is left
      have hgap :
          ids.drop i = (ids.take slot).drop i ++ P.placeholder ++ ids.drop
          (slot + P.placeholder.length) := by
        rw [hdrop, append_assoc, hrest]
        conv_lhs => rw [← take_append_drop slot ids]
        rw [drop_append_of_le_length (by rw [length_take]; omega)]
      have hgaplen : ((ids.take slot).drop i).length = slot - i := by
        rw [length_drop, length_take]
        omega
      obtain ⟨s', marked, items', hloop, hspliced, hout, hitems, hplaced, hcovers⟩ :=
        ih (s := { out := s.out ++ (ids.take slot).drop s.cursor ++
        (P.promptReplacement item).padded item.padValue, cursor := slot +
        P.placeholder.length, items :=
        s.items ++ [P.placed item (s.out ++ (ids.take slot).drop s.cursor).length] })
        rfl (Nat.succ.inj hlen) fun item' hitem' => haccepts item' (mem_cons_of_mem _ hitem')
      refine ⟨s', ((ids.take slot).drop i).map (fun t => (t, false)) ++ P.marksOf item ++ marked,
        P.placed item (s.out ++ (ids.take slot).drop s.cursor).length :: items', ?_, ?_, ?_, ?_,
        .cons ⟨_, rfl⟩ hplaced, ?_⟩
      · rw [zip_cons_cons, foldlM_cons, spliceItem_eq hitem]
        exact hloop
      · rw [hgap]
        refine .next (fun j hj => ?_) hspliced
        rw [← hgap, drop_drop]
        exact hfirst (i + j) (Nat.le_add_right _ _) (by omega)
      · rw [hout, hcursor, PromptReplacement.padded_eq]
        simp [marksOf, Function.comp_def]
      · rw [hitems]
        simp
      · have hcover :
            SpansCover s.out.length [P.placed item (s.out ++ (ids.take slot).drop s.cursor).length]
            (((ids.take slot).drop i).map (fun t => (t, false)) ++ P.marksOf item) := by
          refine (SpansCover.plain s.out.length _).append
            (SpansCover.replacement (P.promptReplacement item) ?_)
          rw [length_map, hcursor, placed, length_append]
        have hbase :
            (s.out ++ (ids.take slot).drop s.cursor ++ (P.promptReplacement item).padded
              item.padValue).length =
            s.out.length +
              (((ids.take slot).drop i).map (fun t => (t, false)) ++ P.marksOf item).length := by
          rw [PromptReplacement.padded_eq, hcursor]
          simp [marksOf]
        rw [hbase] at hcovers
        exact hcover.append hcovers

end MMProcessor

end FreeToken
