import FreeToken.Lib.TrieWalk

/-!
# Tries keyed by whole pages

A page trie stores a block of slots for every page-aligned path it contains.  An edge-compressed
trie whose edges carry as many slots as symbols represents one.

* `PageTrie.insert`, `PageTrie.Evicts`: what inserting and evicting mean for a page trie.
* `pageAt`: the page trie an edge-compressed trie represents.
* `IsTrie.pageAt_splice_pair`: cutting an edge changes no page.
* `IsTrie.pageAt_concat`, `IsTrie.evicts_splice_nil`: adding a leaf inserts, dropping one evicts.
-/

namespace FreeToken

open List

/-- The block of slots stored for the last page of each path. -/
def PageTrie (α β : Type*) := List α → Option (List β)

namespace PageTrie

variable {α β : Type*}

def empty : PageTrie α β := fun _ => none

def Contains (A : PageTrie α β) (p : List α) : Prop := A p ≠ none

/-- Store the pages of `ids` that are missing. -/
def insert [DecidableEq α] (ps : ℕ) (A : PageTrie α β) (ids : List α) (idx : List β) :
    PageTrie α β := fun p =>
  if A p = none ∧ p ≠ [] ∧ ps ∣ p.length ∧ p <+: ids then some ((idx.drop (p.length - ps)).take ps)
  else A p

/-- The pages `gone` are dropped and their slots returned, each page once. -/
def EvictsPages [DecidableEq α] (A A' : PageTrie α β) (gone : List (List α)) (out : List β) :
    Prop :=
  gone.Nodup ∧ (∀ p ∈ gone, A.Contains p) ∧ (∀ p, A' p = if p ∈ gone then none else A p) ∧
    out = gone.flatMap fun p => (A p).getD []

/-- Some pages are dropped and their slots returned, each page once. -/
def Evicts [DecidableEq α] (A A' : PageTrie α β) (out : List β) : Prop :=
  ∃ gone, EvictsPages A A' gone out

/-- The slots of the pages of `ids` up to length `m`, in order. -/
def lookup (ps : ℕ) (A : PageTrie α β) (ids : List α) (m : ℕ) : List β :=
  (List.range (m / ps)).flatMap fun j => (A (ids.take ((j + 1) * ps))).getD []

variable {ids : List α}

theorem lookup_take {ps : ℕ} (A : PageTrie α β) {m : ℕ} (hd : ps ∣ m) :
    A.lookup ps (ids.take m) m = A.lookup ps ids m := by
  unfold lookup
  refine flatMap_congr fun j hj => ?_
  have hle : (j + 1) * ps ≤ m :=
    (Nat.mul_le_mul_right ps (List.mem_range.mp hj)).trans (Nat.div_mul_cancel hd).le
  rw [take_take, min_eq_left hle]

theorem evicts_refl [DecidableEq α] (A : PageTrie α β) : Evicts A A [] :=
  ⟨[], nodup_nil, by simp, by simp, by simp⟩

/-- Evictions compose. -/
theorem Evicts.trans [DecidableEq α] {A B C : PageTrie α β} {out out' : List β}
    (h : Evicts A B out) (h' : Evicts B C out') : Evicts A C (out ++ out') := by
  obtain ⟨gone, hnd, hin, hmap, rfl⟩ := h
  obtain ⟨gone', hnd', hin', hmap', rfl⟩ := h'
  have hdisj : ∀ p ∈ gone', p ∉ gone := by
    intro p hp hg
    have := hin' p hp
    rw [Contains, hmap, if_pos hg] at this
    exact this rfl
  refine ⟨gone ++ gone', ?_, ?_, ?_, ?_⟩
  · rw [nodup_append]
    refine ⟨hnd, hnd', ?_⟩
    rintro p hp q hq rfl
    exact hdisj p hq hp
  · intro p hp
    rcases mem_append.mp hp with hp | hp
    · exact hin p hp
    · have := hin' p hp
      rwa [Contains, hmap, if_neg (hdisj p hp)] at this
  · intro p
    rw [hmap', hmap]
    by_cases h₁ : p ∈ gone <;> by_cases h₂ : p ∈ gone' <;> simp [h₁, h₂]
  · rw [flatMap_append]
    congr 1
    refine flatMap_congr fun p hp => ?_
    rw [hmap, if_neg (hdisj p hp)]

/-! ### Runs of a page trie -/

inductive Event (α β : Type*) where
  | inserted (ids : List α) (idx : List β)
  | matched (ids : List α) (len : ℕ) (slots : List β)
  | evicted (slots : List β)
  | silent

/-- All pages of `p` are in the trie. -/
def AllPages (ps : ℕ) (A : PageTrie α β) (p : List α) : Prop :=
  ∀ q, q <+: p → q ≠ [] → ps ∣ q.length → A.Contains q

variable {evs : List (Event α β)} {len k : ℕ}

section Runs

variable [DecidableEq α] (ps : ℕ)

/-- The steps of a page trie: an insertion stores the missing pages, a match returns the longest
page-aligned prefix whose pages are all there and its slots, an eviction drops pages. -/
inductive Step : PageTrie α β → Event α β → PageTrie α β → Prop
  | inserted (A : PageTrie α β) (ids : List α) (idx : List β) (hl : ids.length = idx.length) :
      Step A (.inserted ids idx) (A.insert ps ids idx)
  | matched (A : PageTrie α β) (ids : List α) (len : ℕ)
      (h : TrieEdge.IsLongest ps (A.AllPages ps) ids len) :
      Step A (.matched ids len (A.lookup ps ids len)) A
  | evicted {A A' : PageTrie α β} {slots : List β} (h : A.Evicts A' slots) :
      Step A (.evicted slots) A'
  | silent (A : PageTrie α β) : Step A .silent A

/-- The runs of a page trie from the empty one, with the events seen, oldest first. -/
inductive Run : List (Event α β) → PageTrie α β → Prop
  | start : Run [] empty
  | step {evs : List (Event α β)} {A A' : PageTrie α β} {ev : Event α β} (h : Run evs A)
      (hs : Step ps A ev A') : Run (evs ++ [ev]) A'

/-- Every stored page was supplied by an insertion of a sequence that runs through it. -/
def Supplied (evs : List (Event α β)) (A : PageTrie α β) : Prop :=
  ∀ p b, A p = some b → ∃ ids idx, Event.inserted ids idx ∈ evs ∧ ids.length = idx.length ∧
    p <+: ids ∧ ps ∣ p.length ∧ p ≠ [] ∧ b = (idx.drop (p.length - ps)).take ps

variable {ps} {A : PageTrie α β} {slots : List β}

/-- A match returns the longest prefix whose pages are all there, its slots, and changes nothing. -/
theorem Step.matched_inv {A' : PageTrie α β}
    (h : Step ps A (.matched ids len slots) A') :
    TrieEdge.IsLongest ps (A.AllPages ps) ids len ∧ slots = A.lookup ps ids len ∧ A' = A := by
  cases h with
  | matched _ _ hl => exact ⟨hl, rfl, rfl⟩

theorem Run.supplied (h : Run ps evs A) :
    Supplied ps evs A := by
  induction h with
  | start => intro p b hb; simp [empty] at hb
  | @step evs A A' ev h hs ih =>
    have old : ∀ p b, A p = some b → ∃ ids idx, Event.inserted ids idx ∈ evs ++ [ev] ∧
        ids.length = idx.length ∧ p <+: ids ∧ ps ∣ p.length ∧ p ≠ [] ∧
          b = (idx.drop (p.length - ps)).take ps := by
      intro p b hb
      obtain ⟨ids, idx, hmem, hrest⟩ := ih p b hb
      exact ⟨ids, idx, mem_append_left _ hmem, hrest⟩
    cases hs with
    | inserted ids idx hl =>
      intro p b hb
      unfold insert at hb
      split at hb
      · next hc =>
        obtain ⟨-, hne, hd, hpre⟩ := hc
        exact ⟨ids, idx, by simp, hl, hpre, hd, hne, (Option.some.inj hb).symm⟩
      · exact old p b hb
    | matched ids len hm => exact old
    | evicted he =>
      obtain ⟨gone, -, -, hmap, -⟩ := he
      intro p b hb
      rw [hmap] at hb
      split at hb
      · simp at hb
      · exact old p b hb
    | silent => exact old

omit [DecidableEq α] in
/-- The slots of the first `k` pages of a sequence, when the blocks are whole pages. -/
theorem getElem?_lookup (hps : 0 < ps)
    (hblock : ∀ j < k, ∃ b, A (ids.take ((j + 1) * ps)) = some b ∧ b.length = ps) {i : ℕ}
    (hi : i < k * ps) :
    ∃ b, A (ids.take ((i / ps + 1) * ps)) = some b ∧
      (A.lookup ps ids (k * ps))[i]? = b[i % ps]? ∧ (A.lookup ps ids (k * ps)).length = k * ps := by
  unfold lookup
  rw [Nat.mul_div_cancel k hps]
  induction k with
  | zero => omega
  | succ k ih =>
    have hlen : ∀ m ≤ k + 1, ((List.range m).flatMap fun j =>
        (A (ids.take ((j + 1) * ps))).getD []).length = m * ps := by
      intro m hm
      induction m with
      | zero => simp
      | succ m ihm =>
        obtain ⟨b, hb, hbl⟩ := hblock m (by omega)
        rw [range_succ, flatMap_append, length_append, ihm (by omega)]
        simp [hb, hbl]
        ring
    rw [range_succ, flatMap_append, length_append, hlen k (by omega)]
    rcases lt_or_ge i (k * ps) with hlt | hge
    -- the index is in a page before the last one, or in that one
    · obtain ⟨b, hb, hget, -⟩ := ih (fun j hj => hblock j (by omega)) hlt
      refine ⟨b, hb, ?_, ?_⟩
      · rw [getElem?_append_left (by rw [hlen k (by omega)]; exact hlt), hget]
      · obtain ⟨b', hb', hbl'⟩ := hblock k (by omega)
        simp [hb', hbl']
        ring
    · obtain ⟨b, hb, hbl⟩ := hblock k (by omega)
      have hdiv : i / ps = k := by
        rw [Nat.div_eq_iff hps]
        rw [add_mul] at hi
        constructor <;> omega
      have hmod : i % ps = i - k * ps := by
        have := Nat.div_add_mod i ps
        rw [hdiv, Nat.mul_comm] at this
        omega
      refine ⟨b, by rw [hdiv, hb], ?_, ?_⟩
      · rw [List.getElem?_append_right (by rw [hlen k (by omega)]; exact hge), hlen k (by omega),
          hmod]
        simp [hb]
      · simp [hb, hbl]
        ring

/-- **Every slot a match returns was supplied** at its position by an earlier insertion of a
sequence that agrees with the query up to and including that position. -/
theorem Run.matched_supplied (h : Run ps evs A)
    (hps : 0 < ps)
    (hk : evs[k]? = some (.matched ids len slots)) :
    slots.length = len ∧ ∀ i < len, ∃ ids' idx', Event.inserted ids' idx' ∈ evs.take k ∧
      ids'.take (i + 1) = ids.take (i + 1) ∧ slots[i]? = idx'[i]? ∧ i < idx'.length := by
  induction h with
  | start => simp at hk
  | @step evs A A' ev h hs ih =>
    -- the event is an earlier one, the last one, or none
    rcases lt_trichotomy k evs.length with hlt | heq | hgt
    · rw [getElem?_append_left hlt] at hk
      rw [take_append_of_le_length hlt.le]
      exact ih hk
    · subst heq
      rw [List.getElem?_append_right le_rfl, Nat.sub_self] at hk
      simp only [getElem?_cons_zero, Option.some.injEq] at hk
      subst hk
      rw [take_left']
      · cases hs with
        | matched _ _ hlong =>
          obtain ⟨c, hc⟩ := hlong.dvd
          rw [Nat.mul_comm] at hc
          subst hc
          have hsup := h.supplied
          have hlenk : ∀ j < c, (ids.take ((j + 1) * ps)).length = (j + 1) * ps := by
            intro j hj
            have : (j + 1) * ps ≤ c * ps := Nat.mul_le_mul_right ps hj
            have := hlong.le
            rw [length_take]
            omega
          -- each page of the match is a block that an insertion supplied
          have hblock : ∀ j < c, ∃ b, A (ids.take ((j + 1) * ps)) = some b ∧ b.length = ps := by
            intro j hj
            have hle : (j + 1) * ps ≤ c * ps := Nat.mul_le_mul_right ps hj
            have hjp : 0 < (j + 1) * ps := mul_pos (Nat.succ_pos j) hps
            have hcont : A.Contains (ids.take ((j + 1) * ps)) := by
              refine hlong.mem (by omega) _ (take_prefix_take_left hle) ?_ ?_
              · exact ne_nil_of_length_pos (by rw [hlenk j hj]; exact hjp)
              · rw [hlenk j hj]
                exact Nat.dvd_mul_left ps _
            obtain ⟨b, hb⟩ := Option.ne_none_iff_exists'.mp hcont
            refine ⟨b, hb, ?_⟩
            obtain ⟨ids', idx', -, hl', hpre, -, -, rfl⟩ := hsup _ b hb
            have := hpre.length_le
            rw [hlenk j hj] at this ⊢
            rw [length_take, length_drop, min_eq_left]
            rw [add_mul] at this ⊢
            omega
          constructor
          · rcases eq_zero_or_pos c with rfl | hcp
            · simp [lookup]
            · exact (getElem?_lookup hps hblock (mul_pos hcp hps)).choose_spec.2.2
          · intro i hi
            -- position `i` lies in page `i / ps`, at `i % ps`
            obtain ⟨b, hb, hget, -⟩ := getElem?_lookup hps hblock hi
            obtain ⟨ids', idx', hmem, hl', hpre, -, -, rfl⟩ := hsup _ b hb
            have hj : i / ps < c := (Nat.div_lt_iff_lt_mul hps).mpr hi
            have hlp := hpre.length_le
            rw [hlenk _ hj] at hlp
            have hdm := Nat.div_add_mod i ps
            have hmlt := Nat.mod_lt i hps
            rw [Nat.mul_comm] at hdm
            rw [add_mul, one_mul] at hlp
            refine ⟨ids', idx', hmem, ?_, ?_, by omega⟩
            · have hcut : i + 1 ≤ (i / ps + 1) * ps := by
                rw [add_mul]
                omega
              have htt := prefix_iff_eq_take.mp hpre
              rw [hlenk _ hj] at htt
              have := congrArg (List.take (i + 1)) htt
              rw [take_take, take_take, min_eq_left hcut] at this
              exact this.symm
            · rw [hget, getElem?_take_of_lt hmlt, getElem?_drop, hlenk _ hj]
              congr 1
              rw [add_mul]
              omega
      · rfl
    · rw [getElem?_eq_none (by simp; omega)] at hk
      simp at hk

end Runs

end PageTrie

namespace TrieEdge

variable {ν α β : Type*} [TrieEdge ν α] [DecidableEq α]

/-! ### The page trie an edge-compressed trie represents -/

/-- The edge `e` covers the path `p` at its last symbol. -/
def Covers (e : ν) (p : List α) : Prop := (start e).length < p.length ∧ p <+: stop e

instance (e : ν) (p : List α) : Decidable (Covers e p) :=
  inferInstanceAs (Decidable ((start e).length < p.length ∧ p <+: stop e))

variable (val : ν → List β) (ps : ℕ)

/-- The slots edge `e` carries for the last page of `p`. -/
def blockOf (e : ν) (p : List α) : List β :=
  ((val e).drop (p.length - ps - (start e).length)).take ps

/-- The slots stored for the last page of `p`. -/
def pageAt (l : List ν) : PageTrie α β := fun p =>
  if ps ∣ p.length then (l.find? fun e => Covers e p).map fun e => blockOf val ps e p else none

variable {val ps} {l : List ν} {p : List α}

theorem IsTrie.pageAt_eq_some_iff (h : IsTrie ps l) {b : List β} :
    pageAt val ps l p = some b ↔ ps ∣ p.length ∧ ∃ e ∈ l, Covers e p ∧ blockOf val ps e p = b := by
  unfold pageAt
  split
  · next hd =>
    rw [Option.map_eq_some_iff]
    constructor
    · rintro ⟨e, he, hb⟩
      exact ⟨hd, e, mem_of_find?_eq_some he, by simpa using find?_some he, hb⟩
    · rintro ⟨-, e, he, hc, hb⟩
      refine ⟨e, ?_, hb⟩
      cases hf : l.find? (fun e => Covers e p) with
      | none =>
        have := find?_eq_none.mp hf e he
        simp [hc] at this
      | some f =>
        have hcf : Covers f p := by simpa using find?_some hf
        rw [h.covers_unique (mem_of_find?_eq_some hf) he hd hcf.1 hcf.2 hc.1 hc.2]
  · next hd => simp [hd]

theorem pageAt_contains_iff :
    (pageAt val ps l).Contains p ↔ ps ∣ p.length ∧ Resident l p := by
  unfold PageTrie.Contains pageAt
  split
  · next hd =>
    have hres : Resident l p ↔ ∃ e ∈ l, Covers e p := Iff.rfl
    rw [hres, ne_eq, Option.map_eq_none_iff, find?_eq_none]
    simp [hd]
  · next hd => simp [hd]

variable {e : ν}

/-- A page of an edge is stored under its path. -/
theorem IsTrie.pageAt_of_covers (h : IsTrie ps l) (he : e ∈ l)
    (hd : ps ∣ p.length) (hc : Covers e p) : pageAt val ps l p = some (blockOf val ps e p) :=
  h.pageAt_eq_some_iff.mpr ⟨hd, e, he, hc, rfl⟩

theorem pageAt_eq_none (hn : ∀ e ∈ l, ¬Covers e p) : pageAt val ps l p = none := by
  unfold pageAt
  have : (l.find? fun e => Covers e p) = none := by
    rw [find?_eq_none]
    intro e he
    simpa using hn e he
  rw [this]
  simp

theorem pageAt_of_not_dvd (hd : ¬ps ∣ p.length) : pageAt val ps l p = none := by
  unfold pageAt
  rw [if_neg hd]

theorem IsTrie.pageAt_congr (h : IsTrie ps l) {l' : List ν} (h' : IsTrie ps l')
    (hiff : ∀ b, (∃ e ∈ l', Covers e p ∧ blockOf val ps e p = b) ↔
      ∃ e ∈ l, Covers e p ∧ blockOf val ps e p = b) :
    pageAt val ps l' p = pageAt val ps l p := by
  refine Option.ext fun b => ?_
  rw [h'.pageAt_eq_some_iff, h.pageAt_eq_some_iff, hiff b]

theorem IsTrie.pageAt_splice_one' (h : IsTrie ps l) {e' : ν} (he : e ∈ l)
    (hs : start e' = start e) (hk : key e' = key e) (p : List α) :
    pageAt val ps (splice l (stop e) [e']) p =
      if ps ∣ p.length ∧ Covers e p then some (blockOf val ps e' p) else pageAt val ps l p := by
  have h' := h.splice_one he hs hk
  have hcov : Covers e' p ↔ Covers e p := by simp [Covers, stop, hs, hk]
  by_cases hd : ps ∣ p.length
  · by_cases hc : Covers e p
    · rw [if_pos ⟨hd, hc⟩]
      exact h'.pageAt_of_covers ((h.mem_splice_one he).mpr (Or.inl rfl)) hd (hcov.mpr hc)
    · rw [if_neg fun hx => hc hx.2]
      refine h.pageAt_congr h' fun b => ?_
      constructor
      · rintro ⟨f, hf, hcf, hb⟩
        rcases (h.mem_splice_one he).mp hf with rfl | ⟨hf, -⟩
        · exact absurd (hcov.mp hcf) hc
        · exact ⟨f, hf, hcf, hb⟩
      · rintro ⟨f, hf, hcf, hb⟩
        refine ⟨f, (h.mem_splice_one he).mpr (Or.inr ⟨hf, ?_⟩), hcf, hb⟩
        rintro rfl
        exact hc hcf
  · rw [if_neg fun hx => hd hx.1, pageAt_of_not_dvd hd, pageAt_of_not_dvd hd]

theorem IsTrie.pageAt_splice_one (h : IsTrie ps l) {e' : ν} (he : e ∈ l)
    (hs : start e' = start e) (hk : key e' = key e) (hv : val e' = val e) :
    pageAt val ps (splice l (stop e) [e']) = pageAt val ps l := by
  funext p
  rw [h.pageAt_splice_one' he hs hk]
  split
  · next hc =>
    rw [h.pageAt_of_covers he hc.1 hc.2]
    simp [blockOf, hs, hv]
  · rfl

theorem IsTrie.pageAt_splice_pair (h : IsTrie ps l) {pre suf : ν} (he : e ∈ l) {pos : ℕ}
    (hpos : 0 < pos) (hlt : pos < (key e).length) (hdvd : ps ∣ pos)
    (hsp : start pre = start e) (hkp : key pre = (key e).take pos)
    (hss : start suf = stop pre) (hks : key suf = (key e).drop pos)
    (hvp : val pre = (val e).take pos) (hvs : val suf = (val e).drop pos) :
    pageAt val ps (splice l (stop e) [pre, suf]) = pageAt val ps l := by
  funext p
  by_cases hd : ps ∣ p.length
  swap
  · rw [pageAt_of_not_dvd hd, pageAt_of_not_dvd hd]
  have h' := h.splice_pair he hpos hlt hdvd hsp hkp hss hks
  have hlpre : (stop pre).length = (start e).length + pos := by
    rw [length_stop, hsp, hkp, length_take]; omega
  have hstop : stop suf = stop e := by
    simp only [stop] at hss ⊢
    rw [hss, hsp, hkp, hks, append_assoc, take_append_drop]
  have hprepre : stop pre <+: stop e := by
    rw [← hstop, ← hss]
    exact start_prefix_stop suf
  have hds := h.dvd_start he
  -- the pages above the cut
  have hp : Covers pre p ↔ Covers e p ∧ p.length ≤ (start e).length + pos := by
    rw [Covers, Covers, hsp]
    constructor
    · rintro ⟨h₁, h₂⟩
      exact ⟨⟨h₁, h₂.trans hprepre⟩, hlpre ▸ h₂.length_le⟩
    · rintro ⟨⟨h₁, h₂⟩, h₃⟩
      exact ⟨h₁, prefix_of_prefix_length_le h₂ hprepre (by omega)⟩
  have hbp : Covers pre p → blockOf val ps pre p = blockOf val ps e p := by
    intro hc
    obtain ⟨hce, hle⟩ := hp.mp hc
    have := add_page_le hds hd hce.1
    unfold blockOf
    rw [hvp, hsp, drop_take, take_take, min_eq_left (by omega)]
  -- the pages below the cut
  have hsuf : Covers suf p ↔ Covers e p ∧ (start e).length + pos < p.length := by
    rw [Covers, Covers, hss, hlpre, hstop]
    constructor
    · rintro ⟨h₁, h₂⟩
      exact ⟨⟨by omega, h₂⟩, h₁⟩
    · rintro ⟨⟨-, h₂⟩, h₃⟩
      exact ⟨h₃, h₂⟩
  have hbs : Covers suf p → blockOf val ps suf p = blockOf val ps e p := by
    intro hc
    obtain ⟨hce, hle⟩ := hsuf.mp hc
    have := add_page_le (Nat.dvd_add hds hdvd) hd hle
    unfold blockOf
    rw [hvs, hss, hlpre, drop_drop]
    congr 2
    omega
  refine h.pageAt_congr h' fun b => ?_
  constructor
  · rintro ⟨f, hf, hcf, hb⟩
    rcases (h.mem_splice he).mp hf with hf | ⟨hf, -⟩
    · rcases mem_cons.mp hf with rfl | hf
      · exact ⟨e, he, (hp.mp hcf).1, by rw [← hbp hcf, hb]⟩
      · obtain rfl := mem_singleton.mp hf
        exact ⟨e, he, (hsuf.mp hcf).1, by rw [← hbs hcf, hb]⟩
    · exact ⟨f, hf, hcf, hb⟩
  · rintro ⟨f, hf, hcf, hb⟩
    by_cases hfe : f = e
    · subst hfe
      rcases lt_or_ge ((start f).length + pos) p.length with hlt' | hge
      · have hc := hsuf.mpr ⟨hcf, hlt'⟩
        exact ⟨suf, (h.mem_splice he).mpr (Or.inl (by simp)), hc, by rw [hbs hc, hb]⟩
      · have hc := hp.mpr ⟨hcf, hge⟩
        exact ⟨pre, (h.mem_splice he).mpr (Or.inl (by simp)), hc, by rw [hbp hc, hb]⟩
    · exact ⟨f, (h.mem_splice he).mpr (Or.inr ⟨hf, hfe⟩), hcf, hb⟩

theorem IsTrie.pageAt_splice_nil (h : IsTrie ps l) (he : e ∈ l)
    (hleaf : IsLeaf l (stop e)) (p : List α) :
    pageAt val ps (splice l (stop e) []) p = if Covers e p then none else pageAt val ps l p := by
  have h' := h.splice_nil he hleaf
  by_cases hd : ps ∣ p.length
  swap
  · rw [pageAt_of_not_dvd hd, pageAt_of_not_dvd hd, ite_self]
  have hmem : ∀ {f}, f ∈ splice l (stop e) [] ↔ f ∈ l ∧ f ≠ e := by
    intro f
    rw [h.mem_splice he]
    simp
  by_cases hc : Covers e p
  · rw [if_pos hc]
    refine pageAt_eq_none fun f hf hcf => ?_
    obtain ⟨hf, hfe⟩ := hmem.mp hf
    exact hfe (h.covers_unique hf he hd hcf.1 hcf.2 hc.1 hc.2)
  · rw [if_neg hc]
    refine h.pageAt_congr h' fun b => ?_
    constructor
    · rintro ⟨f, hf, hcf, hb⟩
      exact ⟨f, (hmem.mp hf).1, hcf, hb⟩
    · rintro ⟨f, hf, hcf, hb⟩
      refine ⟨f, hmem.mpr ⟨hf, ?_⟩, hcf, hb⟩
      rintro rfl
      exact hc hcf

/-- Adding a leaf below the end of the longest covered prefix inserts the rest of the query. -/
theorem IsTrie.pageAt_concat (h : IsTrie ps l) {ids : List α} {idx : List β} {n : ℕ}
    (h' : IsTrie ps (l ++ [e])) (hlong : IsLongest ps (Resident l) ids n)
    (hs : start e = ids.take n) (hk : key e = ids.drop n) (hv : val e = idx.drop n) :
    pageAt val ps (l ++ [e]) = (pageAt val ps l).insert ps ids idx := by
  have hlen : (ids.take n).length = n := by rw [length_take]; exact min_eq_left hlong.le
  have hstop : stop e = ids := by rw [stop, hs, hk, take_append_drop]
  funext p
  unfold PageTrie.insert
  by_cases hd : ps ∣ p.length
  swap
  · rw [pageAt_of_not_dvd hd, pageAt_of_not_dvd hd, if_neg fun hx => hd hx.2.2.1]
  by_cases hc : Covers e p
  · -- the new edge covers a path of the query past its longest covered prefix
    have hlt : n < p.length := by
      have := hc.1
      rwa [hs, hlen] at this
    have hpre : p <+: ids := hstop ▸ hc.2
    have hnone : pageAt val ps l p = none := by
      refine pageAt_eq_none fun f hf hcf => ?_
      have hle := hlong.max p.length hd hpre.length_le
        (by rw [← prefix_iff_eq_take.mp hpre]; exact ⟨f, hf, hcf⟩)
      omega
    have hne : p ≠ [] := ne_nil_of_length_pos (by omega)
    rw [if_pos ⟨hnone, hne, hd, hpre⟩, h'.pageAt_of_covers (by simp) hd hc]
    have hge := add_page_le hlong.dvd hd hlt
    unfold blockOf
    rw [hv, hs, hlen, drop_drop]
    congr 3
    omega
  · have hsame : pageAt val ps (l ++ [e]) p = pageAt val ps l p := by
      refine h.pageAt_congr h' fun b => ?_
      constructor
      · rintro ⟨f, hf, hcf, hb⟩
        rcases mem_append.mp hf with hf | hf
        · exact ⟨f, hf, hcf, hb⟩
        · obtain rfl := mem_singleton.mp hf
          exact absurd hcf hc
      · rintro ⟨f, hf, hcf, hb⟩
        exact ⟨f, mem_append_left _ hf, hcf, hb⟩
    rw [hsame, if_neg]
    rintro ⟨hnone, hne, -, hpre⟩
    have hlt : p.length ≤ n := by
      by_contra hgt
      exact hc ⟨by rw [hs, hlen]; omega, by rw [hstop]; exact hpre⟩
    have hn0 : n ≠ 0 := by
      have := length_pos_iff.mpr hne
      omega
    have hres : Resident l p := by
      refine h.resident_of_prefix (hlong.mem hn0) ?_ hne
      rw [prefix_take_iff]
      exact ⟨hpre, hlt⟩
    exact pageAt_contains_iff.mpr ⟨hd, hres⟩ hnone

theorem IsTrie.insert_of_isLongest (h : IsTrie ps l) {ids : List α} (idx : List β)
    (hlong : IsLongest ps (Resident l) ids ids.length) :
    (pageAt val ps l).insert ps ids idx = pageAt val ps l := by
  funext p
  unfold PageTrie.insert
  rw [if_neg]
  rintro ⟨hnone, hne, hd, hpre⟩
  have h0 : ids.length ≠ 0 := by
    have := length_pos_iff.mpr hne
    have := hpre.length_le
    omega
  refine pageAt_contains_iff.mpr ⟨hd, h.resident_of_prefix (hlong.mem h0) ?_ hne⟩ hnone
  rwa [take_length]

/-! ### The pages of one edge -/

/-- The paths of the pages of an edge, shortest first. -/
def pagePaths (ps : ℕ) (e : ν) : List (List α) :=
  (List.range ((key e).length / ps)).map fun j => start e ++ (key e).take ((j + 1) * ps)

omit [DecidableEq α] in
theorem IsTrie.mem_pagePaths (h : IsTrie ps l) (he : e ∈ l) :
    p ∈ pagePaths ps e ↔ ps ∣ p.length ∧ Covers e p := by
  have hps := h.page_pos
  have hds := h.dvd_start he
  unfold pagePaths Covers
  rw [mem_map]
  constructor
  · rintro ⟨j, hj, rfl⟩
    have hle : (j + 1) * ps ≤ (key e).length := by
      rw [mem_range] at hj
      exact (Nat.mul_le_mul_right ps hj).trans (Nat.div_mul_le_self _ _)
    have hpos : 0 < (j + 1) * ps := mul_pos (Nat.succ_pos j) hps
    have hlen : (start e ++ (key e).take ((j + 1) * ps)).length =
        (start e).length + (j + 1) * ps := by
      rw [length_append, length_take, min_eq_left hle]
    refine ⟨?_, by omega, (prefix_append_right_inj _).mpr (List.take_prefix _ _)⟩
    rw [hlen]
    exact Nat.dvd_add hds (Nat.dvd_mul_left _ _)
  · rintro ⟨hd, hlt, hpre⟩
    obtain ⟨c, hc⟩ := Nat.dvd_sub hd hds
    have hle := hpre.length_le
    rw [length_stop] at hle
    have hcpos : 0 < c := by
      rcases eq_zero_or_pos c with rfl | hpos
      · simp at hc
        omega
      · exact hpos
    refine ⟨c - 1, ?_, ?_⟩
    · rw [mem_range]
      have : c ≤ (key e).length / ps := by
        rw [Nat.le_div_iff_mul_le hps, Nat.mul_comm]
        omega
      omega
    · have hcs : c - 1 + 1 = c := by omega
      rw [hcs, Nat.mul_comm c ps, ← hc]
      have hpt := prefix_iff_eq_take.mp hpre
      rw [stop, take_append, take_of_length_le (by omega)] at hpt
      exact hpt.symm

omit [DecidableEq α] in
theorem nodup_pagePaths (hps : 0 < ps) (e : ν) : (pagePaths ps e).Nodup := by
  refine List.Nodup.map_on ?_ nodup_range
  intro i hi j hj heq
  rw [mem_range] at hi hj
  have hlen := congrArg List.length (append_cancel_left heq)
  have hle : ∀ {k : ℕ}, k < (key e).length / ps → (k + 1) * ps ≤ (key e).length := fun hk =>
    (Nat.mul_le_mul_right ps hk).trans (Nat.div_mul_le_self _ _)
  rw [length_take, length_take, min_eq_left (hle hi), min_eq_left (hle hj)] at hlen
  have := Nat.eq_of_mul_eq_mul_right hps hlen
  omega

/-- The blocks of a list of whole pages, joined, are the list. -/
theorem flatMap_blocks {xs : List β} (hd : ps ∣ xs.length) :
    ((List.range (xs.length / ps)).flatMap fun j => (xs.drop (j * ps)).take ps) = xs := by
  obtain ⟨c, hc⟩ := hd
  rcases eq_zero_or_pos ps with rfl | hps
  · simp at hc
    simp [hc]
  rw [hc, Nat.mul_div_cancel_left c hps]
  have key : ∀ k ≤ c, ((List.range k).flatMap fun j => (xs.drop (j * ps)).take ps) =
      xs.take (k * ps) := by
    intro k hk
    induction k with
    | zero => simp
    | succ k ih =>
      rw [range_succ, flatMap_append, ih (by omega), add_mul, one_mul, take_add]
      simp
  rw [key c le_rfl, take_of_length_le]
  rw [hc, Nat.mul_comm]

theorem IsTrie.flatMap_pagePaths (h : IsTrie ps l) (he : e ∈ l)
    (hv : (val e).length = (key e).length) :
    ((pagePaths ps e).flatMap fun p => (pageAt val ps l p).getD []) = val e := by
  have hps := h.page_pos
  have hd : ps ∣ (val e).length := hv ▸ h.dvd_key e he
  have hblock : ∀ p ∈ pagePaths ps e, (pageAt val ps l p).getD [] = blockOf val ps e p := by
    intro p hp
    obtain ⟨hpd, hpc⟩ := (h.mem_pagePaths he).mp hp
    rw [h.pageAt_of_covers he hpd hpc]
    rfl
  rw [flatMap_congr hblock, pagePaths, flatMap_map]
  calc ((List.range ((key e).length / ps)).flatMap fun j =>
          blockOf val ps e (start e ++ (key e).take ((j + 1) * ps)))
      = (List.range ((val e).length / ps)).flatMap fun j => ((val e).drop (j * ps)).take ps := by
        rw [hv]
        refine flatMap_congr fun j hj => ?_
        have hle : (j + 1) * ps ≤ (key e).length :=
          (Nat.mul_le_mul_right ps (List.mem_range.mp hj)).trans (Nat.div_mul_le_self _ _)
        unfold blockOf
        rw [length_append, length_take, min_eq_left hle, add_mul, one_mul]
        congr 2
        omega
    _ = val e := flatMap_blocks hd

/-- **Dropping a leaf evicts its pages** and returns its slots. -/
theorem IsTrie.evicts_splice_nil (h : IsTrie ps l) (he : e ∈ l)
    (hleaf : IsLeaf l (stop e)) (hv : (val e).length = (key e).length) :
    (pageAt val ps l).Evicts (pageAt val ps (splice l (stop e) [])) (val e) := by
  refine ⟨pagePaths ps e, nodup_pagePaths h.page_pos e, ?_, ?_, (h.flatMap_pagePaths he hv).symm⟩
  · intro p hp
    obtain ⟨hd, hc⟩ := (h.mem_pagePaths he).mp hp
    exact pageAt_contains_iff.mpr ⟨hd, e, he, hc⟩
  · intro p
    rw [h.pageAt_splice_nil he hleaf]
    by_cases hd : ps ∣ p.length
    · have : p ∈ pagePaths ps e ↔ Covers e p := by simp [h.mem_pagePaths he, hd]
      by_cases hc : Covers e p <;> simp [this, hc]
    · rw [pageAt_of_not_dvd hd]
      simp

end TrieEdge

end FreeToken
