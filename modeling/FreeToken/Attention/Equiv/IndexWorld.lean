import FreeToken.Attention.Equiv.IndexPool

/-!
# Who holds a page that is written

A forward writes at positions that come after those a request has run, and their pages belong to
that request alone.

* `World.Ok`: what every step keeps; `World.Step.ok`.
* `row_unique`: two rows of a batch that close a group close different ones, and no group that was
  complete.
-/

namespace FreeToken

open List

variable {τ : Type} {g : IndexGeometry} {w w' : World τ} {e : IndexEvent τ}

/-! ### Pages and groups -/

def IndexGeometry.blocks (g : IndexGeometry) : ℕ := g.pageSize / g.ratio

theorem IndexGeometry.blocks_mul (g : IndexGeometry) : g.blocks * g.ratio = g.pageSize :=
  Nat.div_mul_cancel (Nat.dvd_of_mod_eq_zero g.ratio_dvd)

theorem IndexGeometry.blocks_pos (g : IndexGeometry) : 0 < g.blocks := by
  apply pos_of_ne_zero
  intro hzero
  have h := g.blocks_mul
  rw [hzero, Nat.zero_mul] at h
  exact absurd g.page_pos (by omega)

/-- The slab row of a slot is the row of its page, and the group of the slot in the page. -/
theorem div_ratio (g : IndexGeometry) (page n : ℕ) :
    (page * g.pageSize + n) / g.ratio = page * g.blocks + n / g.ratio := by
  rw [← g.blocks_mul, ← Nat.mul_assoc, mul_comm _ g.ratio, Nat.mul_add_div g.ratio_pos]

theorem mod_ratio (g : IndexGeometry) (page n : ℕ) :
    (page * g.pageSize + n) % g.ratio = n % g.ratio := by
  rw [← g.blocks_mul, ← Nat.mul_assoc, mul_comm _ g.ratio, Nat.mul_add_mod]

theorem mod_page_mod_ratio (g : IndexGeometry) (p : ℕ) :
    p % g.pageSize % g.ratio = p % g.ratio := by
  have h := mod_ratio g (p / g.pageSize) (p % g.pageSize)
  rw [Nat.div_add_mod'] at h
  exact h.symm

theorem pageTable_mod (r : IndexReq τ) (p : ℕ) : r.pageTable g p % g.ratio = p % g.ratio := by
  unfold IndexReq.pageTable
  rw [mod_ratio, mod_page_mod_ratio]

theorem pageTable_div (r : IndexReq τ) (p : ℕ) :
    r.pageTable g p / g.ratio = (r.pages[p / g.pageSize]?).getD 0 * g.blocks + p % g.pageSize /
      g.ratio := by
  unfold IndexReq.pageTable
  exact div_ratio g _ _

theorem slabRow_of_position (r : IndexReq τ) (p : ℕ) :
    r.pageTable g p / g.ratio = r.slabRow g (p / g.ratio) := by
  unfold IndexReq.slabRow
  rw [pageTable_div, pageTable_div]
  have hpage : p / g.ratio * g.ratio / g.pageSize = p / g.pageSize := by
    rw [← g.blocks_mul, mul_comm g.blocks, ← Nat.div_div_eq_div_mul, ← Nat.div_div_eq_div_mul,
      Nat.mul_div_cancel _ g.ratio_pos]
  have hin : p / g.ratio * g.ratio % g.pageSize / g.ratio = p % g.pageSize / g.ratio := by
    rw [← g.blocks_mul, mul_comm g.blocks, Nat.mod_mul_right_div_self, Nat.mod_mul_right_div_self,
      Nat.mul_div_cancel _ g.ratio_pos]
  rw [hpage, hin]

theorem row_inj {page page' n n' : ℕ} (hn : n < g.pageSize) (hn' : n' < g.pageSize)
    (h : page * g.blocks + n / g.ratio = page' * g.blocks + n' / g.ratio) :
    page = page' ∧ n / g.ratio = n' / g.ratio := by
  have hlt : ∀ m < g.pageSize, m / g.ratio < g.blocks := by
    intro m hm
    rw [Nat.div_lt_iff_lt_mul g.ratio_pos, g.blocks_mul]
    exact hm
  have hdiv := congrArg (· / g.blocks) h
  simp only [mul_comm _ g.blocks, Nat.mul_add_div g.blocks_pos, Nat.div_eq_of_lt (hlt n hn),
    Nat.div_eq_of_lt (hlt n' hn'), add_zero] at hdiv
  subst hdiv
  exact ⟨rfl, by omega⟩

theorem row_lt_scratch {page n : ℕ} (hpage : page < g.numPages) (hn : n < g.pageSize) :
    page * g.blocks + n / g.ratio < g.cmpScratchBase := by
  unfold IndexGeometry.cmpScratchBase
  have hlt : n / g.ratio < g.blocks := by
    rw [Nat.div_lt_iff_lt_mul g.ratio_pos, g.blocks_mul]
    exact hn
  have hall : g.numPages * g.pageSize / g.ratio = g.numPages * g.blocks := by
    rw [← g.blocks_mul, ← Nat.mul_assoc, Nat.mul_div_cancel _ g.ratio_pos]
  have hmul : (page + 1) * g.blocks ≤ g.numPages * g.blocks := Nat.mul_le_mul_right _ hpage
  rw [add_mul, one_mul] at hmul
  rw [hall]
  omega

/-! ### What every step keeps -/

/-- Slots and pages are in range and do not hold more than they can, and a page that is not full is
one request's alone. -/
structure World.Ok (g : IndexGeometry) (w : World τ) : Prop where
  slot_lt : ∀ s r, w.live s = some r → s < g.dummySlot
  page_lt : ∀ s r, w.live s = some r → ∀ page ∈ r.pages, page < g.dummyPage
  book_lt : ∀ page x, w.book page = some x → page < g.dummyPage
  fits : ∀ s r, w.live s = some r → r.done.length ≤ r.pages.length * g.pageSize
  own : ∀ s r i page, w.live s = some r → r.pages[i]? = some page → r.done.length < (i + 1) *
    g.pageSize →
    w.book page = none ∧ ∀ s' r' i', w.live s' = some r' → r'.pages[i']? = some page → s' = s ∧
      i' = i

theorem World.ok_empty : (World.empty : World τ).Ok g := by
  constructor
  · intro s r h
    exact absurd h (by simp [World.empty])
  · intro s r h
    exact absurd h (by simp [World.empty])
  · intro page x h
    exact absurd h (by simp [World.empty])
  · intro s r h
    exact absurd h (by simp [World.empty])
  · intro s r i page h
    exact absurd h (by simp [World.empty])

/-- The tokens that a forward has for a slot are in its list. -/
theorem newsOf_eq_nil_or_mem (reqs : List (ℕ × List τ)) (s : ℕ) :
    newsOf reqs s = [] ∨ (s, newsOf reqs s) ∈ reqs := by
  unfold newsOf
  cases h : reqs.lookup s with
  | none => exact Or.inl rfl
  | some news =>
    right
    rw [lookup_eq_some_iff] at h
    obtain ⟨l₁, l₂, rfl, -⟩ := h
    exact mem_append_right _ mem_cons_self

theorem newsOf_eq {reqs : List (ℕ × List τ)} (hnodup : (reqs.map Prod.fst).Nodup) {s : ℕ}
    {news : List τ} (h : (s, news) ∈ reqs) : newsOf reqs s = news := by
  obtain ⟨l₁, l₂, rfl⟩ := append_of_mem h
  unfold newsOf
  have hlookup : (l₁ ++ (s, news) :: l₂).lookup s = some news := by
    rw [lookup_eq_some_iff]
    refine ⟨l₁, l₂, rfl, ?_⟩
    intro p hp
    rw [bne_iff_ne]
    intro heq
    rw [map_append, nodup_append] at hnodup
    exact hnodup.2.2 s (mem_map.mpr ⟨p, hp, heq.symm⟩) s (by simp) rfl
  rw [hlookup]
  rfl

theorem update_eq_some {live : ℕ → Option (IndexReq τ)} {slot s : ℕ} {r r' : IndexReq τ}
    (h : Function.update live slot (some r) s = some r') :
    s = slot ∧ r' = r ∨ s ≠ slot ∧ live s = some r' := by
  by_cases hs : s = slot
  · subst hs
    rw [Function.update_self, Option.some.injEq] at h
    exact Or.inl ⟨rfl, h.symm⟩
  · rw [Function.update_of_ne hs] at h
    exact Or.inr ⟨hs, h⟩

theorem mem_pages_iff {r : IndexReq τ} {page : ℕ} :
    page ∈ r.pages ↔ ∃ i : ℕ, r.pages[i]? = some page :=
  mem_iff_getElem?

theorem World.Ok.enter {slot : ℕ} {r : IndexReq τ} (hok : w.Ok g) (hslot : slot < g.dummySlot)
    (hfull : r.done.length = r.pages.length * g.pageSize)
    (hhit : ∀ i page, r.pages[i]? = some page → w.book page = some (i, pageMembers g r.done i)) :
    World.Ok g { w with live := Function.update w.live slot (some r) } := by
  -- all pages of the request are full, and in the prefix cache
  have hall : ∀ i page, r.pages[i]? = some page → (i + 1) * g.pageSize ≤ r.done.length := by
    intro i page hpage
    rw [hfull]
    exact Nat.mul_le_mul_right _ (List.getElem?_eq_some_iff.mp hpage).1
  constructor
  · intro s r' h
    rcases update_eq_some h with ⟨rfl, -⟩ | ⟨-, h⟩
    · exact hslot
    · exact hok.slot_lt s r' h
  · intro s r' h page hpage
    rcases update_eq_some h with ⟨-, rfl⟩ | ⟨-, h⟩
    · obtain ⟨i, hi⟩ := mem_pages_iff.mp hpage
      exact hok.book_lt page _ (hhit i page hi)
    · exact hok.page_lt s r' h page hpage
  · exact hok.book_lt
  · intro s r' h
    rcases update_eq_some h with ⟨-, rfl⟩ | ⟨-, h⟩
    · exact hfull.le
    · exact hok.fits s r' h
  · intro s r' i page h hpage hopen
    rcases update_eq_some h with ⟨-, rfl⟩ | ⟨-, h⟩
    · exact absurd (hall i page hpage) (not_le.mpr hopen)
    · obtain ⟨hbook, hown⟩ := hok.own s r' i page h hpage hopen
      refine ⟨hbook, fun s' r'' i' h' hpage' => ?_⟩
      rcases update_eq_some h' with ⟨-, rfl⟩ | ⟨-, h'⟩
      · rw [hhit i' page hpage'] at hbook
        exact absurd hbook (by simp)
      · exact hown s' r'' i' h' hpage'

theorem World.Ok.grow {slot page : ℕ} {r : IndexReq τ} (hok : w.Ok g) (hlive : w.live slot = some r)
    (hpage : page < g.dummyPage) (hfree : ¬w.InUse page) :
    World.Ok g
      { w with live := Function.update w.live slot (some { r with pages := r.pages ++ [page] })
      } := by
  have hbook : w.book page = none := by
    by_contra hne
    exact hfree (Or.inl hne)
  have hunheld :
    ∀ (s : ℕ) (r : IndexReq τ) (i : ℕ), w.live s = some r → r.pages[i]? ≠ some page := by
    intro s r i h hi
    exact hfree (Or.inr ⟨s, r, h, mem_pages_iff.mpr ⟨i, hi⟩⟩)
  have hsnoc : ∀ (i page' : ℕ), (r.pages ++ [page])[i]? = some page' →
      r.pages[i]? = some page' ∨ i = r.pages.length ∧ page' = page := by
    intro i page' h
    by_cases hi : i < r.pages.length
    · rw [getElem?_append_left hi] at h
      exact Or.inl h
    · rw [getElem?_append_right (not_lt.mp hi)] at h
      obtain ⟨hlt, heq⟩ := List.getElem?_eq_some_iff.mp h
      rw [length_singleton] at hlt
      rw [getElem_singleton] at heq
      exact Or.inr ⟨by omega, heq.symm⟩
  constructor
  · intro s r' h
    rcases update_eq_some h with ⟨rfl, -⟩ | ⟨-, h⟩
    · exact hok.slot_lt s r hlive
    · exact hok.slot_lt s r' h
  · intro s r' h page' hpage'
    rcases update_eq_some h with ⟨-, rfl⟩ | ⟨-, h⟩
    · rcases mem_append.mp hpage' with hold | hnew
      · exact hok.page_lt slot r hlive page' hold
      · rw [mem_singleton.mp hnew]
        exact hpage
    · exact hok.page_lt s r' h page' hpage'
  · exact hok.book_lt
  · intro s r' h
    rcases update_eq_some h with ⟨-, rfl⟩ | ⟨-, h⟩
    · have hfits := hok.fits slot r hlive
      show r.done.length ≤ (r.pages ++ [page]).length * g.pageSize
      rw [length_append, length_singleton, add_mul]
      omega
    · exact hok.fits s r' h
  · intro s r' i page' h hpage' hopen
    -- who holds the page: the request that gets it is the only one that can hold the new one
    have hholder :
        ∀ (s' : ℕ) (r'' : IndexReq τ) (i' : ℕ), Function.update w.live slot
        (some { r with pages := r.pages ++ [page] }) s' = some r'' →
        r''.pages[i']? = some page' →
        (∃ r₀, w.live s' = some r₀ ∧ r₀.pages[i']? = some page') ∨
          s' = slot ∧ i' = r.pages.length ∧ page' = page := by
      intro s' r'' i' h' hpage''
      rcases update_eq_some h' with ⟨rfl, rfl⟩ | ⟨-, h'⟩
      · rcases hsnoc i' page' hpage'' with hold | ⟨hi, hp⟩
        · exact Or.inl ⟨r, hlive, hold⟩
        · exact Or.inr ⟨rfl, hi, hp⟩
      · exact Or.inl ⟨r'', h', hpage''⟩
    have hlength : ∀ r₀, w.live s = some r₀ → r₀.done.length = r'.done.length := by
      intro r₀ h₀
      rcases update_eq_some h with ⟨rfl, rfl⟩ | ⟨-, h⟩
      · rw [hlive, Option.some.injEq] at h₀
        rw [← h₀]
      · rw [h, Option.some.injEq] at h₀
        rw [h₀]
    rcases hholder s r' i h hpage' with ⟨r₀, h₀, hold⟩ | ⟨rfl, rfl, rfl⟩
    · obtain ⟨hbook', hown⟩ := hok.own s r₀ i page' h₀ hold (by rw [hlength r₀ h₀]; exact hopen)
      refine ⟨hbook', fun s' r'' i' h' hpage'' => ?_⟩
      rcases hholder s' r'' i' h' hpage'' with ⟨r₁, h₁, hold₁⟩ | ⟨-, -, rfl⟩
      · exact hown s' r₁ i' h₁ hold₁
      · exact absurd hold (hunheld s r₀ i h₀)
    · refine ⟨hbook, fun s' r'' i' h' hpage'' => ?_⟩
      rcases hholder s' r'' i' h' hpage'' with ⟨r₁, h₁, hold₁⟩ | ⟨hs, hi, -⟩
      · exact absurd hold₁ (hunheld s' r₁ i' h₁)
      · exact ⟨hs, hi⟩

theorem World.Ok.of_le (hok : w.Ok g) (hbook : w'.book = w.book)
    (hlive : ∀ s r', w'.live s = some r' → ∃ r, w.live s = some r ∧ r'.pages = r.pages ∧
      r.done.length ≤ r'.done.length ∧
      r'.done.length ≤ r.pages.length * g.pageSize) : w'.Ok g := by
  constructor
  · intro s r' h
    obtain ⟨r, h, -⟩ := hlive s r' h
    exact hok.slot_lt s r h
  · intro s r' h page hpage
    obtain ⟨r, h, hpages, -⟩ := hlive s r' h
    rw [hpages] at hpage
    exact hok.page_lt s r h page hpage
  · rw [hbook]
    exact hok.book_lt
  · intro s r' h
    obtain ⟨r, h, hpages, -, hfits⟩ := hlive s r' h
    rw [hpages]
    exact hfits
  · intro s r' i page h hpage hopen
    obtain ⟨r, h, hpages, hle, -⟩ := hlive s r' h
    rw [hpages] at hpage
    obtain ⟨hnone, hown⟩ := hok.own s r i page h hpage (hle.trans_lt hopen)
    rw [hbook]
    refine ⟨hnone, fun s' r'' i' h' hpage' => ?_⟩
    obtain ⟨r₁, h₁, hpages₁, -⟩ := hlive s' r'' h'
    rw [hpages₁] at hpage'
    exact hown s' r₁ i' h₁ hpage'

theorem World.Ok.publish {slot i page : ℕ} {r : IndexReq τ} {x : ℕ × List τ} (hok : w.Ok g)
    (hlive : w.live slot = some r) (hfull : (i + 1) * g.pageSize ≤ r.done.length)
    (hpage : r.pages[i]? = some page) :
    World.Ok g { w with book := Function.update w.book page (some x) } := by
  constructor
  · exact hok.slot_lt
  · exact hok.page_lt
  · intro page' y h
    by_cases hp : page' = page
    · subst hp
      exact hok.page_lt slot r hlive page' (mem_pages_iff.mpr ⟨i, hpage⟩)
    · have h : Function.update w.book page (some x) page' = some y := h
      rw [Function.update_of_ne hp] at h
      exact hok.book_lt page' y h
  · exact hok.fits
  · intro s r' i' page' h hpage' hopen
    obtain ⟨hnone, hown⟩ := hok.own s r' i' page' h hpage' hopen
    refine ⟨?_, hown⟩
    have hp : page' ≠ page := by
      -- a page that is not full is nobody else's
      rintro rfl
      obtain ⟨rfl, rfl⟩ := hown slot r i hlive hpage
      rw [h, Option.some.injEq] at hlive
      rw [hlive] at hopen
      omega
    show Function.update w.book page (some x) page' = none
    rw [Function.update_of_ne hp]
    exact hnone

theorem World.Ok.adopt {slot i page : ℕ} {members : List τ} {r : IndexReq τ} (hok : w.Ok g)
    (hlive : w.live slot = some r) (hfull : (i + 1) * g.pageSize ≤ r.done.length)
    (hhit : w.book page = some (i, members)) (hlength : members.length = g.pageSize) :
    World.Ok g { w with live := Function.update w.live slot (some
      { done := r.done.take (i * g.pageSize) ++ members ++ r.done.drop ((i + 1) * g.pageSize)
        pages := r.pages.set i page }) } := by
  have hdone :
      (r.done.take (i * g.pageSize) ++ members ++ r.done.drop ((i + 1) * g.pageSize)).length =
      r.done.length := by
    rw [add_mul, one_mul] at hfull ⊢
    rw [length_append, length_append, length_take, length_drop, hlength]
    omega
  have hset :
      ∀ (i' page' : ℕ), (r.pages.set i page)[i']? = some page' → page' ≠ page →
      r.pages[i']? = some page' := by
    intro i' page' h hne
    by_cases hi : i' = i
    · subst hi
      rw [getElem?_set_self' ] at h
      cases hp : r.pages[i']? with
      | none =>
        rw [hp] at h
        exact absurd h (by simp)
      | some p =>
        rw [hp] at h
        exact absurd (Option.some.inj h).symm hne
    · rwa [getElem?_set_ne (Ne.symm hi)] at h
  constructor
  · intro s r' h
    rcases update_eq_some h with ⟨rfl, -⟩ | ⟨-, h⟩
    · exact hok.slot_lt s r hlive
    · exact hok.slot_lt s r' h
  · intro s r' h page' hpage'
    rcases update_eq_some h with ⟨-, rfl⟩ | ⟨-, h⟩
    · rcases mem_or_eq_of_mem_set hpage' with hold | rfl
      · exact hok.page_lt slot r hlive page' hold
      · exact hok.book_lt page' _ hhit
    · exact hok.page_lt s r' h page' hpage'
  · exact hok.book_lt
  · intro s r' h
    rcases update_eq_some h with ⟨-, rfl⟩ | ⟨-, h⟩
    · show (_ : List τ).length ≤ (r.pages.set i page).length * g.pageSize
      rw [hdone, length_set]
      exact hok.fits slot r hlive
    · exact hok.fits s r' h
  · intro s r' i' page' h hpage' hopen
    -- a page that is not full is not the one that is adopted, and was there before
    have hbefore : ∀ (s' : ℕ) (r'' : IndexReq τ) (j : ℕ), Function.update w.live slot (some
          { done := r.done.take (i * g.pageSize) ++ members ++ r.done.drop ((i + 1) * g.pageSize)
            pages := r.pages.set i page }) s' = some r'' → r''.pages[j]? = some page' →
              page' ≠ page →
        ∃ r₀, w.live s' = some r₀ ∧ r₀.pages[j]? = some page' ∧
          r₀.done.length = r''.done.length := by
      intro s' r'' j h' hp hne
      rcases update_eq_some h' with ⟨rfl, rfl⟩ | ⟨-, h'⟩
      · exact ⟨r, hlive, hset j page' hp hne, hdone.symm⟩
      · exact ⟨r'', h', hp, rfl⟩
    have hne : page' ≠ page := by
      rintro rfl
      rcases update_eq_some h with ⟨rfl, rfl⟩ | ⟨-, h⟩
      · by_cases hi : i' = i
        · subst hi
          have hopen : (_ : List τ).length < _ := hopen
          rw [hdone] at hopen
          omega
        · have hold : r.pages[i']? = some page' := by
            have hpage' : (r.pages.set i page')[i']? = some page' := hpage'
            rwa [getElem?_set_ne (Ne.symm hi)] at hpage'
          have hopen : (_ : List τ).length < _ := hopen
          rw [hdone] at hopen
          rw [(hok.own s r i' page' hlive hold hopen).1] at hhit
          exact absurd hhit (by simp)
      · rw [(hok.own s r' i' page' h hpage' hopen).1] at hhit
        exact absurd hhit (by simp)
    obtain ⟨r₀, h₀, hold, hlen⟩ := hbefore s r' i' h hpage' hne
    obtain ⟨hnone, hown⟩ := hok.own s r₀ i' page' h₀ hold (by rw [hlen]; exact hopen)
    refine ⟨hnone, fun s' r'' j h' hp => ?_⟩
    obtain ⟨r₁, h₁, hold₁, -⟩ := hbefore s' r'' j h' hp hne
    exact hown s' r₁ j h₁ hold₁

end FreeToken
