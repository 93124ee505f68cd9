import FreeToken.Lib.EdgeTrie
import Mathlib.Algebra.Order.BigOperators.Group.List
import Mathlib.Tactic.Ring

/-!
# Editing an edge-compressed trie

Every change to a trie replaces one edge by a short list of edges (`splice`) or adds a leaf at the
end.

* `IsTrie.splice_one`, `IsTrie.splice_pair`, `IsTrie.splice_nil`, `IsTrie.concat`: relabelling an
  edge, cutting it in two at a page boundary, dropping a leaf and adding one keep the trie
  well formed.
* `total`: the sum of a weight over the edges, with one equation for each edit.
* `pageAt`: the block of slots stored for the last page of a path, with one equation for each edit.
* `climb_induct`: the invariant rule for a loop that walks from an address up to the root.
-/

namespace FreeToken

open List

namespace TrieEdge

variable {ν α : Type*} [TrieEdge ν α] [DecidableEq α]

/-! ### Splicing -/

/-- The trie with the edge at address `p` replaced by the edges `es`. -/
def splice (l : List ν) (p : List α) (es : List ν) : List ν :=
  l.flatMap fun e => if stop e = p then es else [e]

variable {l : List ν} {p : List α}

theorem splice_of_forall_ne (h : ∀ e ∈ l, stop e ≠ p) (es : List ν) :
    splice l p es = l := by
  unfold splice
  induction l with
  | nil => rfl
  | cons e l ih =>
    rw [flatMap_cons, if_neg (h e mem_cons_self), ih fun f hf => h f (mem_cons_of_mem _ hf)]
    rfl

variable {e : ν} {ps : ℕ}

/-- A well-formed trie around one of its edges. -/
theorem IsTrie.splice_eq (h : IsTrie ps l) (he : e ∈ l) :
    ∃ l₁ l₂, l = l₁ ++ e :: l₂ ∧ ∀ es, splice l (stop e) es = l₁ ++ (es ++ l₂) := by
  obtain ⟨l₁, l₂, rfl⟩ := append_of_mem he
  have hnd := h.nodup
  rw [map_append, map_cons, nodup_append] at hnd
  obtain ⟨-, h₂, h₁₂⟩ := hnd
  refine ⟨l₁, l₂, rfl, fun es => ?_⟩
  have hl : ∀ f ∈ l₁, stop f ≠ stop e := fun f hf =>
    h₁₂ _ (mem_map_of_mem hf) _ mem_cons_self
  have hr : ∀ f ∈ l₂, stop f ≠ stop e := fun f hf heq =>
    (nodup_cons.mp h₂).1 (heq ▸ mem_map_of_mem hf)
  have hsl := splice_of_forall_ne hl es
  have hsr := splice_of_forall_ne hr es
  unfold splice at hsl hsr ⊢
  rw [flatMap_append, flatMap_cons, hsl, hsr, if_pos rfl]

theorem IsTrie.mem_splice (h : IsTrie ps l) (he : e ∈ l)
    {es : List ν} {f : ν} : f ∈ splice l (stop e) es ↔ f ∈ es ∨ f ∈ l ∧ f ≠ e := by
  constructor
  · intro hf
    unfold splice at hf
    obtain ⟨g, hg, hfg⟩ := mem_flatMap.mp hf
    split at hfg
    · exact Or.inl hfg
    · next hne =>
      obtain rfl := mem_singleton.mp hfg
      exact Or.inr ⟨hg, fun heq => hne (heq ▸ rfl)⟩
  · unfold splice
    rintro (hf | ⟨hf, hne⟩)
    · exact mem_flatMap.mpr ⟨e, he, by rwa [if_pos rfl]⟩
    · refine mem_flatMap.mpr ⟨f, hf, ?_⟩
      rw [if_neg fun heq => hne (h.stop_inj hf he heq)]
      exact mem_singleton_self f

/-! ### Sums over the edges -/

def total (g : ν → ℤ) (l : List ν) : ℤ := (l.map g).sum

omit [TrieEdge ν α] [DecidableEq α] in
@[simp] theorem total_nil (g : ν → ℤ) : total g [] = 0 := rfl

omit [TrieEdge ν α] [DecidableEq α] in
@[simp] theorem total_cons (g : ν → ℤ) (e : ν) (l : List ν) :
    total g (e :: l) = g e + total g l := by
  simp [total]

omit [TrieEdge ν α] [DecidableEq α] in
@[simp] theorem total_append (g : ν → ℤ) (l₁ l₂ : List ν) :
    total g (l₁ ++ l₂) = total g l₁ + total g l₂ := by
  simp [total]

theorem IsTrie.total_splice (h : IsTrie ps l) (he : e ∈ l)
    (g : ν → ℤ) (es : List ν) : total g (splice l (stop e) es) = total g l - g e + total g es := by
  obtain ⟨l₁, l₂, hl, hs⟩ := h.splice_eq he
  rw [hs, hl]
  simp only [total_append, total_cons]
  ring

omit [TrieEdge ν α] [DecidableEq α] in
theorem total_nonneg {g : ν → ℤ} (h : ∀ e ∈ l, 0 ≤ g e) : 0 ≤ total g l :=
  sum_nonneg (by simpa using h)

omit [TrieEdge ν α] [DecidableEq α] in
theorem total_congr {g g' : ν → ℤ} (h : ∀ e ∈ l, g e = g' e) :
    total g l = total g' l := by
  unfold total
  rw [map_congr_left h]

omit [DecidableEq α] [TrieEdge ν α] in
theorem total_eq_zero {g : ν → ℤ} (h : ∀ e ∈ l, g e = 0) : total g l = 0 := by
  unfold total
  exact sum_eq_zero fun x hx => by
    obtain ⟨e, he, rfl⟩ := mem_map.mp hx
    exact h e he

omit [TrieEdge ν α] [DecidableEq α] in
theorem total_add (g g' : ν → ℤ) (l : List ν) :
    total (fun e => g e + g' e) l = total g l + total g' l := by
  induction l with
  | nil => rfl
  | cons e l ih => simp only [total_cons, ih]; ring

/-! ### The four edits keep the trie well formed -/

section Edits

variable {ps : ℕ} {l : List ν}

def IsLeaf (l : List ν) (p : List α) : Prop := ∀ e ∈ l, start e ≠ p

omit [DecidableEq α] in
theorem IsTrie.eq_of_leaf_prefix (h : IsTrie ps l) (he : e ∈ l)
    (hleaf : IsLeaf l (stop e)) {q : List α} (hq : IsAddress l q) (hpre : stop e <+: q) :
    q = stop e := by
  induction hq using h.address_induct with
  | root => exact absurd (prefix_nil.mp hpre) (h.stop_ne_nil he)
  | edge g hg ih =>
    by_cases heg : e = g
    · rw [heg]
    · exact absurd (ih (h.stop_prefix_start he hg heg hpre)) (hleaf g hg)

omit [DecidableEq α] in
theorem IsAddress.mono {l' : List ν} (h : ∀ e ∈ l, ∃ f ∈ l', stop f = stop e)
    (hp : IsAddress l p) : IsAddress l' p := by
  rcases hp with rfl | ⟨e, he, rfl⟩
  · exact isAddress_nil l'
  · obtain ⟨f, hf, hfe⟩ := h e he
    exact Or.inr ⟨f, hf, hfe⟩

theorem IsTrie.splice_one (h : IsTrie ps l) {e' : ν} (he : e ∈ l) (hs : start e' = start e)
    (hk : key e' = key e) : IsTrie ps (splice l (stop e) [e']) := by
  have hstop : stop e' = stop e := by simp [stop, hs, hk]
  have hmem : ∀ f ∈ splice l (stop e) [e'], ∃ g ∈ l, start f = start g ∧ key f = key g ∧
      (f = g ∨ f = e' ∧ g = e) := by
    intro f hf
    rcases (h.mem_splice he).mp hf with hf | ⟨hf, -⟩
    · obtain rfl := mem_singleton.mp hf
      exact ⟨e, he, hs, hk, Or.inr ⟨rfl, rfl⟩⟩
    · exact ⟨f, hf, rfl, rfl, Or.inl rfl⟩
  have haddr : ∀ {p : List α}, IsAddress l p → IsAddress (splice l (stop e) [e']) p := by
    refine IsAddress.mono fun f hf => ?_
    by_cases hfe : f = e
    · subst hfe
      exact ⟨e', (h.mem_splice he).mpr (Or.inl (mem_singleton_self _)), hstop⟩
    · exact ⟨f, (h.mem_splice he).mpr (Or.inr ⟨hf, hfe⟩), rfl⟩
  refine ⟨h.page_pos, ?_, ?_, ?_, ?_, ?_⟩
  · obtain ⟨l₁, l₂, hl, hsp⟩ := h.splice_eq he
    have hnd := h.nodup
    rw [hsp]
    rw [hl] at hnd
    simpa [hstop] using hnd
  · intro f hf
    obtain ⟨g, hg, -, hkf, -⟩ := hmem f hf
    rw [hkf]
    exact h.key_ne g hg
  · intro f hf
    obtain ⟨g, hg, -, hkf, -⟩ := hmem f hf
    rw [hkf]
    exact h.dvd_key g hg
  · intro f hf
    obtain ⟨g, hg, hsf, -, -⟩ := hmem f hf
    rw [hsf]
    exact haddr (h.parent g hg)
  · intro f hf f' hf' hst hpage
    obtain ⟨g, hg, hsf, hkf, hor⟩ := hmem f hf
    obtain ⟨g', hg', hsf', hkf', hor'⟩ := hmem f' hf'
    have hgg : g = g' := h.sibling g hg g' hg' (by rw [← hsf, ← hsf', hst])
      (by rw [← hkf, ← hkf', hpage])
    subst hgg
    rcases hor with rfl | ⟨rfl, rfl⟩
    · rcases hor' with rfl | ⟨rfl, rfl⟩
      · rfl
      · -- `f` is the edge that was replaced, which is gone unless `e'` is that edge
        rcases (h.mem_splice he).mp hf with hf | ⟨-, hne⟩
        · exact mem_singleton.mp hf
        · exact absurd rfl hne
    · rcases hor' with rfl | ⟨rfl, -⟩
      · rcases (h.mem_splice he).mp hf' with hf' | ⟨-, hne⟩
        · exact (mem_singleton.mp hf').symm
        · exact absurd rfl hne
      · rfl

theorem IsTrie.splice_pair (h : IsTrie ps l) {pre suf : ν} (he : e ∈ l) {pos : ℕ}
    (hpos : 0 < pos) (hlt : pos < (key e).length) (hdvd : ps ∣ pos)
    (hsp : start pre = start e) (hkp : key pre = (key e).take pos)
    (hss : start suf = stop pre) (hks : key suf = (key e).drop pos) :
    IsTrie ps (splice l (stop e) [pre, suf]) := by
  have hlkp : (key pre).length = pos := by rw [hkp, length_take]; omega
  have hlks : (key suf).length = (key e).length - pos := by rw [hks, length_drop]
  have hstop : stop suf = stop e := by
    simp only [stop] at hss ⊢
    rw [hss, hsp, hkp, hks, append_assoc, take_append_drop]
  have hpsle : ps ≤ pos := Nat.le_of_dvd hpos hdvd
  have hlpre : (stop pre).length = (start e).length + pos := by rw [length_stop, hsp, hlkp]
  have hprepre : stop pre <+: stop e := by
    rw [← hstop, stop, stop, hss]
    exact prefix_append _ _
  -- no edge of the old trie starts or ends at the cut
  have hcut : ∀ f ∈ l, stop f ≠ stop pre := by
    intro f hf heq
    have hfe : f = e := h.covers_unique hf he (h.dvd_stop hf) (h.length_start_lt hf)
      prefix_rfl (by rw [heq, hlpre]; omega) (by rw [heq]; exact hprepre)
    have := congrArg List.length heq
    rw [hfe, hlpre, length_stop] at this
    omega
  have hcut' : ∀ f ∈ l, start f ≠ stop pre := by
    intro f hf heq
    rcases h.parent f hf with h0 | ⟨g, hg, hgf⟩
    · rw [h0] at heq
      have := congrArg List.length heq
      rw [hlpre] at this
      simp at this
      omega
    · exact hcut g hg (hgf.trans heq)
  have hmem : ∀ f ∈ splice l (stop e) [pre, suf], f = pre ∨ f = suf ∨ f ∈ l ∧ f ≠ e := by
    intro f hf
    rcases (h.mem_splice he).mp hf with hf | hf
    · rcases mem_cons.mp hf with hf | hf
      · exact Or.inl hf
      · exact Or.inr (Or.inl (mem_singleton.mp hf))
    · exact Or.inr (Or.inr hf)
  have hpremem : pre ∈ splice l (stop e) [pre, suf] := (h.mem_splice he).mpr (Or.inl (by simp))
  have hsufmem : suf ∈ splice l (stop e) [pre, suf] := (h.mem_splice he).mpr (Or.inl (by simp))
  have haddr : ∀ {p : List α}, IsAddress l p → IsAddress (splice l (stop e) [pre, suf]) p := by
    refine IsAddress.mono fun f hf => ?_
    by_cases hfe : f = e
    · subst hfe
      exact ⟨suf, hsufmem, hstop⟩
    · exact ⟨f, (h.mem_splice he).mpr (Or.inr ⟨hf, hfe⟩), rfl⟩
  have hpage : (key pre).take ps = (key e).take ps := by
    rw [hkp, take_take, min_eq_left hpsle]
  refine ⟨h.page_pos, ?_, ?_, ?_, ?_, ?_⟩
  · obtain ⟨l₁, l₂, hl, hspl⟩ := h.splice_eq he
    have hnd := h.nodup
    rw [hspl]
    have hpn : stop pre ∉ l.map stop := by
      rintro hc
      obtain ⟨f, hf, hfe⟩ := mem_map.mp hc
      exact hcut f hf hfe
    rw [hl] at hnd hpn
    have hperm : ((l₁ ++ ([pre, suf] ++ l₂)).map stop).Perm
        (stop pre :: (l₁ ++ e :: l₂).map stop) := by
      simp only [map_append, map_cons, cons_append, nil_append, hstop]
      exact perm_middle
    exact hperm.nodup_iff.mpr (nodup_cons.mpr ⟨hpn, hnd⟩)
  · intro f hf hk
    rcases hmem f hf with rfl | rfl | ⟨hf, -⟩
    · rw [hk] at hlkp; simp at hlkp; omega
    · rw [hk] at hlks; simp at hlks; omega
    · exact h.key_ne f hf hk
  · intro f hf
    rcases hmem f hf with rfl | rfl | ⟨hf, -⟩
    · rwa [hlkp]
    · rw [hlks]; exact Nat.dvd_sub (h.dvd_key e he) hdvd
    · exact h.dvd_key f hf
  · intro f hf
    rcases hmem f hf with rfl | rfl | ⟨hf, -⟩
    · rw [hsp]; exact haddr (h.parent e he)
    · rw [hss]; exact isAddress_stop hpremem
    · exact haddr (h.parent f hf)
  · intro f hf g hg hst hpg
    rcases hmem f hf with rfl | rfl | ⟨hf', hfe⟩ <;> rcases hmem g hg with rfl | rfl | ⟨hg', hge⟩
    · rfl
    · rw [hsp, hss] at hst
      have := congrArg List.length hst
      omega
    · exact absurd (h.sibling e he g hg' (hsp ▸ hst) (hpage ▸ hpg)).symm hge
    · rw [hsp, hss] at hst
      have := congrArg List.length hst
      omega
    · rfl
    · exact absurd (hst.symm.trans hss) (hcut' g hg')
    · exact absurd (h.sibling f hf' e he (hst.trans hsp) (hpg.trans hpage)) hfe
    · exact absurd (hst.trans hss) (hcut' f hf')
    · exact h.sibling f hf' g hg' hst hpg

theorem IsTrie.splice_nil (h : IsTrie ps l) (he : e ∈ l) (hleaf : IsLeaf l (stop e)) :
    IsTrie ps (splice l (stop e) []) := by
  have hmem : ∀ f ∈ splice l (stop e) [], f ∈ l ∧ f ≠ e := fun f hf => by
    simpa using (h.mem_splice he).mp hf
  refine ⟨h.page_pos, ?_, ?_, ?_, ?_, ?_⟩
  · obtain ⟨l₁, l₂, hl, hsp⟩ := h.splice_eq he
    have hnd := h.nodup
    rw [hsp]
    rw [hl] at hnd
    refine hnd.sublist (List.Sublist.map _ ?_)
    simp
  · exact fun f hf => h.key_ne f (hmem f hf).1
  · exact fun f hf => h.dvd_key f (hmem f hf).1
  · intro f hf
    rcases h.parent f (hmem f hf).1 with h0 | ⟨g, hg, hgf⟩
    · exact Or.inl h0
    · refine Or.inr ⟨g, (h.mem_splice he).mpr (Or.inr ⟨hg, ?_⟩), hgf⟩
      rintro rfl
      exact hleaf f (hmem f hf).1 hgf.symm
  · exact fun f hf g hg => h.sibling f (hmem f hf).1 g (hmem g hg).1

omit [DecidableEq α] in
theorem IsTrie.concat (h : IsTrie ps l) (hp : IsAddress l (start e)) (hk : key e ≠ [])
    (hd : ps ∣ (key e).length)
    (hnew : ∀ f ∈ l, start f = start e → (key f).take ps ≠ (key e).take ps) :
    IsTrie ps (l ++ [e]) := by
  have hmem : ∀ f ∈ l ++ [e], f ∈ l ∨ f = e := fun f hf => by simpa using hf
  have hkp : 0 < (key e).length := length_pos_iff.mpr hk
  have hple : ps ≤ (key e).length := Nat.le_of_dvd hkp hd
  have hfst : (start e ++ (key e).take ps).length = (start e).length + ps := by
    rw [length_append, length_take]; omega
  -- the first page of the new edge is not covered, so its address is new
  have hstop : ∀ f ∈ l, stop f ≠ stop e := by
    intro f hf heq
    have hpos := h.page_pos
    have hres : Resident l (start e ++ (key e).take ps) := by
      refine h.resident_of_prefix (h.resident_stop hf) ?_ ?_
      · rw [heq]; exact firstPage_prefix_stop e
      · intro h0
        rw [h0] at hfst
        simp at hfst
        omega
    obtain ⟨g, hg, hlt, hpre⟩ := hres
    rw [hfst] at hlt
    have hge : (start g).length ≤ (start e).length := by
      by_contra hgt
      have := add_page_le (h.dvd_address hp) (h.dvd_start hg) (not_le.mp hgt)
      omega
    have hep : start e <+: stop g := (prefix_append _ _).trans hpre
    rcases lt_or_eq_of_le hge with hgt | heq'
    · -- the edge ending at `start e` would be `g`, which is longer
      rcases hp with h0 | ⟨k, hkl, hke⟩
      · rw [h0] at hgt; simp at hgt
      · have hkg : k = g := h.covers_unique hkl hg (h.dvd_stop hkl) (h.length_start_lt hkl)
          prefix_rfl (by rw [hke]; exact hgt) (by rw [hke]; exact hep)
        have := hpre.length_le
        rw [← hkg, hke, hfst] at this
        omega
    · have hsg : start g = start e :=
        (prefix_of_prefix_length_le (start_prefix_stop g) hep hge).eq_of_length heq'
      refine hnew g hg hsg ?_
      have h1 : start g ++ (key g).take ps <+: stop g := firstPage_prefix_stop g
      have h2 := (prefix_of_prefix_length_le h1 hpre
        (by rw [h.length_firstPage hg, hfst, hsg])).eq_of_length
        (by rw [h.length_firstPage hg, hfst, hsg])
      rw [hsg] at h2
      exact append_cancel_left h2
  refine ⟨h.page_pos, ?_, ?_, ?_, ?_, ?_⟩
  · rw [map_append, map_singleton, nodup_append]
    refine ⟨h.nodup, nodup_singleton _, ?_⟩
    intro p hp' q hq heq
    obtain ⟨f, hf, rfl⟩ := mem_map.mp hp'
    exact hstop f hf (heq.trans (mem_singleton.mp hq))
  · intro f hf
    rcases hmem f hf with hf | rfl
    · exact h.key_ne f hf
    · exact hk
  · intro f hf
    rcases hmem f hf with hf | rfl
    · exact h.dvd_key f hf
    · exact hd
  · have haddr : ∀ {p : List α}, IsAddress l p → IsAddress (l ++ [e]) p :=
      IsAddress.mono fun f hf => ⟨f, mem_append_left _ hf, rfl⟩
    intro f hf
    rcases hmem f hf with hf | rfl
    · exact haddr (h.parent f hf)
    · exact haddr hp
  · intro f hf g hg hst hpg
    rcases hmem f hf with hf' | rfl <;> rcases hmem g hg with hg' | rfl
    · exact h.sibling f hf' g hg' hst hpg
    · exact absurd hpg (hnew f hf' hst)
    · exact absurd hpg.symm (hnew g hg' hst.symm)
    · rfl

end Edits

/-! ### Climbing to the root -/

section Climb

variable {σ : Type*} (step : σ → ν → σ × ν)

/-- Walk from the address `p` up to the root, relabelling each edge met, in at most `fuel` steps:
`while not node.is_root(): …; node = node.parent`. -/
def climb : ℕ → σ → List ν → List α → σ × List ν
  | 0, s, l, _ => (s, l)
  | fuel + 1, s, l, p =>
    match edgeAt l p with
    | none => (s, l)
    | some e => climb fuel (step s e).1 (splice l (stop e) [(step s e).2]) (start e)

variable {step} {ps : ℕ}

theorem IsTrie.mem_splice_one (h : IsTrie ps l) {e' : ν} (he : e ∈ l) {f : ν} :
    f ∈ splice l (stop e) [e'] ↔ f = e' ∨ f ∈ l ∧ f ≠ e := by
  rw [h.mem_splice he, mem_singleton]

theorem IsAddress.splice_one (h : IsTrie ps l) {e' : ν} (he : e ∈ l) (hs : start e' = start e)
    (hk : key e' = key e) (hp : IsAddress l p) :
    IsAddress (splice l (stop e) [e']) p := by
  refine hp.mono fun f hf => ?_
  by_cases hfe : f = e
  · exact ⟨e', (h.mem_splice_one he).mpr (Or.inl rfl), by simp [stop, hs, hk, hfe]⟩
  · exact ⟨f, (h.mem_splice_one he).mpr (Or.inr ⟨hf, hfe⟩), rfl⟩

/-- **The invariant rule for climbing.**  What holds at the address where the walk starts and is
handed from each edge to its parent holds at the root when the walk ends. -/
theorem climb_induct {M : σ → List ν → List α → Prop}
    (hstart : ∀ s e, start (step s e).2 = start e) (hkey : ∀ s e, key (step s e).2 = key e)
    (hstep : ∀ s l e, IsTrie ps l → e ∈ l → M s l (stop e) →
      M (step s e).1 (splice l (stop e) [(step s e).2]) (start e)) :
    ∀ (fuel : ℕ) (s : σ) (l : List ν) (p : List α), IsTrie ps l → IsAddress l p → p.length ≤ fuel →
      M s l p → IsTrie ps (climb step fuel s l p).2 ∧
        M (climb step fuel s l p).1 (climb step fuel s l p).2 [] := by
  intro fuel
  induction fuel with
  | zero =>
    intro s l p h hp hlen hM
    obtain rfl : p = [] := length_eq_zero_iff.mp (by omega)
    exact ⟨h, hM⟩
  | succ fuel ih =>
    intro s l p h hp hlen hM
    rcases hp with rfl | ⟨e, he, rfl⟩
    · simp only [climb, h.edgeAt_nil]
      exact ⟨h, hM⟩
    · have hlt := h.length_start_lt he
      simp only [climb, h.edgeAt_stop he]
      exact ih _ _ _ (h.splice_one he (hstart s e) (hkey s e))
        (IsAddress.splice_one h he (hstart s e) (hkey s e) (h.parent e he)) (by omega)
        (hstep s l e h he hM)

end Climb

end TrieEdge

end FreeToken
