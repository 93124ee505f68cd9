import Mathlib.Data.List.Infix
import Mathlib.Data.List.Nodup
import Mathlib.Tactic.Linarith

/-!
# Edge-compressed tries whose branching unit is a page

A trie is a flat list of edges.  An edge carries the symbols from the root to its upper end
(`start`) and the symbols it spells (`key`); its lower end `stop e = start e ++ key e` serves as
its address.  Siblings are told apart by their first `ps` symbols (their first page), and every
key is a whole number of pages.

* `IsTrie.stop_prefix_of_page`: an address that enters an edge by its first page runs through it.
* `IsTrie.covers_unique`: a page-aligned path is covered by at most one edge.
* `IsTrie.mem_ancestors`: walking `start` links upwards from an address visits exactly the edges
  whose `stop` is a prefix of that address.
* `IsTrie.resident_of_prefix`: the covered paths are closed under prefixes.
-/

namespace FreeToken

open List

/-- An edge of a compressed trie: the symbols from the root to its upper end, and its own. -/
class TrieEdge (ν : Type*) (α : outParam (Type*)) where
  /-- The symbols from the root to the upper end of the edge. -/
  start : ν → List α
  /-- The symbols the edge spells. -/
  key : ν → List α

namespace TrieEdge

variable {ν α : Type*} [TrieEdge ν α]

/-- The symbols from the root to the lower end of the edge: the address of the edge. -/
def stop (e : ν) : List α := start e ++ key e

theorem start_prefix_stop (e : ν) : start e <+: stop e := prefix_append _ _

theorem length_stop (e : ν) : (stop e).length = (start e).length + (key e).length :=
  length_append

/-- An address of the trie: the root, or the lower end of an edge. -/
def IsAddress (l : List ν) (p : List α) : Prop := p = [] ∨ ∃ e ∈ l, stop e = p

theorem isAddress_nil (l : List ν) : IsAddress l ([] : List α) := Or.inl rfl

variable {e : ν}

theorem isAddress_stop {l : List ν} (he : e ∈ l) : IsAddress l (stop e) :=
  Or.inr ⟨e, he, rfl⟩

/-- A path that some edge covers at its last symbol. -/
def Resident (l : List ν) (p : List α) : Prop :=
  ∃ e ∈ l, (start e).length < p.length ∧ p <+: stop e

/-- The well-formed tries with branching unit `ps`. -/
structure IsTrie (ps : ℕ) (l : List ν) : Prop where
  page_pos : 0 < ps
  nodup : (l.map stop).Nodup
  key_ne : ∀ e ∈ l, key e ≠ []
  dvd_key : ∀ e ∈ l, ps ∣ (key e).length
  parent : ∀ e ∈ l, IsAddress l (start e)
  sibling : ∀ e ∈ l, ∀ f ∈ l, start e = start f → (key e).take ps = (key f).take ps → e = f

theorem isTrie_nil {ps : ℕ} (hps : 0 < ps) : IsTrie ps ([] : List ν) where
  page_pos := hps
  nodup := nodup_nil
  key_ne := by simp
  dvd_key := by simp
  parent := by simp
  sibling := by simp

namespace IsTrie

variable {ps : ℕ} {l : List ν} {f : ν}

theorem stop_inj (h : IsTrie ps l) (he : e ∈ l) (hf : f ∈ l) (hef : stop e = stop f) :
    e = f :=
  inj_on_of_nodup_map h.nodup he hf hef

theorem length_key_pos (h : IsTrie ps l) (he : e ∈ l) : 0 < (key e).length :=
  length_pos_iff.mpr (h.key_ne e he)

theorem page_le_key (h : IsTrie ps l) (he : e ∈ l) : ps ≤ (key e).length :=
  Nat.le_of_dvd (h.length_key_pos he) (h.dvd_key e he)

theorem length_start_lt (h : IsTrie ps l) (he : e ∈ l) :
    (start e).length < (stop e).length := by
  have := h.length_key_pos he
  rw [length_stop]
  omega

theorem stop_ne_nil (h : IsTrie ps l) (he : e ∈ l) : stop e ≠ [] := by
  intro h0
  have := h.length_start_lt he
  rw [h0] at this
  simp at this

/-- Every address is a whole number of pages long. -/
theorem dvd_address (h : IsTrie ps l) : ∀ {p : List α}, IsAddress l p → ps ∣ p.length := by
  intro p
  induction hn : p.length using Nat.strong_induction_on generalizing p with
  | _ n ih =>
    intro hp
    rcases hp with rfl | ⟨e, he, rfl⟩
    · subst hn; exact dvd_zero _
    · have hlt := h.length_start_lt he
      have hs := ih _ (hn ▸ hlt) rfl (h.parent e he)
      rw [← hn, length_stop]
      exact Nat.dvd_add hs (h.dvd_key e he)

theorem dvd_stop (h : IsTrie ps l) (he : e ∈ l) : ps ∣ (stop e).length :=
  h.dvd_address (isAddress_stop he)

theorem dvd_start (h : IsTrie ps l) (he : e ∈ l) : ps ∣ (start e).length :=
  h.dvd_address (h.parent e he)

theorem add_page_le {a b : ℕ} (ha : ps ∣ a) (hb : ps ∣ b) (hab : a < b) : a + ps ≤ b := by
  have hd : ps ∣ b - a := Nat.dvd_sub hb ha
  have := Nat.le_of_dvd (by omega) hd
  omega

theorem firstPage_prefix_stop (e : ν) : start e ++ (key e).take ps <+: stop e :=
  (prefix_append_right_inj _).mpr (List.take_prefix _ _)

theorem length_firstPage (h : IsTrie ps l) (he : e ∈ l) :
    (start e ++ (key e).take ps).length = (start e).length + ps := by
  rw [length_append, length_take, min_eq_left (h.page_le_key he)]

theorem eq_of_start_eq (h : IsTrie ps l) (he : e ∈ l) (hf : f ∈ l)
    (hse : start e = start f) {p : List α}
    (hpe : start e ++ (key e).take ps <+: p) (hpf : start f ++ (key f).take ps <+: p) : e = f := by
  refine h.sibling e he f hf hse ?_
  have hle : (start e ++ (key e).take ps).length ≤ (start f ++ (key f).take ps).length := by
    rw [h.length_firstPage he, h.length_firstPage hf, hse]
  have heq := (prefix_of_prefix_length_le hpe hpf hle).eq_of_length
    (by rw [h.length_firstPage he, h.length_firstPage hf, hse])
  rw [hse] at heq
  exact append_cancel_left heq

/-- An address that enters an edge by its first page runs through the whole edge. -/
theorem stop_prefix_of_page (h : IsTrie ps l) :
    ∀ {p : List α}, IsAddress l p → ∀ {e : ν}, e ∈ l → start e ++ (key e).take ps <+: p →
      stop e <+: p := by
  intro p
  induction hn : p.length using Nat.strong_induction_on generalizing p with
  | _ n ih =>
    intro hp e he hpre
    have hlen := hpre.length_le
    rw [h.length_firstPage he] at hlen
    have hpos := h.page_pos
    rcases hp with rfl | ⟨g, hg, rfl⟩
    · simp at hlen
      omega
    have hse : start e <+: stop g := (prefix_append _ _).trans hpre
    have hsg : start g <+: stop g := start_prefix_stop g
    rcases lt_trichotomy (start e).length (start g).length with hlt | heq | hgt
    · -- `e` is entered above `g`: the address of `g`'s parent already runs through `e`
      have hpage : start e ++ (key e).take ps <+: start g := by
        refine prefix_of_prefix_length_le hpre hsg ?_
        rw [h.length_firstPage he]
        exact add_page_le (h.dvd_start he) (h.dvd_start hg) hlt
      exact (ih _ (hn ▸ h.length_start_lt hg) rfl (h.parent g hg) he hpage).trans hsg
    · -- `e` and `g` leave the same point by the same page
      have hs : start e = start g :=
        (prefix_of_prefix_length_le hse hsg heq.le).eq_of_length heq
      rw [h.eq_of_start_eq he hg hs hpre (firstPage_prefix_stop g)]
    · -- `g` would run through the upper end of `e`, which lies strictly inside it
      exfalso
      have hgpre : start g ++ (key g).take ps <+: start e := by
        refine prefix_of_prefix_length_le (firstPage_prefix_stop g) hse ?_
        rw [h.length_firstPage hg]
        exact add_page_le (h.dvd_start hg) (h.dvd_start he) hgt
      have := (ih _ (by omega) rfl (h.parent e he) hg hgpre).length_le
      omega

theorem covers_unique (h : IsTrie ps l) (he : e ∈ l) (hf : f ∈ l) {p : List α}
    (hp : ps ∣ p.length) (hel : (start e).length < p.length) (hep : p <+: stop e)
    (hfl : (start f).length < p.length) (hfp : p <+: stop f) : e = f := by
  wlog hle : (start e).length ≤ (start f).length generalizing e f with H
  · exact (H hf he hfl hfp hel hep (by omega)).symm
  have hee : (start e).length + ps ≤ p.length := add_page_le (h.dvd_start he) hp hel
  have hff : (start f).length + ps ≤ p.length := add_page_le (h.dvd_start hf) hp hfl
  have hpe : start e ++ (key e).take ps <+: p :=
    prefix_of_prefix_length_le (firstPage_prefix_stop e) hep
      (by rw [h.length_firstPage he]; exact hee)
  have hpf : start f ++ (key f).take ps <+: p :=
    prefix_of_prefix_length_le (firstPage_prefix_stop f) hfp
      (by rw [h.length_firstPage hf]; exact hff)
  have hse : start e <+: p := (prefix_append _ _).trans hpe
  have hsf : start f <+: p := (prefix_append _ _).trans hpf
  rcases lt_or_eq_of_le hle with hlt | heq
  · exfalso
    have hpage : start e ++ (key e).take ps <+: start f := by
      refine prefix_of_prefix_length_le hpe hsf ?_
      rw [h.length_firstPage he]
      exact add_page_le (h.dvd_start he) (h.dvd_start hf) hlt
    have h1 := (h.stop_prefix_of_page (h.parent f hf) he hpage).length_le
    have h2 := hep.length_le
    omega
  · have hs : start e = start f :=
      (prefix_of_prefix_length_le hse hsf hle).eq_of_length heq
    exact h.eq_of_start_eq he hf hs hpe hpf

theorem resident_of_prefix (h : IsTrie ps l) :
    ∀ {p q : List α}, Resident l p → q <+: p → q ≠ [] → Resident l q := by
  intro p
  induction hn : p.length using Nat.strong_induction_on generalizing p with
  | _ n ih =>
    intro q hp hqp hq
    obtain ⟨e, he, hlt, hpe⟩ := hp
    rcases lt_or_ge (start e).length q.length with hql | hql
    · exact ⟨e, he, hql, hqp.trans hpe⟩
    · have hqs : q <+: start e :=
        prefix_of_prefix_length_le (hqp.trans hpe) (start_prefix_stop e) hql
      rcases h.parent e he with h0 | ⟨f, hf, hfe⟩
      · rw [h0] at hqs
        exact absurd (prefix_nil.mp hqs) hq
      · refine ih _ (by omega) rfl ⟨f, hf, ?_, by rw [hfe]⟩ hqs hq
        rw [← hfe]
        exact h.length_start_lt hf

theorem resident_stop (h : IsTrie ps l) (he : e ∈ l) : Resident l (stop e) :=
  ⟨e, he, h.length_start_lt he, prefix_rfl⟩

theorem resident_address (h : IsTrie ps l) {p : List α} (hp : IsAddress l p) (hne : p ≠ []) :
    Resident l p := by
  rcases hp with rfl | ⟨e, he, rfl⟩
  · exact absurd rfl hne
  · exact h.resident_stop he

/-- If an edge's lower end is a proper prefix of an edge's, it is one of the upper end. -/
theorem stop_prefix_start (h : IsTrie ps l) {g : ν} (he : e ∈ l) (hg : g ∈ l)
    (hne : e ≠ g) (hpre : stop e <+: stop g) : stop e <+: start g := by
  rcases lt_or_ge (start g).length (stop e).length with hlt | hge
  · exact absurd (h.covers_unique he hg (h.dvd_stop he) (h.length_start_lt he) prefix_rfl hlt
      hpre) hne
  · exact prefix_of_prefix_length_le hpre (start_prefix_stop g) hge

theorem address_induct (h : IsTrie ps l) {motive : (p : List α) → IsAddress l p → Prop}
    (root : motive [] (isAddress_nil l))
    (edge : ∀ e (he : e ∈ l), motive (start e) (h.parent e he) →
      motive (stop e) (isAddress_stop he)) {p : List α} (hp : IsAddress l p) : motive p hp := by
  induction hn : p.length using Nat.strong_induction_on generalizing p with
  | _ n ih =>
    rcases hp with rfl | ⟨e, he, rfl⟩
    · exact root
    · exact edge e he (ih _ (hn ▸ h.length_start_lt he) (h.parent e he) rfl)

end IsTrie

/-! ### Walking up -/

section Ancestors

variable [DecidableEq α]

/-- The edge whose lower end is `p`. -/
def edgeAt (l : List ν) (p : List α) : Option ν := l.find? (fun e => stop e = p)

/-- The edges met when walking up from `p`, lowest first, in at most `fuel` steps. -/
def ancestorsAux (l : List ν) : ℕ → List α → List ν
  | 0, _ => []
  | fuel + 1, p =>
    match edgeAt l p with
    | none => []
    | some e => e :: ancestorsAux l fuel (start e)

/-- The edges met when walking up from `p` to the root, lowest first. -/
def ancestors (l : List ν) (p : List α) : List ν := ancestorsAux l p.length p

namespace IsTrie

variable {ps : ℕ} {l : List ν}

theorem edgeAt_stop (h : IsTrie ps l) (he : e ∈ l) : edgeAt l (stop e) = some e := by
  unfold edgeAt
  cases hf : l.find? (fun f => stop f = stop e) with
  | none =>
    have := find?_eq_none.mp hf e he
    simp at this
  | some f =>
    have h1 : stop f = stop e := by simpa using find?_some hf
    rw [h.stop_inj (mem_of_find?_eq_some hf) he h1]

theorem edgeAt_nil (h : IsTrie ps l) : edgeAt l ([] : List α) = none := by
  unfold edgeAt
  rw [find?_eq_none]
  intro e he
  simpa using h.stop_ne_nil he

theorem ancestorsAux_eq (h : IsTrie ps l) :
    ∀ (m n : ℕ) (p : List α), IsAddress l p → p.length ≤ m → p.length ≤ n →
      ancestorsAux l m p = ancestorsAux l n p := by
  intro m
  induction m with
  | zero =>
    intro n p hp hm hn
    obtain rfl : p = [] := length_eq_zero_iff.mp (by omega)
    cases n with
    | zero => rfl
    | succ n => simp [ancestorsAux, h.edgeAt_nil]
  | succ m ih =>
    intro n p hp hm hn
    rcases hp with rfl | ⟨e, he, rfl⟩
    · cases n with
      | zero => simp [ancestorsAux, h.edgeAt_nil]
      | succ n => simp [ancestorsAux, h.edgeAt_nil]
    · have hlt := h.length_start_lt he
      cases n with
      | zero => omega
      | succ n =>
        simp only [ancestorsAux, h.edgeAt_stop he]
        rw [ih n (start e) (h.parent e he) (by omega) (by omega)]

theorem ancestors_nil (l : List ν) : ancestors l ([] : List α) = [] := rfl

theorem ancestors_stop (h : IsTrie ps l) (he : e ∈ l) :
    ancestors l (stop e) = e :: ancestors l (start e) := by
  have hlt := h.length_start_lt he
  unfold ancestors
  obtain ⟨k, hk⟩ : ∃ k, (stop e).length = k + 1 := ⟨(stop e).length - 1, by omega⟩
  rw [hk]
  simp only [ancestorsAux, h.edgeAt_stop he]
  rw [h.ancestorsAux_eq k (start e).length (start e) (h.parent e he) (by omega) le_rfl]

/-- Walking up visits exactly the edges whose lower end is a prefix of the address. -/
theorem mem_ancestors (h : IsTrie ps l) {p : List α} (hp : IsAddress l p) :
    e ∈ ancestors l p ↔ e ∈ l ∧ stop e <+: p := by
  induction hp using h.address_induct with
  | root =>
    rw [ancestors_nil]
    refine ⟨fun hm => absurd hm not_mem_nil, fun ⟨hm, hpre⟩ => ?_⟩
    exact absurd (prefix_nil.mp hpre) (h.stop_ne_nil hm)
  | edge g hg ih =>
    rw [h.ancestors_stop hg, mem_cons, ih]
    constructor
    · rintro (rfl | ⟨hm, hpre⟩)
      · exact ⟨hg, prefix_rfl⟩
      · exact ⟨hm, hpre.trans (start_prefix_stop g)⟩
    · rintro ⟨hm, hpre⟩
      rcases eq_or_ne e g with heq | hne
      · exact Or.inl heq
      · exact Or.inr ⟨hm, h.stop_prefix_start hm hg hne hpre⟩

end IsTrie

end Ancestors

end TrieEdge

end FreeToken
