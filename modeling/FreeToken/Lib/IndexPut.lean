import Mathlib.Data.List.Perm.Subperm
import Mathlib.Data.List.Nodup

/-!
# Vectorised reads and writes of a one-dimensional tensor

A tensor is a function of its index.  `indexPut t is vs` is the scatter `t[is] = vs` and
`indexFill t is v` the broadcast `t[is] = v`; the gather `t[is]` is `is.map t`.

* `map_indexPut`: reading back the indices just written gives the values written.
* `exists_nodup_indexPut`: of an index that is written more than once, the last write counts.
* `exists_rest`: a window of distinct indices splits a domain into itself and the rest.
* `perm_map_indexPut`, `perm_map_indexFill`: what a write does to the values over a domain.
-/

namespace FreeToken

open Function List

variable {ι α : Type*} [DecidableEq ι] {t : ι → α} {dom is rest : List ι} {vs : List α} {v : α}
  {i : ι}

/-- `t[is] = vs`, one index after the other. -/
def indexPut (t : ι → α) : List ι → List α → ι → α
  | i :: is, v :: vs => indexPut (update t i v) is vs
  | _, _ => t

/-- `t[is] = v`. -/
def indexFill (t : ι → α) (is : List ι) (v : α) : ι → α := fun i => if i ∈ is then v else t i

@[simp] theorem indexPut_nil : indexPut t [] vs = t := by cases vs <;> rfl

theorem indexPut_of_notMem (h : i ∉ is) : indexPut t is vs i = t i := by
  induction is generalizing t vs with
  | nil => rw [indexPut_nil]
  | cons j is ih =>
    cases vs with
    | nil => rfl
    | cons v vs =>
      rw [indexPut, ih (fun hi => h (mem_cons_of_mem j hi))]
      have hij : i ≠ j := by
        rintro rfl
        exact h mem_cons_self
      exact update_of_ne hij v t

/-- **Read after write**: distinct indices give back the values written to them. -/
theorem map_indexPut (hn : is.Nodup) (hl : is.length = vs.length) :
    is.map (indexPut t is vs) = vs := by
  induction is generalizing t vs with
  | nil => exact (length_eq_zero_iff.mp hl.symm).symm
  | cons i is ih =>
    rw [nodup_cons] at hn
    cases vs with
    | nil => cases hl
    | cons v vs =>
      rw [map_cons, indexPut, indexPut_of_notMem hn.1, update_self, ih hn.2 (Nat.succ.inj hl)]

theorem indexPut_append (is' : List ι) (vs' : List α) (hl : is.length = vs.length) :
    indexPut t (is ++ is') (vs ++ vs') = indexPut (indexPut t is vs) is' vs' := by
  induction is generalizing t vs with
  | nil => rw [length_eq_zero_iff.mp hl.symm, indexPut_nil, nil_append, nil_append]
  | cons i is ih =>
    cases vs with
    | nil => cases hl
    | cons v vs => exact ih (Nat.succ.inj hl)

theorem indexPut_mem (hl : is.length = vs.length) (hi : i ∈ is) : indexPut t is vs i ∈ vs := by
  induction is generalizing t vs with
  | nil => cases hi
  | cons j is ih =>
    cases vs with
    | nil => cases hl
    | cons v vs =>
      rw [indexPut]
      by_cases h : i ∈ is
      · exact mem_cons_of_mem v (ih (Nat.succ.inj hl) h)
      · rw [indexPut_of_notMem h, (mem_cons.mp hi).resolve_right h, update_self]
        exact mem_cons_self

theorem indexPut_update_of_mem (h : i ∈ is) (hl : is.length = vs.length) :
    indexPut (update t i v) is vs = indexPut t is vs := by
  induction is generalizing t vs with
  | nil => cases h
  | cons j is ih =>
    cases vs with
    | nil => cases hl
    | cons w vs =>
      rw [indexPut, indexPut]
      by_cases hij : i = j
      · subst hij
        rw [update_idem]
      · have hi := (mem_cons.mp h).resolve_left hij
        rw [update_comm hij, ih hi (Nat.succ.inj hl)]

/-- **Repeated indices**: the last write of each index makes the scatter. -/
theorem exists_nodup_indexPut (t : ι → α) (hl : is.length = vs.length) :
    ∃ is' vs', is'.Nodup ∧ is'.Sublist is ∧ is ⊆ is' ∧ vs'.Sublist vs ∧ is'.length = vs'.length ∧
      indexPut t is vs = indexPut t is' vs' := by
  induction is generalizing t vs with
  | nil => exact ⟨[], [], .nil, .slnil, fun _ h => h, nil_sublist _,
    rfl, by rw [indexPut_nil, indexPut_nil]⟩
  | cons i is ih =>
    cases vs with
    | nil => cases hl
    | cons v vs =>
      have hl' := Nat.succ.inj hl
      rw [indexPut]
      by_cases hi : i ∈ is
      · obtain ⟨is', vs', hn, hsub, hmem, hvs, hlen, heq⟩ := ih t hl'
        refine ⟨is', vs', hn, hsub.cons i, ?_, hvs.cons v, hlen, ?_⟩
        · exact cons_subset.mpr ⟨hmem hi, hmem⟩
        · rw [indexPut_update_of_mem hi hl', heq]
      · obtain ⟨is', vs', hn, hsub, hmem, hvs, hlen, heq⟩ := ih (update t i v) hl'
        refine ⟨i :: is', v :: vs', hn.cons fun h => hi (hsub.subset h), hsub.cons_cons i, ?_,
          hvs.cons_cons v, by rw [length_cons, length_cons, hlen], heq⟩
        exact cons_subset_cons i hmem

theorem indexFill_of_mem (h : i ∈ is) : indexFill t is v i = v := if_pos h

theorem indexFill_of_notMem (h : i ∉ is) : indexFill t is v i = t i := if_neg h

theorem exists_rest (hn : is.Nodup) (hs : is ⊆ dom) : ∃ rest, dom.Perm (is ++ rest) :=
  ⟨dom.diff is, (subperm_append_diff_self_of_count_le (subperm_ext_iff.mp (hn.subperm hs))).symm⟩

/-- The values over a domain after a scatter: the values written, and the old ones elsewhere. -/
theorem perm_map_indexPut (hp : dom.Perm (is ++ rest)) (hd : dom.Nodup)
    (hl : is.length = vs.length) :
    (dom.map (indexPut t is vs)).Perm (vs ++ rest.map t) := by
  have hn : (is ++ rest).Nodup := hp.nodup_iff.mp hd
  have hrest : rest.map (indexPut t is vs) = rest.map t :=
    map_congr_left fun j hj =>
      indexPut_of_notMem fun hi => (nodup_append.mp hn).2.2 j hi j hj rfl
  have := hp.map (indexPut t is vs)
  rwa [map_append, map_indexPut (nodup_append.mp hn).1 hl, hrest] at this

theorem perm_map_indexFill (hp : dom.Perm (is ++ rest)) (hd : dom.Nodup) :
    (dom.map (indexFill t is v)).Perm (replicate is.length v ++ rest.map t) := by
  have hn : (is ++ rest).Nodup := hp.nodup_iff.mp hd
  have hrest : rest.map (indexFill t is v) = rest.map t :=
    map_congr_left fun j hj =>
      indexFill_of_notMem fun hi => (nodup_append.mp hn).2.2 j hi j hj rfl
  have hfill : is.map (indexFill t is v) = replicate is.length v :=
    map_eq_replicate_iff.mpr fun j hj => indexFill_of_mem hj
  have := hp.map (indexFill t is v)
  rwa [map_append, hfill, hrest] at this

end FreeToken
