import FreeToken.KvCache.Dsv4CostModel
import FreeToken.Lib.MapM
import Mathlib.Algebra.Order.BigOperators.Group.List

/-!
# The solver takes the largest pool

* `pyRound_mono`: rounding keeps the order, and so does the window (`winPages_mono`).
* `dsv4PoolBytes_eq`: the bytes of a candidate as one sum, which grows with the pages
  (`poolCost_mono`).
* `dsv4SolveNumPages_largest`: what the solver returns, and when it raises.
-/

namespace FreeToken

open List Option

namespace Dsv4CostModel

/-! ### Rounding -/

theorem pyRound_cases (q : ℚ) :
    pyRound q = ⌊q⌋ ∧ q - ⌊q⌋ ≤ 1 / 2 ∨ pyRound q = ⌊q⌋ + 1 ∧ 1 / 2 ≤ q - ⌊q⌋ := by
  unfold pyRound
  dsimp only
  split_ifs with hlt hgt heven
  · exact Or.inl ⟨rfl, hlt.le⟩
  · exact Or.inr ⟨rfl, hgt.le⟩
  · exact Or.inl ⟨rfl, not_lt.mp hgt⟩
  · exact Or.inr ⟨rfl, not_lt.mp hlt⟩

theorem pyRound_mono {q q' : ℚ} (h : q ≤ q') : pyRound q ≤ pyRound q' := by
  have hfloor : ⌊q⌋ ≤ ⌊q'⌋ := Int.floor_le_floor h
  rcases hfloor.lt_or_eq with hlt | heq
  · rcases pyRound_cases q with ⟨hq, -⟩ | ⟨hq, -⟩ <;> rcases pyRound_cases q' with ⟨hq', -⟩ |
      ⟨hq', -⟩ <;> omega
  · -- both are between the same integers
    have hsub : q - ⌊q⌋ ≤ q' - ⌊q'⌋ := by
      rw [heq]
      exact sub_le_sub_right h _
    unfold pyRound
    dsimp only
    rw [← heq] at hsub ⊢
    split_ifs <;> first | omega | (exfalso; linarith)

theorem pyRound_nonpos {q : ℚ} (h : q ≤ 0) : pyRound q ≤ 0 := by
  have hmono := pyRound_mono h
  have hzero : pyRound 0 = 0 := by norm_num [pyRound]
  omega

variable {args : DSV4Args} {swaRatio : ℚ} {P floorWinPages nScratch num num' : ℕ} {available : ℤ}

theorem winPages_mono (hP : 0 < P) (h : num ≤ num') :
    winPages swaRatio P floorWinPages num ≤ winPages swaRatio P floorWinPages num' := by
  unfold winPages
  have hpos : (0 : ℤ) < P := by exact_mod_cast hP
  have hcast : ((num : ℚ)) ≤ num' := by exact_mod_cast h
  rcases le_total 0 swaRatio with hsign | hsign
  · refine Int.toNat_le_toNat (max_le_max (le_refl _) (Int.ediv_le_ediv hpos ?_))
    have hmono : pyRound (swaRatio * num * P) ≤ pyRound (swaRatio * num' * P) := by
      refine pyRound_mono ?_
      gcongr
    omega
  · -- without a positive ratio, only the floor counts
    have hfloor :
        ∀ n : ℕ, max (floorWinPages : ℤ) ((pyRound (swaRatio * n * P) + P - 1) / P) =
          floorWinPages := by
      intro n
      have hneg : swaRatio * n * P ≤ 0 :=
        mul_nonpos_of_nonpos_of_nonneg (mul_nonpos_of_nonpos_of_nonneg hsign (Nat.cast_nonneg n))
          (Nat.cast_nonneg P)
      have hround := pyRound_nonpos hneg
      have hdiv : (pyRound (swaRatio * n * P) + P - 1) / P ≤ 0 := by
        have hlt : (pyRound (swaRatio * n * P) + P - 1) / (P : ℤ) < 1 :=
          Int.ediv_lt_of_lt_mul hpos (by omega)
        omega
      exact max_eq_left (by omega)
    rw [hfloor, hfloor]

/-! ### The cost of a candidate -/

/-- The ring of a layer, where there is one. -/
def ringOf (ratio : ℕ) : Option ℕ := if ratio = 0 then none else ringSizeForRatio ratio

/-- The layout of the layers has rings for all its ratios. -/
def Layout (args : DSV4Args) : Prop := ∀ ratio ∈ args.ratios, layerRing ratio = some (ringOf ratio)

def layerCost (args : DSV4Args) (nScratch fullToken nWinPages ratio : ℕ) : ℕ :=
  if ratio = 0 then 0
  else
    let ring := (ringSizeForRatio ratio).getD 0
    (fullToken / ratio + nScratch) * args.kvBytes + (nWinPages * ring + 1) * args.stateBytes ratio +
      if ratio = 4 then (fullToken / 4 + nScratch) * args.indexBytes + (nWinPages * ring + 1) *
        args.idxStateBytes else 0

def poolCost (args : DSV4Args) (P nScratch numPages nWinPages : ℕ) : ℕ :=
  args.ratios.length * (nWinPages * P) * args.kvBytes + (numPages * P + 1) * 8 +
    (args.ratios.map (layerCost args nScratch (numPages * P) nWinPages)).sum

/-- A layout either has all rings, or there is no pool. -/
theorem layout_or (args : DSV4Args) : Layout args ∨ ∀ swaRatio P numPages nWinPages,
    dsv4PoolSizes args swaRatio P numPages nWinPages = none := by
  cases hrings : args.ratios.mapM layerRing with
  | none =>
    refine Or.inr fun swaRatio P numPages nWinPages => ?_
    unfold dsv4PoolSizes
    rw [hrings]
    rfl
  | some rings =>
    refine Or.inl fun ratio hratio => ?_
    have hall := forall₂_of_mapM hrings
    obtain ⟨i, hi⟩ := mem_iff_getElem?.mp hratio
    obtain ⟨hlt, rfl⟩ := List.getElem?_eq_some_iff.mp hi
    have hring := hall.get hlt (hall.length_eq ▸ hlt)
    rw [get_eq_getElem] at hring
    unfold layerRing at hring ⊢
    unfold ringOf
    split_ifs at hring ⊢ with hzero
    · rfl
    · obtain ⟨size, hsize, -⟩ := map_eq_some_iff.mp hring
      rw [hsize]
      rfl

theorem layerEntry_map {f : ℕ → Option ℕ} {ratio layer : ℕ} (h : args.ratios[layer]? = some ratio) :
    layerEntry (args.ratios.map f) layer = f ratio := by
  unfold layerEntry
  rw [getElem?_map, h]
  rfl

theorem dsv4PoolBytes_eq (h : Layout args) (swaRatio : ℚ) (P numPages nWinPages nScratch : ℕ) :
    ∃ sizes, dsv4PoolSizes args swaRatio P numPages nWinPages = some sizes ∧
      dsv4PoolBytes args sizes nScratch =
        some (poolCost args P nScratch numPages (min nWinPages numPages)) := by
  unfold dsv4PoolSizes
  rw [mapM_eq_map h]
  refine ⟨_, rfl, ?_⟩
  unfold dsv4PoolBytes
  rw [mapM_eq_map (g := fun x => layerCost args nScratch (numPages * P) (min nWinPages numPages)
    x.1), map_some]
  · have hmap :
        args.ratios.zipIdx.map
        (fun x => layerCost args nScratch (numPages * P) (min nWinPages numPages) x.1) =
        args.ratios.map (layerCost args nScratch (numPages * P) (min nWinPages numPages)) := by
      conv_rhs => rw [← List.zipIdx_map_fst 0 args.ratios, List.map_map]
      rfl
    rw [hmap]
    rfl
  · rintro ⟨ratio, layer⟩ hx
    have hget : args.ratios[layer]? = some ratio := mem_zipIdx_iff_getElem?.mp hx
    have hratio := mem_of_getElem? hget
    unfold layerBytes layerCost
    dsimp only
    rw [layerEntry_map hget, List.map_map, layerEntry_map hget, layerEntry_map hget,
      List.zipWith_map_right, List.zipWith_self, layerEntry_map hget, Function.comp_apply]
    have hring := h ratio hratio
    unfold layerRing at hring
    unfold ringOf at hring ⊢
    by_cases hzero : ratio = 0
    · rw [if_pos hzero, if_pos hzero]
    · rw [if_neg hzero, if_neg hzero] at hring
      obtain ⟨size, hsize, -⟩ := map_eq_some_iff.mp hring
      simp only [if_neg hzero, hsize, map_some, bind_some, getD_some]
      by_cases hfour : ratio = 4
      · simp only [if_pos hfour, map_some, bind_some, add_assoc]
      · simp only [if_neg hfour, add_zero]

theorem poolCost_mono {pages pages' win win' : ℕ} (hpages : pages ≤ pages') (hwin : win ≤ win') :
    poolCost args P nScratch pages win ≤ poolCost args P nScratch pages' win' := by
  have htoken : pages * P ≤ pages' * P := Nat.mul_le_mul_right P hpages
  have hlayer :
      ∀ ratio ∈ args.ratios, layerCost args nScratch (pages * P) win ratio ≤ layerCost args nScratch
      (pages' * P) win' ratio := by
    intro ratio _
    unfold layerCost
    split_ifs
    · exact le_refl 0
    · dsimp only
      gcongr
    · dsimp only
      gcongr
  unfold poolCost
  have hsum := sum_le_sum hlayer
  have hwindow :
      args.ratios.length * (win * P) * args.kvBytes ≤ args.ratios.length *
      (win' * P) * args.kvBytes := by
    gcongr
  omega

theorem le_poolCost (hP : 0 < P) (pages win : ℕ) : pages ≤ poolCost args P nScratch pages win := by
  have hle : pages ≤ pages * P := Nat.le_mul_of_pos_right pages hP
  unfold poolCost
  omega

/-! ### The solver -/

/-- A candidate whose pool is in the budget. -/
def Fits (args : DSV4Args) (swaRatio : ℚ) (P : ℕ) (available : ℤ) (floorWinPages nScratch num : ℕ) :
    Prop :=
  ∃ sizes bytes, solveSizes args swaRatio P floorWinPages num = some sizes ∧
    dsv4PoolBytes args sizes nScratch = some bytes ∧ (bytes : ℤ) ≤ available

theorem fits_iff : Fits args swaRatio P available floorWinPages nScratch num ↔
    fitsBudget args swaRatio P available floorWinPages nScratch num = some true := by
  unfold Fits fitsBudget
  constructor
  · rintro ⟨sizes, bytes, hsizes, hbytes, hle⟩
    rw [hsizes, bind_some, hbytes, map_some, decide_eq_true hle]
  · intro h
    obtain ⟨sizes, hsizes, h⟩ := bind_eq_some_iff.mp h
    obtain ⟨bytes, hbytes, h⟩ := map_eq_some_iff.mp h
    exact ⟨sizes, bytes, hsizes, hbytes, of_decide_eq_true h⟩

/-- With all rings, a candidate is compared by its cost. -/
theorem fitsBudget_eq (h : Layout args) :
    fitsBudget args swaRatio P available floorWinPages nScratch num =
    some (decide
      ((poolCost args P nScratch num (min (winPages swaRatio P floorWinPages num) num) : ℤ) ≤
      available)) := by
  obtain ⟨sizes, hsizes, hbytes⟩ :=
    dsv4PoolBytes_eq h swaRatio P num (winPages swaRatio P floorWinPages num) nScratch
  unfold fitsBudget solveSizes
  rw [hsizes, bind_some, hbytes]
  rfl

theorem cachePerPage_of_layout (h : Layout args) (swaRatio : ℚ) (P : ℕ) :
    ∃ perPage, dsv4CachePerPage args swaRatio P = some perPage := by
  obtain ⟨layers, hlayers, -⟩ := exists_mapM (f := layerPerPage args swaRatio P) (l := args.ratios)
    (R := fun _ _ => True) fun ratio hratio => by
    have hring := h ratio hratio
    unfold layerRing at hring
    unfold layerPerPage
    by_cases hzero : ratio = 0
    · rw [if_pos hzero]
      exact ⟨_, rfl, trivial⟩
    · rw [if_neg hzero] at hring ⊢
      obtain ⟨size, hsize, -⟩ := map_eq_some_iff.mp hring
      rw [hsize]
      exact ⟨_, rfl, trivial⟩
  unfold dsv4CachePerPage
  rw [hlayers]
  exact ⟨_, rfl⟩

/-- **The solver** ends, with the largest pool in the budget; it raises exactly when the minimal
pool is not. -/
theorem dsv4SolveNumPages_largest (args : DSV4Args) (swaRatio : ℚ) (available : ℤ)
    (floorWinPages nScratch : ℕ) (hP : 0 < P) :
    ∃ result, (∃ bound, ∀ fuel, bound ≤ fuel →
        dsv4SolveNumPages args swaRatio P available floorWinPages nScratch fuel = some result) ∧
      (¬ Fits args swaRatio P available floorWinPages nScratch (max floorWinPages 2) →
        ∃ error, result = .error error) ∧
      (Fits args swaRatio P available floorWinPages nScratch (max floorWinPages 2) → ∃ num sizes,
        result = .ok sizes ∧ solveSizes args swaRatio P floorWinPages num = some sizes ∧
          IsGreatest {n | Fits args swaRatio P available floorWinPages nScratch n} num) := by
  unfold dsv4SolveNumPages
  rcases layout_or args with hlayout | hnone
  · obtain ⟨perPage, hperPage⟩ := cachePerPage_of_layout hlayout 0 P
    dsimp only
    cases hlo : fitsBudget args swaRatio P available floorWinPages nScratch
      (max floorWinPages 2) with
    | none =>
      rw [fitsBudget_eq hlayout] at hlo
      exact absurd hlo (some_ne_none _)
    | some first =>
      rw [hperPage]
      cases first with
      | false =>
        refine ⟨.error .budget, ⟨0, fun _ _ => rfl⟩, fun _ => ⟨.budget, rfl⟩, fun hfits => ?_⟩
        rw [fits_iff, hlo] at hfits
        exact absurd (Option.some.inj hfits) Bool.false_ne_true
      | true =>
        -- the loops see a test that is downward closed and fails behind the budget
        have hmono : ∀ m k, m ≤ k →
            (fitsBudget args swaRatio P available floorWinPages nScratch k).getD false = true →
            (fitsBudget args swaRatio P available floorWinPages nScratch m).getD false = true := by
          intro m k hmk hk
          rw [fitsBudget_eq hlayout, getD_some, decide_eq_true_eq] at hk ⊢
          have hcost := @poolCost_mono args P nScratch _ _ _ _ hmk
            (min_le_min (@winPages_mono swaRatio P floorWinPages _ _ hP hmk) hmk)
          omega
        have hbound : ∀ n, available.toNat + 1 ≤ n →
            (fitsBudget args swaRatio P available floorWinPages nScratch n).getD false = false := by
          intro n hn
          rw [fitsBudget_eq hlayout, getD_some, decide_eq_false_iff_not]
          have hcost :=
            @le_poolCost args P nScratch hP n (min (winPages swaRatio P floorWinPages n) n)
          omega
        have hfirst :
            (fitsBudget args swaRatio P available floorWinPages nScratch (max floorWinPages 2)).getD
            false = true := by
          rw [hlo, getD_some]
        obtain ⟨hi, hle, hfail, hgrow⟩ := @growHi_spec
          (fun num => (fitsBudget args swaRatio P available floorWinPages nScratch num).getD false)
          (max (max floorWinPages 2) (available / max 1 perPage).toNat) _ hbound (by omega)
        have hlt : max floorWinPages 2 < hi := by
          refine lt_of_le_of_ne ((le_max_left _ _).trans hle) fun heq => ?_
          rw [← heq, hfirst] at hfail
          exact Bool.false_ne_true hfail.symm
        obtain ⟨num, -, hnum, hnext, hsearch⟩ :=
          @bisect_spec
          (fun num => (fitsBudget args swaRatio P available floorWinPages nScratch num).getD false)
          _ _ hfirst hfail hlt
        obtain ⟨sizes, hsizes, -⟩ :=
          dsv4PoolBytes_eq hlayout swaRatio P num (winPages swaRatio P floorWinPages num) nScratch
        have hgreatest := isGreatest_of_step hmono hnum hnext
        refine ⟨.ok sizes, ⟨max (available.toNat + 2) hi, fun fuel hfuel => ?_⟩, fun hnot =>
          ?_, fun _ =>
          ⟨num, sizes, rfl, hsizes, ?_⟩⟩
        · dsimp only
          rw [hgrow fuel (by omega), bind_some, hsearch fuel (by omega), map_some]
          have hsolve : solveSizes args swaRatio P floorWinPages num = some sizes := hsizes
          rw [hsolve]
          rfl
        · rw [fits_iff] at hnot
          exact absurd hlo hnot
        · have hset : {n | Fits args swaRatio P available floorWinPages nScratch n} =
              {n | (fitsBudget args swaRatio P available floorWinPages nScratch n).getD false =
                true} := by
            ext n
            show Fits args swaRatio P available floorWinPages nScratch n ↔ _ = true
            rw [fits_iff, fitsBudget_eq hlayout, getD_some, Option.some.injEq]
          rw [hset]
          exact hgreatest
  · have hsolve : ∀ num, solveSizes args swaRatio P floorWinPages num = none :=
      fun num => hnone _ _ _ _
    have hfits :
        fitsBudget args swaRatio P available floorWinPages nScratch (max floorWinPages 2) =
        none := by
      unfold fitsBudget
      rw [hsolve]
      rfl
    refine ⟨.error .noRing, ⟨0, fun fuel _ => ?_⟩, fun _ => ⟨.noRing, rfl⟩, fun hyes => ?_⟩
    · dsimp only
      rw [hfits]
    · rw [fits_iff, hfits] at hyes
      exact absurd hyes.symm (some_ne_none _)

/-- A budget of a megabyte for a window layer and two layers with rings. -/
theorem dsv4SolveNumPages_largest_megabyte :
    ∃ result, (∃ bound, ∀ fuel, bound ≤ fuel →
        dsv4SolveNumPages ⟨64, 32, [0, 4, 128], 3⟩ (1 / 10) 128 1000000 3 1 fuel = some result) ∧
      (¬ Fits ⟨64, 32, [0, 4, 128], 3⟩ (1 / 10) 128 1000000 3 1 (max 3 2) → ∃ error, result =
        .error error) ∧
      (Fits ⟨64, 32, [0, 4, 128], 3⟩ (1 / 10) 128 1000000 3 1 (max 3 2) → ∃ num sizes,
        result = .ok sizes ∧ solveSizes ⟨64, 32, [0, 4, 128], 3⟩ (1 / 10) 128 3 num = some sizes ∧
          IsGreatest {n | Fits ⟨64, 32, [0, 4, 128], 3⟩ (1 / 10) 128 1000000 3 1 n} num) :=
  dsv4SolveNumPages_largest _ _ _ _ _ (by decide)

end Dsv4CostModel

end FreeToken
