import FreeToken.Kernel.Equiv.Sampling

/-!
# The draw of the sampling kernels

`Row.keptUpTo thr n` is the mass that is kept of the first `n` tokens.  A program starts with what
is kept before its chunk, and its blocks go on from there, so that the drawn token is met in one
block only.

* `drawBlock_eq`: a block writes the token if it holds it.
* `fusedTokens_eq`, `drawTokens_eq`: one token is written.
* `sampling_exact`: the thresholds and the draw together.
-/

namespace FreeToken

open List

namespace Sampling

variable {row : Row} {g : Grid} {thr : ℤ} {n m t cta : ℕ} {u tgt : ℚ} {live : ℕ → Bool}

/-- The mass that is kept of the first tokens. -/
def Row.keptUpTo (row : Row) (thr : ℤ) (n : ℕ) : ℚ :=
  ∑ i ∈ Finset.range n, if ofBits thr ≤ row.prob i then row.prob i else 0

theorem kept_nonneg (i : ℕ) : 0 ≤ if ofBits thr ≤ row.prob i then row.prob i else 0 := by
  split
  · exact prob_nonneg i
  · exact le_refl 0

theorem keptUpTo_mono : Monotone (row.keptUpTo thr) := fun _ _ h =>
  Finset.sum_le_sum_of_subset_of_nonneg (Finset.range_mono h) fun i _ _ => kept_nonneg i

theorem keptUpTo_add_Ico (h : n ≤ m) : row.keptUpTo thr n +
    ∑ i ∈ Finset.Ico n m, (if ofBits thr ≤ row.prob i then row.prob i else 0) =
      row.keptUpTo thr m :=
  Finset.sum_range_add_sum_Ico _ h

theorem keptUpTo_size (hthr : 0 ≤ thr) : row.keptUpTo thr row.size = row.mass thr :=
  Finset.sum_congr rfl fun i hi =>
    if_congr (ofBits_le_iff hthr (row.nonneg i (Finset.mem_range.mp hi))) rfl rfl

structure Row.Crosses (row : Row) (thr : ℤ) (tgt : ℚ) (t : ℕ) : Prop where
  lt_size : t < row.size
  before : row.keptUpTo thr t ≤ tgt
  after : tgt < row.keptUpTo thr (t + 1)

theorem Row.Crosses.lt_iff (h : row.Crosses thr tgt t) : tgt < row.keptUpTo thr n ↔ t < n := by
  constructor
  · intro hlt
    by_contra hle
    exact absurd (hlt.trans_le (keptUpTo_mono (by omega))) (not_lt.mpr h.before)
  · exact fun hlt => h.after.trans_le (keptUpTo_mono hlt)

theorem Row.Crosses.le_iff (h : row.Crosses thr tgt t) : row.keptUpTo thr n ≤ tgt ↔ n ≤ t := by
  rw [← not_lt, h.lt_iff, not_lt]

/-! ### A program -/

/-- The end of a chunk is the start of the next one, up to the end of the row. -/
theorem stop_eq : g.stop row cta = min ((cta + 1) * g.chunk row) row.size := by
  unfold Grid.stop Grid.start
  rw [add_mul, one_mul]

theorem min_start_stop :
    min (g.start row cta) (g.stop row cta) = min (cta * g.chunk row) row.size := by
  unfold Grid.stop Grid.start
  omega

theorem sum_keptChunk_range (T : ℕ) :
    ∑ c ∈ Finset.range T, keptChunk row g thr c =
      row.keptUpTo thr (min (T * g.chunk row) row.size) := by
  have hchunk : ∀ c, keptChunk row g thr c = ∑ i ∈ Finset.Ico (0 + c * g.chunk row)
      (min (0 + c * g.chunk row + g.chunk row) row.size), if ofBits thr ≤ row.prob i then row.prob i
        else 0 := fun c => by
    rw [zero_add]
    exact sum_trips g.block_pos fun i => if ofBits thr ≤ row.prob i then row.prob i else 0
  rw [Finset.sum_congr rfl fun c _ => hchunk c, sum_tiles, zero_add, Nat.Ico_zero_eq_range]
  rfl

theorem laneMin_eq {b v : ℕ} {f : ℕ → ℕ} (hb : 0 < b) (hv : ∃ l < b, f l = v)
    (hle : ∀ l < b, v ≤ f l) : laneMin b f = v := by
  have hfold : ∀ k m, v ≤ m → (∀ l < k, v ≤ f l) →
      v ≤ (range k).foldl (fun m l => min m (f l)) m ∧
        ((m = v ∨ ∃ l < k, f l = v) → (range k).foldl (fun m l => min m (f l)) m = v) := by
    intro k m hm
    induction k with
    | zero =>
      intro _
      exact ⟨hm, fun h => h.resolve_right fun ⟨l, hl, _⟩ => absurd hl (Nat.not_lt_zero l)⟩
    | succ k ih =>
      intro hall
      obtain ⟨hlow, heq⟩ := ih fun l hl => hall l (Nat.lt_succ_of_lt hl)
      have hk := hall k (Nat.lt_succ_self k)
      rw [range_succ, foldl_append]
      change v ≤ min _ (f k) ∧ (_ → min _ (f k) = v)
      refine ⟨Nat.le_min.mpr ⟨hlow, hk⟩, fun h => ?_⟩
      rcases h with h | ⟨l, hl, hf⟩
      · rw [heq (.inl h)]
        exact min_eq_left hk
      · by_cases hlast : l = k
        · rw [hlast] at hf
          rw [hf]
          exact Nat.min_eq_right hlow
        · rw [heq (.inr ⟨l, by omega, hf⟩)]
          exact min_eq_left hk
  exact (hfold b (f 0) (hle 0 hb) hle).2 (.inr hv)

/-- **A block of the loop** writes the token if it holds it. -/
theorem drawBlock_eq (live : ℕ → Bool) (h : row.Crosses thr tgt t) {d : Draw} {c : ℕ}
    (hc : g.start row cta + c * g.block < g.stop row cta)
    (hacc : d.acc = row.keptUpTo thr (g.start row cta + c * g.block)) :
    (drawBlock row g thr tgt live cta d c).acc =
        row.keptUpTo thr (min (g.start row cta + c * g.block + g.block) (g.stop row cta)) ∧
      (drawBlock row g thr tgt live cta d c).tokens = d.tokens ++
        if g.start row cta + c * g.block ≤ t ∧ t < min (g.start row cta + c * g.block + g.block)
          (g.stop row cta)
          then [t] else [] := by
  have hcum :
      ∀ l, d.acc + ∑ i ∈ Finset.range l,
      (if (decide (g.start row cta + c * g.block + i < g.stop row cta ∧
      ofBits thr ≤ row.prob (g.start row cta + c * g.block + i))) = true then
        row.prob (g.start row cta + c * g.block + i) else 0) =
      row.keptUpTo thr (min (g.start row cta + c * g.block + l) (g.stop row cta)) := fun l => by
    rw [← keptUpTo_add_Ico
      (show g.start row cta + c * g.block ≤ min (g.start row cta + c * g.block + l)
      (g.stop row cta) by omega), hacc, ← sum_lanes]
    congr 1
    refine Finset.sum_congr rfl fun i _ => ?_
    simp only [decide_eq_true_eq, ite_and]
  have hstop : g.stop row cta ≤ row.size := min_le_right _ _
  unfold drawBlock
  refine ⟨hcum g.block, ?_⟩
  simp only [hcum, h.lt_iff]
  have hstart : d.acc ≤ tgt ↔ g.start row cta + c * g.block ≤ t := by rw [hacc, h.le_iff]
  by_cases hin : g.start row cta + c * g.block ≤ t ∧
    t < min (g.start row cta + c * g.block + g.block) (g.stop row cta)
  · -- the lane of the token is the first one beyond the target
    have hmin :
        laneMin g.block
        (fun l => if t < min (g.start row cta + c * g.block + (l + 1)) (g.stop row cta) then
        g.start row cta + c * g.block + l else row.size) = t := by
      refine laneMin_eq g.block_pos ⟨t - (g.start row cta + c * g.block), by omega, ?_⟩ fun l hl =>
        ?_
      · rw [if_pos (by omega)]
        omega
      · have hlt := h.lt_size
        split <;> omega
    rw [hmin, if_pos ⟨h.lt_size, hstart.mpr hin.1⟩, if_pos hin]
  · rw [if_neg hin, append_nil]
    refine if_neg fun hwrite => ?_
    have hle := hstart.mp hwrite.2
    have hmin :
        laneMin g.block
        (fun l => if t < min (g.start row cta + c * g.block + (l + 1)) (g.stop row cta) then
        g.start row cta + c * g.block + l else row.size) = row.size := by
      have hnone :
          ∀ l < g.block, ¬ t < min (g.start row cta + c * g.block + (l + 1)) (g.stop row cta) :=
          fun l hl => by omega
      refine laneMin_eq g.block_pos ⟨0, g.block_pos, if_neg (hnone 0 g.block_pos)⟩ fun l hl => ?_
      rw [if_neg (hnone l hl)]
    rw [hmin] at hwrite
    exact absurd hwrite.1 (lt_irrefl _)

/-- **The loop of a program.** -/
theorem foldl_drawBlock (live : ℕ → Bool) (h : row.Crosses thr tgt t) {T : ℕ}
    (hT : T ≤ trips (g.start row cta) (g.stop row cta) g.block) :
    ((range T).foldl (drawBlock row g thr tgt live cta)
        { acc := row.keptUpTo thr (min (g.start row cta) (g.stop row cta)) }).acc =
      row.keptUpTo thr (min (g.start row cta + T * g.block) (g.stop row cta)) ∧
    ((range T).foldl (drawBlock row g thr tgt live cta)
        { acc := row.keptUpTo thr (min (g.start row cta) (g.stop row cta)) }).tokens =
      (range T).flatMap fun c => if g.start row cta + c * g.block ≤ t ∧
        t < min (g.start row cta + c * g.block + g.block) (g.stop row cta) then [t] else [] := by
  induction T with
  | zero => exact ⟨by rw [Nat.zero_mul, add_zero]; rfl, rfl⟩
  | succ T ih =>
    obtain ⟨hacc, htokens⟩ := ih (Nat.le_of_succ_le hT)
    have hlt :=
      add_mul_lt (a := g.start row cta) (n := g.stop row cta) g.block_pos (Nat.lt_of_succ_le hT)
    rw [min_eq_left hlt.le] at hacc
    have hblock := drawBlock_eq live h hlt hacc
    rw [range_succ, foldl_append, flatMap_append, flatMap_singleton, ← htokens, add_mul, one_mul,
      ← add_assoc]
    exact hblock

/-- **A program** writes the token if its chunk holds it, where the rounding gap is no concern of
it. -/
theorem drawChunk_eq (h : row.Crosses thr tgt t) {acc incl : ℚ} {isLastMass : Bool}
    (hacc : acc = row.keptUpTo thr (min (cta * g.chunk row) row.size))
    (hincl : incl = row.keptUpTo thr (g.stop row cta))
    (hlast : g.stop row cta ≤ t → isLastMass = false) :
    drawChunk row g thr tgt acc incl isLastMass live cta =
      if cta * g.chunk row ≤ t ∧ t < min (cta * g.chunk row + g.chunk row) row.size then [t]
        else [] := by
  rw [← min_start_stop] at hacc
  subst hacc
  obtain ⟨hacc, htokens⟩ :=
    foldl_drawBlock live h (le_refl (trips (g.start row cta) (g.stop row cta) g.block))
  rw [Nat.min_eq_right (le_add_trips_mul g.block_pos)] at hacc
  rw [flatMap_tiles, Nat.min_eq_right (le_add_trips_mul g.block_pos)] at htokens
  unfold drawChunk
  dsimp only
  rw [htokens, if_neg fun hgap => ?_]
  · rfl
  · have hbehind := h.le_iff.mp (hacc ▸ hgap.1)
    rcases hgap.2.2 with hlt | hmass
    · rw [hincl, h.lt_iff] at hlt
      omega
    · rw [hlast hbehind] at hmass
      cases hmass

/-! ### The programs of a row -/

theorem le_nextPow2 (x : ℕ) : x ≤ nextPow2 x := by
  have hlt := Nat.lt_size_self (x - 1)
  unfold nextPow2
  omega

theorem sum_lanes_of_le {lanes : ℕ} (hcta : cta ≤ g.chunks) (hlanes : g.chunks ≤ lanes)
    (f : ℕ → ℚ) :
    ∑ goff ∈ Finset.range lanes, (if goff < cta then if goff < g.chunks then f goff else 0 else 0) =
      ∑ goff ∈ Finset.range cta, f goff := by
  rw [← Finset.sum_filter]
  have hsame : (Finset.range lanes).filter (fun goff => goff < cta) = Finset.range cta :=
    Finset.ext fun goff => by
    rw [Finset.mem_filter, Finset.mem_range, Finset.mem_range]
    omega
  rw [hsame]
  exact Finset.sum_congr rfl fun goff hgoff => if_pos (by rw [Finset.mem_range] at hgoff; omega)

theorem sum_psum {lanes : ℕ} (hlanes : g.chunks ≤ lanes) :
    ∑ goff ∈ Finset.range lanes, (if goff < g.chunks then keptChunk row g thr goff else 0) =
      row.keptUpTo thr row.size := by
  rw [← Finset.sum_filter]
  have hsame : (Finset.range lanes).filter (fun goff => goff < g.chunks) = Finset.range g.chunks :=
    Finset.ext fun goff => by
    rw [Finset.mem_filter, Finset.mem_range, Finset.mem_range]
    omega
  rw [hsame, sum_keptChunk_range, Nat.min_eq_right size_le_mul_chunk]

theorem keptChunk_nonneg (cta : ℕ) : 0 ≤ keptChunk row g thr cta := by
  unfold keptChunk
  refine Finset.sum_nonneg fun c _ => Finset.sum_nonneg fun l _ => ?_
  split
  · exact kept_nonneg _
  · exact le_refl 0

theorem exists_later (h : row.Crosses thr tgt t) (hstop : g.stop row cta ≤ t) :
    ∃ c, cta < c ∧ c < g.chunks ∧ 0 < keptChunk row g thr c := by
  by_contra hnone
  push Not at hnone
  have hzero : ∀ c ∈ Finset.Ico (cta + 1) g.chunks, keptChunk row g thr c = 0 := fun c hc => by
    rw [Finset.mem_Ico] at hc
    exact le_antisymm (hnone c (by omega) hc.2) (keptChunk_nonneg c)
  have hlt := h.lt_size
  have hchunks : cta + 1 ≤ g.chunks := by
    by_contra hle
    have hmul : g.chunks * g.chunk row ≤ (cta + 1) * g.chunk row :=
      Nat.mul_le_mul_right _ (by omega)
    have hsize : row.size ≤ g.chunks * g.chunk row := size_le_mul_chunk
    rw [stop_eq] at hstop
    omega
  have hsum : ∑ c ∈ Finset.range g.chunks, keptChunk row g thr c =
      row.keptUpTo thr (min (g.chunks * g.chunk row) row.size) := sum_keptChunk_range g.chunks
  rw [← Finset.sum_range_add_sum_Ico _ hchunks, Finset.sum_eq_zero hzero, add_zero,
    sum_keptChunk_range, ← stop_eq, Nat.min_eq_right size_le_mul_chunk] at hsum
  have hbefore := h.le_iff.mpr hstop
  have hafter := h.lt_iff.mpr hlt
  rw [hsum] at hbefore
  exact absurd hafter (not_lt.mpr hbefore)

theorem keepTail_eq (h : row.Crosses thr (u * row.keptUpTo thr row.size) t)
    (hcta : cta < g.chunks) :
    keepTail row g thr u cta =
      if cta * g.chunk row ≤ t ∧ t < min (cta * g.chunk row + g.chunk row) row.size then [t]
        else [] := by
  unfold keepTail
  dsimp only
  rw [sum_psum (le_nextPow2 g.chunks)]
  refine drawChunk_eq h ?_ ?_ fun hstop => ?_
  · rw [sum_lanes_of_le hcta.le (le_nextPow2 g.chunks), sum_keptChunk_range]
  · simp only [← Nat.lt_succ_iff]
    rw [sum_lanes_of_le (Nat.succ_le_of_lt hcta) (le_nextPow2 g.chunks), sum_keptChunk_range,
      stop_eq]
  · obtain ⟨c, hlater, hc, hmass⟩ := exists_later h hstop
    refine decide_eq_false fun hzero => ?_
    have hmem := Finset.sum_eq_zero_iff.mp hzero c
      (Finset.mem_range.mpr (hc.trans_le (le_nextPow2 g.chunks)))
    rw [if_pos ⟨hlater, by rwa [if_pos hc]⟩] at hmem
    cases hmem

theorem drawFind_eq (h : row.Crosses thr (u * row.keptUpTo thr row.size) t)
    (hcta : cta < g.chunks) :
    drawFind row g thr u cta =
      if cta * g.chunk row ≤ t ∧ t < min (cta * g.chunk row + g.chunk row) row.size then [t]
        else [] := by
  have hchoff :
      ∑ goff ∈ Finset.range (cta + 1), (if goff < g.chunks then keptChunk row g thr goff else 0) -
      (if cta < g.chunks then keptChunk row g thr cta else 0) = ∑ goff ∈ Finset.range cta, keptChunk
        row g thr goff := by
    rw [Finset.sum_range_succ, add_sub_cancel_right]
    exact Finset.sum_congr rfl fun goff hgoff => if_pos (by rw [Finset.mem_range] at hgoff; omega)
  unfold drawFind
  dsimp only
  rw [sum_psum (le_nextPow2 g.chunks), hchoff, if_pos hcta]
  refine drawChunk_eq h (sum_keptChunk_range cta) ?_ fun hstop => ?_
  · rw [← Finset.sum_range_succ, sum_keptChunk_range, stop_eq]
  · obtain ⟨c, hlater, hc, hmass⟩ := exists_later h hstop
    refine decide_eq_false fun hlast => ?_
    have hle := le_lastWhere
      (p := fun goff => goff < g.chunks ∧ 0 < if goff < g.chunks then keptChunk row g thr goff
        else 0) (hc.trans_le (le_nextPow2 g.chunks)) (decide_eq_true ⟨hc, by rwa [if_pos hc]⟩)
    omega

theorem flatMap_programs {write : ℕ → List ℕ} (ht : t < row.size)
    (hwrite : ∀ cta < g.chunks, write cta =
    if cta * g.chunk row ≤ t ∧ t < min (cta * g.chunk row + g.chunk row) row.size then [t]
      else []) :
    (range g.chunks).flatMap write = [t] := by
  have htiles := flatMap_tiles 0 (g.chunk row) row.size t g.chunks
  simp only [zero_add] at htiles
  rw [Nat.min_eq_right size_le_mul_chunk, if_pos ⟨Nat.zero_le t, ht⟩] at htiles
  rw [← htiles]
  exact flatMap_congr fun cta hcta => hwrite cta (mem_range.mp hcta)

/-- The first token whose cumulative kept mass exceeds the target. -/
def Row.IsDrawn (row : Row) (thr : ℤ) (u : ℚ) (t : ℕ) : Prop :=
  t < row.size ∧ IsLeast {t | u * row.mass thr < row.keptUpTo thr (t + 1)} t

theorem exists_isDrawn (hthr : 0 ≤ thr) (hmass : 0 < row.mass thr) (hu : 0 ≤ u) (hu' : u < 1) :
    ∃ t, row.IsDrawn thr u t ∧ row.Crosses thr (u * row.keptUpTo thr row.size) t := by
  have hlt : u * row.keptUpTo thr row.size < row.keptUpTo thr row.size := by
    rw [keptUpTo_size hthr]
    exact mul_lt_of_lt_one_left hmass hu'
  have hempty : row.keptUpTo thr 0 = 0 := Finset.sum_range_zero _
  have hpos : row.size ≠ 0 := fun hzero => by
    rw [hzero, hempty, mul_zero] at hlt
    exact lt_irrefl 0 hlt
  have hex : ∃ t, u * row.keptUpTo thr row.size < row.keptUpTo thr (t + 1) :=
    ⟨row.size - 1, by rwa [Nat.sub_add_cancel (Nat.pos_of_ne_zero hpos)]⟩
  have hsize : Nat.find hex < row.size := by
    have hle := Nat.find_min' hex (m := row.size - 1)
      (by rwa [Nat.sub_add_cancel (Nat.pos_of_ne_zero hpos)])
    omega
  refine ⟨Nat.find hex, ⟨hsize, ?_⟩, ⟨hsize, ?_, Nat.find_spec hex⟩⟩
  · rw [← keptUpTo_size hthr]
    exact ⟨Nat.find_spec hex, fun t ht => Nat.find_min' hex ht⟩
  · cases hfind : Nat.find hex with
    | zero =>
      rw [hempty, keptUpTo_size hthr]
      exact mul_nonneg hu hmass.le
    | succ t => exact not_lt.mp (Nat.find_min hex (by omega))

/-- The token is kept, and has mass. -/
theorem Row.Crosses.prob_pos (h : row.Crosses thr tgt t) :
    ofBits thr ≤ row.prob t ∧ 0 < row.prob t := by
  have hlt := h.before.trans_lt h.after
  unfold Row.keptUpTo at hlt
  rw [Finset.sum_range_succ, lt_add_iff_pos_right] at hlt
  split at hlt
  · next hkept => exact ⟨hkept, hlt⟩
  · exact absurd hlt (lt_irrefl 0)

def Draws (row : Row) (g : Grid) (thr : ℤ) (u : ℚ) : Prop :=
  ∃ t, fusedTokens row g thr u = [t] ∧ drawTokens row g thr u = [t] ∧ row.IsDrawn thr u t ∧
    ofBits thr ≤ row.prob t ∧ 0 < row.prob t

/-- **One token is written**, the same by both ways to draw. -/
theorem draws (hthr : 0 ≤ thr) (hmass : 0 < row.mass thr) (hu : 0 ≤ u) (hu' : u < 1) :
    Draws row g thr u := by
  obtain ⟨t, hdrawn, hcrosses⟩ := exists_isDrawn hthr hmass hu hu'
  exact ⟨t, flatMap_programs hcrosses.lt_size fun cta hcta =>
    keepTail_eq hcrosses hcta, flatMap_programs hcrosses.lt_size fun cta hcta =>
    drawFind_eq hcrosses hcta, hdrawn, hcrosses.prob_pos⟩

/-! ### The thresholds and the draw -/

/-- The threshold that a top-p without a top-k comes to. -/
def Row.IsPlainCrossing (row : Row) (p : ℚ) (thr : ℤ) : Prop :=
  if p ≤ row.mass 0 then row.IsCrossing 0 p thr else thr = 0

theorem toppThreshold_isPlainCrossing {p : ℚ} (hp : 0 < p) :
    row.IsPlainCrossing p (toppThreshold row g none p) := by
  unfold Row.IsPlainCrossing
  split
  · next hmass => exact toppThreshold_none hp hmass
  · next hmass => exact toppThreshold_none_of_lt (not_le.mp hmass)

theorem Row.IsPlainCrossing.unique {p : ℚ} {a b : ℤ} (ha : row.IsPlainCrossing p a)
    (hb : row.IsPlainCrossing p b) :
    a = b := by
  unfold Row.IsPlainCrossing at ha hb
  split at ha
  · next hmass =>
    rw [if_pos hmass] at hb
    exact IsGreatest.unique ha hb
  · next hmass =>
    rw [if_neg hmass] at hb
    exact ha.trans hb.symm

/-- A threshold that the mass reaches keeps some. -/
theorem Row.IsCrossing.keeps {start : ℤ} {target : ℚ} (h : row.IsCrossing start target thr)
    (hstart : 0 ≤ start) (hpos : 0 < target) : 0 ≤ thr ∧ 0 < row.mass thr :=
  ⟨hstart.trans h.1.2.1, hpos.trans_le h.1.2.2⟩

/-- **The sampling kernels select and draw exactly.** -/
theorem sampling_exact (row : Row) (g : Grid) (hmass : 0 < row.mass 0) {k : ℤ} (hk : 1 ≤ k) {p : ℚ}
    (hp : 0 < p) (hp' : p ≤ 1) (hu : 0 ≤ u) (hu' : u < 1) :
    topkThreshold row g k = row.kthGreatest k ∧
    row.IsCrossing (row.kthGreatest k) (p * row.mass (row.kthGreatest k))
      (toppThreshold row g (some k) p) ∧
    row.IsPlainCrossing p (toppThreshold row g none p) ∧
    (∀ g' : Grid, topkThreshold row g' k = topkThreshold row g k ∧
      ∀ topK : Option ℤ, (∀ k' ∈ topK, 1 ≤ k') →
      toppThreshold row g' topK p = toppThreshold row g topK p) ∧
    Draws row g 0 u ∧ Draws row g (topkThreshold row g k) u ∧
      Draws row g (toppThreshold row g (some k) p) u ∧
      Draws row g (toppThreshold row g none p) u := by
  have htopk : 0 ≤ topkThreshold row g k := topkThreshold_nonneg hk
  have hkept := mass_topkThreshold_pos (g := g) hk hmass
  have htopp := toppThreshold_some (g := g) hk hp hp' hmass
  have hplain : row.IsPlainCrossing p (toppThreshold row g none p) :=
    toppThreshold_isPlainCrossing hp
  have hnone : 0 ≤ toppThreshold row g none p ∧ 0 < row.mass (toppThreshold row g none p) := by
    by_cases hle : p ≤ row.mass 0
    · exact (toppThreshold_none hp hle).keeps (Int.le_refl 0) hp
    · rw [toppThreshold_none_of_lt (not_le.mp hle)]
      exact ⟨Int.le_refl 0, hmass⟩
  have hsome :
    0 ≤ toppThreshold row g (some k) p ∧ 0 < row.mass (toppThreshold row g (some k) p) := by
    rw [topkThreshold_eq hk] at htopk hkept
    exact htopp.keeps htopk (mul_pos hp hkept)
  refine ⟨topkThreshold_eq hk, htopp, hplain, fun g' => ⟨?_, fun topK hpos => ?_⟩, draws
    (Int.le_refl 0) hmass hu hu', draws htopk hkept hu hu', draws hsome.1 hsome.2 hu hu', draws
    hnone.1 hnone.2 hu hu'⟩
  · rw [topkThreshold_eq hk, topkThreshold_eq hk]
  · cases topK with
    | none => exact (toppThreshold_isPlainCrossing hp).unique hplain
    | some k' =>
      have hk' := hpos k' rfl
      exact IsGreatest.unique (toppThreshold_some hk' hp hp' hmass)
        (toppThreshold_some hk' hp hp' hmass)

def twoTokens : Row where
  size := 2
  bits i := if i = 0 then 1065353216 else 1056964608
  nonneg i _ := by split <;> decide
  finite i _ := by split <;> decide

def twoPrograms : Grid := ⟨2, 4, two_pos, by decide⟩

theorem mass_twoTokens : twoTokens.mass 0 = 3 / 2 ∧ twoTokens.mass 1065353216 = 1 := by
  have hone : ofBits 1065353216 = 1 := by
    change ((units 1065353216 : ℕ) : ℚ) / 2 ^ 149 = 1
    norm_num [units]
  have hhalf : ofBits 1056964608 = 1 / 2 := by
    change ((units 1056964608 : ℕ) : ℚ) / 2 ^ 149 = 1 / 2
    norm_num [units]
  unfold Row.mass Row.tail
  norm_num [twoTokens, Row.prob, Finset.sum_range_succ, hone, hhalf]

/-- The second token is drawn. -/
theorem sampling_exact_twoTokens :
    toppThreshold twoTokens twoPrograms none (1 / 2) = 1065353216 ∧
      Draws twoTokens twoPrograms 0 (9 / 10) := by
  have hmass := mass_twoTokens.1
  have hall := sampling_exact twoTokens twoPrograms (by rw [hmass]; norm_num) (k := 1) (by decide)
    (p := 1 / 2) (by norm_num) (by norm_num) (u := 9 / 10) (by norm_num) (by norm_num)
  refine ⟨?_, hall.2.2.2.2.1⟩
  have hplain := hall.2.2.1
  unfold Row.IsPlainCrossing at hplain
  rw [if_pos (by rw [hmass]; norm_num)] at hplain
  refine IsGreatest.unique hplain
    ⟨⟨⟨0, by decide, rfl⟩, by decide, by rw [mass_twoTokens.2]; norm_num⟩, ?_⟩
  rintro v ⟨⟨i, -, rfl⟩, -⟩
  unfold twoTokens
  dsimp only
  split <;> decide

/-- Without a top-k, the target is not scaled by the mass of the row. -/
theorem not_sampling_scaled :
    ¬ ∀ (row : Row) (g : Grid) (p : ℚ), 0 < row.mass 0 → 0 < p → p ≤ 1 →
      row.IsCrossing 0 (p * row.mass 0) (toppThreshold row g none p) := by
  intro hall
  have hmass := mass_twoTokens.1
  have hclaimed := hall twoTokens twoPrograms 1 (by rw [hmass]; norm_num) one_pos (le_refl 1)
  have hfound : twoTokens.IsCrossing 0 1 (toppThreshold twoTokens twoPrograms none 1) :=
    toppThreshold_none one_pos (by rw [hmass]; norm_num)
  -- the code finds the token with 1, whose mass is 1
  have hle : (1065353216 : ℤ) ≤ toppThreshold twoTokens twoPrograms none 1 :=
    hfound.2 ⟨⟨0, by decide, rfl⟩, by decide, mass_twoTokens.2.ge⟩
  have hreach := hclaimed.1.2.2.trans (mass_antitone hle)
  rw [hmass, mass_twoTokens.2] at hreach
  norm_num at hreach

end Sampling

end FreeToken
