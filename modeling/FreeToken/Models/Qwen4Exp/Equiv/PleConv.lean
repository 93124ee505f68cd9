import FreeToken.Lib.MapM
import FreeToken.Models.Qwen4Exp.PleConv
import Mathlib.Algebra.Ring.Int.Defs
import Mathlib.Algebra.Ring.Nat
import Mathlib.Data.List.GetD

/-!
# The packed convolution is the one of each request

* `soloRows`, `soloState`: what a request gets that is convolved alone, and `soloRows_append`: chunk
  after chunk it gets the same.
* `laid_history`: in the packed history, the state and the chunk of a request are one behind the
  other.
* `shortConv_eq`: so every forward gives each request what it gets alone.
-/

namespace FreeToken.PleConv

open List

variable {κ R : Type} [CommRing R] {a : ConvArgs κ R} {states : ConvStates κ R}
  {reqs : List (ConvReq κ R)} {state x y : List (Column κ R)} {r : ConvReq κ R} {slot : ℕ}

/-! ### A request alone -/

omit [CommRing R] in
theorem ConvArgs.stateLen_pos (a : ConvArgs κ R) : 0 < a.stateLen :=
  Nat.mul_pos (Nat.sub_pos_of_lt a.one_lt_kernel) a.dilation_pos

omit [CommRing R] in
theorem ConvArgs.tap_le (a : ConvArgs κ R) {j : ℕ} (hj : j < a.kernel) :
    j * a.dilation ≤ a.stateLen :=
  Nat.mul_le_mul_right _ (Nat.le_sub_one_of_lt hj)

theorem ConvArgs.tap_congr {w w' : ℕ → Column κ R} (h : ∀ j < a.kernel, w j = w' j) :
    a.tap w = a.tap w' := by
  funext ch
  refine Finset.sum_congr rfl fun j hj => ?_
  rw [h j (Finset.mem_range.mp hj)]

def soloRows (a : ConvArgs κ R) (state x : List (Column κ R)) : List (Column κ R) :=
  (range x.length).map fun t => a.act (a.tap fun j => (state ++ x).getD (t + j * a.dilation) 0)

def soloState (state x : List (Column κ R)) : List (Column κ R) := (state ++ x).drop x.length

theorem length_soloRows :
    (soloRows a state x).length = x.length := by rw [soloRows, length_map, length_range]

omit [CommRing R] in
theorem length_soloState (state x : List (Column κ R)) :
    (soloState state x).length = state.length := by
  rw [soloState, length_drop, length_append, Nat.add_sub_cancel]

omit [CommRing R] in
theorem soloState_append (state x y : List (Column κ R)) :
    soloState state (x ++ y) = soloState (soloState state x) y := by
  rw [soloState, soloState, soloState, length_append, ← drop_drop, ← append_assoc,
    drop_append_of_le_length (by rw [length_append]; omega)]

/-- **Chunk after chunk** a request gets what it gets at once. -/
theorem soloRows_append (hlen : state.length = a.stateLen) :
    soloRows a state (x ++ y) = soloRows a state x ++ soloRows a (soloState state x) y := by
  rw [soloRows, length_append, range_add, map_append, map_map]
  congr 1
  · refine map_congr_left fun t ht => congrArg a.act (ConvArgs.tap_congr fun j hj => ?_)
    have hle := a.tap_le hj
    rw [mem_range] at ht
    rw [← append_assoc, getD_append _ _ _ _ (by rw [length_append]; omega)]
  · refine map_congr_left fun t _ => congrArg a.act (ConvArgs.tap_congr fun j _ => ?_)
    have hdrop : soloState state x ++ y = (state ++ (x ++ y)).drop x.length := by
      rw [← append_assoc, drop_append_of_le_length (by rw [length_append]; omega), soloState]
    rw [hdrop, getD_eq_getElem?_getD, getD_eq_getElem?_getD, getElem?_drop, Nat.add_assoc]

theorem length_readState (hstates : ∀ slot, (states slot).length = a.stateLen) (r : ConvReq κ R) :
    (readState states r).length = a.stateLen := by
  unfold readState
  split_ifs with hfresh
  · rw [length_map, hstates]
  · exact hstates r.slot

/-- **The reference**, for a request with a token. -/
theorem shortConvReference_single (hstates : ∀ slot, (states slot).length = a.stateLen)
    (hx : r.x ≠ []) :
    shortConvReference a [r] states = some (soloRows a (readState states r) r.x,
      indexPut states [r.slot] [soloState (readState states r) r.x]) := by
  have hlen := length_readState hstates r
  have hpos : 0 < r.x.length := List.length_pos_iff.mpr hx
  have hhist :
    (readState states r ++ r.x).length = a.stateLen + r.x.length := by rw [length_append, hlen]
  have hconv : a.conv1d (a.stateLen + r.x.length) (fun p => (readState states r ++ r.x).getD p 0)
      = some ((range r.x.length).map fun p => a.tap fun j => (readState states r ++ r.x).getD
        (p + j * a.dilation) 0) := by
    rw [ConvArgs.conv1d, if_neg (by omega), Nat.add_sub_cancel_left]
  rw [shortConvReference, mapM_cons, mapM_nil]
  dsimp only
  rw [hhist, hconv, Nat.add_sub_cancel_left]
  simp only [soloRows, soloState, Option.map_some, map_cons, map_nil, Option.pure_def,
    Option.bind_eq_bind, Option.bind_some, flatMap_cons, flatMap_nil, append_nil, map_map]
  rfl

/-! ### A decode step -/

theorem getD_strided (hlen : state.length = a.stateLen) (c : Column κ R) {j : ℕ}
    (hj : j < a.kernel) :
    (strided a.dilation state ++ [c]).getD j 0 = (state ++ [c]).getD (j * a.dilation) 0 := by
  have hcount : (state.length + a.dilation - 1) / a.dilation = a.kernel - 1 := by
    rw [hlen, ConvArgs.stateLen, Nat.add_sub_assoc a.dilation_pos, Nat.add_comm,
      Nat.add_mul_div_right _ _ a.dilation_pos, Nat.div_eq_of_lt
      (Nat.sub_one_lt (Nat.ne_of_gt a.dilation_pos)), Nat.zero_add]
  have hstrided : (strided a.dilation state).length = a.kernel - 1 := by
    rw [strided, length_map, length_range, hcount]
  rcases lt_or_ge j (a.kernel - 1) with hlt | hge
  · have hplace : j * a.dilation < state.length := by
      rw [hlen, ConvArgs.stateLen]
      exact Nat.mul_lt_mul_of_pos_right hlt a.dilation_pos
    rw [getD_append _ _ _ _ (by omega), getD_append _ _ _ _ hplace, strided, hcount]
    simp [hlt]
  · -- the last tap is the token itself
    have hlast : j = a.kernel - 1 := by omega
    have hend : (a.kernel - 1) * a.dilation = state.length := hlen.symm
    rw [hlast, hend, ← hstrided]
    simp

theorem zipWith_single {α β : Type} {f : α → Column κ R → β} {g : ConvReq κ R → α}
    (hone : ∀ r ∈ reqs, r.x.length = 1) :
    zipWith f (reqs.map g) (reqs.flatMap ConvReq.x) = reqs.map fun r => f (g r) (r.x.headD 0) := by
  induction reqs with
  | nil => rfl
  | cons r reqs ih =>
    obtain ⟨c, hc⟩ := List.length_eq_one_iff.mp (hone r mem_cons_self)
    rw [map_cons, flatMap_cons, hc, singleton_append, zipWith_cons_cons,
      ih fun r hr => hone r (mem_cons_of_mem _ hr), map_cons, hc, headD_cons]

theorem decodeConv_eq (hstates : ∀ slot, (states slot).length = a.stateLen)
    (hone : ∀ r ∈ reqs, r.x.length = 1) :
    decodeConv a reqs states = (reqs.flatMap fun r => soloRows a (readState states r) r.x,
      indexPut states (reqs.map ConvReq.slot)
        (reqs.map fun r => soloState (readState states r) r.x)) := by
  rw [decodeConv, zipWith_single hone, zipWith_single hone, map_map,
    ← flatMap_singleton' (List.map _ reqs), flatMap_map]
  refine Prod.ext (flatMap_congr fun r hr => ?_)
    (congrArg (indexPut states (reqs.map ConvReq.slot)) (map_congr_left fun r hr => ?_))
  · obtain ⟨c, hc⟩ := List.length_eq_one_iff.mp (hone r hr)
    have hlen := length_readState hstates r
    simp only [soloRows, hc, length_singleton, headD_cons, Function.comp_apply]
    refine congrArg (fun w => [a.act w]) (ConvArgs.tap_congr fun j hj => ?_)
    rw [Nat.zero_add]
    exact getD_strided hlen c hj
  · obtain ⟨c, hc⟩ := List.length_eq_one_iff.mp (hone r hr)
    have hpos : 1 ≤ (readState states r).length := by
      rw [length_readState hstates r]
      exact a.stateLen_pos
    rw [soloState, hc, headD_cons, length_singleton, drop_append_of_le_length hpos]

/-! ### The columns of the packed history -/

variable {S b c i : ℕ} {lens : List ℕ}

/-- The columns of the outputs, the first request from `b` on. -/
def outIdx (S b : ℕ) : List ℕ → List ℕ
  | [] => []
  | n :: lens => List.range' b n ++ outIdx S (b + S + n) lens

def stateIdx (S b : ℕ) : List ℕ → List ℕ
  | [] => []
  | n :: lens => List.range' b S ++ stateIdx S (b + S + n) lens

def nextIdx (S b : ℕ) : List ℕ → List ℕ
  | [] => []
  | n :: lens => List.range' (b + n) S ++ nextIdx S (b + S + n) lens

def bases (S b : ℕ) : List ℕ → List ℕ
  | [] => []
  | n :: lens => b :: bases S (b + S + n) lens

theorem bases_eq (c i : ℕ) (lens : List ℕ) :
    zipWith (· + ·) (lens.scanl (· + ·) c).dropLast ((List.range' i lens.length).map (· * S)) =
      bases S (c + i * S) lens := by
  induction lens generalizing c i with
  | nil => rfl
  | cons n lens ih =>
    have hne : lens.scanl (· + ·) (c + n) ≠ [] := scanl_ne_nil
    have hnext : c + i * S + S + n = c + n + (i + 1) * S := by
      rw [Nat.succ_mul]
      omega
    rw [scanl_cons, length_cons, range'_succ, map_cons, dropLast_cons_of_ne_nil hne,
      zipWith_cons_cons, ih, bases, hnext]

theorem range'_eq_map (b n : ℕ) : List.range' b n = (range n).map (b + ·) := by
  rw [range_eq_range', map_add_range', add_zero]

theorem stateIdx_eq (b : ℕ) (lens : List ℕ) :
    (bases S b lens).flatMap (fun b => (range S).map (b + ·)) = stateIdx S b lens := by
  induction lens generalizing b with
  | nil => rfl
  | cons n lens ih => rw [bases, flatMap_cons, ih, stateIdx, range'_eq_map]

theorem nextIdx_eq (b : ℕ) (lens : List ℕ) :
    (zipWith (· + ·) (bases S b lens) lens).flatMap (fun b => (range S).map (b + ·)) =
    nextIdx S b lens := by
  induction lens generalizing b with
  | nil => rfl
  | cons n lens ih => rw [bases, zipWith_cons_cons, flatMap_cons, ih, nextIdx, range'_eq_map]

theorem outIdx_eq (c i : ℕ) (lens : List ℕ) :
    zipWith (· + ·) (List.range' c lens.sum)
      (repeatInterleave ((List.range' i lens.length).map (· * S)) lens)
      = outIdx S (c + i * S) lens := by
  induction lens generalizing c i with
  | nil => rfl
  | cons n lens ih =>
    have hnext : c + i * S + S + n = c + n + (i + 1) * S := by
      rw [Nat.succ_mul]
      omega
    have hblock :
        zipWith (· + ·) (List.range' c n) (replicate n (i * S)) = List.range' (c + i * S) n := by
      refine ext_getElem (by simp) fun k h₁ h₂ => ?_
      simp
      omega
    rw [repeatInterleave, length_cons, range'_succ, map_cons, zipWith_cons_cons, flatten_cons,
      sum_cons, ← List.range'_append_1, zipWith_append (by simp), hblock, outIdx, hnext, ← ih]
    rfl

theorem prefillIndices_eq (S : ℕ) (lens : List ℕ) :
    prefillIndices S lens = (outIdx S 0 lens, stateIdx S 0 lens, nextIdx S 0 lens) := by
  have hlast : ∀ (c : ℕ) (lens : List ℕ), (lens.scanl (· + ·) c).getLastD 0 = c + lens.sum := by
    intro c lens
    induction lens generalizing c with
    | nil => rfl
    | cons n lens ih =>
      have hne : lens.scanl (· + ·) (c + n) ≠ [] := scanl_ne_nil
      rw [scanl_cons, getLastD_cons, sum_cons, ← Nat.add_assoc, ← ih (c + n),
        getLastD_eq_getLast?, getLastD_eq_getLast?, getLast?_eq_some_getLast hne]
      rfl
  have hbases := bases_eq (S := S) 0 0 lens
  have hout := outIdx_eq (S := S) 0 0 lens
  simp only [Nat.zero_mul, add_zero, ← range_eq_range'] at hbases hout
  rw [prefillIndices, hlast, Nat.zero_add, hbases, hout, stateIdx_eq, nextIdx_eq]

/-! ### The packed history -/

theorem mem_outIdx_le {p : ℕ} (hp : p ∈ outIdx S b lens) :
    b ≤ p ∧ p + S < b + lens.sum + lens.length * S := by
  induction lens generalizing b with
  | nil => cases hp
  | cons n lens ih =>
    rw [sum_cons, length_cons, Nat.succ_mul]
    rcases mem_append.mp hp with hp | hp
    · rw [mem_range'_1] at hp
      omega
    · have h := ih hp
      omega

theorem mem_stateIdx_le {p : ℕ} (hp : p ∈ stateIdx S b lens) : b ≤ p := by
  induction lens generalizing b with
  | nil => cases hp
  | cons n lens ih =>
    rcases mem_append.mp hp with hp | hp
    · exact (mem_range'_1.mp hp).1
    · have h := ih hp
      omega

theorem nodup_outIdx (b : ℕ) (lens : List ℕ) : (outIdx S b lens).Nodup := by
  induction lens generalizing b with
  | nil => exact nodup_nil
  | cons n lens ih =>
    refine nodup_append.mpr ⟨nodup_range', ih _, fun p hp p' hp' => ?_⟩
    rw [mem_range'_1] at hp
    have h := (mem_outIdx_le hp').1
    omega

theorem nodup_stateIdx (b : ℕ) (lens : List ℕ) : (stateIdx S b lens).Nodup := by
  induction lens generalizing b with
  | nil => exact nodup_nil
  | cons n lens ih =>
    refine nodup_append.mpr ⟨nodup_range', ih _, fun p hp p' hp' => ?_⟩
    rw [mem_range'_1] at hp
    have h := mem_stateIdx_le hp'
    omega

/-- No output is stored over a state. -/
theorem outIdx_add_notMem {p : ℕ} (hp : p ∈ outIdx S b lens) : p + S ∉ stateIdx S b lens := by
  intro hstate
  induction lens generalizing b with
  | nil => cases hp
  | cons n lens ih =>
    rcases mem_append.mp hp with hp | hp <;> rcases mem_append.mp hstate with hstate | hstate
    · rw [mem_range'_1] at hp hstate
      omega
    · rw [mem_range'_1] at hp
      have h := mem_stateIdx_le hstate
      omega
    · rw [mem_range'_1] at hstate
      have h := (mem_outIdx_le hp).1
      omega
    · exact ih hp hstate

theorem length_outIdx (b : ℕ) (lens : List ℕ) : (outIdx S b lens).length = lens.sum := by
  induction lens generalizing b with
  | nil => rfl
  | cons n lens ih => rw [outIdx, length_append, length_range', ih, sum_cons]

theorem length_stateIdx (b : ℕ) (lens : List ℕ) : (stateIdx S b lens).length = lens.length * S := by
  induction lens generalizing b with
  | nil => exact (Nat.zero_mul S).symm
  | cons n lens ih =>
    rw [stateIdx, length_append, length_range', ih, length_cons, Nat.succ_mul, Nat.add_comm]

def lensOf (reqs : List (ConvReq κ R)) : List ℕ := reqs.map fun r => r.x.length

/-- From `b` on, the state and the chunk of each request. -/
def Laid (S : ℕ) (states : ConvStates κ R) (history : ℕ → Column κ R) :
    ℕ → List (ConvReq κ R) → Prop
  | _, [] => True
  | b, r :: reqs => (List.range' b (S + r.x.length)).map history = readState states r ++ r.x ∧
      Laid S states history (b + S + r.x.length) reqs

variable {history : ℕ → Column κ R}

theorem laid_of_map (hlen : ∀ r, (readState states r).length = S) (b : ℕ)
    (reqs : List (ConvReq κ R))
    (hstate : (stateIdx S b (lensOf reqs)).map history = reqs.flatMap (readState states))
    (hout : ((outIdx S b (lensOf reqs)).map (· + S)).map history = reqs.flatMap ConvReq.x) :
    Laid S states history b reqs := by
  induction reqs generalizing b with
  | nil => trivial
  | cons r reqs ih =>
    rw [lensOf, map_cons, stateIdx, map_append, flatMap_cons] at hstate
    rw [lensOf, map_cons, outIdx, map_append, map_append, flatMap_cons] at hout
    obtain ⟨hs, hs'⟩ := append_inj hstate (by rw [length_map, length_range', hlen])
    obtain ⟨ho, ho'⟩ := append_inj hout (by rw [length_map, length_map, length_range'])
    refine ⟨?_, ih _ hs' ho'⟩
    have hshift : List.range' (b + S) r.x.length = (List.range' b r.x.length).map (· + S) := by
      rw [Nat.add_comm b S, ← map_add_range']
      exact map_congr_left fun p _ => Nat.add_comm S p
    rw [← List.range'_append_1, map_append, hs, hshift, ho]

/-- **The packed history**: the two stores do not meet. -/
theorem laid_history (hstates : ∀ slot, (states slot).length = a.stateLen) (buffer : ℕ → Column κ R)
    (reqs : List (ConvReq κ R)) :
    Laid a.stateLen states
      (indexPut
        (indexPut buffer (stateIdx a.stateLen 0 (lensOf reqs)) (reqs.flatMap (readState states)))
        ((outIdx a.stateLen 0 (lensOf reqs)).map (· + a.stateLen)) (reqs.flatMap ConvReq.x)) 0
        reqs := by
  have hlen := length_readState hstates
  have hstateLen :
      (stateIdx a.stateLen 0 (lensOf reqs)).length = (reqs.flatMap (readState states)).length := by
    rw [length_stateIdx, length_flatMap, map_congr_left fun r _ => hlen r, map_const',
      sum_replicate, lensOf, length_map]
    rfl
  have houtLen :
      ((outIdx a.stateLen 0 (lensOf reqs)).map (· + a.stateLen)).length =
      (reqs.flatMap ConvReq.x).length := by
    rw [length_map, length_outIdx, length_flatMap]
    rfl
  refine laid_of_map hlen 0 reqs ?_
    (map_indexPut ((nodup_outIdx 0 _).map (add_left_injective _)) houtLen)
  refine (map_congr_left fun p hp => indexPut_of_notMem fun hout => ?_).trans
    (map_indexPut (t := buffer) (nodup_stateIdx 0 (lensOf reqs)) hstateLen)
  obtain ⟨p', hp', rfl⟩ := mem_map.mp hout
  exact outIdx_add_notMem hp' hp

/-! ### The packed convolution -/

/-- The outputs of the packed convolution at the columns of a request are its own. -/
theorem Laid.outputs {b : ℕ}
    (h : Laid a.stateLen states history b reqs) :
    ((outIdx a.stateLen b (lensOf reqs)).map fun p =>
      a.act (a.tap fun j => history (p + j * a.dilation)))
      = reqs.flatMap fun r => soloRows a (readState states r) r.x := by
  induction reqs generalizing b with
  | nil => rfl
  | cons r reqs ih =>
    obtain ⟨hr, hrest⟩ := h
    rw [lensOf, map_cons, outIdx, map_append, flatMap_cons]
    refine congrArg₂ (· ++ ·) ?_ (ih hrest)
    rw [range'_eq_map, map_map, soloRows]
    refine map_congr_left fun t ht => congrArg a.act (ConvArgs.tap_congr fun j hj => ?_)
    rw [mem_range] at ht
    have hle := a.tap_le hj
    have hplace : t + j * a.dilation < a.stateLen + r.x.length := by omega
    rw [← hr, getD_eq_getElem?_getD, List.getElem?_map, List.getElem?_range' hplace,
      Option.map_some, Option.getD_some, Nat.one_mul, Nat.add_assoc]

theorem Laid.nextStates {b : ℕ}
    (h : Laid S states history b reqs) :
    viewRows reqs.length S ((nextIdx S b (lensOf reqs)).map history) = reqs.map fun r =>
      soloState (readState states r) r.x := by
  induction reqs generalizing b with
  | nil => rfl
  | cons r reqs ih =>
    obtain ⟨hr, hrest⟩ := h
    have hhead :
      (List.range' (b + r.x.length) S).map history = soloState (readState states r) r.x := by
      rw [soloState, ← hr, ← map_drop, Nat.add_comm S, ← List.range'_append_1,
        drop_left' length_range']
    have hheadLen :
      ((List.range' (b + r.x.length) S).map history).length = S := by rw [length_map, length_range']
    have hview :
        ∀ (n : ℕ) (xs ys : List (Column κ R)), xs.length = S → viewRows (n + 1) S (xs ++ ys) = xs ::
        viewRows n S ys := by
      intro n xs ys hxs
      rw [viewRows, range_succ_eq_map, map_cons, map_map, Nat.zero_mul, drop_zero, take_left' hxs]
      congr 1
      refine map_congr_left fun i _ => ?_
      rw [Function.comp_apply, Nat.succ_mul, Nat.add_comm, ← drop_drop, drop_left' hxs]
    rw [lensOf, map_cons, nextIdx, map_append, length_cons, hview _ _ _ hheadLen, hhead, map_cons]
    exact congrArg _ (ih hrest)

/-- **The packed convolution** gives each request what it gets alone. -/
theorem prefillConv_eq (hstates : ∀ slot, (states slot).length = a.stateLen)
    (buffer : ℕ → Column κ R) (hne : reqs.flatMap ConvReq.x ≠ []) :
    prefillConv a buffer reqs states =
      some (reqs.flatMap fun r => soloRows a (readState states r) r.x,
      indexPut states (reqs.map ConvReq.slot)
        (reqs.map fun r => soloState (readState states r) r.x)) := by
  have hlaid := laid_history hstates buffer reqs
  set history :=
    indexPut (indexPut buffer (stateIdx a.stateLen 0 (lensOf reqs))
    (reqs.flatMap (readState states)))
    ((outIdx a.stateLen 0 (lensOf reqs)).map (· + a.stateLen))
      (reqs.flatMap ConvReq.x) with hhistory
  have htotal : (reqs.flatMap ConvReq.x).length = (lensOf reqs).sum := length_flatMap
  have hpos : 0 < (reqs.flatMap ConvReq.x).length := List.length_pos_iff.mpr hne
  have hreqs : 0 < reqs.length := List.length_pos_iff.mpr fun hnil => hne (by rw [hnil]; rfl)
  have hmul : a.stateLen ≤ reqs.length * a.stateLen := Nat.le_mul_of_pos_left _ hreqs
  have hconv : a.conv1d ((reqs.flatMap ConvReq.x).length + reqs.length * a.stateLen) history
      = some ((range ((reqs.flatMap ConvReq.x).length + reqs.length * a.stateLen - a.stateLen)).map
        fun p => a.tap fun j => history (p + j * a.dilation)) := if_neg (by omega)
  have hselect : ((outIdx a.stateLen 0 (lensOf reqs)).mapM fun p =>
      ((range ((reqs.flatMap ConvReq.x).length + reqs.length * a.stateLen - a.stateLen)).map
        fun p => a.tap fun j => history (p + j * a.dilation))[p]?)
      = some ((outIdx a.stateLen 0 (lensOf reqs)).map fun p => a.tap fun j =>
        history (p + j * a.dilation)) := by
    refine mapM_eq_map fun p hp => ?_
    have h := (mem_outIdx_le hp).2
    rw [Nat.zero_add, lensOf, length_map, ← lensOf, ← htotal] at h
    rw [List.getElem?_map, List.getElem?_range (by omega)]
    rfl
  rw [prefillConv, ← lensOf, prefillIndices_eq]
  dsimp only
  rw [← hhistory, hconv, Option.bind_some, hselect, Option.map_some, map_map, hlaid.nextStates]
  exact congrArg some (Prod.ext hlaid.outputs rfl)

/-! ### Forward after forward -/

/-- What the caller sees to: a decode step has one token a request, and a prefill has a token. -/
def ConvForward.Ok (f : ConvForward κ R) : Prop :=
  if f.isDecode then ∀ r ∈ f.reqs, r.x.length = 1 else f.reqs.flatMap ConvReq.x ≠ []

/-- **A forward** gives each request what it gets alone. -/
theorem shortConv_eq {f : ConvForward κ R} (hstates : ∀ slot, (states slot).length = a.stateLen)
    (hf : f.Ok) :
    shortConv a f states = some (f.reqs.flatMap fun r => soloRows a (readState states r) r.x,
      indexPut states (f.reqs.map ConvReq.slot)
        (f.reqs.map fun r => soloState (readState states r) r.x)) := by
  unfold shortConv
  unfold ConvForward.Ok at hf
  split_ifs at hf ⊢ with hdecode
  · rw [decodeConv_eq hstates hf]
  · exact prefillConv_eq hstates f.buffer hf

variable {g : ConvReq κ R → List (Column κ R)}

omit [CommRing R] in
theorem splitRows_flatMap (hg : ∀ r, (g r).length = r.x.length) (reqs : List (ConvReq κ R)) :
    splitRows reqs (reqs.flatMap g) = reqs.map g := by
  induction reqs with
  | nil => rfl
  | cons r reqs ih =>
    rw [flatMap_cons, splitRows, take_left' (hg r), drop_left' (hg r), ih, map_cons]

def inSlot (slot : ℕ) (reqs : List (ConvReq κ R)) : List (ConvReq κ R) :=
  reqs.filter fun r => r.slot = slot

omit [CommRing R] in
theorem rowsOf_flatMap (slot : ℕ) (hg : ∀ r, (g r).length = r.x.length)
    (reqs : List (ConvReq κ R)) :
    rowsOf slot reqs (reqs.flatMap g) = (inSlot slot reqs).flatMap g := by
  rw [rowsOf, splitRows_flatMap hg, inSlot]
  induction reqs with
  | nil => rfl
  | cons r reqs ih =>
    rw [map_cons, zip_cons_cons, flatMap_cons, ih, filter_cons]
    split_ifs with hslot h h
    · rw [flatMap_cons]
    · exact absurd (decide_eq_true hslot) h
    · exact absurd (of_decide_eq_true h) hslot
    · rfl

variable {v : ConvReq κ R → List (Column κ R)}

omit [CommRing R] in
theorem indexPut_notInSlot (hnone : inSlot slot reqs = []) :
    indexPut states (reqs.map ConvReq.slot) (reqs.map v) slot = states slot := by
  refine indexPut_of_notMem fun hmem => ?_
  obtain ⟨r, hr, hslot⟩ := mem_map.mp hmem
  have hin : r ∈ inSlot slot reqs := mem_filter.mpr ⟨hr, decide_eq_true hslot⟩
  rw [hnone] at hin
  cases hin

omit [CommRing R] in
theorem indexPut_inSlot (hone : inSlot slot reqs = [r]) :
    indexPut states (reqs.map ConvReq.slot) (reqs.map v) slot = v r := by
  obtain ⟨l₁, l₂, rfl, -, hslot, h₂⟩ := filter_eq_cons_iff.mp hone
  have hslot : r.slot = slot := of_decide_eq_true hslot
  rw [map_append, map_append, indexPut_append _ _ (by rw [length_map, length_map]), map_cons,
    map_cons, indexPut, indexPut_notInSlot h₂, hslot, Function.update_self]

theorem length_indexPut (hstates : ∀ slot, (states slot).length = a.stateLen)
    (reqs : List (ConvReq κ R)) (slot : ℕ) :
    (indexPut states (reqs.map ConvReq.slot) (reqs.map fun r => soloState (readState states r) r.x)
      slot).length = a.stateLen := by
  by_cases hmem : slot ∈ reqs.map ConvReq.slot
  · have hlen :
        (reqs.map ConvReq.slot).length =
        (reqs.map fun r => soloState (readState states r) r.x).length := by
      rw [length_map, length_map]
    have hv := indexPut_mem (t := states) hlen hmem
    obtain ⟨r, -, hr⟩ := mem_map.mp hv
    rw [← hr, length_soloState, length_readState hstates]
  · rw [indexPut_of_notMem hmem, hstates]

variable {fs : List (ConvForward κ R)}

/-- The requests of a run in a slot, forward after forward. -/
def slotReqs (slot : ℕ) (fs : List (ConvForward κ R)) : List (ConvReq κ R) :=
  fs.flatMap fun f => inSlot slot f.reqs

/-- The state that the first of them reads. -/
def firstState (slot : ℕ) (fs : List (ConvForward κ R)) (states : ConvStates κ R) :
    List (Column κ R) :=
  match slotReqs slot fs with
  | [] => states slot
  | r :: _ => if r.fresh then (states slot).map fun _ _ => 0 else states slot

/-- **The run of a slot**: its rows and its state are those of all its tokens at once. -/
theorem runConv_eq (hfs : ∀ f ∈ fs, f.Ok) (honce : ∀ f ∈ fs, (inSlot slot f.reqs).length ≤ 1)
    (hfresh : ∀ r ∈ (slotReqs slot fs).tail, r.fresh = false)
    (hstates : ∀ slot, (states slot).length = a.stateLen) :
    ∃ states', runConv a slot fs states
        = some (soloRows a (firstState slot fs states) ((slotReqs slot fs).flatMap ConvReq.x),
          states') ∧
      states' slot = soloState (firstState slot fs states)
        ((slotReqs slot fs).flatMap ConvReq.x) := by
  induction fs generalizing states with
  | nil => exact ⟨states, rfl, by simp [soloState, slotReqs, firstState]⟩
  | cons f fs ih =>
    have hnext := length_indexPut hstates f.reqs
    set states₁ := indexPut states (f.reqs.map ConvReq.slot)
      (f.reqs.map fun r => soloState (readState states r) r.x) with hstates₁
    have hstep := shortConv_eq hstates (hfs f mem_cons_self)
    have hrows := rowsOf_flatMap slot (g := fun r => soloRows a (readState states r) r.x)
      (fun r => length_soloRows) f.reqs
    have hsplit : slotReqs slot (f :: fs) = inSlot slot f.reqs ++ slotReqs slot fs := flatMap_cons
    have hrec := @ih states₁ (fun f hf => hfs f (mem_cons_of_mem _ hf))
      (fun f hf => honce f (mem_cons_of_mem _ hf))
    rw [runConv, hstep, Option.bind_some, hrows, ← hstates₁]
    rcases hin : inSlot slot f.reqs with - | ⟨r, l⟩
    · -- the slot takes no part in this forward
      rw [hin, nil_append] at hsplit
      have hsame : states₁ slot = states slot := indexPut_notInSlot hin
      have hfirst : firstState slot (f :: fs) states = firstState slot fs states₁ := by
        rw [firstState, firstState, hsplit, hsame]
      rw [hsplit] at hfresh
      obtain ⟨states', hrun, hstate⟩ := hrec hfresh hnext
      rw [hfirst, hsplit]
      exact ⟨states', by rw [hrun]; rfl, hstate⟩
    · have hl : l = [] := by
        have hlen := honce f mem_cons_self
        rw [hin, length_cons] at hlen
        exact length_eq_zero_iff.mp (by omega)
      subst hl
      have hslot : r.slot = slot := by
        have hmem : r ∈ inSlot slot f.reqs := hin ▸ mem_singleton_self r
        exact of_decide_eq_true (mem_filter.mp hmem).2
      rw [hin, singleton_append] at hsplit
      rw [hsplit, tail_cons] at hfresh
      have hread : readState states r = firstState slot (f :: fs) states := by
        rw [readState, firstState, hsplit, hslot]
      have hstate₁ : states₁ slot = soloState (firstState slot (f :: fs) states) r.x := by
        rw [← hread]
        exact indexPut_inSlot hin
      have hlater : firstState slot fs states₁ = states₁ slot := by
        rw [firstState]
        split
        · rfl
        · rename_i r' l hr'
          rw [hfresh r' (hr' ▸ mem_cons_self)]
          rfl
      obtain ⟨states', hrun, hstate⟩ := hrec (fun r hr => hfresh r (mem_of_mem_tail hr)) hnext
      rw [hlater, hstate₁] at hrun hstate
      have hlen : (firstState slot (f :: fs) states).length = a.stateLen :=
        hread ▸ length_readState hstates r
      refine ⟨states', ?_, ?_⟩
      · rw [hrun, hsplit, Option.map_some]
        simp only [flatMap_cons, flatMap_nil, append_nil]
        rw [soloRows_append hlen, hread]
      · rw [hstate, hsplit, flatMap_cons, soloState_append]

/-- **The packed convolution is the one of each request**: whatever chunks and decode steps its
tokens come in, and whatever requests they are packed with, a request gets the rows and the state of
the reference on all its tokens. -/
theorem runConv_eq_reference {rest : List (ConvReq κ R)} (hfs : ∀ f ∈ fs, f.Ok)
    (honce : ∀ f ∈ fs, (inSlot slot f.reqs).length ≤ 1) (hreqs : slotReqs slot fs = r :: rest)
    (hfresh : ∀ r' ∈ rest, r'.fresh = false) (htokens : (slotReqs slot fs).flatMap ConvReq.x ≠ [])
    (hstates : ∀ slot, (states slot).length = a.stateLen) :
    ∃ rows states' alone, runConv a slot fs states = some (rows, states') ∧
      shortConvReference a [⟨slot, r.fresh, (slotReqs slot fs).flatMap ConvReq.x⟩] states =
        some (rows, alone) ∧
      states' slot = alone slot := by
  obtain ⟨states', hrun, hstate⟩ := runConv_eq hfs honce (by rw [hreqs]; exact hfresh) hstates
  have hread :
      readState states ⟨slot, r.fresh, (slotReqs slot fs).flatMap ConvReq.x⟩ =
      firstState slot fs states := by
    rw [readState, firstState, hreqs]
  refine ⟨_, states',
    indexPut states [slot]
    [soloState (firstState slot fs states) ((slotReqs slot fs).flatMap ConvReq.x)], hrun, ?_, ?_⟩
  · rw [shortConvReference_single hstates htokens, hread]
  · rw [hstate, indexPut, indexPut_nil, Function.update_self]

/-! ### Two requests -/

/-- Two taps and one channel, without an activation. -/
def smallConv : ConvArgs Unit ℤ :=
  { kernel := 2, dilation := 1, weight := fun _ j => 2 * j + 1, silu := fun x => x, one_lt_kernel :=
    Nat.one_lt_two, dilation_pos := one_pos }

/-- A request of one token, and one of two tokens that then decodes a third. -/
def smallForwards : List (ConvForward Unit ℤ) :=
  [⟨false, [⟨2, true, [fun _ => 5]⟩, ⟨1, true, [fun _ => 7, fun _ => 8]⟩], fun _ _ => -1⟩,
    ⟨true, [⟨1, false, [fun _ => 9]⟩], fun _ _ => 0⟩]

theorem runConv_eq_reference_small :
    ∃ rows states' alone, runConv smallConv 1 smallForwards (fun _ => [fun _ => 3]) =
      some (rows, states') ∧
      shortConvReference smallConv [⟨1, true, [fun _ => 7, fun _ => 8, fun _ => 9]⟩]
        (fun _ => [fun _ => 3]) = some (rows, alone) ∧
      states' 1 = alone 1 := by
  have hfs : ∀ f ∈ smallForwards, f.Ok := by
    intro f hf
    simp only [smallForwards, mem_cons, not_mem_nil, or_false] at hf
    rcases hf with rfl | rfl <;> simp [ConvForward.Ok]
  have honce : ∀ f ∈ smallForwards, (inSlot 1 f.reqs).length ≤ 1 := by
    intro f hf
    simp only [smallForwards, mem_cons, not_mem_nil, or_false] at hf
    rcases hf with rfl | rfl <;> simp [inSlot]
  have hreqs :
      slotReqs 1 smallForwards = [⟨1, true, [fun _ => 7, fun _ => 8]⟩, ⟨1, false, [fun _ => 9]⟩] :=
      rfl
  exact runConv_eq_reference (a := smallConv) hfs honce hreqs
    (fun r' hr' => by rw [mem_singleton.mp hr'])
    (by simp [smallForwards, slotReqs, inSlot]) fun _ => rfl

end FreeToken.PleConv
