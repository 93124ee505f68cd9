import FreeToken.Lib.Sylvester
import FreeToken.Utils.Text

/-!
# The rotation of the quantised K/V codec

`wht` is the butterfly on a row: for a growing stride it replaces each pair of neighbouring blocks
by their sum and their difference, in place, and scales the row at the end: this is the Hadamard
transform.

* `butterfly_blocks`: one turn takes two neighbouring blocks to their sums and differences.
* `pass_append`: a pass works on two parts of a row apart, when its blocks do not cross the border.
* `passes_eq`: so the passes with the strides below `2 ^ k` transform the halves, and the next one
  joins them.
-/

namespace FreeToken.QuantCodec

def requirePow2 (n : ℕ) : Except Text ℕ :=
  if n = 0 ∨ n &&& (n - 1) ≠ 0 then
    .error ("head_dim ".toList ++ Nat.toDigits 10 n ++ " must be a power of two for WHT codec".toList)
  else .ok n

variable {α : Type*}

/-- `x[lo : hi]`. -/
def slice (x : List α) (lo hi : ℕ) : List α := (x.take hi).drop lo

/-- `x[lo : hi].copy_(v)`. -/
def copySlice (x : List α) (lo hi : ℕ) (v : List α) : List α := x.take lo ++ v ++ x.drop hi

variable [Add α] [Sub α]

/-- One turn of the inner loop: `t` is a copy, and `b` a view that is read again after the first
store. -/
def butterfly (h : ℕ) (x : List α) (i : ℕ) : List α :=
  let t := slice x i (i + h)
  let x := copySlice x i (i + h) (List.zipWith (· + ·) t (slice x (i + h) (i + 2 * h)))
  copySlice x (i + h) (i + 2 * h) (List.zipWith (· - ·) t (slice x (i + h) (i + 2 * h)))

/-- The inner loop, over `range(0, n, h * 2)`. -/
def pass (n h : ℕ) (x : List α) : List α :=
  (List.range' 0 ((n + (h * 2 - 1)) / (h * 2)) (h * 2)).foldl (butterfly h) x

def whtLoop (n h : ℕ) (hpos : 0 < h) (x : List α) : List α :=
  if h < n then whtLoop n (h * 2) (Nat.mul_pos hpos Nat.two_pos) (pass n h x) else x
termination_by n - h
decreasing_by omega

/-- `wht`; `scale n` divides by the root of `n`. -/
def wht (scale : ℕ → α → α) (x : List α) : Except Text (List α) :=
  (requirePow2 x.length).map fun n => (whtLoop n 1 Nat.one_pos x).map (scale n)

open Sylvester

variable {α : Type*} {x u v a b : List α} {n h i j k c c' : ℕ}

/-! ### Slices -/

theorem slice_mid (pre post : List α) (hi : i = pre.length) (hj : j = i + a.length) :
    slice (pre ++ (a ++ post)) i j = a := by
  subst hi hj
  rw [slice, ← List.append_assoc, List.take_left' (List.length_append ..), List.drop_left]

theorem copySlice_mid (pre post : List α) (w : List α) (hi : i = pre.length)
    (hj : j = i + a.length) :
    copySlice (pre ++ (a ++ post)) i j w = pre ++ (w ++ post) := by
  subst hi hj
  rw [copySlice, List.take_left, ← List.append_assoc pre a post,
    List.drop_left' (List.length_append ..), List.append_assoc]

/-! ### One turn -/

variable [AddCommGroup α]

/-- Two blocks of `h` become their sums and their differences. -/
theorem butterfly_blocks (pre post : List α) (ha : a.length = h) (hb : b.length = h) :
    butterfly h (pre ++ (a ++ (b ++ post))) pre.length = pre ++ (sumDiff a b ++ post) := by
  have hsum : (List.zipWith (· + ·) a b).length = h := by rw [List.length_zipWith, ha, hb, min_self]
  have hend : pre.length + 2 * h = pre.length + h + b.length := by omega
  have hb' : ∀ a' : List α, a'.length = h →
      slice (pre ++ (a' ++ (b ++ post))) (pre.length + h) (pre.length + 2 * h) = b := by
    intro a' ha'
    rw [← List.append_assoc]
    exact slice_mid (pre ++ a') post (by rw [List.length_append, ha']) hend
  unfold butterfly
  dsimp only
  rw [slice_mid pre (b ++ post) rfl (by rw [ha]), hb' a ha, copySlice_mid pre (b ++ post) _ rfl
    (by rw [ha]), hb' _ hsum, ← List.append_assoc, copySlice_mid (pre ++ _) post _
    (by rw [List.length_append, hsum]) hend, sumDiff]
  simp only [List.append_assoc]

omit [AddCommGroup α] in
theorem exists_blocks (hi : i + 2 * h ≤ x.length) :
    ∃ pre a b post, x = pre ++ (a ++ (b ++ post)) ∧ pre.length = i ∧ a.length = h ∧
      b.length = h := by
  refine ⟨x.take i, (x.drop i).take h, ((x.drop i).drop h).take h, ((x.drop i).drop h).drop h, ?_,
    ?_, ?_, ?_⟩
  · rw [List.take_append_drop, List.take_append_drop, List.take_append_drop]
  · rw [List.length_take]
    omega
  · rw [List.length_take, List.length_drop]
    omega
  · rw [List.length_take, List.length_drop, List.length_drop]
    omega

theorem length_butterfly (hi : i + 2 * h ≤ x.length) : (butterfly h x i).length = x.length := by
  obtain ⟨pre, a, b, post, rfl, rfl, ha, hb⟩ := exists_blocks hi
  rw [butterfly_blocks pre post ha hb, sumDiff]
  simp only [List.length_append, List.length_zipWith, ha, hb, min_self]
  omega

theorem butterfly_append (hi : i + 2 * h ≤ u.length) (v : List α) :
    butterfly h (u ++ v) i = butterfly h u i ++ v := by
  obtain ⟨pre, a, b, post, rfl, rfl, ha, hb⟩ := exists_blocks hi
  rw [butterfly_blocks pre post ha hb]
  simp only [List.append_assoc]
  exact butterfly_blocks pre (post ++ v) ha hb

theorem butterfly_append_right (u : List α) (hi : i + 2 * h ≤ v.length) :
    butterfly h (u ++ v) (u.length + i) = u ++ butterfly h v i := by
  obtain ⟨pre, a, b, post, rfl, rfl, ha, hb⟩ := exists_blocks hi
  rw [butterfly_blocks pre post ha hb, ← List.append_assoc, ← List.length_append,
    butterfly_blocks (u ++ pre) post ha hb, List.append_assoc]

/-! ### A pass -/

/-- The turns at `s`, `s + 2 * h` and so on. -/
def turns (h s c : ℕ) (x : List α) : List α := (List.range' s c (h * 2)).foldl (butterfly h) x

theorem turns_succ (s : ℕ) (x : List α) :
    turns h s (c + 1) x = turns h (s + h * 2) c (butterfly h x s) := by
  rw [turns, List.range'_succ, List.foldl_cons, turns]

theorem turns_append (c s : ℕ) (u v : List α) (hc : s + c * (h * 2) ≤ u.length) :
    turns h s c (u ++ v) = turns h s c u ++ v ∧ (turns h s c u).length = u.length := by
  induction c generalizing s u with
  | zero => exact ⟨rfl, rfl⟩
  | succ c ih =>
    rw [Nat.succ_mul] at hc
    have hs : s + 2 * h ≤ u.length := by omega
    have hlen := length_butterfly hs
    have hrec := ih (s + h * 2) (butterfly h u s) (by omega)
    rw [turns_succ, turns_succ, butterfly_append hs]
    exact ⟨hrec.1, hrec.2.trans hlen⟩

theorem turns_append_right (c s : ℕ) (u v : List α) (hc : s + c * (h * 2) ≤ v.length) :
    turns h (u.length + s) c (u ++ v) = u ++ turns h s c v := by
  induction c generalizing s v with
  | zero => rfl
  | succ c ih =>
    rw [Nat.succ_mul] at hc
    have hs : s + 2 * h ≤ v.length := by omega
    have hlen := length_butterfly hs
    rw [turns_succ, turns_succ, butterfly_append_right u hs, Nat.add_assoc,
      ih (s + h * 2) (butterfly h v s) (by omega)]

theorem pass_eq_turns (hpos : 0 < h) (hn : n = c * (h * 2)) (x : List α) :
    pass n h x = turns h 0 c x := by
  subst hn
  have hdiv : (c * (h * 2) + (h * 2 - 1)) / (h * 2) = c := by
    rw [Nat.add_comm, Nat.add_mul_div_right _ _ (by omega), Nat.div_eq_of_lt (by omega),
      Nat.zero_add]
  rw [pass, hdiv, turns]

theorem length_pass (hpos : 0 < h) (hx : x.length = c * (h * 2)) :
    (pass x.length h x).length = x.length := by
  rw [pass_eq_turns hpos hx]
  exact (turns_append c 0 x [] (by omega)).2

/-- **Two parts** of a row are passed over apart. -/
theorem pass_append (hpos : 0 < h) (hu : u.length = c * (h * 2)) (hv : v.length = c' * (h * 2)) :
    pass (u ++ v).length h (u ++ v) = pass u.length h u ++ pass v.length h v := by
  have hsum :
    (u ++ v).length = (c + c') * (h * 2) := by rw [List.length_append, hu, hv, Nat.add_mul]
  obtain ⟨hleft, hlen⟩ := turns_append (h := h) c 0 u v (by omega)
  have hright := turns_append_right (h := h) c' 0 (turns h 0 c u) v (by omega)
  have hsplit :
    turns h 0 (c + c') (u ++ v) = turns h (0 + h * 2 * c) c' (turns h 0 c (u ++ v)) := by
    rw [turns, turns, turns, ← List.range'_append, List.foldl_append]
  rw [hlen, hu, add_zero] at hright
  rw [pass_eq_turns hpos hsum, pass_eq_turns hpos hu, pass_eq_turns hpos hv, hsplit, hleft,
    Nat.zero_add, Nat.mul_comm (h * 2) c, hright]

theorem pass_pair (hpos : 0 < h) (hu : u.length = h) (hv : v.length = h) :
    pass (u ++ v).length h (u ++ v) = sumDiff u v := by
  have hn : (u ++ v).length = 1 * (h * 2) := by
    rw [List.length_append]
    omega
  have hpair := butterfly_blocks [] [] hu hv
  rw [List.append_nil, List.append_nil] at hpair
  rw [pass_eq_turns hpos hn]
  exact hpair

/-! ### All passes -/

/-- The passes with the strides below `2 ^ k`. -/
def passes : ℕ → List α → List α
  | 0, x => x
  | k + 1, x => pass (passes k x).length (2 ^ k) (passes k x)

theorem length_passes (k c : ℕ) (hx : x.length = c * 2 ^ k) : (passes k x).length = x.length := by
  induction k generalizing c with
  | zero => rfl
  | succ k ih =>
    rw [pow_succ, Nat.mul_comm (2 ^ k) 2, ← mul_assoc] at hx
    have hk := ih (c * 2) hx
    rw [passes, length_pass (Nat.two_pow_pos k) (c := c), hk]
    rw [hk, hx, mul_assoc, Nat.mul_comm 2]

theorem passes_append (k c c' : ℕ) (hu : u.length = c * 2 ^ k) (hv : v.length = c' * 2 ^ k) :
    passes k (u ++ v) = passes k u ++ passes k v := by
  induction k generalizing c c' with
  | zero => rfl
  | succ k ih =>
    rw [pow_succ] at hu hv
    have hu' : u.length = c * 2 * 2 ^ k := by rw [hu, Nat.mul_comm (2 ^ k) 2, mul_assoc]
    have hv' : v.length = c' * 2 * 2 ^ k := by rw [hv, Nat.mul_comm (2 ^ k) 2, mul_assoc]
    rw [passes, passes, passes, ih (c * 2) (c' * 2) hu' hv']
    exact pass_append (Nat.two_pow_pos k) ((length_passes k _ hu').trans hu)
      ((length_passes k _ hv').trans hv)

/-- **The passes are the transform**: each joins the transforms of the halves. -/
theorem passes_eq (hx : x.length = 2 ^ k) : passes k x = hadamard k x := by
  induction k generalizing x with
  | zero => rfl
  | succ k ih =>
    rw [Nat.two_pow_succ] at hx
    have hu : (x.take (2 ^ k)).length = 2 ^ k := by
      rw [List.length_take]
      omega
    have hv : (x.drop (2 ^ k)).length = 2 ^ k := by
      rw [List.length_drop]
      omega
    have happend := passes_append k 1 1 (hu.trans (one_mul _).symm) (hv.trans (one_mul _).symm)
    rw [List.take_append_drop] at happend
    rw [passes, happend, hadamard, ← ih hu, ← ih hv]
    exact pass_pair (Nat.two_pow_pos k) ((length_passes k 1 (hu.trans (one_mul _).symm)).trans hu)
      ((length_passes k 1 (hv.trans (one_mul _).symm)).trans hv)

theorem whtLoop_eq (hx : x.length = 2 ^ k) : whtLoop (2 ^ k) 1 one_pos x = passes k x := by
  -- the loop at the stride `2 ^ j` has the first `j` passes behind it
  have hloop :
      ∀ d j, j + d = k → ∀ h (hpos : 0 < h), h = 2 ^ j → whtLoop (2 ^ k) h hpos (passes j x) =
      passes k x := by
    intro d
    induction d with
    | zero =>
      rintro j rfl h hpos rfl
      rw [add_zero, whtLoop, if_neg (lt_irrefl _)]
    | succ d ih =>
      rintro j hj h hpos rfl
      have hlt : 2 ^ j < 2 ^ k := Nat.pow_lt_pow_right one_lt_two (by omega)
      have hlen : (passes j x).length = 2 ^ k := by
        rw [length_passes j (2 ^ (k - j)) (by rw [hx, ← pow_add]; congr 1; omega), hx]
      rw [whtLoop, if_pos hlt, ← ih (j + 1) (by omega) (2 ^ j * 2) (mul_pos hpos two_pos)
        (pow_succ 2 j).symm, passes, hlen]
  exact hloop k 0 (Nat.zero_add k) 1 one_pos (pow_zero 2).symm

/-! ### The check -/

omit [AddCommGroup α] in
theorem requirePow2_eq_ok : requirePow2 n = .ok n ↔ ∃ k, n = 2 ^ k := by
  have hiff := Nat.ne_zero_and_sub_one_eq_zero_iff_isPowerOfTwo (n := n)
  unfold requirePow2
  split_ifs with hbad
  · refine ⟨fun hok => (by cases hok), fun hpow => ?_⟩
    have hgood := hiff.mpr hpow
    exact absurd hbad (by simp [hgood.1, hgood.2])
  · rw [not_or, not_not] at hbad
    exact ⟨fun _ => hiff.mp hbad, fun _ => rfl⟩

theorem wht_eq (scale : ℕ → α → α) (hx : x.length = 2 ^ k) :
    wht scale x = .ok ((hadamard k x).map (scale (2 ^ k))) := by
  rw [wht, hx, requirePow2_eq_ok.mpr ⟨k, rfl⟩, Except.map, whtLoop_eq hx, passes_eq hx]

theorem wht_eq_error (scale : ℕ → α → α) (x : List α) :
    (∃ e, wht scale x = .error e) ↔ ¬∃ k, x.length = 2 ^ k := by
  constructor
  · rintro ⟨e, he⟩ ⟨k, hk⟩
    rw [wht_eq scale hk] at he
    cases he
  · intro hpow
    have hne : requirePow2 x.length ≠ .ok x.length := fun h => hpow (requirePow2_eq_ok.mp h)
    unfold wht requirePow2 at *
    split_ifs at hne ⊢ with hbad
    · exact ⟨_, rfl⟩
    · exact absurd rfl hne

/-! ### The codec's transform -/

/-- **The butterfly multiplies by Sylvester's matrix**, and a second one restores the row times its
length; it raises at the lengths that are no power of two. -/
theorem wht_sylvester :
    (∀ (k : ℕ) (v : Fin (2 ^ k) → α),
      wht (fun _ a => a) (List.ofFn v) =
        .ok (List.ofFn fun i => ∑ j, Sylvester.matrix k i j • v j) ∧
      (wht (fun _ a => a) (List.ofFn v)).bind (wht fun _ a => a) = .ok (List.ofFn (2 ^ k • v))) ∧
    ∀ x : List α, (∃ e, wht (fun _ a => a) x = .error e) ↔ ¬∃ k, x.length = 2 ^ k := by
  refine ⟨fun k v => ?_, wht_eq_error _⟩
  have hone :
      ∀ w : Fin (2 ^ k) → α, wht (fun _ a => a) (List.ofFn w) =
        .ok (List.ofFn (transform k w)) := by
    intro w
    rw [wht_eq _ List.length_ofFn, hadamard_ofFn, List.map_id']
  refine ⟨hone v, ?_⟩
  rw [hone v, ← transform_transform k v]
  exact hone (transform k v)

end FreeToken.QuantCodec
