import Mathlib.Data.List.Nodup
import Mathlib.Tactic.Ring

/-!
# Tensors in row-major order

A tensor is its shape and its entries, one after the other: the last index runs fastest.

* `ravel`, `unravel`: between the indices of an entry and its place.
* `Tensor.swap`: the permutation of two neighbouring axes.
* `data_swap`: where the swap takes an entry from.
-/

namespace RowMajor

open List

def numel : List ℕ → ℕ
  | [] => 1
  | n :: ns => n * numel ns

def ravel : List ℕ → List ℕ → ℕ
  | _ :: ns, i :: is => i * numel ns + ravel ns is
  | _, _ => 0

def unravel : List ℕ → ℕ → List ℕ
  | [], _ => []
  | _ :: ns, j => j / numel ns :: unravel ns (j % numel ns)

variable {a b : List ℕ} {d i j m n p s : ℕ}

theorem numel_append (a b : List ℕ) : numel (a ++ b) = numel a * numel b := by
  induction a with
  | nil => exact (one_mul _).symm
  | cons n a ih => rw [cons_append, numel, numel, ih, mul_assoc]

@[simp] theorem length_unravel (a : List ℕ) (j : ℕ) : (unravel a j).length = a.length := by
  induction a generalizing j with
  | nil => rfl
  | cons n a ih => rw [unravel, length_cons, length_cons, ih]

theorem ravel_unravel (h : j < numel a) : ravel a (unravel a j) = j := by
  induction a generalizing j with
  | nil => exact (Nat.lt_one_iff.mp h).symm
  | cons n a ih =>
    have hpos : 0 < numel a := pos_of_ne_zero fun hzero => by
      rw [numel, hzero, Nat.mul_zero] at h
      exact absurd h (Nat.not_lt_zero j)
    rw [unravel, ravel, ih (Nat.mod_lt j hpos), mul_comm, Nat.div_add_mod]

theorem unravel_mul_add (hp : p < numel a) (hs : s < numel b) :
    unravel (a ++ b) (p * numel b + s) = unravel a p ++ unravel b s := by
  induction a generalizing p with
  | nil =>
    have hzero : p = 0 := Nat.lt_one_iff.mp hp
    rw [hzero, Nat.zero_mul, zero_add]
    rfl
  | cons n a ih =>
    have hpos : 0 < numel a := pos_of_ne_zero fun hzero => by
      rw [numel, hzero, Nat.mul_zero] at hp
      exact absurd hp (Nat.not_lt_zero p)
    have hb : 0 < numel b := Nat.lt_of_le_of_lt (Nat.zero_le s) hs
    have hsplit :
      p * numel b + s = p / numel a * (numel a * numel b) + (p % numel a * numel b + s) := by
      conv_lhs => rw [← Nat.div_add_mod p (numel a)]
      rw [add_mul, mul_assoc, mul_left_comm, add_assoc]
    have hlt : p % numel a * numel b + s < numel a * numel b := by
      have h := Nat.mul_le_mul_right (numel b) (Nat.mod_lt p hpos)
      rw [Nat.succ_mul] at h
      omega
    rw [cons_append, unravel, unravel, numel_append, cons_append, hsplit, mul_comm,
      Nat.mul_add_div (mul_pos hpos hb), Nat.mul_add_mod, Nat.div_eq_of_lt hlt, Nat.mod_eq_of_lt
      hlt, add_zero, ih (Nat.mod_lt p hpos)]

/-! ### Two neighbouring axes -/

/-- The axes, with the one at `d` and the next exchanged. -/
def swapAxes (d n : ℕ) : List ℕ := ((List.range n).set d (d + 1)).set (d + 1) d

variable {α β : Type*} {a' b' : List α} {x y : α}

theorem set_swap (a' b' : List α) (x y : α) :
    ((a' ++ x :: y :: b').set a'.length y).set (a'.length + 1) x = a' ++ y :: x :: b' := by
  rw [set_append_right _ _ (Nat.le_refl _), Nat.sub_self, set_cons_zero,
    set_append_right _ _ (Nat.le_add_right _ 1), Nat.add_sub_cancel_left, set_cons_succ,
    set_cons_zero]

theorem map_getD_range (l : List α) (z : α) :
    (List.range l.length).map (fun i => l.getD i z) = l := by
  refine ext_getElem (by simp) fun i h₁ h₂ => ?_
  simp [h₂]

/-- A list read along the exchanged axes. -/
theorem map_swapAxes (a' b' : List α) (x y z : α) :
    (swapAxes a'.length (a' ++ x :: y :: b').length).map (fun i => (a' ++ x :: y :: b').getD i z) =
    a' ++ y :: x :: b' := by
  have hx : (a' ++ x :: y :: b').getD a'.length z = x := by simp
  have hy : (a' ++ x :: y :: b').getD (a'.length + 1) z = y := by simp
  rw [swapAxes, map_set, map_set, map_getD_range, hx, hy, set_swap]

theorem range_eq (d m : ℕ) :
    List.range (d + (m + 2)) = List.range d ++ d :: (d + 1) ::
      (List.range m).map (fun i => d + (i + 2)) := by
  rw [range_add, range_succ_eq_map, range_succ_eq_map]
  simp [Function.comp_def]

theorem swapAxes_eq (d m : ℕ) :
    swapAxes d (d + (m + 2)) = List.range d ++ (d + 1) :: d ::
      (List.range m).map (fun i => d + (i + 2)) := by
  have hset := set_swap (List.range d) ((List.range m).map fun i => d + (i + 2)) d (d + 1)
  rw [length_range] at hset
  rw [swapAxes, range_eq, hset]

theorem nodup_swapAxes (d m : ℕ) : (swapAxes d (d + (m + 2))).Nodup := by
  have hperm : (swapAxes d (d + (m + 2))).Perm (List.range (d + (m + 2))) := by
    rw [swapAxes_eq, range_eq]
    exact (List.Perm.swap d (d + 1) _).append_left _
  exact hperm.nodup_iff.mpr nodup_range

theorem map_idxOf_swapAxes (a' b' : List α) (x y z : α) :
    (List.range (a' ++ x :: y :: b').length).map
        (fun i =>
          (a' ++ x :: y :: b').getD ((swapAxes a'.length (a' ++ x :: y :: b').length).idxOf i) z)
      = a' ++ y :: x :: b' := by
  set l := a' ++ x :: y :: b' with hl
  have hlen : l.length = a'.length + (b'.length + 2) := by simp [hl]
  rw [hlen]
  set F := fun i => l.getD ((swapAxes a'.length (a'.length + (b'.length + 2))).idxOf i) z
  have hmap : (swapAxes a'.length (a'.length + (b'.length + 2))).map F = l := by
    refine ext_getElem ?_ fun i h₁ h₂ => ?_
    · rw [length_map, swapAxes, length_set, length_set, length_range, hlen]
    · have hF : ∀ j, F j = l.getD ((swapAxes a'.length (a'.length + (b'.length + 2))).idxOf j) z :=
        fun _ => rfl
      rw [getElem_map, hF, (nodup_swapAxes _ _).idxOf_getElem]
      simp [h₂]
  -- the entries at the exchanged places are those of `l` in its own order
  rw [swapAxes_eq, hl, map_append, map_cons, map_cons] at hmap
  obtain ⟨hleft, hright⟩ := append_inj hmap (by rw [length_map, length_range])
  obtain ⟨hx, hy, hrest⟩ : F (a'.length + 1) = x ∧ F a'.length = y ∧ _ = b' := by simpa using hright
  rw [range_eq, map_append, map_cons, map_cons, hleft, hx, hy]
  simpa using hrest

/-! ### Tensors -/

structure Tensor (α : Type*) where
  shape : List ℕ
  data : ℕ → α

namespace Tensor

def reshape (t : Tensor α) (shape : List ℕ) : Option (Tensor α) :=
  if numel shape = numel t.shape then some { t with shape } else none

/-- The axes in another order, stored anew: axis `i` of the result is axis `perm[i]`. -/
def permute (t : Tensor α) (perm : List ℕ) : Tensor α :=
  let shape := perm.map fun i => t.shape.getD i 0
  { shape
    data := fun j =>
      t.data (ravel t.shape ((List.range t.shape.length).map fun i =>
      (unravel shape j).getD (perm.idxOf i) 0)) }

/-- The permutation that exchanges the axis at `d` and the next. -/
def swap (t : Tensor α) (d : ℕ) : Tensor α := t.permute (swapAxes d t.shape.length)

variable {t : Tensor α}

theorem shape_swap (ht : t.shape = a ++ m :: n :: b) :
    (t.swap a.length).shape = a ++ n :: m :: b := by
  rw [swap, permute, ht]
  exact map_swapAxes a b m n 0

/-- The place of an entry by its indices at two neighbouring axes. -/
theorem place_lt (hp : p < numel a) (hi : i < m) (hj : j < n) (hs : s < numel b) :
    ((p * m + i) * n + j) * numel b + s < numel (a ++ m :: n :: b) := by
  have hpm := Nat.mul_le_mul_right m hp
  have hpi :=
    Nat.mul_le_mul_right n (show p * m + i + 1 ≤ numel a * m by rw [Nat.succ_mul] at hpm; omega)
  have hij := Nat.mul_le_mul_right (numel b)
    (show (p * m + i) * n + j + 1 ≤ numel a * m * n by rw [Nat.succ_mul] at hpi; omega)
  rw [Nat.succ_mul] at hij
  rw [numel_append, numel, numel, ← mul_assoc, ← mul_assoc]
  omega

theorem unravel_place (hp : p < numel a) (hi : i < m) (hj : j < n) (hs : s < numel b) :
    unravel (a ++ m :: n :: b) (((p * m + i) * n + j) * numel b + s) = unravel a p ++ i :: j ::
      unravel b s := by
  have hb : 0 < numel b := Nat.lt_of_le_of_lt (Nat.zero_le s) hs
  have hn : 0 < n := Nat.lt_of_le_of_lt (Nat.zero_le j) hj
  have hrow : j * numel b + s < n * numel b := by
    have h := Nat.mul_le_mul_right (numel b) hj
    rw [Nat.succ_mul] at h
    omega
  have hsplit :
      ((p * m + i) * n + j) * numel b + s = p * numel (m :: n :: b) +
      (i * (n * numel b) + (j * numel b + s)) := by
    rw [numel, numel]
    ring
  have hlt : i * (n * numel b) + (j * numel b + s) < numel (m :: n :: b) := by
    have h := Nat.mul_le_mul_right (n * numel b) hi
    rw [Nat.succ_mul] at h
    rw [numel, numel]
    omega
  rw [hsplit, unravel_mul_add hp hlt, unravel, unravel, numel, mul_comm i,
    Nat.mul_add_div (mul_pos hn hb), Nat.mul_add_mod, Nat.div_eq_of_lt hrow, Nat.mod_eq_of_lt hrow,
    add_zero, mul_comm j, Nat.mul_add_div hb, Nat.mul_add_mod, Nat.div_eq_of_lt hs, Nat.mod_eq_of_lt
    hs, add_zero]

/-- **The swap** takes the entry with the exchanged indices. -/
theorem data_swap (ht : t.shape = a ++ m :: n :: b) (hp : p < numel a) (hi : i < m) (hj : j < n)
    (hs : s < numel b) :
    (t.swap a.length).data (((p * n + j) * m + i) * numel b + s) =
    t.data (((p * m + i) * n + j) * numel b + s) := by
  have hshape := shape_swap ht
  have hidx : (List.range t.shape.length).map (fun k =>
      (unravel (t.swap a.length).shape (((p * n + j) * m + i) * numel b + s)).getD
        ((swapAxes a.length t.shape.length).idxOf k) 0) = unravel a p ++ i :: j :: unravel b s := by
    have hlen : t.shape.length = (unravel a p ++ j :: i :: unravel b s).length := by
      rw [ht]
      simp
    rw [hshape, unravel_place hp hj hi hs, hlen, ← length_unravel a p]
    exact map_idxOf_swapAxes _ _ j i 0
  have hplace :
      ravel t.shape (unravel a p ++ i :: j :: unravel b s) = ((p * m + i) * n + j) * numel b +
      s := by
    rw [ht, ← unravel_place hp hi hj hs]
    exact ravel_unravel (place_lt hp hi hj hs)
  rw [← hplace, ← hidx]
  rfl

/-! ### Rows -/

/-- `t[:k]`. -/
def takeRows (t : Tensor α) (k : ℕ) : Option (Tensor α) :=
  match t.shape with
  | [] => none
  | n :: ns => some { t with shape := min k n :: ns }

/-- `t[k:]`. -/
def dropRows (t : Tensor α) (k : ℕ) : Option (Tensor α) :=
  match t.shape with
  | [] => none
  | n :: ns => some { shape := (n - k) :: ns, data := fun j => t.data (min k n * numel ns + j) }

/-- `torch.cat([t, u], dim=0)`. -/
def cat (t u : Tensor α) : Option (Tensor α) :=
  match t.shape, u.shape with
  | n :: ns, m :: ms =>
    if ns = ms then
      some { shape := (n + m) :: ns, data := fun j => if j < n * numel ns then t.data j
        else u.data (j - n * numel ns) }
    else none
  | _, _ => none

theorem cat_spec {u : Tensor α} {ns : List ℕ} (ht : t.shape = n :: ns) (hu : u.shape = m :: ns) :
    ∃ w, t.cat u = some w ∧ w.shape = (n + m) :: ns ∧ (∀ j < n * numel ns, w.data j = t.data j) ∧
      ∀ j, w.data (n * numel ns + j) = u.data j := by
  rw [cat, ht, hu]
  refine ⟨_, if_pos rfl, rfl, fun j hj => if_pos hj, fun j => ?_⟩
  exact (if_neg (by omega)).trans (congrArg u.data (Nat.add_sub_cancel_left ..))

def Same (t u : Tensor α) : Prop := t.shape = u.shape ∧ ∀ i < numel t.shape, t.data i = u.data i

end Tensor

end RowMajor
