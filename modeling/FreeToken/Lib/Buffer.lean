import Mathlib.Algebra.BigOperators.Group.Finset.Basic

/-!
# Buffers of a kernel

A buffer has a size, and cells that may not be written yet.  A load or store out of its bounds
fails, and so does the load of a cell that was not written.

* `storeAll_eq`: stores of lanes that agree on what a cell gets, in whatever order.
* `addLanes_eq`: atomic additions, each to a cell of its own.
-/

/-- Cells, of which `size` may be accessed. -/
structure Buffer (α : Type) where
  size : ℕ
  cell : ℕ → Option α

namespace Buffer

open List

variable {α : Type}

def empty (n : ℕ) : Buffer α := ⟨n, fun _ => none⟩

def zeros (n : ℕ) : Buffer ℕ := ⟨n, fun i => if i < n then some 0 else none⟩

variable (b : Buffer α)

def load (i : ℕ) : Option α := if i < b.size then b.cell i else none

def store (i : ℕ) (v : α) : Option (Buffer α) :=
  if i < b.size then some { b with cell := fun j => if j = i then some v else b.cell j } else none

/-- The stores of lanes: where each one stores, and what. -/
def storeAll (writes : List (ℕ × α)) : Option (Buffer α) :=
  writes.foldlM (fun b w => b.store w.1 w.2) b

/-- The stores of the lanes that a mask selects. -/
def storeLanes (lanes : List ℕ) (mask : ℕ → Bool) (index : ℕ → ℕ) (value : ℕ → α) :
    Option (Buffer α) :=
  b.storeAll ((lanes.filter mask).map fun l => (index l, value l))

/-- The loads of the lanes that a mask selects; `other` is what the other ones have. -/
def loadLanes (lanes : List ℕ) (mask : ℕ → Bool) (other : α) : Option (ℕ → α) :=
  if ∀ l ∈ lanes, mask l → (b.load l).isSome then some fun l => if mask l then (b.load l).getD other
    else other else none

/-- The cell before, and the buffer after it. -/
def atomicAdd (b : Buffer ℕ) (i n : ℕ) : Option (ℕ × Buffer ℕ) := do
  let v ← b.load i
  let b ← b.store i (v + n)
  pure (v, b)

/-- The atomic additions of the lanes that a mask selects. -/
def addLanes (b : Buffer ℕ) (lanes : List ℕ) (mask : ℕ → Bool) (value : ℕ → ℕ) :
    Option (Buffer ℕ) :=
  (lanes.filter mask).foldlM (fun b l => (b.atomicAdd l (value l)).map Prod.snd) b

variable {b} {i : ℕ} {v : α} {writes : List (ℕ × α)} {f : ℕ → α}

@[simp] theorem size_empty (n : ℕ) : (empty n : Buffer α).size = n := rfl

@[simp] theorem cell_empty (n i : ℕ) : (empty n : Buffer α).cell i = none := rfl

theorem load_eq (h : i < b.size) : b.load i = b.cell i := if_pos h

theorem store_eq (h : i < b.size) :
    b.store i v = some { b with cell := fun j => if j = i then some v else b.cell j } := if_pos h

theorem loadLanes_eq (lanes : List ℕ) (mask : ℕ → Bool) (other : α)
    (h : ∀ l ∈ lanes, mask l → b.load l = some (f l)) :
    ∃ c, b.loadLanes lanes mask other = some c ∧ ∀ l ∈ lanes, c l = if mask l then f l
      else other := by
  refine ⟨_, if_pos fun l hl hmask => by rw [h l hl hmask]; rfl, fun l hl => ?_⟩
  by_cases hmask : mask l
  · rw [if_pos hmask, if_pos hmask, h l hl hmask]
    rfl
  · rw [if_neg hmask, if_neg hmask]

/-- Where all stores to a cell agree, their order does not matter. -/
theorem storeAll_eq (hlt : ∀ w ∈ writes, w.1 < b.size) (hf : ∀ w ∈ writes, w.2 = f w.1) :
    b.storeAll writes = some { b with
      cell := fun i => if i ∈ writes.map Prod.fst then some (f i) else b.cell i } := by
  induction writes generalizing b with
  | nil => simp [storeAll]
  | cons w writes ih =>
    have hw := hf w mem_cons_self
    have hcons : b.storeAll (w :: writes) = (b.store w.1 w.2).bind fun b => b.storeAll writes :=
      foldlM_cons
    rw [hcons, store_eq (hlt w mem_cons_self), Option.bind_some]
    refine (ih (b := { b with cell := fun j => if j = w.1 then some w.2 else b.cell j })
      (fun w' hw' => hlt w' (mem_cons_of_mem _ hw')) fun w' hw' =>
      hf w' (mem_cons_of_mem _ hw')).trans ?_
    congr 2
    funext i
    dsimp only
    by_cases hi : i ∈ writes.map Prod.fst
    · rw [if_pos hi, if_pos (by rw [map_cons]; exact mem_cons_of_mem _ hi)]
    · by_cases hi' : i = w.1
      · subst hi'
        rw [if_neg hi, if_pos rfl, if_pos (by simp), hw]
      · rw [if_neg hi, if_neg hi',
          if_neg (by simp only [map_cons, mem_cons, hi', hi, or_self, not_false_eq_true])]

theorem storeLanes_eq {lanes : List ℕ} {mask : ℕ → Bool} {index : ℕ → ℕ} {value : ℕ → α}
    (hlt : ∀ l ∈ lanes, mask l → index l < b.size) (hf : ∀ l ∈ lanes, mask l → value l = f (index l)) :
    b.storeLanes lanes mask index value =
      some { b with cell := fun i => if i ∈ (lanes.filter mask).map index then some (f i) else b.cell i } := by
  rw [storeLanes, storeAll_eq (f := f)]
  · rw [map_map]
    rfl
  · intro w hw
    obtain ⟨l, hl, rfl⟩ := List.mem_map.mp hw
    exact hlt l (List.mem_filter.mp hl).1 (List.mem_filter.mp hl).2
  · intro w hw
    obtain ⟨l, hl, rfl⟩ := List.mem_map.mp hw
    exact hf l (List.mem_filter.mp hl).1 (List.mem_filter.mp hl).2

theorem storeAll_flatMap {ι : Type} (steps : List ι) (writes : ι → List (ℕ × α)) :
    steps.foldlM (fun b j => b.storeAll (writes j)) b = b.storeAll (steps.flatMap writes) := by
  induction steps generalizing b with
  | nil => rfl
  | cons j steps ih =>
    rw [foldlM_cons, flatMap_cons, storeAll, storeAll, foldlM_append]
    refine congrArg _ (funext fun b => ?_)
    exact ih

theorem atomicAdd_eq {b : Buffer ℕ} {i n v : ℕ} (hi : i < b.size) (hv : b.cell i = some v) :
    b.atomicAdd i n =
      some (v, { b with cell := fun j => if j = i then some (v + n) else b.cell j }) := by
  rw [atomicAdd, load_eq hi, hv]
  simp [store_eq hi]

theorem addAll_eq {b : Buffer ℕ} {ls : List ℕ} {value g : ℕ → ℕ} (hn : ls.Nodup)
    (h : ∀ l ∈ ls, l < b.size ∧ b.cell l = some (g l)) :
    ls.foldlM (fun b l => (b.atomicAdd l (value l)).map Prod.snd) b =
      some { b with cell := fun i => if i ∈ ls then some (g i + value i) else b.cell i } := by
  induction ls generalizing b with
  | nil => simp
  | cons l ls ih =>
    obtain ⟨hnot, hn'⟩ := List.nodup_cons.mp hn
    obtain ⟨hl, hg⟩ := h l mem_cons_self
    rw [foldlM_cons, atomicAdd_eq hl hg]
    refine (ih (b := { b with cell := fun j => if j = l then some (g l + value l) else b.cell j })
      hn' fun l' hl' => ?_).trans ?_
    · have hne : l' ≠ l := fun heq => hnot (heq ▸ hl')
      obtain ⟨hlt, hcell⟩ := h l' (mem_cons_of_mem _ hl')
      exact ⟨hlt, (if_neg hne).trans hcell⟩
    · congr 2
      funext i
      dsimp only
      by_cases hi : i = l
      · subst hi
        rw [if_neg hnot, if_pos rfl, if_pos mem_cons_self]
      · simp only [mem_cons, hi, false_or, if_false]

theorem addLanes_eq {b : Buffer ℕ} {lanes : List ℕ} {mask : ℕ → Bool} {value g : ℕ → ℕ} (hn : lanes.Nodup)
    (h : ∀ l ∈ lanes, mask l → l < b.size ∧ b.cell l = some (g l)) :
    b.addLanes lanes mask value =
      some { b with cell := fun i => if i ∈ lanes.filter mask then some (g i + value i) else b.cell i } :=
  addAll_eq (hn.filter mask) fun l hl => h l (List.mem_filter.mp hl).1 (List.mem_filter.mp hl).2

end Buffer
