import FreeToken.Mm.Processor
import Mathlib.Data.List.Range

/-!
# Correctness of the image positions

`imagePositions` fills every cell once; text and images begin one past all positions before them
(`Rope`), and so does the first position that is decoded (`exists_imagePositions`).
-/

namespace FreeToken

open List

/-! ### Rotary positions -/

def nextPosition (coords : List (ℕ × ℕ × ℕ)) : ℕ :=
  coords.foldr (fun c n => max (max c.1 (max c.2.1 c.2.2) + 1) n) 0

variable {coords coords' : List (ℕ × ℕ × ℕ)} {length m n st run : ℕ} {blocks : List ImageBlock}
  {b : ImageBlock}

theorem nextPosition_le :
    nextPosition coords ≤ m ↔ ∀ c ∈ coords, c.1 < m ∧ c.2.1 < m ∧ c.2.2 < m := by
  induction coords with
  | nil => simp [nextPosition]
  | cons c coords ih =>
    rw [forall_mem_cons, ← ih, nextPosition, foldr_cons, ← nextPosition]
    omega

theorem nextPosition_append_le :
    nextPosition (coords ++ coords') ≤ m ↔ nextPosition coords ≤ m ∧ nextPosition coords' ≤ m := by
  simp only [nextPosition_le, forall_mem_append]

def textCoords (st run : ℕ) : List (ℕ × ℕ × ℕ) := (range' st run).map fun x => (x, x, x)

def imageCoords (st n cols : ℕ) : List (ℕ × ℕ × ℕ) :=
  (range n).map fun j => (st, st + j / cols, st + j % cols)

@[simp] theorem length_textCoords : (textCoords st run).length = run := by simp [textCoords]

@[simp] theorem length_imageCoords {cols : ℕ} :
    (imageCoords st n cols).length = n := by simp [imageCoords]

theorem nextPosition_text (coords : List (ℕ × ℕ × ℕ)) (run : ℕ) :
    nextPosition (coords ++ textCoords (nextPosition coords) run) = nextPosition coords + run := by
  refine eq_of_forall_ge_iff fun m => ?_
  rw [nextPosition_append_le, @nextPosition_le (textCoords _ _)]
  simp only [textCoords, forall_mem_map, mem_range'_1, and_self]
  constructor
  · rintro ⟨hle, hall⟩
    rcases eq_zero_or_pos run with rfl | hrun
    · exact hle
    · have := hall (nextPosition coords + (run - 1)) (by omega)
      omega
  · exact fun h => ⟨by omega, fun x hx => by omega⟩

theorem nextPosition_image (coords : List (ℕ × ℕ × ℕ)) {rows cols : ℕ} (hpos : 0 < rows * cols) :
    nextPosition (coords ++ imageCoords (nextPosition coords) (rows * cols) cols) =
      nextPosition coords + max rows cols := by
  have hrows : 0 < rows := Nat.pos_of_mul_pos_right hpos
  have hcols : 0 < cols := Nat.pos_of_mul_pos_left hpos
  refine eq_of_forall_ge_iff fun m => ?_
  rw [nextPosition_append_le, @nextPosition_le (imageCoords _ _ _)]
  simp only [imageCoords, forall_mem_map, mem_range]
  constructor
  · rintro ⟨-, hall⟩
    -- the first token of the last row, and the last one of the first row
    have hrow := (hall ((rows - 1) * cols) (mul_lt_mul_of_pos_right (by omega) hcols)).2.1
    have hcol := (hall (cols - 1) (by have := Nat.le_mul_of_pos_left cols hrows; omega)).2.2
    rw [Nat.mul_div_cancel _ hcols] at hrow
    rw [Nat.mod_eq_of_lt (by omega)] at hcol
    omega
  · intro h
    refine ⟨by omega, fun j hj => ?_⟩
    have hdiv : j / cols < rows := Nat.div_lt_of_lt_mul (by rwa [mul_comm] at hj)
    have hmod := Nat.mod_lt j hcols
    omega

/-- Every token that is in no image, and every image, continues one past all positions before it. -/
structure Rope (blocks : List ImageBlock) (coords : List (ℕ × ℕ × ℕ)) : Prop where
  text : ∀ p < coords.length, (∀ b ∈ blocks, ¬ (b.offset ≤ p ∧ p < b.offset + b.nTokens)) →
    coords[p]? = some (nextPosition (coords.take p), nextPosition (coords.take p),
      nextPosition (coords.take p))
  image : ∀ b ∈ blocks, ∀ j < b.nTokens, coords[b.offset + j]? =
    some (nextPosition (coords.take b.offset), nextPosition (coords.take b.offset) + j / b.gridW,
      nextPosition (coords.take b.offset) + j % b.gridW)

/-- What was continued stays so. -/
theorem Rope.image_append (h : Rope blocks coords)
    (hblocks : ∀ b ∈ blocks, b.offset + b.nTokens ≤ coords.length)
    (coords' : List (ℕ × ℕ × ℕ)) {j : ℕ} (hb : b ∈ blocks) (hj : j < b.nTokens) :
    (coords ++ coords')[b.offset + j]? = some (nextPosition ((coords ++ coords').take b.offset),
        nextPosition ((coords ++ coords').take b.offset) + j / b.gridW,
        nextPosition ((coords ++ coords').take b.offset) + j % b.gridW) := by
  have hle := hblocks b hb
  rw [getElem?_append_left (by omega), take_append_of_le_length (by omega)]
  exact h.image b hb j hj

theorem Rope.append_text (h : Rope blocks coords)
    (hblocks : ∀ b ∈ blocks, b.offset + b.nTokens ≤ coords.length) (run : ℕ) :
    Rope blocks (coords ++ textCoords (nextPosition coords) run) where
  text p hp hout := by
    rcases lt_or_ge p coords.length with hlt | hge
    · rw [getElem?_append_left hlt, take_append_of_le_length hlt.le]
      exact h.text p hlt hout
    · obtain ⟨k, rfl⟩ := Nat.exists_eq_add_of_le hge
      have hk : k < run := by simpa using hp
      have htake :
          (textCoords (nextPosition coords) run).take k = textCoords (nextPosition coords) k := by
        rw [textCoords, ← map_take, take_range'_of_length_ge hk.le, textCoords]
      rw [List.getElem?_append_right hge, Nat.add_sub_cancel_left, take_length_add_append, htake,
        nextPosition_text, textCoords, List.getElem?_map, getElem?_range' hk, one_mul]
      rfl
  image b hb j hj := h.image_append hblocks _ hb hj

theorem Rope.append_image (h : Rope blocks coords)
    (hblocks : ∀ b ∈ blocks, b.offset + b.nTokens ≤ coords.length) (hb : b.offset = coords.length) :
    Rope (blocks ++ [b]) (coords ++ imageCoords (nextPosition coords) b.nTokens b.gridW) where
  text p hp hout := by
    rcases lt_or_ge p coords.length with hlt | hge
    · rw [getElem?_append_left hlt, take_append_of_le_length hlt.le]
      exact h.text p hlt fun b' hb' => hout b' (mem_append_left _ hb')
    · rw [length_append, length_imageCoords] at hp
      exact absurd ⟨by omega, by omega⟩ (hout b (by simp))
  image b' hb' j hj := by
    obtain hb' | hb' := mem_append.mp hb'
    · exact h.image_append hblocks _ hb' hj
    · obtain rfl := mem_singleton.mp hb'
      rw [List.getElem?_append_right (by omega), hb, Nat.add_sub_cancel_left, take_left,
        imageCoords, List.getElem?_map, getElem?_range hj]
      rfl

/-! ### The rows -/

def rowOf (length : ℕ) (values : List ℕ) : List (Option ℕ) :=
  values.map some ++ replicate (length - values.length) none

/-- The rows whose first cells are written. -/
def rowsOf (length : ℕ) (coords : List (ℕ × ℕ × ℕ)) : Rows :=
  ⟨rowOf length (coords.map fun c => c.1), rowOf length (coords.map fun c => c.2.1), rowOf length
    (coords.map fun c => c.2.2)⟩

variable {values values' : List ℕ}

theorem length_rowOf (h : values.length ≤ length) : (rowOf length values).length = length := by
  simp [rowOf]
  omega

theorem take_rowOf : (rowOf length values).take values.length = values.map some := by
  rw [rowOf, ← length_map (f := some), take_left]

theorem drop_rowOf (n : ℕ) :
    (rowOf length values).drop (values.length + n) = replicate (length - (values.length + n))
    none := by
  have hlen : values.length + n = (values.map some).length + n := by rw [length_map]
  rw [rowOf, hlen, drop_length_add_append, drop_replicate, length_map, Nat.sub_sub]

theorem assign_rowOf (h : values.length + values'.length ≤ length) :
    assign (rowOf length values) values.length (values.length + values'.length) values' =
      some (rowOf length (values ++ values')) := by
  have hsize :
      min (values.length + values'.length) (rowOf length values).length - values.length =
      values'.length := by
    rw [length_rowOf (by omega)]
    omega
  simp only [assign, hsize, if_pos, take_rowOf, drop_rowOf]
  simp [rowOf]

/-- One value fills the cells. -/
theorem assign_rowOf_replicate {v : ℕ} (h : values.length + n ≤ length) :
    assign (rowOf length values) values.length (values.length + n) [v] =
      some (rowOf length (values ++ replicate n v)) := by
  have hsize : min (values.length + n) (rowOf length values).length - values.length = n := by
    rw [length_rowOf (by omega)]
    omega
  simp only [assign, hsize, take_rowOf, drop_rowOf]
  by_cases hn : [v].length = n
  · obtain rfl : 1 = n := hn
    simp [rowOf]
  · rw [if_neg hn]
    simp [rowOf]

theorem rows_text (h : coords.length + run ≤ length) :
    (rowsOf length coords).text coords.length (coords.length + run) st run =
    some (rowsOf length (coords ++ textCoords st run)) := by
  have hassign :
      ∀ f : ℕ × ℕ × ℕ → ℕ, assign (rowOf length (coords.map f)) coords.length (coords.length + run)
        (range' st run) = some (rowOf length (coords.map f ++ range' st run)) := by
    intro f
    have := @assign_rowOf length (coords.map f) (range' st run) (by simpa using h)
    simpa using this
  simp only [Rows.text, rowsOf, hassign]
  simp [textCoords, Function.comp_def]

theorem rows_image {cols : ℕ} (h : coords.length + n ≤ length) :
    (rowsOf length coords).image coords.length st n cols =
    some (rowsOf length (coords ++ imageCoords st n cols)) := by
  have hassign :
      ∀ (f : ℕ × ℕ × ℕ → ℕ) (g : ℕ → ℕ), assign (rowOf length (coords.map f)) coords.length
      (coords.length + n)
      ((range n).map g) = some (rowOf length (coords.map f ++ (range n).map g)) := by
    intro f g
    have := @assign_rowOf length (coords.map f) ((range n).map g) (by simpa using h)
    simpa using this
  have hfill :
      ∀ f : ℕ × ℕ × ℕ → ℕ, assign (rowOf length (coords.map f)) coords.length (coords.length + n)
        [st] = some (rowOf length (coords.map f ++ replicate n st)) := by
    intro f
    have := @assign_rowOf_replicate length n (coords.map f) st (by simpa using h)
    simpa using this
  have hconst : (range n).map (fun _ => st) = replicate n st := by simp
  simp only [Rows.image, rowsOf, hassign, hfill]
  simp [imageCoords, Function.comp_def, hconst]

theorem rows_max (h : coords ≠ []) :
    ∃ top, (rowsOf coords.length coords).max = some top ∧ top + 1 = nextPosition coords := by
  have hrow :
      ∀ f : ℕ × ℕ × ℕ → ℕ, rowOf coords.length (coords.map f) = (coords.map f).map some := by
    intro f
    rw [rowOf, length_map, Nat.sub_self, replicate_zero, append_nil]
  have hvalues :
      ((rowsOf coords.length coords).t ++ (rowsOf coords.length coords).h ++
        (rowsOf coords.length coords).w).mapM id =
      some ((coords.map fun c => c.1) ++ (coords.map fun c => c.2.1) ++ coords.map fun c =>
        c.2.2) := by
    simp only [rowsOf, hrow]
    rw [← map_append, ← map_append, mapM_map]
    exact (mapM_eq_map fun x _ => rfl).trans (by rw [map_id'])
  cases hmax : ((coords.map fun c => c.1) ++ (coords.map fun c => c.2.1) ++ coords.map fun c =>
    c.2.2).max? with
  | none =>
    rw [max?_eq_none_iff] at hmax
    exact absurd hmax (by simpa using h)
  | some top =>
    refine ⟨top, by simp only [Rows.max, hvalues]; exact hmax, eq_of_forall_ge_iff fun m => ?_⟩
    obtain ⟨htop, hall⟩ := max?_eq_some_iff.mp hmax
    rw [nextPosition_le]
    simp only [mem_append, mem_map] at htop hall
    constructor
    -- the next position is one past the greatest of the three coordinates
    · intro hm c hc
      have h1 := hall c.1 (.inl (.inl ⟨c, hc, rfl⟩))
      have h2 := hall c.2.1 (.inl (.inr ⟨c, hc, rfl⟩))
      have h3 := hall c.2.2 (.inr ⟨c, hc, rfl⟩)
      omega
    · intro hm
      obtain (⟨c, hc, rfl⟩ | ⟨c, hc, rfl⟩) | ⟨c, hc, rfl⟩ := htop
      · exact (hm c hc).1
      · exact (hm c hc).2.1
      · exact (hm c hc).2.2

/-! ### The loop over the blocks -/

/-- The blocks are in order, from `cursor` on, and each has a token for every cell of its grid. -/
def Fit (length : ℕ) : ℕ → List ImageBlock → Prop
  | cursor, [] => cursor ≤ length
  | cursor, b :: blocks => cursor ≤ b.offset ∧ 0 < b.nTokens ∧ b.nTokens = b.gridH * b.gridW ∧
    Fit length (b.offset + b.nTokens) blocks

theorem Fit.le {cursor : ℕ} (h : Fit length cursor blocks) : cursor ≤ length := by
  induction blocks generalizing cursor with
  | nil => exact h
  | cons b blocks ih =>
    have := ih h.2.2.2
    have := h.1
    omega

/-- What the loop has written: the coordinates up to the cursor. -/
structure Written (length : ℕ) (blocks : List ImageBlock) (coords : List (ℕ × ℕ × ℕ))
    (s : PositionState) : Prop where
  pos : s.pos = rowsOf length coords
  st : s.st = nextPosition coords
  cursor : s.cursor = coords.length
  within : ∀ b ∈ blocks, b.offset + b.nTokens ≤ coords.length
  rope : Rope blocks coords

variable {s : PositionState}

theorem Written.text (h : Written length blocks coords s) {hi : ℕ} (hle : coords.length ≤ hi)
    (hhi : hi ≤ length) :
    ∃ s', s.text hi = some s' ∧
      Written length blocks (coords ++ textCoords (nextPosition coords) (hi - coords.length))
        s' := by
  obtain ⟨run, rfl⟩ := Nat.exists_eq_add_of_le hle
  rw [PositionState.text, if_neg (by rw [h.cursor]; omega), h.cursor, Nat.add_sub_cancel_left]
  by_cases hrun : run = 0
  · subst hrun
    refine ⟨s, rfl, ?_⟩
    simpa [textCoords] using h
  · rw [if_neg hrun, h.pos, h.st, rows_text hhi]
    refine ⟨_, rfl, rfl, (nextPosition_text coords run).symm, by simp, fun b hb =>
      ?_, h.rope.append_text h.within run⟩
    rw [length_append]
    exact (h.within b hb).trans (Nat.le_add_right _ _)

theorem Written.block (h : Written length blocks coords s) (hle : coords.length ≤ b.offset)
    (hpos : 0 < b.nTokens)
    (hgrid : b.nTokens = b.gridH * b.gridW) (hend : b.offset + b.nTokens ≤ length) :
    ∃ s' coords', s.block b = some s' ∧ coords'.length = b.offset + b.nTokens ∧
      Written length (blocks ++ [b]) coords' s' := by
  obtain ⟨mid, hmid, hw⟩ := h.text hle (by omega)
  set coords' := coords ++ textCoords (nextPosition coords) (b.offset - coords.length) with hcoords'
  have hlen : coords'.length = b.offset := by
    rw [hcoords', length_append, length_textCoords]
    omega
  refine ⟨{ pos := rowsOf length (coords' ++ imageCoords (nextPosition coords') b.nTokens b.gridW),
            st := nextPosition coords' + max b.gridH b.gridW, cursor := coords'.length + b.nTokens },
    coords' ++ imageCoords (nextPosition coords') b.nTokens b.gridW, ?_, by simp [hlen], ?_⟩
  · have hcols : b.gridW ≠ 0 := fun h0 => by
      rw [hgrid, h0] at hpos
      exact absurd hpos (lt_irrefl 0)
    simp only [PositionState.block, hmid, hw.pos, hw.st, hw.cursor, Option.bind_eq_bind,
      Option.bind_some, hcols, and_false, if_false, rows_image (hlen ▸ hend)]
    rfl
  · refine ⟨rfl, ?_, by simp, fun b' hb' => ?_, hw.rope.append_image hw.within hlen.symm⟩
    · rw [hgrid, nextPosition_image coords' (hgrid ▸ hpos)]
    · rw [length_append, length_imageCoords]
      obtain hb' | hb' := mem_append.mp hb'
      · exact (hw.within b' hb').trans (Nat.le_add_right _ _)
      · obtain rfl := mem_singleton.mp hb'
        omega

theorem Written.loop {done : List ImageBlock} (h : Written length done coords s)
    (hfit : Fit length coords.length blocks) :
    ∃ s' coords', blocks.foldlM PositionState.block s = some s' ∧
      Written length (done ++ blocks) coords' s' ∧
      coords'.length ≤ length := by
  induction blocks generalizing s done coords with
  | nil => exact ⟨s, coords, rfl, by simpa using h, hfit⟩
  | cons b blocks ih =>
    obtain ⟨hle, hpos, hgrid, hrest⟩ := hfit
    obtain ⟨mid, coords', hmid, hlen, hw⟩ := h.block hle hpos hgrid hrest.le
    obtain ⟨s', coords'', hloop, hw', hle'⟩ := ih hw (hlen ▸ hrest)
    refine ⟨s', coords'', ?_, by simpa using hw', hle'⟩
    rw [foldlM_cons, hmid]
    exact hloop

/-- Every cell is written, each run continues where it should, and so does the first decode
position. -/
theorem exists_imagePositions (hlength : 0 < length) (hfit : Fit length 0 blocks) :
    ∃ coords delta, imagePositions length blocks = some (rowsOf length coords, delta) ∧
      coords.length = length ∧ Rope blocks coords ∧
      (length : ℤ) + delta = nextPosition coords := by
  have hempty : Written length [] []
      ⟨⟨replicate length none, replicate length none, replicate length none⟩, 0, 0⟩ :=
    ⟨rfl, rfl, rfl, by simp, ⟨by simp, by simp⟩⟩
  obtain ⟨s, coords, hloop, hw, hle⟩ := hempty.loop hfit
  obtain ⟨s', htext, hw'⟩ := hw.text hle le_rfl
  set coords' := coords ++ textCoords (nextPosition coords) (length - coords.length) with hcoords'
  have hlen : coords'.length = length := by
    rw [hcoords', length_append, length_textCoords]
    omega
  obtain ⟨top, htop, hnext⟩ := rows_max (ne_nil_of_length_pos (hlen ▸ hlength))
  rw [hlen] at htop
  refine ⟨coords', (top : ℤ) + 1 - length, ?_, hlen, by simpa using hw'.rope, by omega⟩
  simp only [imagePositions, hloop, htext, hw'.pos, htop, Option.bind_eq_bind, Option.bind_some]
  rfl

end FreeToken
