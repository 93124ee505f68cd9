import Mathlib.Data.List.Basic
import Mathlib.Data.Option.Basic

/-!
# Streams of blocks

A stream in which one block is open at a time.  A block is started under the next index, takes
parts, and is closed with a summary, which makes it a value.  What is inside a block is read by a
machine of its own, which may again be a reader of blocks, so that levels nest.
-/

/-- What a frame says about the blocks of a level. -/
inductive BlockMark (κ δ ω : Type) where
  | start (index : ℕ) (kind : κ)
  | part (index : ℕ) (p : δ)
  | stop (index : ℕ) (summary : ω)
deriving DecidableEq, Repr

/-- A machine for the inside of a block: what a block starts in, what a part does, and the value of
a block that is closed. -/
structure BlockBody (σ κ δ ω β : Type) where
  init : κ → Option σ
  step : σ → δ → Option σ
  close : σ → ω → Option β

/-- The blocks of a level that have been read. -/
structure BlockReader (σ β : Type) where
  closed : List β := []
  current : Option σ := none
deriving DecidableEq, Repr

namespace BlockReader

variable {σ κ δ ω β : Type} (B : BlockBody σ κ δ ω β)

/-- Read a mark, unless it is out of place. -/
def read (r : BlockReader σ β) : BlockMark κ δ ω → Option (BlockReader σ β)
  | .start index kind =>
    if r.current.isNone ∧ index = r.closed.length then
      (B.init kind).map fun s => ⟨r.closed, some s⟩
    else none
  | .part index p =>
    if index = r.closed.length then
      (r.current.bind fun s => B.step s p).map fun s => ⟨r.closed, some s⟩
    else none
  | .stop index summary =>
    if index = r.closed.length then
      (r.current.bind fun s => B.close s summary).map fun b => ⟨r.closed ++ [b], none⟩
    else none

variable {B} {bs : List β} {s s' : σ} {k : κ} {p : δ} {w : ω} {b : β} {i : ℕ}

theorem read_start (hi : i = bs.length) (h : B.init k = some s) :
    read B ⟨bs, none⟩ (.start i k) = some ⟨bs, some s⟩ := by
  subst hi
  simp [read, h]

theorem read_part (hi : i = bs.length) (h : B.step s p = some s') :
    read B ⟨bs, some s⟩ (.part i p) = some ⟨bs, some s'⟩ := by
  subst hi
  simp [read, h]

theorem read_stop (hi : i = bs.length) (h : B.close s w = some b) :
    read B ⟨bs, some s⟩ (.stop i w) = some ⟨bs ++ [b], none⟩ := by
  subst hi
  simp [read, h]

theorem read_part_eq_none (h : B.step s p = none) : read B ⟨bs, some s⟩ (.part i p) = none := by
  simp [read, h]

end BlockReader

/-! ### Texts -/

/-- A part of a text that arrives in pieces: a piece, or the whole text at its end. -/
inductive RunPart (α : Type) where
  | delta (piece : List α)
  | done (whole : List α)
deriving DecidableEq, Repr

/-- The part of a text that has been read. -/
structure RunReader (α : Type) where
  text : List α := []
  isDone : Bool := false
deriving DecidableEq, Repr

namespace RunReader

variable {α : Type} [DecidableEq α]

/-- Read a part: nothing follows the end, and what is said there is what has arrived. -/
def read (r : RunReader α) : RunPart α → Option (RunReader α)
  | .delta piece => if r.isDone then none else some { r with text := r.text ++ piece }
  | .done whole => if ¬r.isDone ∧ whole = r.text then some { r with isDone := true } else none

/-- The body of a block that is one text, which is empty when the block starts. -/
def body : BlockBody (RunReader α) (List α) (RunPart α) (List α) (List α) where
  init text := if text = [] then some {} else none
  step := read
  close r whole := if r.isDone ∧ whole = r.text then some whole else none

@[simp]
theorem read_delta (t piece : List α) : read ⟨t, false⟩ (.delta piece) = some ⟨t ++ piece, false⟩ :=
    rfl

@[simp]
theorem read_done (t : List α) : read ⟨t, false⟩ (.done t) = some ⟨t, true⟩ := by
  simp [read]

theorem read_done_eq_none {t t' : List α} (h : t' ≠ t) : read ⟨t, false⟩ (.done t') = none := by
  simp [read, h]

end RunReader
