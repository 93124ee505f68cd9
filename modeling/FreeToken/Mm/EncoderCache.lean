import Mathlib.Data.List.AList

/-!
# The encoder embedding cache

Entries are keyed by the content hash of an image.  An entry lives while any request still has rows
of it to gather.  `α` is the type of an embedding row.
-/

namespace FreeToken

/-- `_Entry`: the embedding, and the rows that each request still has to gather. -/
structure EncoderEntry (α : Type) where
  tensor : Option (List α) := none
  remaining : AList fun _ : ℕ => ℕ := ∅

structure EncoderCache (α : Type) where
  entries : AList fun _ : ℕ => EncoderEntry α := ∅

namespace EncoderCache

variable {α : Type} (c : EncoderCache α)

def register (itemHash uid rows : ℕ) : EncoderCache α :=
  if rows = 0 then c
  else
    let entry := (c.entries.lookup itemHash).getD {}
    let remaining := entry.remaining.insert uid ((entry.remaining.lookup uid).getD 0 + rows)
    { entries := c.entries.insert itemHash { entry with remaining } }

def has (itemHash : ℕ) : Bool :=
  match c.entries.lookup itemHash with
  | some entry => entry.tensor.isSome
  | none => false

/-- `put`; `none` is the failed assertion that a request registered the image. -/
def put (itemHash : ℕ) (embedding : List α) : Option (EncoderCache α) :=
  match c.entries.lookup itemHash with
  | none => none
  | some entry =>
    if entry.tensor.isSome then some c
    else some { entries := c.entries.insert itemHash { entry with tensor := some embedding } }

/-- `get_slice`; `none` is a missing entry or tensor. -/
def getSlice (itemHash lo hi : ℕ) : Option (List α) :=
  match c.entries.lookup itemHash with
  | none => none
  | some entry => entry.tensor.map fun t => (t.take hi).drop lo

/-- The cache with the rows `remaining` of an entry: an entry without a holder is dropped. -/
def setRemaining (itemHash : ℕ) (entry : EncoderEntry α) (remaining : AList fun _ : ℕ => ℕ) :
    EncoderCache α :=
  if remaining.entries = [] then { entries := c.entries.erase itemHash }
  else { entries := c.entries.insert itemHash { entry with remaining } }

/-- `consume`; `none` is a missing entry or holder, or the failed assertion that no request gathers
more rows than it registered. -/
def consume (itemHash uid rows : ℕ) : Option (EncoderCache α) :=
  match c.entries.lookup itemHash with
  | none => none
  | some entry =>
    match entry.remaining.lookup uid with
    | none => none
    | some held =>
      if rows ≤ held then
        let left := held - rows
        if left ≠ 0 then some (c.setRemaining itemHash entry (entry.remaining.insert uid left))
        else some (c.setRemaining itemHash entry (entry.remaining.erase uid))
      else none

def release (uid : ℕ) (hashes : List ℕ) : EncoderCache α :=
  hashes.foldl (fun c h =>
    match c.entries.lookup h with
    | none => c
    | some entry => c.setRemaining h entry (entry.remaining.erase uid)) c

end EncoderCache

end FreeToken
