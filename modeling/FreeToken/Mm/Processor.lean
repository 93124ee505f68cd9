import FreeToken.Lib.MapM
import FreeToken.Core

/-!
# Image processors

Every image placeholder of a prompt is replaced by the tokens of its image.

* `PromptReplacement`: what stands for a placeholder, and which of its tokens take embeddings.
* `findAll`: where the placeholders are.
* `MMProcessor.apply`: the prompt with its replacements, and the items with their offsets.
* `imagePositions`: the positions of the rotary embedding.
* `QwenVL`: the family with three axes.
-/

namespace FreeToken

def mmPadShiftValue : ℕ := 1000000

def mmPadValue (itemHash : ℕ) : ℕ := mmPadShiftValue + itemHash % 2 ^ 30

/-! ### Replacements -/

/-- The tokens that replace a placeholder; `isEmbed` marks those that take embeddings, `none` stands
for all. -/
structure PromptReplacement where
  full : List ℕ
  isEmbed : Option (List Bool)
  length_isEmbed : ∀ mask ∈ isEmbed, mask.length = full.length

namespace PromptReplacement

def all (full : List ℕ) : PromptReplacement := ⟨full, none, by simp⟩

variable (r : PromptReplacement)

/-- The mask of `embed_spans`. -/
def mask : List Bool := r.isEmbed.getD (List.replicate r.full.length true)

/-- The loop of `embed_spans`, at the flag `i`; `lo` is where an open run began. -/
def spansLoop : ℕ → Option ℕ → List Bool → List (ℕ × ℕ)
  | _, _, [] => []
  | i, none, true :: flags => spansLoop (i + 1) (some i) flags
  | i, none, false :: flags => spansLoop (i + 1) none flags
  | i, some lo, true :: flags => spansLoop (i + 1) (some lo) flags
  | i, some lo, false :: flags => (lo, i) :: spansLoop (i + 1) none flags

def embedSpans : List (ℕ × ℕ) := spansLoop 0 none (r.mask ++ [false])

/-- The tokens, with a pad value in the spans. -/
def padded (pad : ℕ) : List ℕ :=
  r.embedSpans.foldl (fun full s => full.take s.1 ++ List.replicate (s.2 - s.1) pad ++
    full.drop s.2) r.full

end PromptReplacement

/-! ### Placeholders -/

/-- The loop of `_find_all`, from `i` on. -/
def findAllFrom (ids target : List ℕ) (ht : 0 < target.length) (i : ℕ) : List ℕ :=
  if i + target.length ≤ ids.length then
    if (ids.drop i).take target.length = target then i :: findAllFrom ids target ht
      (i + target.length)
    else findAllFrom ids target ht (i + 1)
  else []
termination_by ids.length - i

/-- `_find_all`; an empty target would be found forever. -/
def findAll (ids target : List ℕ) (ht : 0 < target.length) : List ℕ := findAllFrom ids target ht 0

/-! ### Items -/

/-- What a processor knows of an item; `data` are the extras of the family. -/
structure ProcessedItem (δ : Type) extends MMItem where
  padValue : ℕ
  hasFeature : Bool
  hasEmbeddings : Bool
  data : δ

/-- What `apply` raises. -/
inductive ApplyError where
  /-- The prompt renders `slots` placeholders but the request carries `images` images. -/
  | count (slots images : ℕ)
  /-- An image that cannot be read. -/
  | image
  /-- The offsets must be non-empty half-open spans. -/
  | offsets (offsets : List (ℕ × ℕ))
  /-- An item needs exactly one of features and embeddings. -/
  | feature
  /-- There are no positions. -/
  | positions
deriving DecidableEq, Repr

variable {ι δ : Type}

def ProcessedItem.validate (item : ProcessedItem δ) : Except ApplyError Unit :=
  if item.offsets = [] ∨ item.offsets.any fun s => decide (s.2 ≤ s.1) then .error
    (.offsets item.offsets)
  else if item.hasFeature = item.hasEmbeddings then .error .feature
  else .ok ()

/-! ### Positions -/

/-- The three rows of positions; a cell that was not written has no value. -/
structure Rows where
  t : List (Option ℕ)
  h : List (Option ℕ)
  w : List (Option ℕ)
deriving DecidableEq, Repr

/-- `row[lo:hi] = values`: one value fills the slice, and any other number must be its size. -/
def assign (row : List (Option ℕ)) (lo hi : ℕ) (values : List ℕ) : Option (List (Option ℕ)) :=
  let size := min hi row.length - lo
  if values.length = size then some (row.take lo ++ values.map some ++ row.drop (lo + size))
  else
    match values with
    | [v] => some (row.take lo ++ List.replicate size (some v) ++ row.drop (lo + size))
    | _ => none

/-- `pos[:, lo:hi] = torch.arange(st, st + run)`. -/
def Rows.text (pos : Rows) (lo hi st run : ℕ) : Option Rows := do
  let values := List.range' st run
  let t ← assign pos.t lo hi values
  let h ← assign pos.h lo hi values
  let w ← assign pos.w lo hi values
  pure ⟨t, h, w⟩

/-- The positions of an image with `n` tokens and `cols` columns. -/
def Rows.image (pos : Rows) (cursor st n cols : ℕ) : Option Rows := do
  let t ← assign pos.t cursor (cursor + n) [st]
  let h ← assign pos.h cursor (cursor + n) ((List.range n).map fun idx => st + idx / cols)
  let w ← assign pos.w cursor (cursor + n) ((List.range n).map fun idx => st + idx % cols)
  pure ⟨t, h, w⟩

/-- `pos.max()`. -/
def Rows.max (pos : Rows) : Option ℕ := do
  let values ← (pos.t ++ pos.h ++ pos.w).mapM id
  values.max?

/-- `(offset, n_tokens, grid_h, grid_w)`. -/
structure ImageBlock where
  offset : ℕ
  nTokens : ℕ
  gridH : ℕ
  gridW : ℕ
deriving DecidableEq, Repr

/-- What the loop of `image_positions` carries: the rows, the running position and the cursor. -/
structure PositionState where
  pos : Rows
  st : ℕ
  cursor : ℕ
deriving DecidableEq, Repr

/-- The text up to `hi`.  A run that ends before it begins raises. -/
def PositionState.text (s : PositionState) (hi : ℕ) : Option PositionState :=
  if hi < s.cursor then none
  else
    let run := hi - s.cursor
    if run = 0 then some s
    else (s.pos.text s.cursor hi s.st run).map fun pos => { pos, st := s.st + run, cursor := hi }

def PositionState.block (s : PositionState) (b : ImageBlock) : Option PositionState := do
  let s ← s.text b.offset
  -- a division by zero raises where the grid has no column
  if b.nTokens ≠ 0 ∧ b.gridW = 0 then none
  else
    let pos ← s.pos.image s.cursor s.st b.nTokens b.gridW
    pure { pos, st := s.st + Nat.max b.gridH b.gridW, cursor := s.cursor + b.nTokens }

def imagePositions (length : ℕ) (blocks : List ImageBlock) : Option (Rows × ℤ) := do
  let empty := List.replicate length none
  let s ← blocks.foldlM PositionState.block { pos := ⟨empty, empty, empty⟩, st := 0, cursor := 0 }
  let s ← s.text length
  let top ← s.pos.max
  pure (s.pos, (top : ℤ) + 1 - length)

/-! ### Processors -/

/-- `MMProcessor`: `process` gives one item for each image, with `none` for one that cannot be read.
`positions` is `none` where it raises. -/
structure MMProcessor (ι δ : Type) where
  placeholder : List ℕ
  placeholder_pos : 0 < placeholder.length
  process : List ι → Option (List (ProcessedItem δ))
  length_process : ∀ images items, process images = some items → items.length = images.length
  promptReplacement : ProcessedItem δ → PromptReplacement
  positions : ℕ → List (ProcessedItem δ) → Option (Option (Rows × ℤ))

structure MMResult (δ : Type) where
  inputIds : List ℕ
  mmItems : List (ProcessedItem δ)
  mropePositions : Option Rows
  mropeDelta : ℤ

/-- What the loop of `apply` carries: the prompt so far, the cursor in the original one, and the
items. -/
structure SpliceState (δ : Type) where
  out : List ℕ
  cursor : ℕ
  items : List (ProcessedItem δ)

namespace MMProcessor

variable (P : MMProcessor ι δ)

/-- One turn of `apply`. -/
def spliceItem (ids : List ℕ) (s : SpliceState δ) (p : ℕ × ProcessedItem δ) :
    Except ApplyError (SpliceState δ) := do
  let repl := P.promptReplacement p.2
  let out := s.out ++ (ids.take p.1).drop s.cursor
  let item :=
    { p.2 with offsets := repl.embedSpans.map fun span => (out.length + span.1, out.length + span.2)
      }
  item.validate
  pure { out := out ++ repl.padded p.2.padValue, cursor := p.1 + P.placeholder.length, items :=
    s.items ++ [item] }

/-- What `apply` returns for a prompt and its items. -/
def result (out : List ℕ) (items : List (ProcessedItem δ)) : Except ApplyError (MMResult δ) :=
  match P.positions out.length items with
  | none => .error .positions
  | some none => .ok ⟨out, items, none, 0⟩
  | some (some (pos, delta)) => .ok ⟨out, items, some pos, delta⟩

def apply (ids : List ℕ) (images : List ι) : Except ApplyError (MMResult δ) :=
  let slots := findAll ids P.placeholder P.placeholder_pos
  if slots.length ≠ images.length then .error (.count slots.length images.length)
  else
    match P.process images with
    | none => .error .image
    | some items => do
      let s ← (slots.zip items).foldlM (P.spliceItem ids) { out := [], cursor := 0, items := [] }
      P.result (s.out ++ ids.drop s.cursor) s.items

end MMProcessor

/-! ### Qwen VL -/

/-- `QwenVLMMProcessor`; `imageProcessor` gives the content hash of an image and its grid of
patches. -/
structure QwenVL (ι : Type) where
  imageTokenId : ℕ
  merge : ℕ
  isMrope : Bool
  imageProcessor : ι → Option (ℕ × ℕ × ℕ × ℕ)

namespace QwenVL

variable (q : QwenVL ι)

/-- One image of `process`: there is no time axis. -/
def processImage (image : ι) : Option (ProcessedItem (ℕ × ℕ × ℕ)) :=
  (q.imageProcessor image).bind fun (itemHash, grid) =>
    if grid.1 ≠ 1 then none
    else some { hash := itemHash, offsets := [], padValue := mmPadValue itemHash, hasFeature := true,
                hasEmbeddings := false, data := grid }

def promptReplacement (item : ProcessedItem (ℕ × ℕ × ℕ)) : PromptReplacement :=
  .all (List.replicate (item.data.1 * item.data.2.1 * item.data.2.2 / (q.merge * q.merge))
    q.imageTokenId)

def imageGrid (item : ProcessedItem (ℕ × ℕ × ℕ)) : ℕ × ℕ :=
  (item.data.2.1 / q.merge, item.data.2.2 / q.merge)

end QwenVL

/-- The block of an item, which has one span. -/
def imageBlock (grid : ProcessedItem δ → ℕ × ℕ) (item : ProcessedItem δ) : Option ImageBlock :=
  match item.offsets with
  | [(start, stop)] => some ⟨start, stop - start, (grid item).1, (grid item).2⟩
  | _ => none

namespace QwenVL

variable (q : QwenVL ι)

def positions (length : ℕ) (items : List (ProcessedItem (ℕ × ℕ × ℕ))) :
    Option (Option (Rows × ℤ)) :=
  if q.isMrope then do
    let blocks ← items.mapM (imageBlock q.imageGrid)
    let r ← imagePositions length blocks
    pure (some r)
  else some none

/-- The family: one placeholder token for each image. -/
def processor : MMProcessor ι (ℕ × ℕ × ℕ) where
  placeholder := [q.imageTokenId]
  placeholder_pos := Nat.one_pos
  process images := images.mapM q.processImage
  length_process _ _ h := (forall₂_of_mapM h).length_eq.symm
  promptReplacement := q.promptReplacement
  positions := q.positions

end QwenVL

end FreeToken
