import FreeToken.Attention.Ragged

/-!
# Rows and tokens

A row of a batch is a token of one of its requests, and every such token has one row
(`Chunk.IsRow`).
-/

namespace FreeToken.Chunk

variable {α β : Type} {c c' : Chunk α} {cs : List (Chunk α)} {i j j' d d' : ℕ}

/-- Row `i` is token `d` of request `j`, which is `c`. -/
structure IsRow (cs : List (Chunk α)) (i j : ℕ) (c : Chunk α) (d : ℕ) : Prop where
  req : cs[j]? = some c
  token : d < c.extendLen
  row : i = cuSeqlens cs j + d

theorem cuSeqlens_zero : cuSeqlens cs 0 = 0 := by
  cases cs <;> rfl

theorem cuSeqlens_succ (h : cs[j]? = some c) :
    cuSeqlens cs (j + 1) = cuSeqlens cs j + c.extendLen := by
  induction cs generalizing j with
  | nil => simp at h
  | cons b cs ih =>
    cases j with
    | zero =>
      rw [List.getElem?_cons_zero, Option.some.injEq] at h
      subst h
      show b.extendLen + cuSeqlens cs 0 = 0 + b.extendLen
      rw [cuSeqlens_zero, Nat.add_comm]
    | succ j =>
      rw [List.getElem?_cons_succ] at h
      show b.extendLen + cuSeqlens cs (j + 1) = b.extendLen + cuSeqlens cs j + c.extendLen
      rw [ih h, Nat.add_assoc]

theorem IsRow.cons {b : Chunk α} (h : IsRow cs i j c d) :
    IsRow (b :: cs) (b.extendLen + i) (j + 1) c d := by
  obtain ⟨hreq, htoken, hrow⟩ := h
  refine ⟨hreq, htoken, ?_⟩
  show b.extendLen + i = b.extendLen + cuSeqlens cs j + d
  omega

/-- Every row is a token. -/
theorem exists_isRow (hi : i < cuSeqlens cs cs.length) : ∃ j c d, IsRow cs i j c d := by
  induction cs generalizing i with
  | nil => exact absurd hi (Nat.not_lt_zero i)
  | cons b cs ih =>
    have hi : i < b.extendLen + cuSeqlens cs cs.length := hi
    by_cases hlt : i < b.extendLen
    · exact ⟨0, b, i, rfl, hlt, (Nat.zero_add i).symm⟩
    · obtain ⟨j, c, d, h⟩ := @ih (i - b.extendLen) (by omega)
      have hcons := h.cons (b := b)
      rw [Nat.add_sub_cancel' (not_lt.mp hlt)] at hcons
      exact ⟨j + 1, c, d, hcons⟩

/-- What a batch has at a row, for data that every request has for each of its tokens. -/
theorem IsRow.getElem?_flatMap {f : Chunk α → List β}
    (hf : ∀ c : Chunk α, (f c).length = c.extendLen)
    (h : IsRow cs i j c d) : (cs.flatMap f)[i]? = (f c)[d]? := by
  obtain ⟨hreq, htoken, rfl⟩ := h
  induction cs generalizing j with
  | nil => simp at hreq
  | cons b cs ih =>
    rw [List.flatMap_cons]
    cases j with
    | zero =>
      rw [List.getElem?_cons_zero, Option.some.injEq] at hreq
      subst hreq
      show (f b ++ _)[0 + d]? = _
      rw [Nat.zero_add, List.getElem?_append_left (by rw [hf]; exact htoken)]
    | succ j =>
      rw [List.getElem?_cons_succ] at hreq
      show (f b ++ _)[b.extendLen + cuSeqlens cs j + d]? = _
      rw [List.getElem?_append_right (by rw [hf]; omega), hf, Nat.add_assoc,
        Nat.add_sub_cancel_left]
      exact ih hreq

theorem IsRow.tokenToReq {start : ℕ} (h : IsRow cs i j c d) :
    (tokenToReq start cs)[i]? = some (start + j) := by
  obtain ⟨hreq, htoken, rfl⟩ := h
  induction cs generalizing j start with
  | nil => simp at hreq
  | cons b cs ih =>
    cases j with
    | zero =>
      rw [List.getElem?_cons_zero, Option.some.injEq] at hreq
      subst hreq
      show (List.replicate b.extendLen start ++ _)[0 + d]? = _
      rw [Nat.zero_add, List.getElem?_append_left (by rw [List.length_replicate]; exact htoken),
        List.getElem?_replicate_of_lt htoken]
      rfl
    | succ j =>
      rw [List.getElem?_cons_succ] at hreq
      show (List.replicate b.extendLen start ++ _)[b.extendLen + cuSeqlens cs j + d]? = _
      rw [List.getElem?_append_right (by rw [List.length_replicate]; omega), List.length_replicate,
        Nat.add_assoc, Nat.add_sub_cancel_left, ih hreq]
      congr 1
      omega

theorem IsRow.lt (h : IsRow cs i j c d) : i < cuSeqlens cs cs.length := by
  by_contra hge
  obtain ⟨hreq, htoken, rfl⟩ := h
  have hlt : cuSeqlens cs j + c.extendLen ≤ cuSeqlens cs cs.length := by
    rw [← cuSeqlens_succ hreq]
    clear hge
    induction cs generalizing j with
    | nil => simp at hreq
    | cons b cs ih =>
      show b.extendLen + cuSeqlens cs j ≤ b.extendLen + cuSeqlens cs cs.length
      cases j with
      | zero =>
        rw [cuSeqlens_zero]
        omega
      | succ j =>
        rw [List.getElem?_cons_succ] at hreq
        exact Nat.add_le_add_left (ih hreq) _
  omega

/-! ### The tensors at a row -/

theorem length_positions : c.positions.length = c.extendLen := List.length_range'

theorem length_outLoc : c.outLoc.length = c.extendLen := by
  unfold outLoc
  rw [List.length_map, length_positions]

theorem IsRow.metadata (h : IsRow cs i j c d) :
    (prepareMetadata cs).tokenToReq i = j ∧ (prepareMetadata cs).positions i =
    (c.cachedLen + d : ℕ) ∧
      (prepareMetadata cs).outLoc i = c.pageTable (c.cachedLen + d) ∧
      (prepareMetadata cs).ringSlots j = c.tableIdx ∧
      (prepareMetadata cs).cuSeqlens j = cuSeqlens cs j ∧
      (prepareMetadata cs).cuSeqlens (j + 1) = cuSeqlens cs j + c.extendLen ∧
      (rawKeys cs)[i]? = c.raws[d]? := by
  have hpos : c.positions[d]? = some (c.cachedLen + d) := by
    unfold positions
    rw [List.getElem?_range' h.token, Nat.one_mul]
  refine ⟨?_, ?_, ?_, ?_, rfl, ?_, h.getElem?_flatMap fun _ => rfl⟩
  · show (((_ : Option ℕ).getD 0 : ℕ) : ℤ) = _
    rw [h.tokenToReq, Nat.zero_add]
    rfl
  · show (((_ : Option ℕ).getD 0 : ℕ) : ℤ) = _
    rw [h.getElem?_flatMap fun _ => length_positions, hpos]
    rfl
  · show (_ : Option ℕ).getD 0 = _
    rw [h.getElem?_flatMap fun _ => length_outLoc]
    unfold outLoc
    rw [List.getElem?_map, hpos]
    rfl
  · show (((_ : Option (Chunk α)).elim 0 tableIdx : ℕ) : ℤ) = _
    rw [h.req]
    rfl
  · show ((cuSeqlens cs (j + 1) : ℕ) : ℤ) = _
    rw [cuSeqlens_succ h.req]
    push_cast
    rfl

end FreeToken.Chunk
