import Mathlib.Data.List.Infix

/-!
# Lossy decoding of UTF-8

A decoder that replaces each maximal part of a byte sequence that is no character by U+FFFD.  It is
a machine that reads one byte at a time, so that what it has emitted does not depend on the bytes
behind, and only the end of the input shows an incomplete character.
-/

namespace Utf8Lossy

open List

abbrev replacement : Char := '\uFFFD'

/-- An incomplete character: how many bytes are missing, the bounds of the next one, and the bits so
far. -/
structure Pending where
  needed : ℕ
  low : ℕ
  high : ℕ
  bits : ℕ
deriving DecidableEq, Repr

def first (b : UInt8) : List Char × Option Pending :=
  let n := b.toNat
  if n < 0x80 then ([Char.ofNat n], none)
  else if 0xC2 ≤ n ∧ n ≤ 0xDF then ([], some ⟨1, 0x80, 0xBF, n - 0xC0⟩)
  else if n = 0xE0 then ([], some ⟨2, 0xA0, 0xBF, 0⟩)
  else if n = 0xED then ([], some ⟨2, 0x80, 0x9F, 0xD⟩)
  else if 0xE1 ≤ n ∧ n ≤ 0xEF then ([], some ⟨2, 0x80, 0xBF, n - 0xE0⟩)
  else if n = 0xF0 then ([], some ⟨3, 0x90, 0xBF, 0⟩)
  else if 0xF1 ≤ n ∧ n ≤ 0xF3 then ([], some ⟨3, 0x80, 0xBF, n - 0xF0⟩)
  else if n = 0xF4 then ([], some ⟨3, 0x80, 0x8F, 4⟩)
  else ([replacement], none)

/-- A byte behind an incomplete character, or between characters. -/
def step : Option Pending → UInt8 → List Char × Option Pending
  | none, b => first b
  | some p, b =>
    let n := b.toNat
    if p.low ≤ n ∧ n ≤ p.high then
      let bits := p.bits * 64 + (n - 0x80)
      if p.needed ≤ 1 then ([Char.ofNat bits], none)
        else ([], some ⟨p.needed - 1, 0x80, 0xBF, bits⟩)
    else (replacement :: (first b).1, (first b).2)

def flush : Option Pending → List Char
  | none => []
  | some _ => [replacement]

def emitted : Option Pending → List UInt8 → List Char
  | _, [] => []
  | s, b :: bs => (step s b).1 ++ emitted (step s b).2 bs

def after : Option Pending → List UInt8 → Option Pending
  | s, [] => s
  | s, b :: bs => after (step s b).2 bs

def decodeFrom (s : Option Pending) (bs : List UInt8) : List Char :=
  emitted s bs ++ flush (after s bs)

def decode (bs : List UInt8) : List Char := decodeFrom none bs

theorem emitted_append (s : Option Pending) (a b : List UInt8) :
    emitted s (a ++ b) = emitted s a ++ emitted (after s a) b := by
  induction a generalizing s with
  | nil => rfl
  | cons x a ih => simp [emitted, after, ih]

theorem after_append (s : Option Pending) (a b : List UInt8) :
    after s (a ++ b) = after (after s a) b := by
  induction a generalizing s with
  | nil => rfl
  | cons x a ih => simp [after, ih]

theorem decode_append (a b : List UInt8) :
    decode (a ++ b) = emitted none a ++ decodeFrom (after none a) b := by
  simp [decode, decodeFrom, emitted_append, after_append]

@[simp]
theorem decode_nil : decode [] = [] := rfl

variable {a : List UInt8}

/-- Between characters, decoding starts afresh. -/
theorem decode_append_of_after (h : after none a = none) (b : List UInt8) :
    decode (a ++ b) = decode a ++ decode b := by
  rw [decode_append, h]
  simp [decode, decodeFrom, h, flush]

theorem after_eq_none (h : (decode a).getLast? ≠ some replacement) : after none a = none := by
  cases ha : after none a with
  | none => rfl
  | some p =>
    apply absurd _ h
    simp [decode, decodeFrom, ha, flush]

theorem decodeFrom_some_ne_nil (p : Pending) (bs : List UInt8) : decodeFrom (some p) bs ≠ [] := by
  induction bs generalizing p with
  | nil => simp [decodeFrom, after, flush]
  | cons b bs ih =>
    intro hnil
    have hsplit : (step (some p) b).1 = [] ∧ decodeFrom (step (some p) b).2 bs = [] := by
      simpa [decodeFrom, emitted, after, and_assoc] using hnil
    obtain ⟨hout, hrest⟩ := hsplit
    simp only [step] at hout hrest
    split at hout
    · rename_i hin
      simp only [hin, and_self, ↓reduceIte] at hrest
      split at hout
      · simp at hout
      · rename_i hneeded
        simp only [hneeded, ↓reduceIte] at hrest
        exact ih _ hrest
    · simp at hout

/-! ### Settled text -/

/-- The text that more bytes do not change, but for a replacement character at the end. -/
def settled (a : List UInt8) : List Char :=
  if (decode a).getLast? = some replacement then (decode a).dropLast else decode a

theorem settled_prefix_decode (a : List UInt8) : settled a <+: decode a := by
  unfold settled
  split
  · exact dropLast_prefix _
  · exact prefix_refl _

theorem settled_eq_decode (h : (decode a).getLast? ≠ some replacement) :
    settled a = decode a := if_neg h

theorem settled_ne_decode (h : (decode a).getLast? = some replacement) :
    settled a ≠ decode a := by
  rw [settled, if_pos h]
  intro heq
  have hlen := congrArg List.length heq
  have hne : decode a ≠ [] := by
    intro hnil
    simp [hnil] at h
  have hpos := length_pos_iff.mpr hne
  rw [length_dropLast] at hlen
  omega

/-- A list that is a prefix and shorter is a prefix without the last element. -/
theorem prefix_dropLast {α : Type} {l m : List α} (h : l <+: m) (hlt : l.length < m.length) :
    l <+: m.dropLast := by
  rw [dropLast_eq_take, prefix_take_iff]
  exact ⟨h, by omega⟩

theorem settled_mono (a b : List UInt8) : settled a <+: settled (a ++ b) := by
  have hpre : settled a <+: decode (a ++ b) ∧
      ((decode (a ++ b)).getLast? = some replacement → (settled a).length <
        (decode (a ++ b)).length) := by
    cases ha : after none a with
    | none =>
      -- the text so far stays, and grows if it is to end otherwise
      have happ := decode_append_of_after ha b
      refine ⟨(settled_prefix_decode a).trans (happ ▸ prefix_append _ _), ?_⟩
      intro hlast
      by_cases hb : decode b = []
      · rw [hb, append_nil] at happ
        rw [happ] at hlast ⊢
        have hlt := (settled_prefix_decode a).length_le
        have hne := settled_ne_decode hlast
        have hneq : (settled a).length ≠ (decode a).length := fun heq =>
          hne ((settled_prefix_decode a).eq_of_length heq)
        omega
      · have hlt := (settled_prefix_decode a).length_le
        have hpos := length_pos_iff.mpr hb
        rw [happ, length_append]
        omega
    | some p =>
      -- the replacement character at the end stands for at least one character
      have hdecode :
        decode a = emitted none a ++ [replacement] := by simp [decode, decodeFrom, ha, flush]
      have hsettled : settled a = emitted none a := by simp [settled, hdecode]
      have happ :
        decode (a ++ b) = emitted none a ++ decodeFrom (some p) b := by rw [decode_append, ha]
      have hpos := length_pos_iff.mpr (decodeFrom_some_ne_nil p b)
      rw [hsettled, happ, length_append]
      refine ⟨prefix_append _ _, ?_⟩
      intro _
      omega
  by_cases hlast : (decode (a ++ b)).getLast? = some replacement
  · rw [settled.eq_1 (a ++ b), if_pos hlast]
    exact prefix_dropLast hpre.1 (hpre.2 hlast)
  · rw [settled_eq_decode hlast]
    exact hpre.1

end Utf8Lossy
