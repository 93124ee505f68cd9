import Mathlib.Data.List.Infix
import Mathlib.Data.Nat.Find

/-!
# Holding back the start of a token

A stream that looks for a token cannot let go of an end of its text that may still become the token.
The token cannot be lost by holding such an end back, and where it starts with a character that it
has nowhere else, there is only one such end.
-/

variable {α : Type}

/-! ### The longest prefix with a property -/

theorem findGreatest_congr {P Q : ℕ → Prop} [DecidablePred P] [DecidablePred Q] {n : ℕ}
    (h : ∀ k ≤ n, P k ↔ Q k) : Nat.findGreatest P n = Nat.findGreatest Q n := by
  induction n with
  | zero => rfl
  | succ n ih =>
    have hn := ih fun k hk => h k (by omega)
    simp only [Nat.findGreatest_succ, h (n + 1) le_rfl, hn]

variable (P : List α → Prop) [DecidablePred P]

/-- The length of the longest prefix of a list that has the property. -/
def lastPrefixLength (l : List α) : ℕ := Nat.findGreatest (fun k => P (l.take k)) l.length

/-- The longest prefix of a list that has the property, or the empty one. -/
def lastPrefix (l : List α) : List α := l.take (lastPrefixLength P l)

variable {P} {l : List α}

theorem lastPrefixLength_le : lastPrefixLength P l ≤ l.length := Nat.findGreatest_le _

theorem lastPrefixLength_snoc (a : α) : lastPrefixLength P (l ++ [a]) =
    if P (l ++ [a]) then l.length + 1 else lastPrefixLength P l := by
  have htake : ∀ k ≤ l.length, (l ++ [a]).take k = l.take k :=
    fun k hk => List.take_append_of_le_length hk
  have hall : (l ++ [a]).take (l.length + 1) = l ++ [a] := List.take_of_length_le (by simp)
  have hprev : Nat.findGreatest (fun k => P ((l ++ [a]).take k)) l.length = lastPrefixLength P l :=
    findGreatest_congr fun k hk => by rw [htake k hk]
  unfold lastPrefixLength
  rw [List.length_append, List.length_singleton, Nat.findGreatest_succ, hall, hprev]
  rfl

theorem lastPrefix_snoc (a : α) :
    lastPrefix P (l ++ [a]) = if P (l ++ [a]) then l ++ [a] else lastPrefix P l := by
  unfold lastPrefix
  rw [lastPrefixLength_snoc]
  split_ifs
  · exact List.take_of_length_le (by simp)
  · exact List.take_append_of_le_length lastPrefixLength_le

/-- A property of the empty list is one of the longest prefix. -/
theorem lastPrefix_spec (h : P []) : P (lastPrefix P l) :=
  @Nat.findGreatest_spec 0 (fun k => P (l.take k)) _ _ (Nat.zero_le _) h

@[simp]
theorem lastPrefix_nil : lastPrefix P [] = [] := by simp [lastPrefix]

theorem lastPrefix_eq_self (h : P l) : lastPrefix P l = l := by
  cases l using List.reverseRecOn with
  | nil => exact lastPrefix_nil
  | append_singleton l a => rw [lastPrefix_snoc, if_pos h]

variable {α : Type} {tok t u p q : List α}

/-- A proper, non-empty start of a token. -/
structure IsPart (tok p : List α) : Prop where
  ne : p ≠ []
  lt : p.length < tok.length
  pre : p <+: tok

/-- `t` ends in a part of `tok`. -/
def EndsInPart (tok t : List α) : Prop := ∃ p, IsPart tok p ∧ p <:+ t

theorem IsPart.of_prefix (h : IsPart tok p) (hq : q <+: p) (hne : q ≠ []) : IsPart tok q where
  ne := hne
  lt := hq.length_le.trans_lt h.lt
  pre := hq.trans h.pre

namespace EndsInPart

theorem of_suffix (h : EndsInPart tok u) (hs : u <:+ t) : EndsInPart tok t := by
  obtain ⟨p, hp, hpu⟩ := h
  exact ⟨p, hp, hpu.trans hs⟩

theorem not_nil : ¬EndsInPart tok [] := by
  rintro ⟨p, hp, hsuf⟩
  exact hp.ne (List.suffix_nil.mp hsuf)

/-- Behind a text that does not end in a part, a part lies in what follows. -/
theorem append_iff (h : ¬EndsInPart tok t) : EndsInPart tok (t ++ u) ↔ EndsInPart tok u := by
  constructor
  · rintro ⟨p, hp, s, hs⟩
    rcases List.append_eq_append_iff.mp hs with ⟨x, rfl, rfl⟩ | ⟨x, rfl, rfl⟩
    · -- the part starts in `t`, which then ends in a start of the part
      by_cases hx : x = []
      · subst hx
        exact ⟨u, by simpa using hp, List.suffix_rfl⟩
      · exact absurd ⟨x, hp.of_prefix (List.prefix_append x u) hx, List.suffix_append s x⟩ h
    · exact ⟨p, hp, List.suffix_append x p⟩
  · intro hu
    exact hu.of_suffix (List.suffix_append t u)

end EndsInPart

/-- A token that lies in neither of two texts, but in both together, starts in an end of the first.
-/
theorem endsInPart_of_infix_append (hin : tok <:+: t ++ u) (ht : ¬tok <:+: t) (hu : ¬tok <:+: u) :
    ∃ p v, IsPart tok p ∧ p <:+ t ∧ v <+: u ∧ tok = p ++ v := by
  rcases List.infix_append_iff.mp hin with h | h | ⟨p, v, rfl, hp, hv⟩
  · exact absurd h ht
  · exact absurd h hu
  · have hpne : p ≠ [] := by
      rintro rfl
      exact hu (by simpa using hv.isInfix)
    have hvne : v ≠ [] := by
      rintro rfl
      exact ht (by simpa using hp.isInfix)
    have hlen := List.length_pos_iff.mpr hvne
    exact ⟨p, v, ⟨hpne, by simp only [List.length_append]; omega, List.prefix_append p v⟩, hp, hv,
      rfl⟩

section Unique

variable {a : α} {r : List α}

private theorem part_eq_of_le (ha : a ∉ r) (hp : IsPart (a :: r) p) (hq : IsPart (a :: r) q)
    (hpt : p <:+ t) (hqt : q <:+ t) (hle : p.length ≤ q.length) : p = q := by
  obtain ⟨x, rfl⟩ := List.suffix_of_suffix_length_le hpt hqt hle
  cases x with
  | nil => rfl
  | cons b x =>
    -- `p` starts with `a` inside of `q`, behind the first character of `q`
    exfalso
    obtain ⟨y, hy⟩ := hq.pre
    obtain ⟨z, hz⟩ := hp.pre
    obtain ⟨c, p', rfl⟩ := List.exists_cons_of_ne_nil hp.ne
    injection hz with hc hz
    injection hy with hb hy
    apply ha
    rw [← hy, hc]
    simp

/-- A text ends in one part at most of a token whose first character occurs once. -/
theorem part_unique (ha : a ∉ r) (hp : IsPart (a :: r) p) (hq : IsPart (a :: r) q) (hpt : p <:+ t)
    (hqt : q <:+ t) : p = q := by
  rcases Nat.le_total p.length q.length with hle | hle
  · exact part_eq_of_le ha hp hq hpt hqt hle
  · exact (part_eq_of_le ha hq hp hqt hpt hle).symm

theorem infix_held_append (ha : a ∉ r) (ht : ¬a :: r <:+: t) (hheld : p <:+ t)
    (hp : p = [] ∧ ¬EndsInPart (a :: r) t ∨ IsPart (a :: r) p) :
    a :: r <:+: t ++ u ↔ a :: r <:+: p ++ u := by
  constructor
  · intro hin
    by_cases hu : a :: r <:+: u
    · exact hu.trans (List.suffix_append p u).isInfix
    · obtain ⟨q, v, hq, hqt, hv, heq⟩ := endsInPart_of_infix_append hin ht hu
      rcases hp with ⟨rfl, hnot⟩ | hp
      · exact absurd ⟨q, hq, hqt⟩ hnot
      · obtain rfl := part_unique ha hp hq hheld hqt
        rw [heq]
        exact ((List.prefix_append_right_inj p).mpr hv).isInfix
  · intro hin
    obtain ⟨s, rfl⟩ := hheld
    rw [List.append_assoc]
    exact hin.trans (List.suffix_append s (p ++ u)).isInfix

theorem endsInPart_held_append (ha : a ∉ r) (hheld : p <:+ t)
    (hp : p = [] ∧ ¬EndsInPart (a :: r) t ∨ IsPart (a :: r) p) :
    EndsInPart (a :: r) (t ++ u) ↔ EndsInPart (a :: r) (p ++ u) := by
  rcases hp with ⟨rfl, hnot⟩ | hp
  · exact EndsInPart.append_iff hnot
  · obtain ⟨s, rfl⟩ := hheld
    rw [List.append_assoc]
    constructor
    · rintro ⟨q, hq, x, hx⟩
      rcases List.append_eq_append_iff.mp hx with ⟨y, rfl, rfl⟩ | ⟨y, rfl, hy⟩
      · by_cases hy : y = []
        · subst hy
          exact ⟨p ++ u, by simpa using hq, List.suffix_rfl⟩
        · -- the part would start before `p`, and with `p` make a second part
          exfalso
          have hyp : IsPart (a :: r) (y ++ p) := by
            apply hq.of_prefix
            · rw [← List.append_assoc]
              exact List.prefix_append (y ++ p) u
            · exact List.append_ne_nil_of_left_ne_nil hy p
          have hsuf : y ++ p <:+ x ++ y ++ p := by
            rw [List.append_assoc]
            exact List.suffix_append x (y ++ p)
          have heq := part_unique ha hyp hp hsuf (List.suffix_append (x ++ y) p)
          exact hy (by simpa using heq)
      · rw [hy]
        exact ⟨q, hq, List.suffix_append y q⟩
    · intro h
      exact h.of_suffix (List.suffix_append s (p ++ u))

end Unique

/-! ### Pieces -/

section Pieces

variable (tok) [DecidablePred (EndsInPart tok)]

/-- The last border between pieces at which the text before does not end in a part of the token. -/
def lastCut (pieces : List (List α)) : ℕ :=
  lastPrefixLength (fun before => ¬EndsInPart tok before.flatten) pieces

/-- The text before the last border that does not cut a part of the token. -/
def released (pieces : List (List α)) : List α := (pieces.take (lastCut tok pieces)).flatten

def held (pieces : List (List α)) : List α := (pieces.drop (lastCut tok pieces)).flatten

variable {tok} {pieces : List (List α)} (piece : List α)

theorem released_append_held : released tok pieces ++ held tok pieces = pieces.flatten := by
  unfold released held
  rw [← List.flatten_append, List.take_append_drop]

theorem not_endsInPart_released : ¬EndsInPart tok (released tok pieces) :=
  @lastPrefix_spec _ (fun before => ¬EndsInPart tok before.flatten) _ pieces EndsInPart.not_nil

theorem endsInPart_flatten_append :
    EndsInPart tok (pieces.flatten ++ u) ↔ EndsInPart tok (held tok pieces ++ u) := by
  rw [← @released_append_held _ tok, List.append_assoc]
  exact EndsInPart.append_iff not_endsInPart_released

private theorem lastCut_le : lastCut tok pieces ≤ pieces.length := lastPrefixLength_le

private theorem lastCut_snoc : lastCut tok (pieces ++ [piece]) =
    if EndsInPart tok (pieces.flatten ++ piece) then lastCut tok pieces else pieces.length + 1 := by
  have hall : (pieces ++ [piece]).flatten = pieces.flatten ++ piece := by simp
  unfold lastCut
  rw [lastPrefixLength_snoc, hall]
  split_ifs <;> rfl

theorem released_snoc : released tok (pieces ++ [piece]) =
    if EndsInPart tok (pieces.flatten ++ piece) then released tok pieces else pieces.flatten ++
      piece := by
  unfold released
  rw [lastCut_snoc]
  split_ifs with h
  · rw [List.take_append_of_le_length lastCut_le]
  · rw [List.take_of_length_le (by simp), List.flatten_append]
    simp

theorem held_snoc : held tok (pieces ++ [piece]) =
    if EndsInPart tok (pieces.flatten ++ piece) then held tok pieces ++ piece else [] := by
  unfold held
  rw [lastCut_snoc]
  split_ifs with h
  · rw [List.drop_append_of_le_length lastCut_le, List.flatten_append]
    simp
  · rw [List.drop_of_length_le (by simp)]
    rfl

@[simp]
theorem released_nil : released tok [] = [] := by simp [released]

@[simp]
theorem held_nil : held tok [] = [] := by simp [held]

/-- Nothing is held of a text that does not end in a part. -/
theorem held_eq_nil (h : ¬EndsInPart tok pieces.flatten) : held tok pieces = [] := by
  cases pieces using List.reverseRecOn with
  | nil => exact held_nil
  | append_singleton pieces piece =>
    rw [List.flatten_append] at h
    rw [held_snoc, if_neg (by simpa using h)]

theorem held_ne_nil (h : EndsInPart tok pieces.flatten) : held tok pieces ≠ [] := by
  intro hnil
  have happ := @released_append_held _ tok _ pieces
  rw [hnil, List.append_nil] at happ
  rw [← happ] at h
  exact not_endsInPart_released h

end Pieces

theorem exists_cut_snoc {P : List (List α) → List α → Prop} {pieces : List (List α)}
    {piece : List α} :
    (∃ pre c post, pieces ++ [piece] = pre ++ c :: post ∧ P pre c) ↔
      (∃ pre c post, pieces = pre ++ c :: post ∧ P pre c) ∨ P pieces piece := by
  constructor
  · rintro ⟨pre, c, post, heq, h⟩
    rcases List.eq_nil_or_concat post with rfl | ⟨post, x, rfl⟩
    · obtain ⟨rfl, hc⟩ := List.append_inj' heq rfl
      injection hc with hc
      exact Or.inr (hc ▸ h)
    · left
      rw [List.concat_eq_append, ← List.cons_append, ← List.append_assoc] at heq
      exact ⟨pre, c, post, (List.append_inj' heq rfl).1, h⟩
  · rintro (⟨pre, c, post, rfl, h⟩ | h)
    · exact ⟨pre, c, post ++ [piece], by simp, h⟩
    · exact ⟨pieces, piece, [], rfl, h⟩
