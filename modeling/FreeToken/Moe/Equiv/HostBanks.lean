import FreeToken.Checkpoint.Equiv.FtwReader
import FreeToken.Moe.HostBanks

/-!
# What the loaders leave in the buffer

* `land_of_copies`: writes that copy a file leave its bytes, in whatever order they land.
* `readLoop_spec`: a loop of reads covers what it needs, or it raises.
* `loaders_fill_iff`: two loaders fill exactly the bytes that were asked for, and the third one does
  so exactly when none of its reads is short.
-/

namespace FreeToken

open List

namespace DiskLoad

/-- A write that has the bytes of a file: the byte at `dst` is the one at `off`. -/
structure Copies (data : Bytes) (off dst : ℕ) (w : Write) : Prop where
  le : dst ≤ w.1
  bytes : ∀ j < w.2.length, data[off + (w.1 - dst) + j]? = w.2[j]?

def Covers (w : Write) (p : ℕ) : Prop := w.1 ≤ p ∧ p < w.1 + w.2.length

variable {data : Bytes} {off dst len need p : ℕ} {m : Memory} {w : Write} {ws : List Write}

theorem writeBytes_of_covers (h : Covers w p) : w.2[p - w.1]? = some (writeBytes m w p) := by
  unfold writeBytes
  have hlt : p - w.1 < w.2.length := by
    have h1 := h.1
    have h2 := h.2
    omega
  rw [if_pos h.1, List.getElem?_eq_getElem hlt, Option.getD_some]

theorem writeBytes_of_not (h : ¬ Covers w p) : writeBytes m w p = m p := by
  unfold writeBytes
  split_ifs with hle
  · have hge : w.2.length ≤ p - w.1 := by
      by_contra hlt
      exact h ⟨hle, by omega⟩
    rw [List.getElem?_eq_none hge, Option.getD_none]
  · rfl

theorem Copies.byte (h : Copies data off dst w) (hp : Covers w p) :
    data[off + (p - dst)]? = w.2[p - w.1]? := by
  have hle := h.le
  have h1 := hp.1
  have h2 := hp.2
  rw [← h.bytes (p - w.1) (by omega)]
  congr 1
  omega

/-- **Writes in any order** leave the bytes of the file where one of them reaches, and nothing is
changed elsewhere. -/
theorem land_of_copies (h : ∀ w ∈ ws, Copies data off dst w) :
    ((∃ w ∈ ws, Covers w p) → data[off + (p - dst)]? = some (land m ws p)) ∧
      ((∀ w ∈ ws, ¬ Covers w p) → land m ws p = m p) := by
  induction ws using List.reverseRecOn with
  | nil => exact ⟨fun hex => absurd hex.choose_spec.1 not_mem_nil, fun _ => rfl⟩
  | append_singleton ws w ih =>
    obtain ⟨hcover, hkeep⟩ := ih fun v hv => h v (mem_append_left _ hv)
    have hlast : land m (ws ++ [w]) = writeBytes (land m ws) w := by
      unfold land
      rw [foldl_append]
      rfl
    rw [hlast]
    by_cases hw : Covers w p
    · have hmem : w ∈ ws ++ [w] := mem_append_right _ (mem_singleton_self w)
      refine ⟨fun _ => ?_, fun hnot => absurd hw (hnot w hmem)⟩
      rw [(h w hmem).byte hw, writeBytes_of_covers hw]
    · rw [writeBytes_of_not hw]
      refine ⟨fun hex => hcover ?_, fun hnot => hkeep fun v hv => hnot v (mem_append_left _ hv)⟩
      obtain ⟨v, hv, hcov⟩ := hex
      rcases List.mem_append.mp hv with hv | hv
      · exact ⟨v, hv, hcov⟩
      · rw [List.mem_singleton.mp hv] at hcov
        exact absurd hcov hw

theorem copies_readBytes {at_ n : ℕ} (hdst : dst ≤ at_)
    (hoff : off + (at_ - dst) + n ≤ data.length) :
    Copies data off dst (at_, readBytes data (off + (at_ - dst)) n) ∧
      (readBytes data (off + (at_ - dst)) n).length = n := by
  have hlen : (readBytes data (off + (at_ - dst)) n).length = n := by
    unfold readBytes
    rw [length_take, length_drop]
    omega
  refine ⟨⟨hdst, fun j hj => ?_⟩, hlen⟩
  dsimp only at hj ⊢
  rw [hlen] at hj
  unfold readBytes
  rw [List.getElem?_take_of_lt hj, List.getElem?_drop]

/-- What a loader should leave: the writes copy the file, and they reach exactly the bytes that were
asked for. -/
structure Exactly (data : Bytes) (off dst need : ℕ) (ws : List Write) : Prop where
  copies : ∀ w ∈ ws, Copies data off dst w
  covers : ∀ p, dst ≤ p → p < dst + need → ∃ w ∈ ws, Covers w p
  inside : ∀ w ∈ ws, w.1 + w.2.length ≤ dst + need

/-! ### The loop -/

variable (k : Kernel data) {aligned : ℕ → Bool} {chunk fuel done : ℕ}

/-- The loop raises, or it reads on until it has what it needs. -/
theorem readLoop_spec (hfuel : need - done ≤ fuel) :
    readLoop k aligned chunk off dst len need fuel done = .raised ∨
      ∃ ws, readLoop k aligned chunk off dst len need fuel done = .returned ws ∧
        (∀ w ∈ ws, Copies data off dst w) ∧
        (∀ p, dst + done ≤ p → p < dst + need → ∃ w ∈ ws, Covers w p) ∧ ∀ w ∈ ws, w.1 + w.2.length ≤
        dst + len := by
  induction fuel generalizing done with
  | zero =>
    rw [readLoop, if_neg (by omega)]
    exact Or.inr ⟨[], rfl, fun w hw => absurd hw not_mem_nil, fun p hlo hhi => by omega,
      fun w hw => absurd hw not_mem_nil⟩
  | succ fuel ih =>
    rw [readLoop]
    by_cases hmore : done < need
    · rw [if_pos hmore]
      by_cases haligned : aligned done = true
      · rw [if_pos haligned]
        cases hread : k.preadv chunk (off + done) (len - done) with
        | none => exact Or.inl rfl
        | some got =>
          cases got with
          | zero => exact Or.inl rfl
          | succ got =>
            have hlen := k.le_length _ _ _ _ hread
            have hfile := k.le_file _ _ _ _ hread
            have hsub : off + (dst + done - dst) = off + done := by omega
            have hcopy := @copies_readBytes data off dst (dst + done) (got + 1)
              (Nat.le_add_right _ _) (by omega)
            rw [hsub] at hcopy
            -- the read comes first, and the rest of the loop adds its own
            show Loaded.push _ (readLoop k aligned chunk off dst len need fuel (done + (got + 1))) =
              _ ∨ ∃ ws,
              Loaded.push _ (readLoop k aligned chunk off dst len need fuel (done + (got + 1))) =
                _ ∧ _
            rcases @ih (done + (got + 1)) (by omega) with hraised |
              ⟨ws, hws, hcopies, hcovers, hinside⟩
            · rw [hraised]
              exact Or.inl rfl
            · rw [hws]
              refine Or.inr ⟨_, rfl, fun w hw => ?_, fun p hlo hhi => ?_, fun w hw => ?_⟩
              · rcases List.mem_cons.mp hw with rfl | hw
                · exact hcopy.1
                · exact hcopies w hw
              · by_cases hp : p < dst + done + (got + 1)
                · exact ⟨_, mem_cons_self, hlo, by rw [hcopy.2]; exact hp⟩
                · obtain ⟨w, hw, hcov⟩ := hcovers p (by omega) hhi
                  exact ⟨w, mem_cons_of_mem _ hw, hcov⟩
              · rcases List.mem_cons.mp hw with rfl | hw
                · rw [hcopy.2]
                  omega
                · exact hinside w hw
      · rw [if_neg haligned]
        exact Or.inl rfl
    · rw [if_neg hmore]
      exact Or.inr ⟨[], rfl, fun w hw => absurd hw not_mem_nil, fun p hlo hhi => by omega,
        fun w hw => absurd hw not_mem_nil⟩

/-! ### Chunks -/

def Loaded.written : Loaded → List Write
  | .returned ws => ws
  | _ => []

theorem all_raised {chunks : List Loaded} (h : Loaded.raised ∈ chunks) :
    Loaded.all chunks = .raised := by
  induction chunks with
  | nil => exact absurd h not_mem_nil
  | cons c chunks ih =>
    show Loaded.both c (Loaded.all chunks) = _
    rcases List.mem_cons.mp h with rfl | h
    · rfl
    · rw [ih h]
      cases c <;> rfl

theorem all_returned (wss : List (List Write)) :
    Loaded.all (wss.map .returned) = .returned wss.flatten := by
  induction wss with
  | nil => rfl
  | cons ws wss ih =>
    show Loaded.both _ (Loaded.all (wss.map .returned)) = _
    rw [ih]
    rfl

/-- What a chunk should leave of the whole. -/
structure Part (data : Bytes) (off dst lo hi : ℕ) (ws : List Write) : Prop where
  copies : ∀ w ∈ ws, Copies data off dst w
  covers : ∀ p, lo ≤ p → p < hi → ∃ w ∈ ws, Covers w p
  inside : ∀ w ∈ ws, w.1 + w.2.length ≤ hi

/-- Chunks that do what they should are the whole. -/
theorem all_exactly {chunk nbytes : ℕ} (hchunk : 0 < chunk) {f : ℕ → Loaded}
    (hf : ∀ i < nbytes, i ∈ Ftw.stepRange nbytes chunk → f i = .raised ∨
      ∃ ws, f i = .returned ws ∧ Part data off dst (dst + i) (dst + i + min chunk (nbytes - i))
        ws) :
    Loaded.all ((Ftw.stepRange nbytes chunk).map f) = .raised ∨
      ∃ ws, Loaded.all ((Ftw.stepRange nbytes chunk).map f) = .returned ws ∧
        Exactly data off dst nbytes ws := by
  by_cases hraised : Loaded.raised ∈ (Ftw.stepRange nbytes chunk).map f
  · exact Or.inl (all_raised hraised)
  · have hmem : ∀ i, i ∈ Ftw.stepRange nbytes chunk → i < nbytes := fun i hi => by
      obtain ⟨-, -, hlt⟩ := (Ftw.mem_stepRange hchunk).mp hi
      exact hlt
    obtain ⟨g, hg⟩ : ∃ g : ℕ → List Write, ∀ i ∈ Ftw.stepRange nbytes chunk, f i = .returned (g i) ∧
        Part data off dst (dst + i) (dst + i + min chunk (nbytes - i)) (g i) := by
      refine ⟨fun i => (f i).written, fun i hi => ?_⟩
      rcases hf i (hmem i hi) hi with heq | ⟨ws, hws, hpart⟩
      · exact absurd (heq ▸ mem_map_of_mem hi) hraised
      · dsimp only
        rw [hws]
        exact ⟨rfl, hpart⟩
    have hmap :
        (Ftw.stepRange nbytes chunk).map f = ((Ftw.stepRange nbytes chunk).map g).map
        .returned := by
      rw [map_map]
      exact map_congr_left fun i hi => (hg i hi).1
    have hof :
        ∀ w ∈ ((Ftw.stepRange nbytes chunk).map g).flatten, ∃ i ∈ Ftw.stepRange nbytes chunk, w ∈
        g i := by
      intro w hw
      obtain ⟨ws, hws, hw⟩ := List.mem_flatten.mp hw
      obtain ⟨i, hi, rfl⟩ := List.mem_map.mp hws
      exact ⟨i, hi, hw⟩
    refine Or.inr ⟨_, by rw [hmap, all_returned], fun w hw => ?_, fun p hlo hhi => ?_, fun w hw =>
      ?_⟩
    · obtain ⟨i, hi, hw⟩ := hof w hw
      exact (hg i hi).2.copies w hw
    · -- the chunk of the place
      have hdiv := Nat.div_add_mod (p - dst) chunk
      have hmod := Nat.mod_lt (p - dst) hchunk
      rw [Nat.mul_comm] at hdiv
      have hi : (p - dst) / chunk * chunk ∈ Ftw.stepRange nbytes chunk :=
        (Ftw.mem_stepRange hchunk).mpr ⟨_, rfl, by omega⟩
      obtain ⟨w, hw, hcov⟩ := (hg _ hi).2.covers p (by omega) (by omega)
      exact ⟨w, List.mem_flatten.mpr ⟨_, mem_map_of_mem hi, hw⟩, hcov⟩
    · obtain ⟨i, hi, hw⟩ := hof w hw
      have hlt := hmem i hi
      have hin := (hg i hi).2.inside w hw
      omega

/-! ### The loaders -/

/-- What a loader should do: raise, or fill exactly the bytes that were asked for, in whatever order
its writes land. -/
def Fills (data : Bytes) (off dst need : ℕ) (result : Loaded) : Prop :=
  result = .raised ∨ ∃ ws, result = .returned ws ∧
    ∀ (order : List Write) (m : Memory) (p : ℕ), order.Perm ws →
    (dst ≤ p ∧ p < dst + need → data[off + (p - dst)]? = some (land m order p)) ∧
      (¬ (dst ≤ p ∧ p < dst + need) → land m order p = m p)

theorem Exactly.fills {result : Loaded} (h : Exactly data off dst need ws)
    (hresult : result = .returned ws) :
    Fills data off dst need result := by
  refine Or.inr ⟨ws, hresult, fun order m p hperm => ?_⟩
  have hland := @land_of_copies data off dst p m order fun w hw => h.copies w (hperm.mem_iff.mp hw)
  refine ⟨fun hin => hland.1 ?_, fun hout => hland.2 fun w hw hcov => hout ?_⟩
  · obtain ⟨w, hw, hcov⟩ := h.covers p hin.1 hin.2
    exact ⟨w, hperm.mem_iff.mpr hw, hcov⟩
  · have hw' := hperm.mem_iff.mp hw
    have hle := (h.copies w hw').le
    have hinside := h.inside w hw'
    have h1 := hcov.1
    have h2 := hcov.2
    omega

/-- `_pread_into` reads the whole buffer. -/
theorem preadInto_fills (off total : ℕ) {fuel : ℕ} (hfuel : total ≤ fuel) :
    Fills data off 0 total (preadInto k off total fuel) := by
  rcases readLoop_spec k (show total - 0 ≤ fuel by omega) with hraised |
    ⟨ws, hws, hcopies, hcovers, hinside⟩
  · exact Or.inl hraised
  · have hexact : Exactly data off 0 total ws :=
      ⟨hcopies, fun p hlo hhi => hcovers p (by omega) hhi, hinside⟩
    exact hexact.fills hws

/-- A chunk of `read_range_into` reads its part, with or without the bounce buffer. -/
theorem rangeChunk_spec (base fileOffset nbytes destOffset chunk : ℕ) (stale : ℕ → Memory)
    {fuel i : ℕ} (hfuel : chunk + blk ≤ fuel) :
    rangeChunk k base fileOffset nbytes destOffset chunk stale fuel i = .raised ∨
      ∃ ws, rangeChunk k base fileOffset nbytes destOffset chunk stale fuel i = .returned ws ∧
        Part data fileOffset destOffset (destOffset + i) (destOffset + i + min chunk (nbytes - i))
          ws := by
  have hmod : (fileOffset + i) % blk < blk := Nat.mod_lt _ (by decide)
  unfold rangeChunk
  dsimp only
  split_ifs with haligned
  · rcases readLoop_spec k (show min chunk (nbytes - i) - 0 ≤ fuel by omega) with
      hraised | ⟨ws, hws, hcopies, hcovers, hinside⟩
    · exact Or.inl hraised
    · refine Or.inr ⟨ws, hws, fun w hw => ?_, fun p hlo hhi => hcovers p hlo hhi, hinside⟩
      have hcopy := hcopies w hw
      have hle := hcopy.le
      refine ⟨by omega, fun j hj => ?_⟩
      rw [← hcopy.bytes j hj]
      congr 1
      omega
  · rcases readLoop_spec k (show (fileOffset + i) % blk + min chunk (nbytes - i) - 0 ≤
      fuel by omega) with
      hraised | ⟨ws, hws, hcopies, hcovers, -⟩
    · unfold preadvAll
      rw [hraised]
      exact Or.inl rfl
    · unfold preadvAll
      rw [hws]
      -- the bounce buffer has the window of the file, so the copy out of it has the bytes of the
      -- chunk
      have hbyte : ∀ j < min chunk (nbytes - i), data[fileOffset + i + j]? =
          some (land (stale i) ws ((fileOffset + i) % blk + j)) := by
        intro j hj
        have hcover := hcovers ((fileOffset + i) % blk + j) (by omega) (by omega)
        have hland := (@land_of_copies data _ 0 _ (stale i) ws hcopies).1 hcover
        rw [← hland]
        have hmodle := Nat.mod_le (fileOffset + i) blk
        congr 1
        omega
      refine Or.inr ⟨_, rfl, fun w hw => ?_, fun p hlo hhi =>
        ⟨_, mem_singleton_self _, hlo, ?_⟩, fun w hw => ?_⟩
      · rw [List.mem_singleton.mp hw]
        refine ⟨Nat.le_add_right _ _, fun j hj => ?_⟩
        rw [length_map, length_range] at hj
        rw [List.getElem?_map, List.getElem?_range hj, Option.map_some, ← hbyte j hj]
        congr 1
        omega
      · rw [length_map, length_range]
        exact hhi
      · rw [List.mem_singleton.mp hw, length_map, length_range]

theorem readRangeInto_fills (len base fileOffset nbytes destOffset chunk : ℕ) (stale : ℕ → Memory)
    {fuel : ℕ} (hfuel : chunk + blk ≤ fuel) :
    Fills data fileOffset destOffset nbytes
      (readRangeInto k len base fileOffset nbytes destOffset chunk stale fuel) := by
  unfold readRangeInto
  split_ifs with hlen hzero
  · exact Or.inl rfl
  · exact Or.inl rfl
  · rcases all_exactly (Nat.pos_of_ne_zero hzero) fun i _ _ => rangeChunk_spec k base fileOffset
      nbytes destOffset chunk stale hfuel with
      hraised | ⟨ws, hws, hexact⟩
    · exact Or.inl hraised
    · exact hexact.fills hws

/-! ### `read_file_into` -/

/-- A chunk whose only read is not short. -/
def FullRead (k : Kernel data) (len chunk o : ℕ) : Prop :=
  k.preadv o o (fileWant data.length len chunk o) = some (min chunk (data.length - o))

/-- With full reads, the file is there. -/
theorem readFileInto_fills {len chunk : ℕ}
    (hfull : ∀ o ∈ Ftw.stepRange data.length chunk, FullRead k len chunk o)
    (hchunk : 0 < chunk) : Fills data 0 0 data.length (readFileInto k len chunk) := by
  unfold readFileInto
  rw [if_neg hchunk.ne']
  have hspec :
      ∀ i < data.length, i ∈ Ftw.stepRange data.length chunk → fileChunk k len chunk i = .raised ∨
      ∃ ws, fileChunk k len chunk i = .returned ws ∧
        Part data 0 0 (0 + i) (0 + i + min chunk (data.length - i)) ws := by
    intro i hi hmem
    have hcopy :=
      @copies_readBytes data 0 0 i (min chunk (data.length - i)) (Nat.zero_le i) (by omega)
    rw [Nat.sub_zero, Nat.zero_add] at hcopy
    have hread :
        fileChunk k len chunk i = .returned
        [(i, readBytes data i (min chunk (data.length - i)))] := by
      unfold fileChunk
      rw [hfull i hmem]
      rfl
    refine Or.inr ⟨_, hread, fun w hw => ?_, fun p hlo hhi =>
      ⟨_, mem_singleton_self _, by omega, ?_⟩, fun w hw => ?_⟩
    · rw [List.mem_singleton.mp hw]
      exact hcopy.1
    · rw [hcopy.2]
      omega
    · rw [List.mem_singleton.mp hw, hcopy.2, Nat.zero_add]
  rcases all_exactly hchunk hspec with hraised | ⟨ws, hws, hexact⟩
  · exact Or.inl hraised
  · exact hexact.fills hws

theorem not_fills_of_short {len chunk o n : ℕ} (hchunk : 0 < chunk)
    (ho : o ∈ Ftw.stepRange data.length chunk)
    (hreads : ∀ o ∈ Ftw.stepRange data.length chunk, k.preadv o o
      (fileWant data.length len chunk o) ≠ none)
    (hn : k.preadv o o (fileWant data.length len chunk o) = some n)
    (hshort : n < min chunk (data.length - o)) :
    ¬ Fills data 0 0 data.length (readFileInto k len chunk) := by
  have hchunks :
      (Ftw.stepRange data.length chunk).map (fileChunk k len chunk) =
      ((Ftw.stepRange data.length chunk).map fun o =>
      [(o, readBytes data o ((k.preadv o o (fileWant data.length len chunk o)).getD 0))]).map
        .returned := by
    rw [map_map]
    refine map_congr_left fun o ho => ?_
    obtain ⟨got, hgot⟩ := Option.ne_none_iff_exists'.mp (hreads o ho)
    unfold fileChunk
    rw [Function.comp_apply, hgot]
    rfl
  have hresult :
      readFileInto k len chunk = .returned ((Ftw.stepRange data.length chunk).map fun o =>
      [(o, readBytes data o ((k.preadv o o (fileWant data.length len chunk o)).getD 0))]).flatten
        := by
    unfold readFileInto
    rw [if_neg hchunk.ne', hchunks, all_returned]
  -- the chunks are apart, so that no other read reaches the byte
  have hnot : ∀ w ∈ ((Ftw.stepRange data.length chunk).map fun o =>
      [(o, readBytes data o ((k.preadv o o (fileWant data.length len chunk o)).getD 0))]).flatten,
        ¬ Covers w (o + n) := by
    rintro w hw ⟨hlo, hhi⟩
    obtain ⟨ws, hws, hw⟩ := List.mem_flatten.mp hw
    obtain ⟨o', ho', rfl⟩ := List.mem_map.mp hws
    rw [List.mem_singleton.mp hw] at hlo hhi
    obtain ⟨got, hgot⟩ := Option.ne_none_iff_exists'.mp (hreads o' ho')
    have hle := k.le_length _ _ _ _ hgot
    have hlen : (readBytes data o' got).length ≤ got := length_take_le _ _
    rw [hgot, Option.getD_some] at hhi
    dsimp only at hlo hhi
    obtain ⟨i, hi, -⟩ := (Ftw.mem_stepRange hchunk).mp ho
    obtain ⟨j, hj, -⟩ := (Ftw.mem_stepRange hchunk).mp ho'
    have hwant : fileWant data.length len chunk o' ≤ chunk :=
      (min_le_left _ _).trans (min_le_left _ _)
    have hplace : ∀ q c, c < chunk → (q * chunk + c) / chunk = q := by
      intro q c hc
      rw [Nat.mul_comm, Nat.mul_add_div hchunk, Nat.div_eq_of_lt hc, Nat.add_zero]
    have hsame : i = j := by
      have hfirst := hplace i n (by omega)
      have hsecond := hplace j (o + n - o') (by omega)
      have hsum : i * chunk + n = j * chunk + (o + n - o') := by omega
      rw [hsum] at hfirst
      exact hfirst.symm.trans hsecond
    subst hsame
    rw [← hi] at hj
    subst hj
    rw [hn] at hgot
    obtain rfl := Option.some.inj hgot
    omega
  rw [hresult]
  rintro (hraised | ⟨ws, hws, hall⟩)
  · cases hraised
  · obtain rfl := Loaded.returned.inj hws
    have hbyte : ∀ b : UInt8, data[o + n]? = some b := by
      intro b
      have hin := (hall _ (fun _ => b) (o + n) (List.Perm.refl _)).1 ⟨Nat.zero_le _, by omega⟩
      rw [(@land_of_copies data 0 0 (o + n) _ _ fun w hw => ?_).2 hnot, Nat.sub_zero,
        Nat.zero_add] at hin
      · exact hin
      · obtain ⟨ws, hws, hw⟩ := List.mem_flatten.mp hw
        obtain ⟨o', ho', rfl⟩ := List.mem_map.mp hws
        obtain ⟨got, hgot⟩ := Option.ne_none_iff_exists'.mp (hreads o' ho')
        obtain ⟨-, -, hlt⟩ := (Ftw.mem_stepRange hchunk).mp ho'
        have hfile := k.le_file _ _ _ _ hgot
        have hcopy := (@copies_readBytes data 0 0 o' got (Nat.zero_le _) (by omega)).1
        rw [Nat.sub_zero, Nat.zero_add] at hcopy
        rw [List.mem_singleton.mp hw, hgot]
        exact hcopy
    have hboth := (hbyte 0).symm.trans (hbyte 1)
    exact absurd (Option.some.inj hboth) (by decide)

/-- **What the loaders leave.**  `read_range_into` and `_pread_into` raise or fill exactly the bytes
that were asked for, with whatever short reads; `read_file_into` does so exactly when one of its
reads raises, or none of them is short. -/
theorem loaders_fill_iff (data : Bytes) (k : Kernel data) :
    (∀ len base fileOffset nbytes destOffset chunk stale, ∃ bound, ∀ fuel, bound ≤ fuel →
      Fills data fileOffset destOffset nbytes
        (readRangeInto k len base fileOffset nbytes destOffset chunk stale fuel)) ∧
    (∀ off total, ∃ bound, ∀ fuel, bound ≤ fuel →
      Fills data off 0 total (preadInto k off total fuel)) ∧
    ∀ len chunk, Fills data 0 0 data.length (readFileInto k len chunk) ↔
      chunk = 0 ∨
        (∃ o ∈ Ftw.stepRange data.length chunk, k.preadv o o (fileWant data.length len chunk o) =
        none) ∨
        ∀ o ∈ Ftw.stepRange data.length chunk, FullRead k len chunk o := by
  refine ⟨fun len base fileOffset nbytes destOffset chunk stale => ⟨chunk + blk, fun fuel hfuel =>
    readRangeInto_fills k len base fileOffset nbytes destOffset chunk stale hfuel⟩,
    fun off total => ⟨total, fun fuel hfuel => preadInto_fills k off total hfuel⟩, fun len chunk =>
      ?_⟩
  rcases Nat.eq_zero_or_pos chunk with rfl | hchunk
  · exact ⟨fun _ => Or.inl rfl, fun _ => Or.inl rfl⟩
  -- a failed read raises
  by_cases hreads : ∃ o ∈ Ftw.stepRange data.length chunk, k.preadv o o
    (fileWant data.length len chunk o) = none
  · refine ⟨fun _ => Or.inr (Or.inl hreads), fun _ => Or.inl ?_⟩
    obtain ⟨o, ho, hnone⟩ := hreads
    have hchunk' : fileChunk k len chunk o = .raised := by
      unfold fileChunk
      rw [hnone]
      rfl
    unfold readFileInto
    rw [if_neg hchunk.ne']
    exact all_raised (hchunk' ▸ mem_map_of_mem ho)
  · constructor
    · intro hfills
      refine Or.inr (Or.inr fun o ho => ?_)
      -- a chunk whose read is short leaves bytes that the file does not have
      by_contra hshort
      have hsome :
          ∀ o ∈ Ftw.stepRange data.length chunk, k.preadv o o (fileWant data.length len chunk o) ≠
          none :=
        fun o ho hnone => hreads ⟨o, ho, hnone⟩
      obtain ⟨n, hn⟩ := Option.ne_none_iff_exists'.mp (hsome o ho)
      have hle := k.le_length _ _ _ _ hn
      have hfile := k.le_file _ _ _ _ hn
      have hwant : fileWant data.length len chunk o ≤ chunk :=
        (min_le_left _ _).trans (min_le_left _ _)
      refine not_fills_of_short k hchunk ho hsome hn
        (lt_of_le_of_ne (by omega) fun heq => hshort ?_) hfills
      unfold FullRead
      rw [hn, heq]
    · rintro (hzero | hraised | hfull)
      · exact absurd hzero hchunk.ne'
      · exact absurd hraised hreads
      · exact readFileInto_fills k hfull hchunk

/-- A file of two blocks whose direct read stops behind the first one. -/
def shortKernel : Kernel (List.replicate 8192 7) where
  preadv _ off len := some (min 4096 (min len (8192 - off)))
  le_length _ off len n h := by
    obtain rfl := Option.some.inj h
    omega
  le_file _ off len n h := by
    obtain rfl := Option.some.inj h
    rw [length_replicate]
    omega
  pos _ off len n h hlen hoff := by
    obtain rfl := Option.some.inj h
    rw [length_replicate] at hoff
    omega

/-- The file loader returns with the second block unread. -/
theorem not_fills_two_blocks :
    ¬ Fills (List.replicate 8192 7) 0 0 (List.replicate 8192 (7 : UInt8)).length
      (readFileInto shortKernel 8192 8388608) := by
  have hlen : (List.replicate 8192 (7 : UInt8)).length = 8192 := length_replicate
  refine not_fills_of_short (o := 0) (n := 4096) shortKernel (by decide) ?_
    (fun o _ => Option.some_ne_none _) ?_ ?_
  · rw [hlen]
    exact (Ftw.mem_stepRange (by decide)).mpr ⟨0, rfl, by decide⟩
  · rw [hlen]
    rfl
  · rw [hlen]
    decide

end DiskLoad

end FreeToken
