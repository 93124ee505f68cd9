import FreeToken.Checkpoint.Equiv.FtwWriter

/-!
# The reader of a checkpoint

* `piecesLoop_spec`: the pieces cover what is asked for, each in one shard and aligned.
* `rd_spec`: a job writes its bytes, and nothing else.
* `readInto_spec`: the buffer holds the bytes of the region, whatever the order of the jobs.
-/

namespace FreeToken

open List

variable {dest data : Bytes} {mode : ReadMode}

namespace Ftw

variable {dir : Dir} {region : ℕ → Option UInt8} {g : ℕ}

/-! ### Pieces -/

/-- A piece of a buffer for the bytes of the region from `g` on. -/
def Piece.Lies (dir : Dir) (region : ℕ → Option UInt8) (g : ℕ) (p : Piece) : Prop :=
  ∃ data, dir p.file = some data ∧ p.fileOff + p.length ≤ data.length ∧ data.length % align = 0 ∧
    p.fileOff % align = 0 ∧ p.destOff % align = 0 ∧
    ∀ i, p.fileOff + i < data.length → data[p.fileOff + i]? = region (g + p.destOff + i)

/-- The pieces of a range are found in the shards. -/
theorem piecesLoop_spec {parts : List Bytes} {k s destOff remaining : ℕ}
    (hdir : ∀ i part, parts[i]? = some part → dir (shardFmt (k + i)) = some part)
    (hparts : ∀ part ∈ parts, part.length % align = 0)
    (hregion : ∀ j < parts.flatten.length, region (s + j) = parts.flatten[j]?)
    (hstart : remaining ≠ 0 → s ≤ g + destOff ∧ s % align = 0 ∧ (g + destOff) % align = 0 ∧
      destOff % align = 0)
    (hend : remaining ≠ 0 → g + destOff + remaining ≤ s + parts.flatten.length) :
    ∃ pieces, FTWReader.piecesLoop (layout k s parts) destOff remaining (g + destOff) =
      some pieces ∧
      (∀ p ∈ pieces, p.Lies dir region g ∧ p.destOff + p.length ≤ destOff + remaining) ∧
      ∀ x, destOff ≤ x → x < destOff + remaining → ∃ p ∈ pieces, p.destOff ≤ x ∧
        x < p.destOff + p.length := by
  induction parts generalizing k s destOff remaining with
  | nil =>
    have hzero : remaining = 0 := by
      by_contra hne
      have hle := hend hne
      have hs := (hstart hne).1
      rw [flatten_nil, length_nil] at hle
      omega
    refine ⟨[], if_pos hzero, fun p hp => absurd hp not_mem_nil, fun x hx hlt => ?_⟩
    omega
  | cons part parts ih =>
    have hdir' : ∀ i part', parts[i]? = some part' → dir (shardFmt (k + 1 + i)) = some part' := by
      intro i part' hi
      have hshift : k + 1 + i = k + (i + 1) := by omega
      rw [hshift]
      exact hdir (i + 1) part' hi
    have hparts' : ∀ part' ∈ parts, part'.length % align = 0 :=
      fun part' hp => hparts part' (mem_cons_of_mem _ hp)
    have hregion' :
      ∀ j < parts.flatten.length, region (s + part.length + j) = parts.flatten[j]? := by
      intro j hj
      have hlt : part.length + j < (part :: parts).flatten.length := by
        rw [flatten_cons, length_append]
        omega
      have hget := hregion (part.length + j) hlt
      rw [← Nat.add_assoc, flatten_cons, List.getElem?_append_right (Nat.le_add_right _ _),
        Nat.add_sub_cancel_left] at hget
      exact hget
    have hpart := hparts part mem_cons_self
    rw [flatten_cons, length_append] at hend
    rw [layout, FTWReader.piecesLoop]
    dsimp only
    by_cases hskip : s + part.length ≤ g + destOff ∨ remaining = 0
    · rw [if_pos hskip]
      refine ih hdir' hparts' hregion' (fun hne => ?_) fun hne => ?_
      · obtain ⟨hle, hs, hg, hd⟩ := hstart hne
        refine ⟨by omega, ?_, hg, hd⟩
        unfold align at *
        omega
      · have hle := hend hne
        omega
    · rw [not_or] at hskip
      obtain ⟨hin, hne⟩ := hskip
      obtain ⟨hle, hs, hg, hd⟩ := hstart hne
      have hroom := hend hne
      rw [if_neg (by omega), if_neg (by omega)]
      -- what this shard gives, and the rest
      have hrest :=
        @ih (k + 1) (s + part.length) (destOff + min remaining (s + part.length - (g + destOff)))
        (remaining - min remaining (s + part.length - (g + destOff))) hdir' hparts' hregion'
        (fun hmore => by
          refine ⟨by omega, ?_, ?_, ?_⟩
          · unfold align at *
            omega
          · unfold align at *
            omega
          · unfold align at *
            omega)
        (fun hmore => by omega)
      obtain ⟨pieces, hpieces, hlies, hcover⟩ := hrest
      rw [← Nat.add_assoc] at hpieces
      refine ⟨⟨shardFmt k, g + destOff - s, destOff,
        min remaining (s + part.length - (g + destOff))⟩ :: pieces, ?_, ?_, ?_⟩
      · rw [hpieces]
        rfl
      · intro p hp
        rcases mem_cons.mp hp with rfl | hp
        · refine ⟨⟨part, hdir 0 part rfl, ?_, hpart, ?_, hd, fun i hi => ?_⟩, ?_⟩
          · show g + destOff - s + min remaining (s + part.length - (g + destOff)) ≤ part.length
            omega
          · show (g + destOff - s) % align = 0
            unfold align at *
            omega
          · have hlt : g + destOff - s + i < (part :: parts).flatten.length := by
              rw [flatten_cons, length_append]
              exact Nat.lt_add_right _ hi
            have hget := hregion _ hlt
            rw [flatten_cons, getElem?_append_left hi] at hget
            show part[g + destOff - s + i]? = region (g + destOff + i)
            rw [← hget]
            congr 1
            omega
          · show destOff + min remaining (s + part.length - (g + destOff)) ≤ destOff + remaining
            omega
        · obtain ⟨hl, hb⟩ := hlies p hp
          exact ⟨hl, by omega⟩
      · intro x hx hlt
        by_cases hhere : x < destOff + min remaining (s + part.length - (g + destOff))
        · exact ⟨_, mem_cons_self, hx, hhere⟩
        · obtain ⟨p, hp, hcovers⟩ := hcover x (by omega) (by omega)
          exact ⟨p, mem_cons_of_mem _ hp, hcovers⟩

/-! ### Jobs -/

theorem mem_stepRange {stop step c : ℕ} (hstep : 0 < step) :
    c ∈ stepRange stop step ↔ ∃ k, c = k * step ∧ c < stop := by
  unfold stepRange
  rw [mem_map]
  constructor
  · rintro ⟨k, hk, rfl⟩
    have hle := (Nat.le_div_iff_mul_le hstep).mp (Nat.succ_le_of_lt (List.mem_range.mp hk))
    rw [Nat.succ_mul] at hle
    exact ⟨k, rfl, by omega⟩
  · rintro ⟨k, rfl, hlt⟩
    refine ⟨k, List.mem_range.mpr (Nat.lt_of_succ_le ((Nat.le_div_iff_mul_le hstep).mpr ?_)), rfl⟩
    rw [Nat.succ_mul]
    omega

/-- A job that a buffer of `size` bytes has room for. -/
def Piece.Job (mode : ReadMode) (dir : Dir) (region : ℕ → Option UInt8) (g size : ℕ) (j : Piece) :
    Prop :=
  ∃ data, dir j.file = some data ∧ j.fileOff + j.length ≤ data.length ∧
    j.destOff + j.length ≤ size ∧
    (∀ i < j.length, data[j.fileOff + i]? = region (g + j.destOff + i)) ∧
    (mode.direct = true → j.fileOff % align = 0 ∧ j.destOff % align = 0 ∧ j.length % align = 0)

theorem pieceJobs_spec (mode : ReadMode) {size : ℕ} {p : Piece} (h : p.Lies dir region g)
    (hsize : p.destOff + alignUp p.length ≤ size) :
    (∀ j ∈ pieceJobs mode.chunk p, j.Job mode dir region g size) ∧
      ∀ x, p.destOff ≤ x → x < p.destOff + p.length →
        ∃ j ∈ pieceJobs mode.chunk p, j.destOff ≤ x ∧ x < j.destOff + j.length := by
  obtain ⟨data, hdata, hroom, hmod, hfile, hdest, hget⟩ := h
  -- the file is whole blocks, so the last one can be read in full
  have hup : p.fileOff + alignUp p.length ≤ data.length := by
    have hle := alignUp_le (n := p.length) (m := data.length - p.fileOff)
      (by unfold align at *; omega) (by omega)
    omega
  have hrmod := alignUp_mod p.length
  have hchunk := mode.chunk_pos
  refine ⟨fun j hj => ?_, fun x hx hlt => ?_⟩
  · obtain ⟨c, hc, rfl⟩ := mem_map.mp hj
    obtain ⟨k, rfl, hclt⟩ := (mem_stepRange hchunk).mp hc
    refine ⟨data, hdata, ?_, ?_, fun i hi => ?_, fun hdirect => ?_⟩
    · show p.fileOff + k * mode.chunk + min mode.chunk (alignUp p.length - k * mode.chunk) ≤
        data.length
      omega
    · show p.destOff + k * mode.chunk + min mode.chunk (alignUp p.length - k * mode.chunk) ≤ size
      omega
    · have hi' : i < min mode.chunk (alignUp p.length - k * mode.chunk) := hi
      have hbyte := hget (k * mode.chunk + i) (by omega)
      rw [← Nat.add_assoc, ← Nat.add_assoc] at hbyte
      show data[p.fileOff + k * mode.chunk + i]? = region (g + (p.destOff + k * mode.chunk) + i)
      rw [hbyte, ← Nat.add_assoc]
    · have hcmod : k * mode.chunk % align = 0 := by
        rw [Nat.mul_mod, mode.chunk_align hdirect, Nat.mul_zero, Nat.zero_mod]
      have hchunkmod := mode.chunk_align hdirect
      refine ⟨?_, ?_, ?_⟩
      · show (p.fileOff + k * mode.chunk) % align = 0
        unfold align at *
        omega
      · show (p.destOff + k * mode.chunk) % align = 0
        unfold align at *
        omega
      · show min mode.chunk (alignUp p.length - k * mode.chunk) % align = 0
        unfold align at *
        omega
  · have hle := le_alignUp p.length
    have hdiv := Nat.div_add_mod (x - p.destOff) mode.chunk
    have hlast := Nat.mod_lt (x - p.destOff) hchunk
    rw [mul_comm] at hdiv
    refine ⟨_,
      mem_map.mpr
      ⟨(x - p.destOff) / mode.chunk * mode.chunk, (mem_stepRange hchunk).mpr ⟨_, rfl, ?_⟩, rfl⟩, ?_,
      ?_⟩
    · omega
    · show p.destOff + (x - p.destOff) / mode.chunk * mode.chunk ≤ x
      omega
    · show x < p.destOff + (x - p.destOff) / mode.chunk * mode.chunk +
        min mode.chunk (alignUp p.length - (x - p.destOff) / mode.chunk * mode.chunk)
      omega

/-! ### Reading -/

theorem writeAt_spec (dest data : Bytes) {pos : ℕ} (h : pos + data.length ≤ dest.length) :
    (writeAt dest pos data).length = dest.length ∧
      ∀ x, (writeAt dest pos data)[x]? = if pos ≤ x ∧ x < pos + data.length then data[x - pos]?
        else dest[x]? := by
  have htake : (dest.take pos).length = pos := by
    rw [length_take]
    omega
  unfold writeAt
  refine ⟨?_, fun x => ?_⟩
  · rw [length_append, length_append, htake, length_drop]
    omega
  · by_cases hlo : pos ≤ x
    · by_cases hhi : x < pos + data.length
      · rw [if_pos ⟨hlo, hhi⟩, getElem?_append_left (by rw [length_append, htake]; exact hhi),
          List.getElem?_append_right (by rwa [htake]), htake]
      · rw [if_neg fun hin => hhi hin.2, List.getElem?_append_right
          (by rw [length_append, htake]; omega), length_append, htake, getElem?_drop]
        congr 1
        omega
    · rw [if_neg fun hin => hlo hin.1, append_assoc, getElem?_append_left (by rw [htake]; omega),
        getElem?_take_of_lt (by omega)]

/-- Bytes of a file that are bytes of the region. -/
theorem writeAt_region {fileOff pos len : ℕ} (hfile : fileOff + len ≤ data.length)
    (hdest : pos + len ≤ dest.length)
    (hget : ∀ i < len, data[fileOff + i]? = region (g + pos + i)) :
    (writeAt dest pos ((data.drop fileOff).take len)).length = dest.length ∧
      ∀ x, (writeAt dest pos ((data.drop fileOff).take len))[x]? =
        if pos ≤ x ∧ x < pos + len then region (g + x) else dest[x]? := by
  have hlen : ((data.drop fileOff).take len).length = len := by
    rw [length_take, length_drop]
    omega
  have hroom : pos + ((data.drop fileOff).take len).length ≤ dest.length := by rwa [hlen]
  obtain ⟨hlength, hbytes⟩ := writeAt_spec dest ((data.drop fileOff).take len) hroom
  refine ⟨hlength, fun x => ?_⟩
  rw [hbytes x, hlen]
  by_cases hin : pos ≤ x ∧ x < pos + len
  · rw [if_pos hin, if_pos hin, getElem?_take_of_lt (by omega), getElem?_drop,
      hget (x - pos) (by omega)]
    congr 1
    omega
  · rw [if_neg hin, if_neg hin]

theorem preadLoop_spec {blocks : ℕ → ℕ} (hblocks : ∀ done, 0 < blocks done)
    {fileOff destOff total rounds done : ℕ} (hrounds : total - done ≤ rounds)
    (hfile : fileOff + total ≤ data.length) (hdest : destOff + total ≤ dest.length)
    (hget : ∀ i < total, data[fileOff + i]? = region (g + destOff + i))
    (halign : fileOff % align = 0 ∧ destOff % align = 0 ∧ total % align = 0)
    (hdone : done ≤ total ∧ done % align = 0) :
    ∃ dest', preadLoop data blocks fileOff destOff total rounds done dest = some dest' ∧
      dest'.length = dest.length ∧
      ∀ x, dest'[x]? = if destOff + done ≤ x ∧ x < destOff + total then region (g + x)
        else dest[x]? := by
  induction rounds generalizing done dest with
  | zero =>
    refine ⟨dest, ?_, rfl, fun x => (if_neg ?_).symm⟩
    · rw [preadLoop, if_neg (by omega)]
    · omega
  | succ rounds ih =>
    rw [preadLoop]
    by_cases hmore : done < total
    · have hpos := hblocks done
      obtain ⟨hf, hd, ht⟩ := halign
      -- each single read starts at a block and ends at one
      have hlegal :
          (fileOff + done) % align = 0 ∧ (total - done) % align = 0 ∧
          (destOff + done) % align = 0 := by
        unfold align at *
        omega
      have hblock : 0 < blocks done * align := mul_pos hpos (by unfold align; omega)
      have hbmod : blocks done * align % align = 0 := Nat.mul_mod_left _ _
      rw [if_pos hmore, if_pos hlegal]
      generalize hn : min (min (blocks done * align) (total - done))
        (data.length - (fileOff + done)) = n
      have hnpos : 0 < n := by omega
      have hnle : done + n ≤ total := by omega
      have hnmod : (done + n) % align = 0 := by
        unfold align at *
        omega
      rw [if_neg hnpos.ne']
      have hbytes : ∀ i < n, data[fileOff + done + i]? = region (g + (destOff + done) + i) := by
        intro i hi
        have hbyte := hget (done + i) (by omega)
        rw [← Nat.add_assoc, ← Nat.add_assoc] at hbyte
        rw [hbyte, ← Nat.add_assoc]
      have hin : fileOff + done + n ≤ data.length := by omega
      have hout : destOff + done + n ≤ dest.length := by omega
      obtain ⟨hlen, hwrite⟩ := writeAt_region hin hout hbytes
      have hrounds' : total - (done + n) ≤ rounds := by omega
      obtain ⟨dest', hloop, hlen', hrest⟩ := ih hrounds' (hlen.symm ▸ hdest) ⟨hnle, hnmod⟩
      refine ⟨dest', hloop, hlen'.trans hlen, fun x => ?_⟩
      rw [hrest x, hwrite x]
      by_cases hin : destOff + done ≤ x ∧ x < destOff + total
      · rw [if_pos hin]
        by_cases hlater : destOff + (done + n) ≤ x ∧ x < destOff + total
        · rw [if_pos hlater]
        · rw [if_neg hlater, if_pos (by omega)]
      · rw [if_neg hin, if_neg (by omega), if_neg (by omega)]
    · rw [if_neg hmore]
      refine ⟨dest, rfl, rfl, fun x => (if_neg ?_).symm⟩
      omega

theorem rd_spec {j : Piece} (h : j.Job mode dir region g dest.length) :
    ∃ dest', rd dir mode dest j = some dest' ∧ dest'.length = dest.length ∧
      ∀ x, dest'[x]? = if j.destOff ≤ x ∧ x < j.destOff + j.length then region (g + x)
        else dest[x]? := by
  obtain ⟨data, hdata, hfile, hdest, hget, halign⟩ := h
  unfold rd
  rw [hdata, Option.bind_eq_bind, Option.bind_some]
  by_cases hdirect : mode.direct = true
  · have htotal : min j.length (dest.length - j.destOff) = j.length := by omega
    rw [if_pos hdirect]
    unfold rdDirect
    rw [htotal]
    exact preadLoop_spec (fun done => mode.blocks_pos j done) (by omega) hfile hdest hget
      (halign hdirect) ⟨Nat.zero_le _, rfl⟩
  · rw [if_neg hdirect]
    unfold rdMap
    rw [if_neg (by omega), if_pos hdest]
    exact ⟨_, rfl, writeAt_region hfile hdest hget⟩

theorem foldlM_rd {jobs : List Piece}
    (h : ∀ j ∈ jobs, j.Job mode dir region g dest.length) :
    ∃ dest', jobs.foldlM (rd dir mode) dest = some dest' ∧ dest'.length = dest.length ∧
      ∀ x, (∃ j ∈ jobs, j.destOff ≤ x ∧ x < j.destOff + j.length) → dest'[x]? = region (g + x) := by
  -- a byte that is right stays right
  suffices hall :
      ∃ dest', jobs.foldlM (rd dir mode) dest = some dest' ∧ dest'.length = dest.length ∧
      ∀ x, ((∃ j ∈ jobs, j.destOff ≤ x ∧ x < j.destOff + j.length) ∨ dest[x]? = region (g + x)) →
        dest'[x]? = region (g + x) by
    obtain ⟨dest', hfold, hlen, hget⟩ := hall
    exact ⟨dest', hfold, hlen, fun x hx => hget x (Or.inl hx)⟩
  induction jobs generalizing dest with
  | nil =>
    refine ⟨dest, rfl, rfl, fun x hx => ?_⟩
    rcases hx with ⟨j, hj, -⟩ | hx
    · exact absurd hj not_mem_nil
    · exact hx
  | cons j jobs ih =>
    obtain ⟨dest1, hrd, hlen1, hget1⟩ := rd_spec (h j mem_cons_self)
    have htail : ∀ j' ∈ jobs, j'.Job mode dir region g dest1.length := by
      intro j' hj'
      rw [hlen1]
      exact h j' (mem_cons_of_mem _ hj')
    obtain ⟨dest2, hfold, hlen2, hget2⟩ := ih htail
    refine ⟨dest2, ?_, hlen2.trans hlen1, fun x hx => ?_⟩
    · rw [foldlM_cons, hrd]
      exact hfold
    · by_cases hlater : ∃ j' ∈ jobs, j'.destOff ≤ x ∧ x < j'.destOff + j'.length
      · exact hget2 x (Or.inl hlater)
      · apply hget2 x
        right
        rw [hget1 x]
        by_cases hin : j.destOff ≤ x ∧ x < j.destOff + j.length
        · rw [if_pos hin]
        · rw [if_neg hin]
          rcases hx with ⟨j', hj', hcovers⟩ | hx
          · rcases mem_cons.mp hj' with rfl | hj'
            · exact absurd hcovers hin
            · exact absurd ⟨j', hj', hcovers⟩ hlater
          · exact hx

/-- **What a reader finds of a region.** -/
theorem readInto_spec (mode : ReadMode) {r : FTWReader} {parts : List Bytes}
    (hshards : r.shards = layout 0 0 parts)
    (hdir : ∀ i part, parts[i]? = some part → r.dir (shardFmt i) = some part)
    (hparts : ∀ part ∈ parts, part.length % align = 0) {globalOff nbytes : ℕ}
    (hoff : globalOff % align = 0)
    (hend : globalOff + nbytes ≤ parts.flatten.length) (hdest : alignUp nbytes ≤ dest.length) :
    ∃ dest', r.readInto mode dest globalOff nbytes = some dest' ∧ dest'.length = dest.length ∧
      dest'.take nbytes = (parts.flatten.drop globalOff).take nbytes := by
  obtain ⟨pieces, hpieces, hlies, hcover⟩ := @piecesLoop_spec r.dir (parts.flatten[·]?) globalOff
    parts 0 0 0 nbytes (fun i part hi => by rw [zero_add]; exact hdir i part hi) hparts
    (fun j _ => by rw [zero_add]) (fun _ => ⟨Nat.zero_le _, rfl, hoff, rfl⟩) (fun _ => by omega)
  -- each piece lies in one shard, and its jobs cover it
  have hpiece :
      ∀ p ∈ pieces, (∀ j ∈ pieceJobs mode.chunk p, j.Job mode r.dir (parts.flatten[·]?) globalOff
        dest.length) ∧
      ∀ x, p.destOff ≤ x → x < p.destOff + p.length →
        ∃ j ∈ pieceJobs mode.chunk p, j.destOff ≤ x ∧ x < j.destOff + j.length := by
    intro p hp
    obtain ⟨hl, hb⟩ := hlies p hp
    obtain ⟨-, -, -, -, -, hdestmod, -⟩ := hl
    have hle : alignUp (p.destOff + p.length) ≤ alignUp nbytes := by
      unfold alignUp
      unfold align
      omega
    have hsplit := alignUp_add (n := p.length) hdestmod
    have hup := le_alignUp (p.destOff + p.length)
    have hup' := le_alignUp p.length
    exact pieceJobs_spec mode (hlies p hp).1 (by omega)
  have hjobs : ∀ j ∈ mode.order (pieces.flatMap (pieceJobs mode.chunk)),
      j.Job mode r.dir (parts.flatten[·]?) globalOff dest.length := by
    intro j hj
    obtain ⟨p, hp, hj⟩ := mem_flatMap.mp ((mode.order_perm _).mem_iff.mp hj)
    exact (hpiece p hp).1 j hj
  obtain ⟨dest', hfold, hlen, hget⟩ := foldlM_rd hjobs
  refine ⟨dest', ?_, hlen, ?_⟩
  · unfold FTWReader.readInto FTWReader.pieces
    rw [add_zero] at hpieces
    rw [hshards, hpieces]
    exact hfold
  · apply ext_getElem?
    intro x
    -- every byte is in some piece, and so in some job
    by_cases hx : x < nbytes
    · obtain ⟨p, hp, hlo, hhi⟩ := hcover x (Nat.zero_le x) (by omega)
      obtain ⟨j, hj, hcovers⟩ := (hpiece p hp).2 x hlo hhi
      have hjob : j ∈ mode.order (pieces.flatMap (pieceJobs mode.chunk)) :=
        (mode.order_perm _).mem_iff.mpr (mem_flatMap.mpr ⟨p, hp, hj⟩)
      rw [getElem?_take_of_lt hx, getElem?_take_of_lt hx, getElem?_drop]
      exact hget x ⟨j, hjob, hcovers⟩
    · rw [getElem?_take_eq_none (not_lt.mp hx), getElem?_take_eq_none (not_lt.mp hx)]

end Ftw

end FreeToken
