import FreeToken.Kernel.PleStore.Equiv.Readers

/-!
# What is staged

* `hashRows_lt`: every row that is hashed is there.
* `Staged`: the queue and the requests that it stands for; `stage_spec`: staging never fails, and
  keeps this.
-/

namespace FreeToken

open List

namespace Ple

variable {s : PleStore}

/-! ### Rows -/

theorem posMod_eq {v m : ℤ} (hm : 0 < m) : posMod v m = v % m := by
  unfold posMod
  dsimp only
  have hlo := Int.emod_nonneg v hm.ne'
  have hhi := Int.emod_lt_of_pos v hm
  rw [Int.tmod_eq_emod]
  have habs : (m.natAbs : ℤ) = m := Int.natAbs_of_nonneg hm.le
  split_ifs <;> omega

def PleStore.rowByte (s : PleStore) (row : ℤ) (i : ℕ) : Option UInt8 := do
  let place ← s.rowPlace row
  (diskOf s.files place.1)[place.2 + i]?

def PleStore.HasRow (s : PleStore) (row : ℤ) : Prop :=
  0 ≤ row ∧ row < (s.extents.length * s.rowsPerExtent : ℕ)

theorem rowPlace_spec {row : ℤ} (h : s.HasRow row) :
    ∃ fd off file, s.rowPlace row = some (fd, off) ∧ s.files[fd]? = some file ∧
      off + s.rowBytes ≤ file.data.length := by
  obtain ⟨hlo, hhi⟩ := h
  obtain ⟨n, rfl⟩ := Int.eq_ofNat_of_zero_le hlo
  have hn : n < s.extents.length * s.rowsPerExtent := by exact_mod_cast hhi
  have hpos : 0 < s.rowsPerExtent := Nat.pos_of_mul_pos_left ((Nat.zero_le n).trans_lt hn)
  have hext : n / s.rowsPerExtent < s.extents.length := (Nat.div_lt_iff_lt_mul hpos).mpr hn
  have hrow : n % s.rowsPerExtent ≤ s.rowsPerExtent - 1 := Nat.le_sub_one_of_lt (Nat.mod_lt n hpos)
  obtain ⟨file, hfile, hfits⟩ := s.extents_fit _ (getElem_mem hext)
  have hdiv : ((n : ℤ) / (s.rowsPerExtent : ℤ)).toNat = n / s.rowsPerExtent := by
    rw [← Int.natCast_div, Int.toNat_natCast]
  have hmod : ((n : ℤ) % (s.rowsPerExtent : ℤ)).toNat = n % s.rowsPerExtent := by
    rw [← Int.natCast_mod, Int.toNat_natCast]
  refine ⟨s.extents[n / s.rowsPerExtent].file,
    s.extents[n / s.rowsPerExtent].base + n % s.rowsPerExtent * s.rowStride, file, ?_, hfile, ?_⟩
  · unfold PleStore.rowPlace
    rw [hdiv, hmod, List.getElem?_eq_getElem hext]
    rfl
  · have hle := Nat.mul_le_mul_right s.rowStride hrow
    omega

theorem hashRows_lt (w0 w1 w2 : BitVec 64) {h : ℕ} (hh : h < s.sizes.length) :
    s.HasRow ((s.hashRows w0 w1 w2).getD h 0) := by
  obtain ⟨hpos, hfit⟩ := s.heads_fit h hh
  unfold PleStore.hashRows
  rw [getD_eq_getElem?_getD, List.getElem?_map, List.getElem?_range hh, Option.map_some,
    Option.getD_some, posMod_eq (Int.natCast_pos.mpr hpos)]
  generalize (if h < s.sizes.length / 2 then _ else _ : BitVec 64).toInt = v
  have hlo := Int.emod_nonneg v (Int.natCast_pos.mpr hpos).ne'
  have hhi := Int.emod_lt_of_pos v (Int.natCast_pos.mpr hpos)
  refine ⟨by omega, ?_⟩
  push_cast
  have hfit' :
      ((s.offsets.getD h 0 : ℕ) : ℤ) + (s.sizes.getD h 0 : ℕ) ≤ (s.extents.length : ℤ) *
      s.rowsPerExtent := by
    exact_mod_cast hfit
  linarith

/-! ### Requests -/

theorem mem_requests {tokens : List (BitVec 64)} {staging : ℕ} {r : ℤ × ℕ}
    (hr : r ∈ s.requests tokens staging) :
    ∃ i h, h < s.sizes.length ∧
      r = ((s.hashRows (tokens.getD i 0) (tokens.getD (i + 1) 0) (tokens.getD (i + 2) 0)).getD h 0,
      staging + (i * s.sizes.length + h) * s.rowBytes) := by
  obtain ⟨i, -, hr⟩ := List.mem_flatMap.mp hr
  obtain ⟨h, hh, rfl⟩ := List.mem_map.mp hr
  exact ⟨i, h, List.mem_range.mp hh, rfl⟩

theorem apart_of_lt {n a b start : ℕ} (h : a < b) : Apart n (start + a * n) (start + b * n) := by
  left
  have hle : (a + 1) * n ≤ b * n := Nat.mul_le_mul_right n h
  rw [Nat.succ_mul] at hle
  omega

theorem requests_apart {tokens : List (BitVec 64)} {staging : ℕ} {r r' : ℤ × ℕ}
    (hr : r ∈ s.requests tokens staging)
    (hr' : r' ∈ s.requests tokens staging) : r = r' ∨ Apart s.rowBytes r.2 r'.2 := by
  obtain ⟨i, h, hh, rfl⟩ := mem_requests hr
  obtain ⟨i', h', hh', rfl⟩ := mem_requests hr'
  rcases lt_trichotomy (i * s.sizes.length + h) (i' * s.sizes.length + h') with hlt | heq | hlt
  · exact Or.inr (apart_of_lt hlt)
  · left
    have hpos : 0 < s.sizes.length := (Nat.zero_le h).trans_lt hh
    have hi : i = i' := by
      have hdiv : (i * s.sizes.length + h) / s.sizes.length = i := by
        rw [Nat.add_comm, Nat.add_mul_div_right _ _ hpos, Nat.div_eq_of_lt hh, Nat.zero_add]
      rw [heq, Nat.add_comm, Nat.add_mul_div_right _ _ hpos, Nat.div_eq_of_lt hh',
        Nat.zero_add] at hdiv
      exact hdiv.symm
    subst hi
    obtain rfl : h = h' := Nat.add_left_cancel heq
    rfl
  · exact Or.inr (apart_of_lt hlt).symm

/-! ### The queue -/

structure Pending.Reads (s : PleStore) (p : Pending) (row : ℤ) : Prop where
  bytes : ∀ i < s.rowBytes, s.rowByte row i = (diskOf s.files p.file)[p.readOff + (p.rowOff + i)]?
  need_le : p.rowOff + s.rowBytes ≤ p.readLen
  len_le : p.readLen ≤ kSpanMax

theorem newPending_reads {row : ℤ} {fd off dst : ℕ} {file : TableFile}
    (hplace : s.rowPlace row = some (fd, off)) :
    (s.newPending file fd off dst).Reads s row ∧ (s.newPending file fd off dst).dsts = [dst] := by
  have hbyte : ∀ i, s.rowByte row i = (diskOf s.files fd)[off + i]? := by
    intro i
    unfold PleStore.rowByte
    rw [hplace]
    rfl
  have hle := s.rowBytes_le
  unfold PleStore.newPending
  unfold kPage at *
  split
  · refine ⟨⟨fun i _ => ?_, ?_, ?_⟩, rfl⟩
    · rw [hbyte]
      show _ = (diskOf s.files fd)[off / 4096 * 4096 + (off - off / 4096 * 4096 + i)]?
      congr 1
      omega
    · show off - off / 4096 * 4096 + s.rowBytes ≤ (off + s.rowBytes + 4096 - 1) / 4096 * 4096 -
        off / 4096 * 4096
      omega
    · show (off + s.rowBytes + 4096 - 1) / 4096 * 4096 - off / 4096 * 4096 ≤ 2 * 4096
      omega
  · refine ⟨⟨fun i _ => ?_, ?_, ?_⟩, rfl⟩
    · rw [hbyte]
      show _ = (diskOf s.files fd)[off + (0 + i)]?
      rw [Nat.zero_add]
    · show 0 + s.rowBytes ≤ s.rowBytes
      omega
    · show s.rowBytes ≤ 2 * 4096
      omega

structure Staged (s : PleStore) (staged : List (ℤ × ℕ)) (q : Queue) : Prop where
  get : ∀ row k, q.index row = some k → ∃ p, q.pending[k]? = some p ∧ p.Reads s row ∧
    ∀ dst, dst ∈ p.dsts ↔ (row, dst) ∈ staged
  inj : ∀ row row' k, q.index row = some k → q.index row' = some k → row = row'
  all : ∀ k < q.pending.length, ∃ row, q.index row = some k
  mem : ∀ r ∈ staged, ∃ k, q.index r.1 = some k

theorem Staged.empty : Staged s [] Queue.empty :=
  ⟨fun _ _ h => absurd h.symm (Option.some_ne_none _), fun _ _ _ h =>
    absurd h.symm (Option.some_ne_none _), fun k hk => absurd hk (Nat.not_lt_zero k), fun _ h =>
    absurd h not_mem_nil⟩

theorem requestRow_spec {staged : List (ℤ × ℕ)} {q : Queue} (h : Staged s staged q) {r : ℤ × ℕ}
    (hr : s.HasRow r.1) :
    ∃ q', s.requestRow q r = some q' ∧ Staged s (staged ++ [r]) q' := by
  obtain ⟨row, dst⟩ := r
  unfold PleStore.requestRow
  cases hindex : q.index row with
  | some k =>
    -- the row is queued already
    refine ⟨_, rfl, fun row' k' h' => ?_, h.inj, fun k' hk' => ?_, fun r hr => ?_⟩
    · obtain ⟨p, hp, hreads, hdsts⟩ := h.get row' k' h'
      by_cases hk : k = k'
      · obtain rfl : row = row' := h.inj row row' k hindex (hk ▸ h')
        refine ⟨{ p with dsts := p.dsts ++ [dst] }, ?_,
          ⟨hreads.bytes, hreads.need_le, hreads.len_le⟩, fun dst' => ?_⟩
        · rw [hk, List.getElem?_modify_eq, hp]
          rfl
        · rw [mem_append, mem_append, hdsts, mem_singleton, mem_singleton, Prod.mk.injEq,
            and_iff_right rfl]
      · refine ⟨p, ?_, hreads, fun dst' => ?_⟩
        · exact (List.getElem?_modify_ne _ _ hk).trans hp
        · rw [hdsts, mem_append, mem_singleton, Prod.mk.injEq]
          refine ⟨Or.inl, fun hor => hor.resolve_right fun heq => hk ?_⟩
          rw [heq.1] at h'
          exact Option.some.inj (hindex.symm.trans h')
    · rw [length_modify] at hk'
      exact h.all k' hk'
    · rcases List.mem_append.mp hr with hr | hr
      · exact h.mem r hr
      · rw [List.mem_singleton.mp hr]
        exact ⟨k, hindex⟩
  | none =>
    obtain ⟨fd, off, file, hplace, hfile, -⟩ := rowPlace_spec hr
    obtain ⟨hreads, hdsts⟩ := @newPending_reads s row fd off dst file hplace
    have hfresh : ∀ dst', (row, dst') ∉ staged := by
      intro dst' hmem
      obtain ⟨k, hk⟩ := h.mem _ hmem
      rw [hindex] at hk
      exact absurd hk.symm (Option.some_ne_none k)
    have hold :
        ∀ row', row' ≠ row → Function.update q.index row (some q.pending.length) row' =
        q.index row' :=
      fun row' hne => Function.update_of_ne hne _ _
    have hlt : ∀ row' k, q.index row' = some k → k < q.pending.length := by
      intro row' k hk
      obtain ⟨p, hp, -⟩ := h.get row' k hk
      exact (List.getElem?_eq_some_iff.mp hp).1
    refine ⟨⟨q.pending ++ [s.newPending file fd off dst], Function.update q.index row
      (some q.pending.length)⟩, ?_, fun row' k' h' => ?_, fun row1 row2 k' h1 h2 =>
      ?_, fun k' hk' => ?_, fun r hr => ?_⟩
    · dsimp only
      rw [hplace, Option.bind_eq_bind, Option.bind_some]
      rw [hfile]
      rfl
    · by_cases hrow : row' = row
      · subst hrow
        dsimp only at h'
        rw [Function.update_self] at h'
        obtain rfl := Option.some.inj h'
        refine ⟨_, List.getElem?_concat_length, hreads, fun dst' => ?_⟩
        rw [hdsts, mem_append, mem_singleton, mem_singleton, Prod.mk.injEq, and_iff_right rfl,
          or_iff_right (hfresh dst')]
      · dsimp only at h'
        rw [hold row' hrow] at h'
        obtain ⟨p, hp, hreads', hdsts'⟩ := h.get row' k' h'
        refine ⟨p, ?_, hreads', fun dst' => ?_⟩
        · rw [List.getElem?_append_left (hlt row' k' h'), hp]
        · rw [hdsts', mem_append, mem_singleton, Prod.mk.injEq, or_iff_left fun heq => hrow heq.1]
    · dsimp only at h1 h2
      by_cases hrow1 : row1 = row
      · by_cases hrow2 : row2 = row
        · rw [hrow1, hrow2]
        · rw [hrow1, Function.update_self] at h1
          rw [hold row2 hrow2] at h2
          obtain rfl := Option.some.inj h1
          exact absurd (hlt row2 _ h2) (lt_irrefl _)
      · rw [hold row1 hrow1] at h1
        by_cases hrow2 : row2 = row
        · rw [hrow2, Function.update_self] at h2
          obtain rfl := Option.some.inj h2
          exact absurd (hlt row1 _ h1) (lt_irrefl _)
        · rw [hold row2 hrow2] at h2
          exact h.inj row1 row2 k' h1 h2
    · rw [length_append, length_singleton] at hk'
      by_cases hlast : k' < q.pending.length
      · obtain ⟨row', hrow'⟩ := h.all k' hlast
        refine ⟨row', ?_⟩
        dsimp only
        rw [hold row' fun heq => ?_, hrow']
        rw [heq, hindex] at hrow'
        exact absurd hrow'.symm (Option.some_ne_none _)
      · refine ⟨row, ?_⟩
        dsimp only
        rw [Function.update_self]
        congr 1
        omega
    · rcases List.mem_append.mp hr with hr | hr
      · obtain ⟨k, hk⟩ := h.mem r hr
        refine ⟨k, ?_⟩
        dsimp only
        rw [hold r.1 fun heq => ?_, hk]
        rw [heq, hindex] at hk
        exact absurd hk.symm (Option.some_ne_none _)
      · rw [List.mem_singleton.mp hr]
        exact ⟨_, Function.update_self _ _ _⟩

/-- **Staging never fails**, and the queue stands for all requests. -/
theorem stage_spec {staged : List (ℤ × ℕ)} {q : Queue} (h : Staged s staged q)
    (tokens : List (BitVec 64)) (staging : ℕ) :
    ∃ q', s.stage q tokens staging = some q' ∧
      Staged s (staged ++ s.requests tokens staging) q' := by
  have hrun :
      ∀ (requests before : List (ℤ × ℕ)) (q : Queue), (∀ r ∈ requests, s.HasRow r.1) →
      Staged s before q →
      ∃ q', requests.foldlM s.requestRow q = some q' ∧ Staged s (before ++ requests) q' := by
    intro requests
    induction requests with
    | nil =>
      intro before q _ h
      exact ⟨q, rfl, by rwa [append_nil]⟩
    | cons r requests ih =>
      intro before q hrows h
      obtain ⟨q1, hq1, h1⟩ := requestRow_spec h (hrows r mem_cons_self)
      obtain ⟨q2, hq2, h2⟩ := ih _ q1 (fun r' hr' => hrows r' (mem_cons_of_mem _ hr')) h1
      refine ⟨q2, ?_, ?_⟩
      · rw [foldlM_cons, hq1]
        exact hq2
      · rwa [append_assoc] at h2
  refine hrun _ staged q (fun r hr => ?_) h
  obtain ⟨i, j, hj, rfl⟩ := mem_requests hr
  exact hashRows_lt _ _ _ hj

end Ple

end FreeToken
