import FreeToken.Checkpoint.Ftw

/-!
# What the writer of a checkpoint leaves behind

The region is cut into parts, one for each shard.

* `Holds`: the state of the writer, given the parts that are closed and the one that is open.
* `Written`: the region of the tensors that were added, and their entries.
* `writeFtw_spec`: a checkpoint of any tensors is written.
-/

namespace FreeToken

open List

variable {L rounds : ℕ} {done parts : List Bytes} {cur data : Bytes}

namespace Ftw

/-! ### Alignment -/

theorem alignUp_mod (n : ℕ) : alignUp n % align = 0 := Nat.mul_mod_left _ _

theorem le_alignUp (n : ℕ) : n ≤ alignUp n := by
  unfold alignUp align
  omega

theorem alignUp_le {n m : ℕ} (hm : m % align = 0) (h : n ≤ m) : alignUp n ≤ m := by
  unfold alignUp
  unfold align at *
  omega

theorem alignUp_add {a n : ℕ} (ha : a % align = 0) : alignUp (a + n) - (a + n) = alignUp n - n := by
  unfold alignUp
  unfold align at *
  omega

theorem length_flatten_mod (h : ∀ part ∈ parts, part.length % align = 0) :
    parts.flatten.length % align = 0 := by
  induction parts with
  | nil => rfl
  | cons part parts ih =>
    have hpart := h part mem_cons_self
    have hrest := ih fun p hp => h p (mem_cons_of_mem _ hp)
    rw [flatten_cons, length_append]
    unfold align at *
    omega

/-! ### The names of the shards -/

theorem shardFmt_injective : Function.Injective shardFmt := by
  intro i j h
  have hdigits := append_cancel_left (append_cancel_right h)
  have hvalue := congrArg (Nat.ofDigitChars 10 · 0) hdigits
  simp only [Nat.ofDigitChars_append, Nat.ofDigitChars_replicate_zero, Nat.mul_zero,
    Nat.ofDigitChars_ten_toDigits] at hvalue
  exact hvalue

/-! ### Parts -/

/-- The shards of some parts, from a number and an offset on. -/
def layout : ℕ → ℕ → List Bytes → List Shard
  | _, _, [] => []
  | k, s, part :: parts => ⟨shardFmt k, s, part.length⟩ :: layout (k + 1) (s + part.length) parts

theorem layout_append (k s : ℕ) (parts : List Bytes) (part : Bytes) :
    layout k s (parts ++ [part]) = layout k s parts ++
        [⟨shardFmt (k + parts.length), s + parts.flatten.length, part.length⟩] := by
  induction parts generalizing k s with
  | nil => rfl
  | cons first parts ih =>
    rw [cons_append, layout, ih, layout, cons_append, flatten_cons, length_append, length_cons,
      add_assoc, add_assoc, add_comm 1]

/-- A range of the region that is in one part. -/
def InOne (parts : List Bytes) (a b : ℕ) : Prop :=
  ∃ front part back, parts = front ++ part :: back ∧ front.flatten.length ≤ a ∧
    b ≤ front.flatten.length + part.length

theorem InOne.append {parts : List Bytes} {a b : ℕ} (h : InOne parts a b) (more : List Bytes) :
    InOne (parts ++ more) a b := by
  obtain ⟨front, part, back, rfl, ha, hb⟩ := h
  exact ⟨front, part, back ++ more, by simp, ha, hb⟩

theorem InOne.extend {a b : ℕ} (h : InOne (done ++ [cur]) a b) (data : Bytes) :
    InOne (done ++ [cur ++ data]) a b := by
  obtain ⟨front, part, back, heq, ha, hb⟩ := h
  rcases append_eq_append_iff.mp heq with ⟨mid, rfl, hmid⟩ | ⟨mid, rfl, hmid⟩
  · -- the part is the last one
    cases mid with
    | nil =>
      obtain ⟨rfl, rfl⟩ := List.cons.inj hmid
      refine ⟨done, cur ++ data, [], rfl, ?_, ?_⟩
      · rwa [append_nil] at ha
      · rw [append_nil] at hb
        rw [length_append]
        omega
    | cons x mid =>
      obtain ⟨-, hnil⟩ := List.cons.inj hmid
      exact absurd hnil.symm (by simp)
  · cases mid with
    | nil =>
      obtain ⟨rfl, rfl⟩ := List.cons.inj hmid
      refine ⟨front, part ++ data, [], by rw [append_nil], ha, ?_⟩
      rw [length_append]
      omega
    | cons x mid =>
      obtain ⟨rfl, rfl⟩ := List.cons.inj hmid
      exact ⟨front, part, mid ++ [cur ++ data], by simp, ha, hb⟩

/-! ### The state of the writer -/

/-- The parts that are closed, and the one that is open. -/
structure Holds (w : FTWWriter) (done : List Bytes) (last : Bytes) : Prop where
  f : w.f = some (shardFmt done.length)
  shardIdx : w.shardIdx = done.length
  shards : w.shards = layout 0 0 done
  shardStart : w.shardStart = done.flatten.length
  cur : w.cur = last.length
  global : w.global = (done ++ [last]).flatten.length
  dir : ∀ i part, (done ++ [last])[i]? = some part → w.dir (shardFmt i) = some part

namespace Holds

variable {w : FTWWriter} {done : List Bytes} {cur : Bytes}

theorem closed (h : Holds w done cur) : w.closed = layout 0 0 (done ++ [cur]) := by
  unfold FTWWriter.closed
  rw [h.f, h.shards, h.shardIdx, h.shardStart, h.cur, layout_append, zero_add, zero_add]
  rfl

/-- A new shard is opened: no earlier file has its name. -/
theorem roll (h : Holds w done cur) : Holds w.roll (done ++ [cur]) [] := by
  have hlen : (done ++ [cur]).length = done.length + 1 := length_append
  have hidx : (w.shardIdx + 1).toNat = (done ++ [cur]).length := by
    rw [h.shardIdx, hlen]
    omega
  refine ⟨?_, ?_, h.closed, h.global, rfl, ?_, fun i part hpart => ?_⟩
  · show some (shardFmt (w.shardIdx + 1).toNat) = _
    rw [hidx]
  · show w.shardIdx + 1 = _
    rw [h.shardIdx, hlen]
    omega
  · show w.global = _
    rw [h.global, flatten_concat (L := done ++ [cur]), append_nil]
  · show Function.update w.dir (shardFmt (w.shardIdx + 1).toNat) (some []) (shardFmt i) = _
    rw [hidx]
    by_cases hi : i < (done ++ [cur]).length
    · rw [getElem?_append_left hi] at hpart
      rw [Function.update_of_ne fun heq => hi.ne (shardFmt_injective heq)]
      exact h.dir i part hpart
    · have hlast : i = (done ++ [cur]).length := by
        have hlt := (List.getElem?_eq_some_iff.mp hpart).1
        rw [length_append, length_singleton] at hlt
        omega
      rw [hlast, getElem?_concat_length] at hpart
      rw [hlast, Function.update_self, hpart]

theorem write (h : Holds w done cur) (data : Bytes) : Holds (w.write data) done (cur ++ data) := by
  refine ⟨h.f, h.shardIdx, h.shards, h.shardStart, ?_, ?_, fun i part hpart => ?_⟩
  · show w.cur + data.length = _
    rw [h.cur, length_append]
  · show w.global + data.length = _
    rw [h.global, flatten_append, flatten_append, flatten_singleton, flatten_singleton,
      ← append_assoc, ← length_append]
  · show (if w.f = some (shardFmt i) then (w.dir (shardFmt i)).map (· ++ data)
        else w.dir (shardFmt i)) = _
    rw [h.f]
    by_cases hi : i < done.length
    · rw [if_neg fun heq => hi.ne (shardFmt_injective (Option.some.inj heq)).symm]
      rw [getElem?_append_left hi] at hpart
      refine h.dir i part ?_
      rw [getElem?_append_left hi, hpart]
    · have hlast : i = done.length := by
        have hlt := (List.getElem?_eq_some_iff.mp hpart).1
        rw [length_append, length_singleton] at hlt
        omega
      rw [hlast, getElem?_concat_length] at hpart
      rw [hlast, if_pos rfl, h.dir done.length cur getElem?_concat_length, ← Option.some.inj hpart]
      rfl

end Holds

theorem holds_roll_first {w : FTWWriter} (hf : w.f = none) (hidx : w.shardIdx = -1)
    (hshards : w.shards = []) (hglobal : w.global = 0) : Holds w.roll [] [] := by
  have hzero : (w.shardIdx + 1).toNat = 0 := by rw [hidx]; rfl
  refine ⟨?_, ?_, ?_, hglobal, rfl, hglobal, fun i part hpart => ?_⟩
  · show some (shardFmt (w.shardIdx + 1).toNat) = _
    rw [hzero]
    rfl
  · show w.shardIdx + 1 = _
    rw [hidx]
    rfl
  · show w.closed = _
    unfold FTWWriter.closed
    rw [hf, hshards]
    rfl
  · show Function.update w.dir (shardFmt (w.shardIdx + 1).toNat) (some []) (shardFmt i) = _
    have hi : i = 0 := by
      have hlt := (List.getElem?_eq_some_iff.mp hpart).1
      rw [nil_append, length_singleton] at hlt
      omega
    rw [hi] at hpart
    rw [hzero, hi, Function.update_self, ← Option.some.inj hpart]

/-! ### Writing bytes -/

/-- What bytes do to the parts: the region grows by them, full parts are closed, and what was in one
part stays in one. -/
structure Grown (L : ℕ) (done : List Bytes) (cur data : Bytes) (done' : List Bytes) (cur' : Bytes) :
    Prop where
  flatten : (done' ++ [cur']).flatten = (done ++ [cur]).flatten ++ data
  length : ∀ part ∈ done', part ∈ done ∨ part.length = L
  cur_le : cur'.length ≤ L
  inOne : ∀ a b, InOne (done ++ [cur]) a b → InOne (done' ++ [cur']) a b

theorem Grown.refl (hcur : cur.length ≤ L) : Grown L done cur [] done cur :=
  ⟨(append_nil _).symm, fun _ h => Or.inl h, hcur, fun _ _ h => h⟩

theorem Grown.write (h : (cur ++ data).length ≤ L) :
    Grown L done cur data done (cur ++ data) := by
  refine ⟨?_, fun _ hp => Or.inl hp, h, fun _ _ hone => hone.extend data⟩
  rw [flatten_append, flatten_append, flatten_singleton, flatten_singleton, append_assoc]

theorem Grown.roll (hcur : cur.length = L) :
    Grown L done cur [] (done ++ [cur]) [] := by
  refine ⟨?_, fun part hp => ?_, Nat.zero_le _, fun a b hone => hone.append [[]]⟩
  · rw [flatten_append, flatten_singleton]
  · rcases mem_append.mp hp with hp | hp
    · exact Or.inl hp
    · exact Or.inr (mem_singleton.mp hp ▸ hcur)

theorem Grown.trans {done' done'' : List Bytes} {cur' cur'' data' : Bytes}
    (h : Grown L done cur data done' cur') (h' : Grown L done' cur' data' done'' cur'') :
    Grown L done cur (data ++ data') done'' cur'' := by
  refine ⟨?_, fun part hp => ?_, h'.cur_le, fun a b hone => h'.inOne a b (h.inOne a b hone)⟩
  · rw [h'.flatten, h.flatten, append_assoc]
  · rcases h'.length part hp with hp | hp
    · exact h.length part hp
    · exact Or.inr hp

variable {w : FTWWriter} {done : List Bytes} {cur data : Bytes}

/-- The loop writes everything, when a shard can hold something. -/
theorem writeLoop_spec (hL : 0 < L) (hdata : data.length ≤ rounds) (h : Holds w done cur)
    (hlimit : w.shardLimit = L) (hcur : cur.length ≤ L) :
    ∃ w' done' cur', FTWWriter.writeLoop rounds data w = some w' ∧ Holds w' done' cur' ∧
      Grown L done cur data done' cur' ∧ w'.shardLimit = L ∧ w'.tensors = w.tensors := by
  induction rounds generalizing w done cur data with
  | zero =>
    obtain rfl := eq_nil_of_length_eq_zero (Nat.le_zero.mp hdata)
    exact ⟨w, done, cur, rfl, h, .refl hcur, hlimit, rfl⟩
  | succ rounds ih =>
    by_cases hnil : data = []
    · refine ⟨w, done, cur, ?_, h, ?_, hlimit, rfl⟩
      · rw [FTWWriter.writeLoop, if_pos hnil]
      · rw [hnil]
        exact .refl hcur
    · -- the shard that the bytes go to has room
      have hroom :
          ∃ w1 done1 cur1, (if w.cur = w.shardLimit then w.roll else w) = w1 ∧ Holds w1 done1 cur1 ∧
          Grown L done cur [] done1 cur1 ∧ cur1.length < L ∧ w1.shardLimit = L ∧
            w1.tensors = w.tensors := by
        by_cases hfull : w.cur = w.shardLimit
        · have hlen : cur.length = L := by rw [← h.cur, hfull, hlimit]
          exact ⟨w.roll, _, _, if_pos hfull, h.roll, .roll hlen, hL, hlimit, rfl⟩
        · have hlt : cur.length < L := by
            rw [h.cur, hlimit] at hfull
            omega
          exact ⟨w, _, _, if_neg hfull, h, .refl hcur, hlt, hlimit, rfl⟩
      obtain ⟨w1, done1, cur1, hw1, hholds1, hgrown1, hlt1, hlimit1, htensors1⟩ := hroom
      have hpos : 0 < data.length := length_pos_of_ne_nil hnil
      have hle : (cur1 ++ data.take (min data.length (L - cur1.length))).length ≤ L := by
        rw [length_append, length_take]
        omega
      have hdrop : (data.drop (min data.length (L - cur1.length))).length ≤ rounds := by
        rw [length_drop]
        omega
      obtain ⟨w', done', cur', hloop, hholds, hgrown, hlimit', htensors⟩ :=
        ih hdrop (hholds1.write (data.take (min data.length (L - cur1.length)))) hlimit1 hle
      refine ⟨w', done', cur', ?_, hholds, ?_, hlimit', htensors.trans htensors1⟩
      · rw [FTWWriter.writeLoop, if_neg hnil]
        dsimp only
        rw [hw1, hlimit1, hholds1.cur]
        exact hloop
      · have hall := (hgrown1.trans (.write hle)).trans hgrown
        rwa [nil_append, take_append_drop] at hall

theorem writeLoop_fits (hne : data ≠ []) (hdata : data.length ≤ rounds) (h : Holds w done cur)
    (hfits : cur.length + data.length ≤ w.shardLimit) :
    FTWWriter.writeLoop rounds data w = some (w.write data) := by
  have hpos : 0 < data.length := length_pos_of_ne_nil hne
  have hnotfull : w.cur ≠ w.shardLimit := by
    rw [h.cur]
    omega
  have htake : min data.length (w.shardLimit - w.cur) = data.length := by
    rw [h.cur]
    omega
  cases rounds with
  | zero => omega
  | succ rounds =>
    rw [FTWWriter.writeLoop, if_neg hne, if_neg hnotfull]
    dsimp only
    rw [htake, take_length, drop_length]
    cases rounds <;> rfl

theorem writeRaw_spec (hL : 0 < L) (hne : data ≠ []) (h : Holds w done cur)
    (hlimit : w.shardLimit = L) (hcur : cur.length ≤ L) :
    ∃ w' done' cur', w.writeRaw data = some w' ∧ Holds w' done' cur' ∧
      Grown L done cur data done' cur' ∧
      w'.shardLimit = L ∧ w'.tensors = w.tensors ∧
      (cur.length + data.length ≤ L → done' = done ∧ cur' = cur ++ data) := by
  have hopen : (if w.f.isNone then w.roll else w) = w := by
    rw [h.f]
    rfl
  unfold FTWWriter.writeRaw
  rw [hopen]
  by_cases hfits : cur.length + data.length ≤ L
  · refine ⟨w.write data, done, cur ++ data, ?_, h.write data, .write ?_, hlimit, rfl, fun _ =>
      ⟨rfl, rfl⟩⟩
    · exact writeLoop_fits hne le_rfl h (hlimit.symm ▸ hfits)
    · rwa [length_append]
  · obtain ⟨w', done', cur', hloop, hholds, hgrown, hlimit', htensors⟩ :=
      writeLoop_spec hL le_rfl h hlimit hcur
    exact ⟨w', done', cur', hloop, hholds, hgrown, hlimit', htensors, fun h => absurd h hfits⟩

/-! ### Tensors -/

variable {elsize : Text → ℕ}

/-- The bytes of a tensor, up to the next aligned offset. -/
def padded (raw : Bytes) : Bytes := raw ++ replicate (alignUp raw.length - raw.length) 0

theorem length_padded (raw : Bytes) : (padded raw).length = alignUp raw.length := by
  have hle := le_alignUp raw.length
  unfold padded
  rw [length_append, length_replicate]
  omega

def regionOf (tensors : List (Tensor elsize)) : Bytes := tensors.flatMap fun t => padded t.raw

theorem regionOf_append (tensors : List (Tensor elsize)) (t : Tensor elsize) :
    regionOf (tensors ++ [t]) = regionOf tensors ++ padded t.raw := by
  unfold regionOf
  rw [flatMap_append, flatMap_singleton]

def entryOf (t : Tensor elsize) (globalOff : ℕ) : TensorEntry :=
  ⟨t.name, t.kind, t.dtype, t.shape, globalOff, t.raw.length⟩

/-- The entries of some tensors, from an offset on. -/
def entriesFrom : ℕ → List (Tensor elsize) → List TensorEntry
  | _, [] => []
  | off, t :: tensors => entryOf t off :: entriesFrom (off + (padded t.raw).length) tensors

theorem entriesFrom_append (off : ℕ) (tensors : List (Tensor elsize)) (t : Tensor elsize) :
    entriesFrom off (tensors ++ [t]) = entriesFrom off tensors ++
      [entryOf t (off + (regionOf tensors).length)] := by
  induction tensors generalizing off with
  | nil => rfl
  | cons first tensors ih =>
    rw [cons_append, entriesFrom, ih, entriesFrom, cons_append]
    unfold regionOf
    rw [flatMap_cons, length_append, add_assoc]

structure Fresh (w : FTWWriter) : Prop where
  f : w.f = none
  shardIdx : w.shardIdx = -1
  shards : w.shards = []
  global : w.global = 0

/-- The tensors that were added, and the parts that their region is cut into. -/
structure Written (L : ℕ) (tensors : List (Tensor elsize)) (w : FTWWriter) (parts : List Bytes) :
    Prop where
  state : Fresh w ∧ parts = [] ∨ ∃ done cur, Holds w done cur ∧ parts = done ++ [cur]
  limit : w.shardLimit = L
  region : parts.flatten = regionOf tensors
  entries : w.tensors = entriesFrom 0 tensors
  length : ∀ part ∈ parts, part.length ≤ L ∧ part.length % align = 0
  inOne : ∀ e ∈ w.tensors, e.nbytes ≤ L → InOne parts e.globalOff (e.globalOff + e.nbytes)

variable {tensors : List (Tensor elsize)}

/-- The shard that a tensor is written to is open, and a tensor that fits into a shard fits into
this one. -/
theorem open_spec (h : Written L tensors w parts)
    (nbytes : ℕ) :
    ∃ done cur, Holds
      (if w.f.isNone ∨ nbytes ≤ w.shardLimit ∧ w.shardLimit < w.cur + nbytes then w.roll else w)
      done cur ∧
      (done ++ [cur]).flatten = parts.flatten ∧
      (∀ part ∈ done ++ [cur], part.length ≤ L ∧ part.length % align = 0) ∧
      (∀ a b, InOne parts a b → InOne (done ++ [cur]) a b) ∧
      (nbytes ≤ L → cur.length + nbytes ≤ L) := by
  have hempty : ∀ part ∈ parts ++ [[]], part.length ≤ L ∧ part.length % align = 0 := by
    intro part hpart
    rcases mem_append.mp hpart with hpart | hpart
    · exact h.length part hpart
    · rw [mem_singleton.mp hpart]
      exact ⟨Nat.zero_le L, rfl⟩
  have hflatten : (parts ++ [[]]).flatten = parts.flatten := by rw [flatten_concat, append_nil]
  rcases h.state with ⟨hfresh, rfl⟩ | ⟨done, cur, hholds, rfl⟩
  · refine ⟨[], [], ?_, hflatten, hempty, fun a b hone => hone.append [[]], fun hle => ?_⟩
    · rw [if_pos (Or.inl (by rw [hfresh.f]; rfl))]
      exact holds_roll_first hfresh.f hfresh.shardIdx hfresh.shards hfresh.global
    · rwa [length_nil, zero_add]
  · by_cases hroll : nbytes ≤ w.shardLimit ∧ w.shardLimit < w.cur + nbytes
    · refine ⟨done ++ [cur], [], ?_, hflatten, hempty, fun a b hone => hone.append [[]], fun hle =>
        ?_⟩
      · rw [if_pos (Or.inr hroll)]
        exact hholds.roll
      · rwa [length_nil, zero_add]
    · refine ⟨done, cur, ?_, rfl, h.length, fun a b hone => hone, fun hle => ?_⟩
      · rw [if_neg]
        · exact hholds
        · rintro (hnone | hfits)
          · rw [hholds.f] at hnone
            exact absurd hnone Bool.false_ne_true
          · exact hroll hfits
      · rw [h.limit, hholds.cur] at hroll
        omega

theorem pad_spec (hL : 0 < L) (hLalign : L % align = 0) (h : Holds w done cur)
    (hlimit : w.shardLimit = L)
    (hcur : cur.length ≤ L) (hdone : ∀ part ∈ done, part.length % align = 0) :
    ∃ w' cur', (if alignUp w.global - w.global ≠ 0 then
        w.writeRaw (replicate (alignUp w.global - w.global) 0) else some w) = some w' ∧
          Holds w' done cur' ∧
      Grown L done cur (replicate (alignUp w.global - w.global) 0) done cur' ∧
        cur'.length % align = 0 ∧
      w'.shardLimit = L ∧ w'.tensors = w.tensors := by
  have hsum : w.global = done.flatten.length + cur.length := by
    rw [h.global, flatten_concat, length_append]
  have hfront := length_flatten_mod hdone
  have hup := le_alignUp w.global
  have hmod := alignUp_mod w.global
  have hroom : cur.length + (alignUp w.global - w.global) ≤ L := by
    have hle : alignUp w.global ≤ done.flatten.length + L := by
      apply alignUp_le
      · unfold align at *
        omega
      · omega
    omega
  have hend : (cur.length + (alignUp w.global - w.global)) % align = 0 := by
    unfold align at *
    omega
  by_cases hpad : alignUp w.global - w.global = 0
  · refine ⟨w, cur, if_neg (not_not.mpr hpad), h, ?_, ?_, hlimit, rfl⟩
    · rw [hpad]
      exact .refl hcur
    · rwa [hpad] at hend
  · have hlen :
        (replicate (alignUp w.global - w.global) (0 : UInt8)).length = alignUp w.global -
        w.global :=
      length_replicate
    have hne : replicate (alignUp w.global - w.global) (0 : UInt8) ≠ [] := by
      intro hnil
      rw [hnil] at hlen
      exact hpad hlen.symm
    obtain ⟨w', done', cur', hwrite, hholds, hgrown, hlimit', htensors, hone⟩ :=
      writeRaw_spec hL hne h hlimit hcur
    obtain ⟨rfl, rfl⟩ := hone (by rwa [hlen])
    refine ⟨w', _, (if_pos hpad).trans hwrite, hholds, hgrown, ?_, hlimit', htensors⟩
    rwa [length_append, hlen]

theorem addTensor_spec (hL : 0 < L) (hLalign : L % align = 0) (h : Written L tensors w parts)
    {t : Tensor elsize} (hne : t.raw ≠ []) :
    ∃ w' parts', w.addTensor t = some w' ∧ Written L (tensors ++ [t]) w' parts' := by
  obtain ⟨done, cur, hholds, hflatten, hlength, hmono, hfits⟩ := open_spec h t.raw.length
  have haligned : (done ++ [cur]).flatten.length % align = 0 :=
    length_flatten_mod fun part hp => (hlength part hp).2
  have hcur : cur.length ≤ L := (hlength cur (mem_append_right _ mem_cons_self)).1
  have hsame :
      (if w.f.isNone ∨ t.raw.length ≤ w.shardLimit ∧ w.shardLimit < w.cur + t.raw.length then w.roll
      else w).shardLimit = L ∧
        (if w.f.isNone ∨ t.raw.length ≤ w.shardLimit ∧ w.shardLimit < w.cur + t.raw.length then
        w.roll else w).tensors = w.tensors := by
    split
    · exact ⟨h.limit, rfl⟩
    · exact ⟨h.limit, rfl⟩
  unfold FTWWriter.addTensor
  dsimp only
  generalize
    (if w.f.isNone ∨ t.raw.length ≤ w.shardLimit ∧ w.shardLimit < w.cur + t.raw.length then w.roll
    else w) = w0 at *
  obtain ⟨w1, done1, cur1, hwrite1, hholds1, hgrown1, hlimit1, htensors1, hone1⟩ :=
    writeRaw_spec hL hne hholds hsame.1 hcur
  -- the parts that are closed are aligned
  have hdone1 : ∀ part ∈ done1, part.length ≤ L ∧ part.length % align = 0 := by
    intro part hpart
    rcases hgrown1.length part hpart with hpart | hpart
    · exact hlength part (mem_append_left _ hpart)
    · rw [hpart]
      exact ⟨le_rfl, hLalign⟩
  have hentry : Holds { w1 with tensors := w1.tensors ++ [entryOf t w0.global] } done1 cur1 :=
    ⟨hholds1.f, hholds1.shardIdx, hholds1.shards, hholds1.shardStart, hholds1.cur, hholds1.global,
      hholds1.dir⟩
  obtain ⟨w2, cur2, hpad, hholds2, hgrown2, hmod2, hlimit2, htensors2⟩ :=
    pad_spec hL hLalign hentry hlimit1 hgrown1.cur_le fun part hp => (hdone1 part hp).2
  have hstart : w0.global = (regionOf tensors).length := by rw [hholds.global, hflatten, h.region]
  have htensors : w2.tensors = entriesFrom 0 (tensors ++ [t]) := by
    rw [htensors2, entriesFrom_append, zero_add, ← h.entries, ← hstart, ← hsame.2, ← htensors1]
  have hglobal1 : w1.global = w0.global + t.raw.length := by
    rw [hholds1.global, hgrown1.flatten, length_append, hholds.global]
  have hregion : (done1 ++ [cur2]).flatten = regionOf (tensors ++ [t]) := by
    rw [hgrown2.flatten, hgrown1.flatten, hflatten, h.region, regionOf_append, append_assoc]
    have hpadding : alignUp w1.global - w1.global = alignUp t.raw.length - t.raw.length := by
      rw [hglobal1]
      exact alignUp_add (by rwa [hholds.global])
    unfold padded
    rw [← hpadding]
  refine ⟨w2, done1 ++ [cur2], ?_, Or.inr ⟨done1, cur2, hholds2, rfl⟩, hlimit2, hregion, htensors,
    ?_, ?_⟩
  · rw [if_pos (by rwa [hholds.global]), hwrite1, Option.bind_eq_bind, Option.bind_some]
    exact hpad
  · intro part hpart
    rcases mem_append.mp hpart with hpart | hpart
    · exact hdone1 part hpart
    · rw [mem_singleton.mp hpart]
      exact ⟨hgrown2.cur_le, hmod2⟩
  · intro e he hle
    rw [htensors2] at he
    rcases mem_append.mp he with he | he
    · rw [htensors1, hsame.2] at he
      exact hgrown2.inOne _ _ (hgrown1.inOne _ _ (hmono _ _ (h.inOne e he hle)))
    · rw [mem_singleton.mp he] at hle ⊢
      obtain ⟨rfl, rfl⟩ := hone1 (hfits hle)
      have hsum : w0.global = done1.flatten.length + cur.length := by
        rw [hholds.global, flatten_concat, length_append]
      refine hgrown2.inOne _ _ ⟨done1, cur ++ t.raw, [], rfl, ?_, ?_⟩
      · show done1.flatten.length ≤ w0.global
        omega
      · show w0.global + t.raw.length ≤ _
        rw [length_append]
        omega

/-- **A checkpoint of any tensors is written.**  The shards are the parts that the region is cut
into. -/
theorem writeFtw_spec (hL : 0 < L) (hLalign : L % align = 0) (dir : Dir)
    (hne : ∀ t ∈ tensors, t.raw ≠ []) (layers : Option ℕ) :
    ∃ parts dir', writeFtw dir L tensors layers =
      some (⟨formatTag, L, (regionOf tensors).length, entriesFrom 0 tensors,
        layout 0 0 parts, layers⟩, dir') ∧
      (∀ i part, parts[i]? = some part → dir' (shardFmt i) = some part) ∧
      parts.flatten = regionOf tensors ∧
      (∀ part ∈ parts, part.length ≤ L ∧ part.length % align = 0) ∧
      ∀ e ∈ entriesFrom 0 tensors, e.nbytes ≤ L →
        InOne parts e.globalOff (e.globalOff + e.nbytes) := by
  -- every tensor is added to what was written before
  have hrun :
      ∀ (rest before : List (Tensor elsize)) (w : FTWWriter)
      (parts : List Bytes), (∀ t ∈ rest, t.raw ≠ []) →
      Written L before w parts →
      ∃ w' parts', rest.foldlM FTWWriter.addTensor w = some w' ∧
        Written L (before ++ rest) w' parts' := by
    intro rest
    induction rest with
    | nil =>
      intro before w parts _ h
      refine ⟨w, parts, rfl, ?_⟩
      rwa [append_nil]
    | cons t rest ih =>
      intro before w parts hrest h
      obtain ⟨w1, parts1, hadd, h1⟩ := addTensor_spec hL hLalign h (hrest t mem_cons_self)
      obtain ⟨w2, parts2, hfold, h2⟩ :=
        ih _ w1 parts1 (fun t' ht => hrest t' (mem_cons_of_mem _ ht)) h1
      refine ⟨w2, parts2, ?_, ?_⟩
      · rw [foldlM_cons, hadd]
        exact hfold
      · rwa [append_assoc] at h2
  have hfresh : Written L ([] : List (Tensor elsize)) ⟨L, [], [], 0, none, -1, 0, 0, dir⟩ [] :=
    ⟨Or.inl ⟨⟨rfl, rfl, rfl, rfl⟩, rfl⟩, rfl, rfl, rfl, fun _ h => absurd h not_mem_nil,
      fun _ h => absurd h not_mem_nil⟩
  obtain ⟨w, parts, hfold, h⟩ := hrun tensors [] _ [] hne hfresh
  rw [nil_append] at h
  have hindex :
      w.finalize layers =
      ⟨formatTag, L, (regionOf tensors).length, entriesFrom 0 tensors, layout 0 0 parts,
      layers⟩ ∧ ∀ i part, parts[i]? = some part → w.dir (shardFmt i) = some part := by
    unfold FTWWriter.finalize
    rw [h.limit, h.entries]
    rcases h.state with ⟨hstate, rfl⟩ | ⟨done, cur, hholds, rfl⟩
    · refine ⟨?_, fun i part hpart => absurd hpart (by simp)⟩
      have hclosed : w.closed = [] := by
        unfold FTWWriter.closed
        rw [hstate.f, hstate.shards]
        rfl
      rw [hstate.global, hclosed, ← h.region]
      rfl
    · refine ⟨?_, hholds.dir⟩
      rw [hholds.global, hholds.closed, h.region]
  refine ⟨parts, w.dir, ?_, hindex.2, h.region, h.length, h.entries ▸ h.inOne⟩
  unfold writeFtw FTWWriter.init
  rw [if_pos hLalign, Option.bind_eq_bind, Option.bind_some, hfold, Option.bind_some, hindex.1]
  rfl

end Ftw

end FreeToken
