import FreeToken.KvCache.SWARadixCache
import FreeToken.KvCache.Equiv.RadixTreeEvict

/-!
# The window locks of `SWARadixCache`

* `SwaLock`: an outstanding lock, with the start of the window it pinned when it was taken.
* `SwaInv`: reference counts are numbers of locks, size counters are sums over the nodes, and the
  window boundary of every lock is still marked by its `swa_uuid`.
* `SwaInv.setNode`, `SwaInv.splitNode`, `SwaInv.link`, `SwaInv.unlinkNode`: tree surgery keeps it.
* `SwaInv.incLock`, `SwaInv.decLock`: taking and releasing a lock keeps it.
-/

namespace FreeToken

open TrieEdge RadixTreeNode SWARadixCache

/-- The start of the window that a lock pins: the shortest run of whole nodes, counted from the
lower end of the path, that holds `window` live tokens, or the whole path. -/
def windowStart (window : ℕ) : List RadixTreeNode → ℕ → ℕ
  | [], _ => 0
  | n :: ns, locked =>
    if n.swaTombstone then windowStart window ns locked
    else if window ≤ locked + n.length then n.start.length
    else windowStart window ns (locked + n.length)

/-- An outstanding lock: its node, the `swa_uuid` that taking it returned, and where the window it
pinned starts. -/
structure SwaLock where
  node : Path
  swaUuid : Option ℕ
  windowStart : ℕ
deriving DecidableEq, Repr

/-- The window part of a lock covers a node: a live node of the path inside the window. -/
def SwaLock.Covers (L : SwaLock) (n : RadixTreeNode) : Prop :=
  stop n <+: L.node ∧ L.windowStart ≤ n.start.length ∧ n.swaTombstone = false

instance (L : SwaLock) (n : RadixTreeNode) : Decidable (L.Covers n) :=
  inferInstanceAs (Decidable (_ ∧ _))

/-- The number of locks whose window part covers a node. -/
def swaLockCount (locks : List SwaLock) (n : RadixTreeNode) : ℤ :=
  (locks.countP fun L => L.Covers n : ℕ)

/-- The tokens of a node whose window copy may be evicted. -/
def swaEvictableTokens (n : RadixTreeNode) : ℤ :=
  if n.swaTombstone = false ∧ n.swaRefCount = 0 then (n.length : ℤ) else 0

/-- The tokens of a node whose window copy some lock protects. -/
def swaProtectedTokens (n : RadixTreeNode) : ℤ :=
  if n.swaTombstone = false ∧ n.swaRefCount ≠ 0 then (n.length : ℤ) else 0

/-- The window boundary of a lock is where its `swa_uuid` is. -/
def Marked (nodes : List RadixTreeNode) (L : SwaLock) : Prop :=
  match L.swaUuid with
  | none => L.windowStart = 0
  | some u => ∃ m ∈ nodes, m.swaUuid = some u ∧ stop m <+: L.node ∧
      m.start.length = L.windowStart ∧ m.swaTombstone = false

/-- The boundary marks of a tree: fresh ones are above the counter, no two nodes share one, and
every outstanding lock finds its own. -/
structure UuidInv (locks : List SwaLock) (nodes : List RadixTreeNode) (uuid : ℕ) : Prop where
  le : ∀ n ∈ nodes, ∀ u, n.swaUuid = some u → u ≤ uuid
  inj : ∀ n ∈ nodes, ∀ m ∈ nodes, ∀ u, n.swaUuid = some u → m.swaUuid = some u → n = m
  marked : ∀ L ∈ locks, Marked nodes L

/-- The invariant of a sliding-window tree with outstanding locks `locks`. -/
structure SwaInv (ps : ℕ) (locks : List SwaLock) (nodes : List RadixTreeNode) (full swa : KvSizes)
    (uuid : ℕ) : Prop where
  kv : KvInv ps (locks.map SwaLock.node) nodes full
  swaRef : ∀ n ∈ nodes, n.swaRefCount = swaLockCount locks n
  evictable : swa.evictable = total swaEvictableTokens nodes
  protectedSize : swa.protectedSize = total swaProtectedTokens nodes
  uuids : UuidInv locks nodes uuid

theorem swaInv_nil {ps : ℕ} (hps : 0 < ps) : SwaInv ps [] [] {} {} 0 where
  kv := kvInv_nil hps
  swaRef := by simp
  evictable := rfl
  protectedSize := rfl
  uuids := ⟨by simp, by simp, by simp⟩

/-! ### Counting locks -/

theorem swaLockCount_nonneg (locks : List SwaLock) (n : RadixTreeNode) : 0 ≤ swaLockCount locks n :=
  Int.natCast_nonneg _

variable {n : RadixTreeNode} {locks : List SwaLock}

theorem swaLockCount_eq_zero :
    swaLockCount locks n = 0 ↔ ∀ L ∈ locks, ¬L.Covers n := by
  unfold swaLockCount
  rw [Int.natCast_eq_zero, List.countP_eq_zero]
  simp

variable {L : SwaLock}

theorem swaLockCount_pos (hL : L ∈ locks)
    (hc : L.Covers n) : 0 < swaLockCount locks n :=
  lt_of_le_of_ne (swaLockCount_nonneg _ _) fun h0 => swaLockCount_eq_zero.mp h0.symm L hL hc

variable {m : RadixTreeNode}

theorem swaLockCount_congr
    (h : ∀ L ∈ locks, (L.Covers n ↔ L.Covers m)) : swaLockCount locks n = swaLockCount locks m := by
  unfold swaLockCount
  congr 1
  exact List.countP_congr fun L hL => by simpa using h L hL

theorem swaLockCount_cons (L : SwaLock) (locks : List SwaLock) (n : RadixTreeNode) :
    swaLockCount (L :: locks) n = swaLockCount locks n + if L.Covers n then 1 else 0 := by
  unfold swaLockCount
  rw [List.countP_cons]
  by_cases h : L.Covers n <;> simp [h]

theorem swaLockCount_erase (hL : L ∈ locks)
    (n : RadixTreeNode) :
    swaLockCount (locks.erase L) n = swaLockCount locks n - if L.Covers n then 1 else 0 := by
  have h := (List.perm_cons_erase hL).countP_eq (fun L => decide (L.Covers n))
  have hc := swaLockCount_cons L (locks.erase L) n
  unfold swaLockCount at hc ⊢
  rw [h, hc]
  ring

/-- A window reference is a reference. -/
theorem swaLockCount_le (locks : List SwaLock) (n : RadixTreeNode) :
    swaLockCount locks n ≤ lockCount (locks.map SwaLock.node) (stop n) := by
  unfold swaLockCount lockCount
  rw [List.countP_map]
  have : (locks.countP fun L => L.Covers n) ≤
      locks.countP ((fun q => decide (stop n <+: q)) ∘ SwaLock.node) :=
    List.countP_mono_left fun L _ hc => by
      have hc' : L.Covers n := by simpa using hc
      simpa using hc'.1
  omega

namespace SwaInv

variable {ps : ℕ} {locks : List SwaLock} {nodes : List RadixTreeNode} {full swa : KvSizes}
  {uuid : ℕ} {n n' : RadixTreeNode}

theorem wf (h : SwaInv ps locks nodes full swa uuid) : WF ps nodes := h.kv.wf

theorem swaRef_nonneg (h : SwaInv ps locks nodes full swa uuid) (hn : n ∈ nodes) :
    0 ≤ n.swaRefCount := by
  rw [h.swaRef n hn]
  exact swaLockCount_nonneg _ _

theorem swaRef_le (h : SwaInv ps locks nodes full swa uuid) (hn : n ∈ nodes) :
    n.swaRefCount ≤ n.refCount := by
  rw [h.swaRef n hn, h.kv.ref n hn]
  exact swaLockCount_le _ _

theorem swaRef_of_tombstone (h : SwaInv ps locks nodes full swa uuid) (hn : n ∈ nodes)
    (ht : n.swaTombstone = true) : n.swaRefCount = 0 := by
  rw [h.swaRef n hn, swaLockCount_eq_zero]
  rintro L _ ⟨-, -, hlive⟩
  rw [ht] at hlive
  exact absurd hlive (by decide)

theorem swaRef_of_unlocked (h : SwaInv ps locks nodes full swa uuid) (hn : n ∈ nodes)
    (h0 : n.refCount = 0) : n.swaRefCount = 0 :=
  le_antisymm (h0 ▸ h.swaRef_le hn) (h.swaRef_nonneg hn)

theorem not_prefix_of_unlocked (h : SwaInv ps locks nodes full swa uuid) (hn : n ∈ nodes)
    (h0 : n.refCount = 0) (hL : L ∈ locks) : ¬stop n <+: L.node := by
  rw [h.kv.ref n hn, lockCount_eq_zero] at h0
  exact h0 L.node (List.mem_map_of_mem hL)

theorem covers_of_marker (hpre : stop m <+: L.node)
    (hs : m.start.length = L.windowStart) (hlive : m.swaTombstone = false) : L.Covers m :=
  ⟨hpre, hs.ge, hlive⟩

/-! ### Surgery -/

/-- Overwriting a node that keeps its references.  Its tombstone may change only if it holds no
window reference or is unlocked. -/
theorem setNode (h : SwaInv ps locks nodes full swa uuid) (hn : n ∈ nodes)
    (hs : n'.start = n.start) (hk : n'.key = n.key) (hv : n'.value.length = n.value.length)
    (hr : n'.refCount = n.refCount) (hsr : n'.swaRefCount = n.swaRefCount)
    (hu : n'.swaUuid = n.swaUuid)
    (ht : n'.swaTombstone = n.swaTombstone ∨ n'.swaTombstone = true ∧ n.swaRefCount = 0 ∨
      n.refCount = 0) :
    SwaInv ps locks (setNode nodes n n') full
      { swa with evictable := swa.evictable - swaEvictableTokens n + swaEvictableTokens n' }
      uuid := by
  have hstop : stop n' = stop n := by simp [stop, hs, hk]
  have hlen : n'.length = n.length := congrArg List.length hk
  -- the locks cover the new node as they did the old one
  have hcov : ∀ L ∈ locks, (L.Covers n' ↔ L.Covers n) := by
    intro L hL
    rcases ht with ht | ⟨ht, h0⟩ | h0
    · simp [SwaLock.Covers, hstop, hs, ht]
    · rw [h.swaRef n hn, swaLockCount_eq_zero] at h0
      refine ⟨fun hc => ?_, fun hc => absurd hc (h0 L hL)⟩
      have := hc.2.2
      rw [ht] at this
      exact absurd this (by decide)
    · have hno := h.not_prefix_of_unlocked hn h0 hL
      exact ⟨fun hc => absurd (hstop ▸ hc.1) hno, fun hc => absurd hc.1 hno⟩
  have hprot : swaProtectedTokens n' = swaProtectedTokens n := by
    unfold swaProtectedTokens
    rw [hsr, hlen]
    rcases ht with ht | ⟨-, h0⟩ | h0
    · rw [ht]
    · simp [h0]
    · simp [h.swaRef_of_unlocked hn h0]
  refine ⟨h.kv.setNode hn hs hk hv hr, ?_, ?_, ?_, ?_, ?_, ?_⟩
  · intro m hm
    rcases (h.wf.mem_setNode hn).mp hm with rfl | ⟨hm, -⟩
    · rw [hsr, h.swaRef n hn]
      exact (swaLockCount_congr hcov).symm
    · exact h.swaRef m hm
  · rw [h.wf.total_setNode hn, h.evictable]
  · rw [h.wf.total_setNode hn, hprot, h.protectedSize]
    ring
  · intro m hm
    rcases (h.wf.mem_setNode hn).mp hm with rfl | ⟨hm, -⟩
    · rw [hu]
      exact h.uuids.le n hn
    · exact h.uuids.le m hm
  · -- two marked nodes: one of them may be the new one
    intro m hm k hk u hmu hku
    rcases (h.wf.mem_setNode hn).mp hm with rfl | ⟨hm', hmn⟩ <;>
      rcases (h.wf.mem_setNode hn).mp hk with rfl | ⟨hk', hkn⟩
    · rfl
    · exact absurd (h.uuids.inj n hn k hk' u (hu ▸ hmu) hku).symm hkn
    · exact absurd (h.uuids.inj m hm' n hn u hmu (hu ▸ hku)) hmn
    · exact h.uuids.inj m hm' k hk' u hmu hku
  · -- the marker of a lock may be the new node
    intro L hL
    have hold := h.uuids.marked L hL
    unfold Marked at hold ⊢
    cases huL : L.swaUuid with
    | none => simpa [huL] using hold
    | some u =>
      simp only [huL] at hold ⊢
      obtain ⟨m, hm, hmu, hpre, hst, hlive⟩ := hold
      by_cases hmn : m = n
      · subst hmn
        have hc := (hcov L hL).mpr (covers_of_marker hpre hst hlive)
        exact ⟨n', (h.wf.mem_setNode hn).mpr (Or.inl rfl), hu ▸ hmu, hstop ▸ hpre, hs ▸ hst, hc.2.2⟩
      · exact ⟨m, (h.wf.mem_setNode hn).mpr (Or.inr ⟨hm, hmn⟩), hmu, hpre, hst, hlive⟩

theorem swaEvictableTokens_splitAt (n : RadixTreeNode) (pos : ℕ) :
    swaEvictableTokens (n.splitAt pos).1 + swaEvictableTokens (n.splitAt pos).2 =
      swaEvictableTokens n := by
  have h := length_splitAt n pos
  have h₁ : (n.splitAt pos).1.swaTombstone = n.swaTombstone := rfl
  have h₂ : (n.splitAt pos).2.swaTombstone = n.swaTombstone := rfl
  have h₃ : (n.splitAt pos).1.swaRefCount = n.swaRefCount := rfl
  have h₄ : (n.splitAt pos).2.swaRefCount = n.swaRefCount := rfl
  unfold swaEvictableTokens
  rw [h₁, h₂, h₃, h₄]
  split <;> omega

theorem swaProtectedTokens_splitAt (n : RadixTreeNode) (pos : ℕ) :
    swaProtectedTokens (n.splitAt pos).1 + swaProtectedTokens (n.splitAt pos).2 =
      swaProtectedTokens n := by
  have h := length_splitAt n pos
  have h₁ : (n.splitAt pos).1.swaTombstone = n.swaTombstone := rfl
  have h₂ : (n.splitAt pos).2.swaTombstone = n.swaTombstone := rfl
  have h₃ : (n.splitAt pos).1.swaRefCount = n.swaRefCount := rfl
  have h₄ : (n.splitAt pos).2.swaRefCount = n.swaRefCount := rfl
  unfold swaProtectedTokens
  rw [h₁, h₂, h₃, h₄]
  split <;> omega

theorem windowStart_le_of_lt (h : SwaInv ps locks nodes full swa uuid) (hL : L ∈ locks)
    (hn : n ∈ nodes) (hpre : stop n <+: L.node) (hlt : L.windowStart < (stop n).length) :
    L.windowStart ≤ n.start.length := by
  have hmark := h.uuids.marked L hL
  unfold Marked at hmark
  cases huL : L.swaUuid with
  | none => simp [huL] at hmark; omega
  | some u =>
    simp only [huL] at hmark
    obtain ⟨m, hm, -, hmp, hms, -⟩ := hmark
    by_cases hmn : m = n
    · rw [← hmn, hms]
    · rcases Nat.le_total (stop m).length (stop n).length with hle | hle
      · -- the marker is above the node
        have hmn' := h.wf.trie.stop_prefix_start hm hn hmn
          (List.prefix_of_prefix_length_le hmp hpre hle)
        have h₁ := hmn'.length_le
        have h₂ := h.wf.trie.length_start_lt hm
        rw [start_eq] at h₁ h₂
        omega
      · -- the node is above the marker, which starts at its end or below
        have hnm := h.wf.trie.stop_prefix_start hn hm (Ne.symm hmn)
          (List.prefix_of_prefix_length_le hpre hmp hle)
        have h₁ := hnm.length_le
        rw [start_eq] at h₁
        omega

theorem splitNode (h : SwaInv ps locks nodes full swa uuid) (hn : n ∈ nodes) {pos : ℕ}
    (hc : CutAt ps n pos) : SwaInv ps locks (splitNode nodes n pos) full swa uuid := by
  have hnode : ∀ L ∈ locks, IsAddress nodes L.node := fun L hL =>
    h.kv.locked L.node (List.mem_map_of_mem hL)
  have hlen := h.wf.trie.length_start_lt hn
  rw [start_eq] at hlen
  have hlk : (n.key.take pos).length = pos := length_splitAt_fst hc
  have hsl : (stop n).length = n.start.length + n.length := length_stop n
  refine ⟨h.kv.splitNode hn hc, ?_, ?_, ?_, ?_, ?_, ?_⟩
  · intro m hm
    rcases (h.wf.mem_splitNode hn).mp hm with rfl | rfl | ⟨hm, -⟩
    · rw [swaLockCount_congr (m := n) fun L hL => ?_]
      · exact h.swaRef n hn
      · unfold SwaLock.Covers
        rw [h.wf.prefix_splitAt_iff hn hc (hnode L hL)]
        rfl
    · rw [swaLockCount_congr (m := n) fun L hL => ?_]
      · exact h.swaRef n hn
      · unfold SwaLock.Covers
        rw [stop_splitAt_snd, start_splitAt_snd, List.length_append, hlk]
        refine and_congr_right fun hpre => and_congr_left fun _ => ⟨fun hle => ?_, by omega⟩
        refine h.windowStart_le_of_lt hL hn hpre ?_
        have := hc.lt
        omega
    · exact h.swaRef m hm
  · rw [h.wf.total_splitNode hn, swaEvictableTokens_splitAt, h.evictable]
    ring
  · rw [h.wf.total_splitNode hn, swaProtectedTokens_splitAt, h.protectedSize]
    ring
  · intro m hm u hu
    rcases (h.wf.mem_splitNode hn).mp hm with rfl | rfl | ⟨hm, -⟩
    · exact h.uuids.le n hn u hu
    · simp [splitAt] at hu
    · exact h.uuids.le m hm u hu
  · intro m hm k hk u hmu hku
    rcases (h.wf.mem_splitNode hn).mp hm with rfl | rfl | ⟨hm', hmn⟩ <;>
      rcases (h.wf.mem_splitNode hn).mp hk with rfl | rfl | ⟨hk', hkn⟩
    · rfl
    · simp [splitAt] at hku
    · exact absurd (h.uuids.inj n hn k hk' u hmu hku).symm hkn
    · simp [splitAt] at hmu
    · simp [splitAt] at hmu
    · simp [splitAt] at hmu
    · exact absurd (h.uuids.inj m hm' n hn u hmu hku) hmn
    · simp [splitAt] at hku
    · exact h.uuids.inj m hm' k hk' u hmu hku
  · -- the mark of a split node goes to the part above, which starts where the node started
    intro L hL
    have hold := h.uuids.marked L hL
    unfold Marked at hold ⊢
    cases huL : L.swaUuid with
    | none => simpa [huL] using hold
    | some u =>
      simp only [huL] at hold ⊢
      obtain ⟨m, hm, hmu, hpre, hst, hlive⟩ := hold
      by_cases hmn : m = n
      · subst hmn
        exact ⟨(m.splitAt pos).1, (h.wf.mem_splitNode hn).mpr (Or.inl rfl), hmu,
          (h.wf.prefix_splitAt_iff hn hc (hnode L hL)).mpr hpre, hst, hlive⟩
      · exact ⟨m, (h.wf.mem_splitNode hn).mpr (Or.inr (Or.inr ⟨hm, hmn⟩)), hmu, hpre, hst, hlive⟩

theorem link (h : SwaInv ps locks nodes full swa uuid) (h' : WF ps (nodes ++ [n]))
    (h0 : n.refCount = 0) (hs0 : n.swaRefCount = 0) (hu : n.swaUuid = none) :
    SwaInv ps locks (nodes ++ [n]) { full with evictable := full.evictable + n.length }
      { swa with evictable := swa.evictable + swaEvictableTokens n } uuid := by
  have hmem : ∀ m ∈ nodes ++ [n], m ∈ nodes ∨ m = n := fun m hm => by simpa using hm
  refine ⟨h.kv.link h' h0, ?_, ?_, ?_, ?_, ?_, ?_⟩
  · intro m hm
    rcases hmem m hm with hm | rfl
    · exact h.swaRef m hm
    -- no lock passes through a node that is new
    · rw [hs0, eq_comm, swaLockCount_eq_zero]
      rintro L hL ⟨hpre, -⟩
      exact h.wf.not_prefix_of_link h' (h.kv.locked L.node (List.mem_map_of_mem hL)) hpre
  · rw [total_append, total_cons, total_nil, ← h.evictable]
    ring
  · have : swaProtectedTokens n = 0 := by simp [swaProtectedTokens, hs0]
    rw [total_append, total_cons, total_nil, ← h.protectedSize, this]
    ring
  · intro m hm u hmu
    rcases hmem m hm with hm | rfl
    · exact h.uuids.le m hm u hmu
    · rw [hu] at hmu
      simp at hmu
  · intro m hm k hk u hmu hku
    rcases hmem m hm with hm' | rfl
    · rcases hmem k hk with hk' | rfl
      · exact h.uuids.inj m hm' k hk' u hmu hku
      · rw [hu] at hku
        simp at hku
    · rw [hu] at hmu
      simp at hmu
  · intro L hL
    have hold := h.uuids.marked L hL
    unfold Marked at hold ⊢
    cases huL : L.swaUuid with
    | none => simpa [huL] using hold
    | some u =>
      simp only [huL] at hold ⊢
      obtain ⟨m, hm, hrest⟩ := hold
      exact ⟨m, List.mem_append_left _ hm, hrest⟩

theorem unlinkNode (h : SwaInv ps locks nodes full swa uuid) (hn : UnlockedLeaf nodes n) :
    SwaInv ps locks (unlinkNode nodes n) { full with evictable := full.evictable - n.length }
      { swa with evictable := swa.evictable - swaEvictableTokens n } uuid := by
  obtain ⟨⟨hmem, hleaf⟩, h0⟩ := hn
  have hsub : ∀ {m}, m ∈ FreeToken.unlinkNode nodes n → m ∈ nodes := fun hm =>
    ((h.wf.mem_unlinkNode hmem).mp hm).1
  refine ⟨h.kv.unlinkNode hmem hleaf h0, fun m hm => h.swaRef m (hsub hm), ?_, ?_,
    fun m hm => h.uuids.le m (hsub hm), fun m hm k hk => h.uuids.inj m (hsub hm) k (hsub hk), ?_⟩
  · rw [h.wf.total_unlinkNode hmem, h.evictable]
  · have : swaProtectedTokens n = 0 := by
      simp [swaProtectedTokens, h.swaRef_of_unlocked hmem h0]
    rw [h.wf.total_unlinkNode hmem, h.protectedSize, this]
    ring
  · intro L hL
    have hold := h.uuids.marked L hL
    unfold Marked at hold ⊢
    cases huL : L.swaUuid with
    | none => simpa [huL] using hold
    | some u =>
      simp only [huL] at hold ⊢
      obtain ⟨m, hm, hmu, hpre, hrest⟩ := hold
      refine ⟨m, (h.wf.mem_unlinkNode hmem).mpr ⟨hm, ?_⟩, hmu, hpre, hrest⟩
      rintro rfl
      exact h.not_prefix_of_unlocked hmem h0 hL hpre

theorem reshape {nodes' : List RadixTreeNode} (h : SwaInv ps locks nodes full swa uuid)
    (hr : Reshape ps nodes nodes') : SwaInv ps locks nodes' full swa uuid := by
  induction hr with
  | refl => exact h
  | tail _ hs ih =>
    cases hs with
    | @stamp n hn t =>
      have := @SwaInv.setNode _ _ _ _ _ _ _ { n with timestamp := t } ih hn rfl rfl rfl rfl rfl rfl
        (Or.inl rfl)
      have hz : swa.evictable - swaEvictableTokens n +
          swaEvictableTokens { n with timestamp := t } = swa.evictable := by
        have : swaEvictableTokens { n with timestamp := t } = swaEvictableTokens n := rfl
        rw [this]
        ring
      rwa [hz] at this
    | split hn hc => exact ih.splitNode hn hc

theorem removes {nodes' rs : List RadixTreeNode} (h : SwaInv ps locks nodes full swa uuid)
    (hr : Removes nodes rs nodes') :
    SwaInv ps locks nodes' { full with evictable := full.evictable - tokensOf rs }
      { swa with evictable := swa.evictable - total swaEvictableTokens rs } uuid := by
  induction hr generalizing full swa with
  | nil => simpa using h
  | cons hn _ ih =>
    have := ih (h.unlinkNode hn)
    rw [tokensOf_cons, total_cons]
    push_cast
    rw [← sub_sub, ← sub_sub]
    exact this

end SwaInv

/-! ### Taking a lock -/

section IncLock

variable {ps : ℕ} {locks : List SwaLock} {nodes : List RadixTreeNode} {full swa : KvSizes}
  {uuid window : ℕ} {a : Path}

theorem windowStart_le {window : ℕ} {b : ℕ} :
    ∀ (ns : List RadixTreeNode) (locked : ℕ), (∀ n ∈ ns, n.start.length ≤ b) →
      windowStart window ns locked ≤ b := by
  intro ns
  induction ns with
  | nil => intro _ _; exact Nat.zero_le b
  | cons n ns ih =>
    intro locked hb
    have hrest : ∀ m ∈ ns, m.start.length ≤ b := fun m hm => hb m (List.mem_cons_of_mem _ hm)
    unfold windowStart
    split
    · exact ih _ hrest
    · split
      · exact hb n List.mem_cons_self
      · exact ih _ hrest

theorem windowStart_map_core (ns : List RadixTreeNode) (locked : ℕ) :
    windowStart window (ns.map core) locked = windowStart window ns locked := by
  induction ns generalizing locked with
  | nil => rfl
  | cons n ns ih =>
    have h₁ : (core n).swaTombstone = n.swaTombstone := rfl
    have h₂ : (core n).length = n.length := rfl
    have h₃ : (core n).start = n.start := rfl
    simp only [List.map_cons, windowStart, h₁, h₂, h₃, ih]

theorem windowStart_ancestors_le (h : WF ps nodes) (ha : IsAddress nodes a) (locked : ℕ) :
    windowStart window (ancestors nodes a) locked ≤ a.length := by
  refine windowStart_le _ _ fun n hn => ?_
  obtain ⟨hmem, hpre⟩ := (h.trie.mem_ancestors ha).mp hn
  have h₁ := hpre.length_le
  have h₂ := h.trie.length_start_lt hmem
  rw [start_eq] at h₂
  omega

theorem incStep_core (s : IncState) (n : RadixTreeNode) : core (incStep window s n).2 = core n := by
  unfold incStep incSwa
  simp only
  split
  · split
    · split <;> rfl
    · rfl
  · rfl

theorem incStep_refCount (s : IncState) (n : RadixTreeNode) :
    (incStep window s n).2.refCount = (incRef s.full n).2.refCount := by
  unfold incStep incSwa
  simp only
  split
  · split
    · split <;> rfl
    · rfl
  · rfl

theorem incStep_full (s : IncState) (n : RadixTreeNode) :
    (incStep window s n).1.full = (incRef s.full n).1 := by
  unfold incStep incSwa
  simp only
  split
  · split
    · split <;> rfl
    · rfl
  · rfl

theorem incStep_outside {s : IncState}
    (h : window ≤ s.swaLocked ∨ n.swaTombstone = true) :
    (incStep window s n).1.swa = s.swa ∧ (incStep window s n).1.uuid = s.uuid ∧
      (incStep window s n).1.swaLocked = s.swaLocked ∧
      (incStep window s n).1.swaUuidForLock = s.swaUuidForLock ∧
      (incStep window s n).2.swaRefCount = n.swaRefCount ∧
      (incStep window s n).2.swaUuid = n.swaUuid := by
  have hc : (decide (s.swaLocked < window) && !(incRef s.full n).2.swaTombstone) = false := by
    have : (incRef s.full n).2.swaTombstone = n.swaTombstone := rfl
    rcases h with h | h
    · simp [not_lt.mpr h]
    · simp [this, h]
  have hi : incStep window s n = ({ s with full := (incRef s.full n).1 }, (incRef s.full n).2) := by
    unfold incStep
    simp only [hc, Bool.false_eq_true, if_false]
  rw [hi]
  exact ⟨rfl, rfl, rfl, rfl, rfl, rfl⟩

theorem incStep_inside {s : IncState} (h : s.swaLocked < window)
    (hlive : n.swaTombstone = false) :
    (incStep window s n).1.swa = (if n.swaRefCount = 0 then
        ⟨s.swa.evictable - n.length, s.swa.protectedSize + n.length⟩ else s.swa) ∧
      (incStep window s n).1.swaLocked = s.swaLocked + n.length ∧
      (incStep window s n).2.swaRefCount = n.swaRefCount + 1 ∧
      (s.swaLocked + n.length < window → (incStep window s n).1.uuid = s.uuid ∧
        (incStep window s n).1.swaUuidForLock = s.swaUuidForLock ∧
        (incStep window s n).2.swaUuid = n.swaUuid) ∧
      (window ≤ s.swaLocked + n.length → ∃ u, (incStep window s n).1.swaUuidForLock = some u ∧
        (incStep window s n).2.swaUuid = some u ∧
        ((incStep window s n).1.uuid = s.uuid ∧ n.swaUuid = some u ∨
          n.swaUuid = none ∧ u = s.uuid + 1 ∧ (incStep window s n).1.uuid = s.uuid + 1)) := by
  have hc : (decide (s.swaLocked < window) && !(incRef s.full n).2.swaTombstone) = true := by
    have : (incRef s.full n).2.swaTombstone = n.swaTombstone := rfl
    simp [this, h, hlive]
  have hl : (incRef s.full n).2.length = n.length := rfl
  have hr : (incRef s.full n).2.swaRefCount = n.swaRefCount := rfl
  have hu : (incRef s.full n).2.swaUuid = n.swaUuid := rfl
  unfold incStep
  simp only [hc, if_true]
  unfold incSwa
  simp only [RadixTreeNode.length] at hl ⊢
  simp only [hr, hl]
  by_cases hw : window ≤ s.swaLocked + n.key.length
  · simp only [hw, if_true]
    cases hn : n.swaUuid with
    | none => simp [hu, hn, not_lt.mpr hw]
    | some u => simp [hu, hn, not_lt.mpr hw]
  · simp [hw, hu]

/-- The loop invariant of `inc_lock` for the window currency, at the address `p` it has reached;
`ws` is where the window will start. -/
structure IncInv (ps window : ℕ) (locks : List SwaLock) (nodes : List RadixTreeNode) (a : Path)
    (ws : ℕ) (s : IncState) (l : List RadixTreeNode) (p : Path) : Prop where
  same : SameCore nodes l
  wf : WF ps l
  address : IsAddress l p
  prefix_target : p <+: a
  swaRef : ∀ n ∈ l, n.swaRefCount = swaLockCount locks n +
    if stop n <+: a ∧ ¬stop n <+: p ∧ n.swaTombstone = false ∧ ws ≤ n.start.length then 1 else 0
  evictable : s.swa.evictable = total swaEvictableTokens l
  protectedSize : s.swa.protectedSize = total swaProtectedTokens l
  uuids : UuidInv locks l s.uuid
  below : s.swaLocked < window →
    windowStart window (ancestors l p) s.swaLocked = ws ∧ s.swaUuidForLock = none
  above : window ≤ s.swaLocked → p.length ≤ ws ∧
    ∃ u, s.swaUuidForLock = some u ∧ Marked l ⟨a, some u, ws⟩

/-- A mark survives writing lock fields of other nodes, and of its own if its `swa_uuid` stays. -/
theorem Marked.setNode {L : SwaLock} (h : Marked nodes L) (hw : WF ps nodes) {n n' : RadixTreeNode}
    (hn : n ∈ nodes) (hcore : core n' = core n)
    (hu : n.swaUuid ≠ none → n'.swaUuid = n.swaUuid) : Marked (setNode nodes n n') L := by
  unfold Marked at h ⊢
  cases huL : L.swaUuid with
  | none => simpa [huL] using h
  | some u =>
    simp only [huL] at h ⊢
    obtain ⟨m, hm, hmu, hpre, hst, hlive⟩ := h
    by_cases hmn : m = n
    · subst hmn
      have ht : n'.swaTombstone = m.swaTombstone := by
        have := congrArg RadixTreeNode.swaTombstone hcore
        exact this
      exact ⟨n', (hw.mem_setNode hn).mpr (Or.inl rfl), by rw [hu (by simp [hmu]), hmu],
        stop_of_core hcore ▸ hpre, by rw [start_of_core hcore, hst], by rw [ht, hlive]⟩
    · exact ⟨m, (hw.mem_setNode hn).mpr (Or.inr ⟨hm, hmn⟩), hmu, hpre, hst, hlive⟩

theorem swaLockCount_of_core {n' : RadixTreeNode} (h : core n' = core n) :
    swaLockCount locks n' = swaLockCount locks n := by
  have ht : n'.swaTombstone = n.swaTombstone := by
    have := congrArg RadixTreeNode.swaTombstone h
    exact this
  exact swaLockCount_congr fun L _ => by
    simp [SwaLock.Covers, stop_of_core h, start_of_core h, ht]

theorem UuidInv.setNode {n n' : RadixTreeNode} {uuid' : ℕ} (h : UuidInv locks nodes uuid)
    (hw : WF ps nodes) (hn : n ∈ nodes) (hcore : core n' = core n) (hle : uuid ≤ uuid')
    (hu : n'.swaUuid = n.swaUuid ∨
      n.swaUuid = none ∧ n'.swaUuid = some (uuid + 1) ∧ uuid' = uuid + 1) :
    UuidInv locks (setNode nodes n n') uuid' := by
  refine ⟨?_, ?_, fun L hL => ?_⟩
  · intro m hm u hmu
    rcases (hw.mem_setNode hn).mp hm with rfl | ⟨hm, -⟩
    · rcases hu with hu | ⟨-, hu, hle'⟩
      · exact (h.le n hn u (hu ▸ hmu)).trans hle
      · rw [hu, Option.some.injEq] at hmu
        omega
    · exact (h.le m hm u hmu).trans hle
  · -- a fresh mark is above all marks in the tree
    have hfresh : ∀ k ∈ nodes, k ≠ n → ∀ u, n'.swaUuid = some u → k.swaUuid ≠ some u := by
      intro k hk hkn u hnu hku
      rcases hu with hu | ⟨-, hu, -⟩
      · exact hkn (h.inj k hk n hn u hku (hu ▸ hnu))
      · rw [hu, Option.some.injEq] at hnu
        have := h.le k hk u hku
        omega
    intro m hm k hk u hmu hku
    rcases (hw.mem_setNode hn).mp hm with rfl | ⟨hm', hmn⟩ <;>
      rcases (hw.mem_setNode hn).mp hk with rfl | ⟨hk', hkn⟩
    · rfl
    · exact absurd hku (hfresh k hk' hkn u hmu)
    · exact absurd hmu (hfresh m hm' hmn u hku)
    · exact h.inj m hm' k hk' u hmu hku
  · refine (h.marked L hL).setNode hw hn hcore fun hne => ?_
    rcases hu with hu | ⟨hnone, -, -⟩
    · exact hu
    · exact absurd hnone hne

theorem passed_iff (h : WF ps nodes) (hn : n ∈ nodes)
    (hm : m ∈ nodes) (hne : m ≠ n) : ¬stop m <+: stop n ↔ ¬stop m <+: n.start :=
  not_congr (prefix_stop_iff h hn hm hne)

theorem IncInv.step {ws : ℕ} {s : IncState} {l : List RadixTreeNode} {e : RadixTreeNode}
    (he : e ∈ l) (h : IncInv ps window locks nodes a ws s l (stop e)) :
    IncInv ps window locks nodes a ws (incStep window s e).1
      (setNode l e (incStep window s e).2) e.start := by
  obtain ⟨e', he'⟩ : ∃ e', e' = (incStep window s e).2 := ⟨_, rfl⟩
  obtain ⟨s', hs'⟩ : ∃ s', s' = (incStep window s e).1 := ⟨_, rfl⟩
  have hcore : core e' = core e := he' ▸ incStep_core s e
  have hstart := start_of_core hcore
  have hkey := key_of_core hcore
  have hstop := stop_of_core hcore
  have htomb : e'.swaTombstone = e.swaTombstone := by
    have := congrArg RadixTreeNode.swaTombstone hcore
    exact this
  have hlen : e'.length = e.length := congrArg List.length hkey
  have hre : e.swaRefCount = swaLockCount locks e := by
    rw [h.swaRef e he, if_neg fun hx => hx.2.1 List.prefix_rfl, add_zero]
  have hsame' : SameCore l (setNode l e e') := SameCore.setNode h.wf he hcore
  have hwf' : WF ps (setNode l e e') := h.wf.setNode he hstart hkey (by rw [value_of_core hcore])
  have hpar : IsAddress l e.start := h.wf.trie.parent e he
  have hanc : ∀ k, windowStart window (ancestors (setNode l e e') e.start) k =
      windowStart window (ancestors l e.start) k := fun k => by
    rw [← windowStart_map_core, hsame'.ancestors_map h.wf hwf' hpar, windowStart_map_core]
  have hlt := h.wf.trie.length_start_lt he
  rw [start_eq] at hlt
  -- the references of the other nodes are as before
  have hothers : ∀ m ∈ l, m ≠ e → m.swaRefCount = swaLockCount locks m +
      if stop m <+: a ∧ ¬stop m <+: e.start ∧ m.swaTombstone = false ∧ ws ≤ m.start.length
      then 1 else 0 := by
    intro m hm hne
    rw [h.swaRef m hm]
    simp only [passed_iff h.wf he hm hne]
  have hevt : total swaEvictableTokens (setNode l e e') = _ := h.wf.total_setNode he _
  have hprt : total swaProtectedTokens (setNode l e e') = _ := h.wf.total_setNode he _
  rw [← he', ← hs']
  by_cases hin : s.swaLocked < window ∧ e.swaTombstone = false
  · -- inside the window: one more window reference
    obtain ⟨hlk, hlive⟩ := hin
    obtain ⟨hswa, hlocked, hsref, hbelow, habove⟩ := incStep_inside (n := e) hlk hlive
    rw [← he'] at hsref
    rw [← hs'] at hswa hlocked
    rw [← he', ← hs'] at hbelow habove
    obtain ⟨hws, hnone⟩ := h.below hlk
    rw [h.wf.trie.ancestors_stop he, windowStart, if_neg (by simp [hlive])] at hws
    rw [start_eq] at hws
    have hwse : ws ≤ e.start.length := by
      rw [← hws]
      split
      · exact le_rfl
      · exact windowStart_ancestors_le h.wf hpar _
    have hnn : 0 ≤ e.swaRefCount := hre ▸ swaLockCount_nonneg _ _
    refine ⟨h.same.trans hsame', hwf', hsame'.isAddress hpar,
      (start_prefix_stop e).trans h.prefix_target, ?_, ?_, ?_, ?_, ?_, ?_⟩
    · intro m hm
      rcases (h.wf.mem_setNode he).mp hm with rfl | ⟨hm, hne⟩
      · rw [hsref, hre, swaLockCount_of_core hcore, hstop, htomb, hstart,
          if_pos ⟨h.prefix_target, not_stop_prefix_start h.wf he, hlive, hwse⟩]
      · exact hothers m hm hne
    · have hnew : swaEvictableTokens e' = 0 := by
        unfold swaEvictableTokens
        rw [hsref, if_neg]
        omega
      have hold : swaEvictableTokens e = if e.swaRefCount = 0 then (e.length : ℤ) else 0 := by
        simp [swaEvictableTokens, hlive]
      rw [hswa, hevt, hnew, hold]
      split
      · simp only [h.evictable]
        ring
      · rw [h.evictable]
        ring
    · have hnew : swaProtectedTokens e' = e.length := by
        unfold swaProtectedTokens
        rw [hsref, htomb, if_pos ⟨hlive, by omega⟩, hlen]
      have hold : swaProtectedTokens e = if e.swaRefCount = 0 then 0 else (e.length : ℤ) := by
        simp [swaProtectedTokens, hlive]
      rw [hswa, hprt, hnew, hold]
      split
      · simp only [h.protectedSize]
        ring
      · rw [h.protectedSize]
        ring
    · rcases Nat.lt_or_ge (s.swaLocked + e.length) window with hw | hw
      · obtain ⟨hu, -, hen⟩ := hbelow hw
        exact h.uuids.setNode h.wf he hcore (by omega) (Or.inl hen)
      · obtain ⟨u, -, heu, hor⟩ := habove hw
        rcases hor with ⟨hu, hen⟩ | ⟨hen, hu1, hu⟩
        · exact h.uuids.setNode h.wf he hcore (by omega) (Or.inl (heu.trans hen.symm))
        · exact h.uuids.setNode h.wf he hcore (by omega) (Or.inr ⟨hen, hu1 ▸ heu, hu⟩)
    · intro hw
      rw [hlocked] at hw ⊢
      obtain ⟨-, hul, -⟩ := hbelow hw
      refine ⟨?_, hul.trans hnone⟩
      rw [hanc, ← hws, if_neg (not_le.mpr hw)]
    · intro hw
      rw [hlocked] at hw
      obtain ⟨u, hul, heu, -⟩ := habove hw
      rw [if_pos hw] at hws
      refine ⟨hws.le, u, hul, ?_⟩
      exact ⟨e', (h.wf.mem_setNode he).mpr (Or.inl rfl), heu, hstop ▸ h.prefix_target,
        by rw [hstart, hws], by rw [htomb, hlive]⟩
  · -- outside the window: the window currency stays
    have hout : window ≤ s.swaLocked ∨ e.swaTombstone = true := by
      rcases Nat.lt_or_ge s.swaLocked window with hlk | hlk
      · exact Or.inr (by simpa [hlk] using hin)
      · exact Or.inl hlk
    obtain ⟨hswa, huuid, hlocked, hul, hsref, hen⟩ := incStep_outside hout
    rw [← he'] at hsref hen
    rw [← hs'] at hswa huuid hlocked hul
    have hev : swaEvictableTokens e' = swaEvictableTokens e := by
      simp [swaEvictableTokens, htomb, hsref, hlen]
    have hpr : swaProtectedTokens e' = swaProtectedTokens e := by
      simp [swaProtectedTokens, htomb, hsref, hlen]
    refine ⟨h.same.trans hsame', hwf', hsame'.isAddress hpar,
      (start_prefix_stop e).trans h.prefix_target, ?_, ?_, ?_, ?_, ?_, ?_⟩
    · intro m hm
      rcases (h.wf.mem_setNode he).mp hm with rfl | ⟨hm, hne⟩
      · rw [hsref, hre, swaLockCount_of_core hcore, hstart, htomb, if_neg, add_zero]
        rintro ⟨-, -, hlive, hle⟩
        rcases hout with hw | ht
        · have := (h.above hw).1
          omega
        · rw [ht] at hlive
          exact absurd hlive (by decide)
      · exact hothers m hm hne
    · rw [hswa, hevt, hev, h.evictable]
      ring
    · rw [hswa, hprt, hpr, h.protectedSize]
      ring
    · rw [huuid]
      exact h.uuids.setNode h.wf he hcore le_rfl (Or.inl hen)
    · intro hw
      rw [hlocked] at hw ⊢
      obtain ⟨hws, hnone⟩ := h.below hw
      have ht : e.swaTombstone = true := hout.resolve_left (by omega)
      rw [h.wf.trie.ancestors_stop he, windowStart, if_pos ht, start_eq] at hws
      exact ⟨by rw [hanc, hws], hul.trans hnone⟩
    · intro hw
      rw [hlocked] at hw
      obtain ⟨hle, u, hu, hmark⟩ := h.above hw
      exact ⟨by omega, u, hul.trans hu, hmark.setNode h.wf he hcore fun _ => hen⟩

/-- **Taking a lock** on an address adds it to the outstanding locks. -/
theorem SwaInv.incLock (hwin : 0 < window) (h : SwaInv ps locks nodes full swa uuid)
    (ha : IsAddress nodes a) {r : IncState × List RadixTreeNode}
    (hr : r = climb (incStep window) a.length { full := full, swa := swa, uuid := uuid } nodes a) :
    SwaInv ps (⟨a, r.1.swaUuidForLock, windowStart window (ancestors nodes a) 0⟩ :: locks) r.2
      r.1.full r.1.swa r.1.uuid ∧ SameCore nodes r.2 := by
  obtain ⟨ws, hws⟩ : ∃ ws, ws = windowStart window (ancestors nodes a) 0 := ⟨_, rfl⟩
  obtain ⟨hkv, hsame⟩ := KvInv.climb_inc (incStep window) IncState.full
    { full := full, swa := swa, uuid := uuid } h.kv ha incStep_core incStep_refCount incStep_full
    le_rfl
  have hstart : ∀ s n, (incStep window s n).2.start = n.start := fun s n =>
    start_of_core (incStep_core s n)
  have hkey : ∀ s n, (incStep window s n).2.key = n.key := fun s n => key_of_core (incStep_core s n)
  -- the climb counts the window down to the node that gets the marker
  have hloop := climb_induct (M := IncInv ps window locks nodes a ws) hstart hkey
    (fun s l e _ he hM => hM.step he) a.length { full := full, swa := swa, uuid := uuid } nodes a
    h.wf.trie ha le_rfl
    { same := .refl _, wf := h.wf, address := ha, prefix_target := List.prefix_rfl
      swaRef := fun n hn => by
        rw [h.swaRef n hn, if_neg fun hx => hx.2.1 hx.1, add_zero]
      evictable := h.evictable, protectedSize := h.protectedSize, uuids := h.uuids
      below := fun _ => ⟨hws.symm, rfl⟩
      above := fun hw => absurd hw (not_le.mpr hwin) }
  rw [← hr] at hkv hsame hloop
  rw [← hws]
  have hM := hloop.2
  refine ⟨⟨hkv, ?_, hM.evictable, hM.protectedSize, ⟨hM.uuids.le, hM.uuids.inj, ?_⟩⟩, hsame⟩
  · intro n hn
    have hnil : ¬stop n <+: [] := fun hp => hM.wf.trie.stop_ne_nil hn (List.prefix_nil.mp hp)
    rw [hM.swaRef n hn, swaLockCount_cons]
    simp only [SwaLock.Covers, hnil, not_false_eq_true, true_and]
    congr 2
    exact propext (and_congr_right fun _ => and_comm)
  · intro L hL
    rcases List.mem_cons.mp hL with rfl | hL
    · -- a path shorter than the window has no marker
      rcases Nat.lt_or_ge r.1.swaLocked window with hw | hw
      · obtain ⟨h0, hnone⟩ := hM.below hw
        rw [IsTrie.ancestors_nil, windowStart] at h0
        unfold Marked
        rw [hnone]
        exact h0.symm
      · obtain ⟨-, u, hu, hmark⟩ := hM.above hw
        rwa [hu]
    · exact hM.uuids.marked L hL

end IncLock

/-! ### Releasing a lock -/

section DecLock

variable {ps : ℕ} {locks : List SwaLock} {nodes : List RadixTreeNode} {full swa : KvSizes}
  {uuid : ℕ} {L : SwaLock}

theorem decStep_core (u : Option ℕ) (s : DecState) (n : RadixTreeNode) :
    core (decStep u s n).2 = core n := by
  unfold decStep
  simp only
  split <;> rfl

theorem decStep_refCount (u : Option ℕ) (s : DecState) (n : RadixTreeNode) :
    (decStep u s n).2.refCount = (decRef s.full n).2.refCount := by
  unfold decStep
  simp only
  split <;> rfl

theorem decStep_full (u : Option ℕ) (s : DecState) (n : RadixTreeNode) :
    (decStep u s n).1.full = (decRef s.full n).1 := by
  unfold decStep
  simp only
  split <;> rfl

theorem decStep_uuid (u : Option ℕ) (s : DecState) (n : RadixTreeNode) :
    (decStep u s n).2.swaUuid = n.swaUuid := by
  unfold decStep
  simp only
  split <;> rfl

theorem decStep_outside {u : Option ℕ} {s : DecState}
    (h : s.decSwa = false ∨ n.swaTombstone = true) :
    (decStep u s n).1.swa = s.swa ∧ (decStep u s n).1.decSwa = s.decSwa ∧
      (decStep u s n).2.swaRefCount = n.swaRefCount := by
  have hc : (s.decSwa && !(decRef s.full n).2.swaTombstone &&
      decide (0 < (decRef s.full n).2.swaRefCount)) = false := by
    have : (decRef s.full n).2.swaTombstone = n.swaTombstone := rfl
    rcases h with h | h
    · simp [h]
    · simp [this, h]
  have hi : decStep u s n = ({ s with full := (decRef s.full n).1 }, (decRef s.full n).2) := by
    unfold decStep
    simp only [hc, Bool.false_eq_true, if_false]
  rw [hi]
  exact ⟨rfl, rfl, rfl⟩

theorem decStep_inside {u : Option ℕ} {s : DecState} (hd : s.decSwa = true)
    (hlive : n.swaTombstone = false) (hpos : 0 < n.swaRefCount) :
    (decStep u s n).1.swa = (if n.swaRefCount - 1 = 0 then
        ⟨s.swa.evictable + n.length, s.swa.protectedSize - n.length⟩ else s.swa) ∧
      (decStep u s n).1.decSwa = !(u.isSome && n.swaUuid == u) ∧
      (decStep u s n).2.swaRefCount = n.swaRefCount - 1 := by
  have hc : (s.decSwa && !(decRef s.full n).2.swaTombstone &&
      decide (0 < (decRef s.full n).2.swaRefCount)) = true := by
    have h₁ : (decRef s.full n).2.swaTombstone = n.swaTombstone := rfl
    have h₂ : (decRef s.full n).2.swaRefCount = n.swaRefCount := rfl
    simp [h₁, h₂, hd, hlive, hpos]
  unfold decStep
  simp only [hc, if_true]
  exact ⟨rfl, rfl, rfl⟩

/-- The loop invariant of `dec_lock` for the window currency, at the address `p` it has reached. -/
structure DecInv (ps : ℕ) (locks : List SwaLock) (nodes : List RadixTreeNode) (uuid : ℕ)
    (L : SwaLock) (s : DecState) (l : List RadixTreeNode) (p : Path) : Prop where
  same : SameCore nodes l
  wf : WF ps l
  prefix_target : p <+: L.node
  swaRef : ∀ n ∈ l, n.swaRefCount = swaLockCount locks n -
    if L.Covers n ∧ ¬stop n <+: p then 1 else 0
  evictable : s.swa.evictable = total swaEvictableTokens l
  protectedSize : s.swa.protectedSize = total swaProtectedTokens l
  uuids : UuidInv locks l uuid
  decSwa : p ≠ [] → (s.decSwa = true ↔ L.windowStart < p.length)

/-- The boundary of a lock is not above a node of its path that ends below it. -/
theorem UuidInv.windowStart_le {l : List RadixTreeNode} (h : UuidInv locks l uuid) (hw : WF ps l)
    (hL : L ∈ locks) {e : RadixTreeNode} (he : e ∈ l) (hpre : stop e <+: L.node)
    (hlt : L.windowStart < (stop e).length) :
    L.windowStart ≤ e.start.length ∧
      (e.start ≠ [] → (L.windowStart = e.start.length ↔
        L.swaUuid.isSome ∧ e.swaUuid = L.swaUuid)) := by
  have hmark := h.marked L hL
  unfold Marked at hmark
  cases huL : L.swaUuid with
  | none =>
    simp only [huL] at hmark
    refine ⟨by omega, fun hne => ⟨fun heq => ?_, fun hx => by simp at hx⟩⟩
    exact absurd (List.length_eq_zero_iff.mp (by omega)) hne
  | some u =>
    simp only [huL] at hmark
    obtain ⟨m, hm, hmu, hmp, hms, -⟩ := hmark
    by_cases hme : m = e
    · subst hme
      exact ⟨hms.ge, fun _ => ⟨fun _ => ⟨rfl, hmu⟩, fun _ => hms.symm⟩⟩
    · have hup : stop m <+: e.start := by
        rcases Nat.le_total (stop m).length (stop e).length with hle | hle
        · exact hw.trie.stop_prefix_start hm he hme (List.prefix_of_prefix_length_le hmp hpre hle)
        · exfalso
          have hnm := hw.trie.stop_prefix_start he hm (Ne.symm hme)
            (List.prefix_of_prefix_length_le hpre hmp hle)
          have := hnm.length_le
          rw [start_eq] at this
          omega
      have h₁ := hup.length_le
      have h₂ := hw.trie.length_start_lt hm
      rw [start_eq] at h₂
      refine ⟨by omega, fun _ => ⟨fun heq => by omega, fun hx => ?_⟩⟩
      exact absurd (h.inj m hm e he u hmu hx.2) hme

theorem DecInv.step {s : DecState} {l : List RadixTreeNode} {e : RadixTreeNode} (hL : L ∈ locks)
    (he : e ∈ l) (h : DecInv ps locks nodes uuid L s l (stop e)) :
    DecInv ps locks nodes uuid L (decStep L.swaUuid s e).1
      (setNode l e (decStep L.swaUuid s e).2) e.start := by
  obtain ⟨e', he'⟩ : ∃ e', e' = (decStep L.swaUuid s e).2 := ⟨_, rfl⟩
  obtain ⟨s', hs'⟩ : ∃ s', s' = (decStep L.swaUuid s e).1 := ⟨_, rfl⟩
  have hcore : core e' = core e := he' ▸ decStep_core _ s e
  have huuid : e'.swaUuid = e.swaUuid := he' ▸ decStep_uuid _ s e
  have hstart := start_of_core hcore
  have hkey := key_of_core hcore
  have hstop := stop_of_core hcore
  have htomb : e'.swaTombstone = e.swaTombstone := by
    have := congrArg RadixTreeNode.swaTombstone hcore
    exact this
  have hlen : e'.length = e.length := congrArg List.length hkey
  have hcov : L.Covers e' ↔ L.Covers e := by simp [SwaLock.Covers, hstop, hstart, htomb]
  have hre : e.swaRefCount = swaLockCount locks e := by
    rw [h.swaRef e he, if_neg fun hx => hx.2 List.prefix_rfl, sub_zero]
  have hsame' : SameCore l (setNode l e e') := SameCore.setNode h.wf he hcore
  have hwf' : WF ps (setNode l e e') := h.wf.setNode he hstart hkey (by rw [value_of_core hcore])
  have hne : stop e ≠ [] := h.wf.trie.stop_ne_nil he
  have hdec := h.decSwa hne
  have hlt := h.wf.trie.length_start_lt he
  rw [start_eq] at hlt
  have hothers : ∀ m ∈ l, m ≠ e → m.swaRefCount = swaLockCount locks m -
      if L.Covers m ∧ ¬stop m <+: e.start then 1 else 0 := by
    intro m hm hme
    rw [h.swaRef m hm]
    simp only [passed_iff h.wf he hm hme]
  have hevt : total swaEvictableTokens (setNode l e e') = _ := h.wf.total_setNode he _
  have hprt : total swaProtectedTokens (setNode l e e') = _ := h.wf.total_setNode he _
  rw [← he', ← hs']
  refine ⟨h.same.trans hsame', hwf', (start_prefix_stop e).trans h.prefix_target, ?_, ?_, ?_,
    h.uuids.setNode h.wf he hcore le_rfl (Or.inl huuid), ?_⟩
  · intro m hm
    rcases (h.wf.mem_setNode he).mp hm with rfl | ⟨hm, hme⟩
    · rw [swaLockCount_of_core hcore, hstop]
      by_cases hc : L.Covers e
      · have hd := hdec.mpr (lt_of_le_of_lt hc.2.1 hlt)
        obtain ⟨-, -, hsref⟩ := decStep_inside (u := L.swaUuid) hd hc.2.2
          (hre ▸ swaLockCount_pos hL hc)
        rw [← he'] at hsref
        rw [hsref, hre, if_pos ⟨hcov.mpr hc, not_stop_prefix_start h.wf he⟩]
      · have hout : s.decSwa = false ∨ e.swaTombstone = true := by
          by_contra hno
          rw [not_or, Bool.not_eq_false, Bool.not_eq_true] at hno
          refine hc ⟨h.prefix_target, ?_, hno.2⟩
          exact (h.uuids.windowStart_le h.wf hL he h.prefix_target (hdec.mp hno.1)).1
        obtain ⟨-, -, hsref⟩ := decStep_outside (u := L.swaUuid) hout
        rw [← he'] at hsref
        rw [hsref, hre, if_neg fun hx => hc (hcov.mp hx.1), sub_zero]
    · exact hothers m hm hme
  all_goals by_cases hin : s.decSwa = true ∧ e.swaTombstone = false
  · -- the evictable counter, inside the window
    obtain ⟨hws, -⟩ := h.uuids.windowStart_le h.wf hL he h.prefix_target (hdec.mp hin.1)
    have hpos : 0 < e.swaRefCount := hre ▸ swaLockCount_pos hL ⟨h.prefix_target, hws, hin.2⟩
    obtain ⟨hswa, -, hsref⟩ := decStep_inside (u := L.swaUuid) hin.1 hin.2 hpos
    rw [← he'] at hsref
    rw [← hs'] at hswa
    have hold : swaEvictableTokens e = 0 := by
      unfold swaEvictableTokens
      exact if_neg fun hx => hpos.ne' hx.2
    have hnew : swaEvictableTokens e' = if e.swaRefCount - 1 = 0 then (e.length : ℤ) else 0 := by
      simp [swaEvictableTokens, htomb, hin.2, hsref, hlen]
    rw [hswa, hevt, hold, hnew]
    split
    · simp only [h.evictable]
      ring
    · rw [h.evictable]
      ring
  · have hout : s.decSwa = false ∨ e.swaTombstone = true := by
      cases hd : s.decSwa <;> simp_all
    obtain ⟨hswa, -, hsref⟩ := decStep_outside (u := L.swaUuid) hout
    rw [← he'] at hsref
    rw [← hs'] at hswa
    have hev : swaEvictableTokens e' = swaEvictableTokens e := by
      simp [swaEvictableTokens, htomb, hsref, hlen]
    rw [hswa, hevt, hev, h.evictable]
    ring
  · -- the protected counter, inside the window
    obtain ⟨hws, -⟩ := h.uuids.windowStart_le h.wf hL he h.prefix_target (hdec.mp hin.1)
    have hpos : 0 < e.swaRefCount := hre ▸ swaLockCount_pos hL ⟨h.prefix_target, hws, hin.2⟩
    obtain ⟨hswa, -, hsref⟩ := decStep_inside (u := L.swaUuid) hin.1 hin.2 hpos
    rw [← he'] at hsref
    rw [← hs'] at hswa
    have hold : swaProtectedTokens e = e.length := by
      unfold swaProtectedTokens
      exact if_pos ⟨hin.2, hpos.ne'⟩
    have hnew : swaProtectedTokens e' = if e.swaRefCount - 1 = 0 then 0 else (e.length : ℤ) := by
      simp [swaProtectedTokens, htomb, hin.2, hsref, hlen]
    rw [hswa, hprt, hold, hnew]
    split
    · simp only [h.protectedSize]
      ring
    · rw [h.protectedSize]
      ring
  · have hout : s.decSwa = false ∨ e.swaTombstone = true := by
      cases hd : s.decSwa <;> simp_all
    obtain ⟨hswa, -, hsref⟩ := decStep_outside (u := L.swaUuid) hout
    rw [← he'] at hsref
    rw [← hs'] at hswa
    have hpr : swaProtectedTokens e' = swaProtectedTokens e := by
      simp [swaProtectedTokens, htomb, hsref, hlen]
    rw [hswa, hprt, hpr, h.protectedSize]
    ring
  · -- the flag goes down at the marker only
    obtain ⟨hws, hmark⟩ := h.uuids.windowStart_le h.wf hL he h.prefix_target (hdec.mp hin.1)
    have hpos : 0 < e.swaRefCount := hre ▸ swaLockCount_pos hL ⟨h.prefix_target, hws, hin.2⟩
    obtain ⟨-, hd, -⟩ := decStep_inside (u := L.swaUuid) hin.1 hin.2 hpos
    rw [← hs'] at hd
    intro hsne
    have hiff := hmark hsne
    rw [hd]
    simp only [Bool.not_eq_true', Bool.and_eq_false_iff, beq_eq_false_iff_ne]
    constructor
    · intro hor
      refine lt_of_le_of_ne hws fun heq => ?_
      obtain ⟨h₁, h₂⟩ := hiff.mp heq
      rcases hor with hor | hor
      · rw [h₁] at hor
        exact absurd hor (by decide)
      · exact hor h₂
    · intro hlt'
      by_contra hno
      rw [not_or, Bool.not_eq_false, not_not] at hno
      exact hlt'.ne (hiff.mpr hno)
  · have hout : s.decSwa = false ∨ e.swaTombstone = true := by
      cases hd : s.decSwa <;> simp_all
    obtain ⟨-, hd, -⟩ := decStep_outside (u := L.swaUuid) hout
    rw [← hs'] at hd
    intro hsne
    rw [hd]
    constructor
    · intro htrue
      have hlt' := hdec.mp htrue
      obtain ⟨hws, hmark⟩ := h.uuids.windowStart_le h.wf hL he h.prefix_target hlt'
      refine lt_of_le_of_ne hws fun heq => ?_
      -- the marker is live, so it is not this tombstone
      have ht : e.swaTombstone = true := hout.resolve_left (by simp [htrue])
      obtain ⟨hsome, heu⟩ := (hmark hsne).mp heq
      have hmk := h.uuids.marked L hL
      unfold Marked at hmk
      obtain ⟨u, huL⟩ := Option.isSome_iff_exists.mp hsome
      simp only [huL] at hmk
      obtain ⟨m, hm, hmu, -, -, hml⟩ := hmk
      obtain rfl := h.uuids.inj m hm e he u hmu (heu.trans huL)
      rw [ht] at hml
      exact absurd hml (by decide)
    · exact fun hlt' => hdec.mpr (by omega)

theorem SwaInv.windowStart_lt (h : SwaInv ps locks nodes full swa uuid) (hL : L ∈ locks)
    (hne : L.node ≠ []) : L.windowStart < L.node.length := by
  have hmark := h.uuids.marked L hL
  unfold Marked at hmark
  cases huL : L.swaUuid with
  | none =>
    simp only [huL] at hmark
    rw [hmark]
    exact List.length_pos_iff.mpr hne
  | some u =>
    simp only [huL] at hmark
    obtain ⟨m, hm, -, hmp, hms, -⟩ := hmark
    have h₁ := hmp.length_le
    have h₂ := h.wf.trie.length_start_lt hm
    rw [start_eq] at h₂
    omega

/-- **Releasing a lock** with the `swa_uuid` that taking it returned removes it from the
outstanding locks. -/
theorem SwaInv.decLock (h : SwaInv ps locks nodes full swa uuid) (hL : L ∈ locks)
    {r : DecState × List RadixTreeNode}
    (hr : r = climb (decStep L.swaUuid) L.node.length { full := full, swa := swa, decSwa := true }
      nodes L.node) :
    SwaInv ps (locks.erase L) r.2 r.1.full r.1.swa uuid ∧ SameCore nodes r.2 := by
  have hmem : L.node ∈ locks.map SwaLock.node := List.mem_map_of_mem hL
  have ha : IsAddress nodes L.node := h.kv.locked _ hmem
  obtain ⟨hkv, hsame⟩ := KvInv.climb_dec (decStep L.swaUuid) DecState.full
    { full := full, swa := swa, decSwa := true } h.kv hmem (decStep_core _)
    (decStep_refCount _) (decStep_full _) le_rfl
  have hstart : ∀ s n, (decStep L.swaUuid s n).2.start = n.start := fun s n =>
    start_of_core (decStep_core _ s n)
  have hkey : ∀ s n, (decStep L.swaUuid s n).2.key = n.key := fun s n =>
    key_of_core (decStep_core _ s n)
  have hloop := climb_induct (M := DecInv ps locks nodes uuid L) hstart hkey
    (fun s l e _ he hM => hM.step hL he) L.node.length
    { full := full, swa := swa, decSwa := true } nodes L.node h.wf.trie ha le_rfl
    { same := .refl _, wf := h.wf, prefix_target := List.prefix_rfl
      swaRef := fun n hn => by
        rw [h.swaRef n hn, if_neg fun hx => hx.2 hx.1.1, sub_zero]
      evictable := h.evictable, protectedSize := h.protectedSize, uuids := h.uuids
      decSwa := fun hne => by
        simp only [true_iff]
        exact h.windowStart_lt hL hne }
  rw [← hr] at hkv hsame hloop
  have hM := hloop.2
  refine ⟨⟨?_, ?_, hM.evictable, hM.protectedSize, hM.uuids.le, hM.uuids.inj, fun K hK =>
    hM.uuids.marked K (List.mem_of_mem_erase hK)⟩, hsame⟩
  · refine hkv.of_perm ?_
    have h₁ := (List.perm_cons_erase hmem).symm
    have h₂ := (List.perm_cons_erase hL).map SwaLock.node
    exact List.Perm.cons_inv (h₁.trans h₂)
  · intro n hn
    have hnil : ¬stop n <+: [] := fun hp => hM.wf.trie.stop_ne_nil hn (List.prefix_nil.mp hp)
    rw [hM.swaRef n hn, swaLockCount_erase hL]
    simp only [hnil, not_false_eq_true, and_true]

end DecLock

end FreeToken
