import FreeToken.Engine.Equiv.RuntimeCache
import FreeToken.Scheduler.CacheRebuild

/-!
# The sizes before and after a rebuild

The rollback asks for the sizes from before, of the pools that the request names: they pass the
checks, and the rollback brings them back (`geometry_prior`).  A rebuild that succeeds brings the
sizes that are asked for (`fulfils_of_resized`).
-/

namespace FreeToken.CacheRebuild

open Option

variable {c : Config} {e₀ e : Engine} {req req' : Request}

/-! ### The sizes -/

/-- The window of a pool, as it is reported. -/
def windowFor (c : Config) (kind : Kind) (override : Option ℕ) (numPages : ℕ) : Option ℕ :=
  match kind with
  | .slabs => none
  | .hybrid => if c.cacheType = .swaRadix then some (hybridSwaTokens c override numPages none - 1)
    else none
  | .dsv4 => some ((dsv4PoolSizes c override (numPages + 1) none).nWinPages - 1)

theorem Engine.Serves.window (h : e.Serves c) :
    (currentCacheGeometry c e).numSwaPages = windowFor c e.kv.kind e.override e.numPages := by
  have hkv := h.kv
  cases hk : e.kv with
  | slabs pool => simp only [currentCacheGeometry, hk, KvPool.kind, windowFor]
  | hybrid pool =>
    rw [hk, KvPool.Whole] at hkv
    simp only [currentCacheGeometry, hk, KvPool.kind, windowFor, hkv.swaNumTokens]
  | dsv4 pool =>
    rw [hk, KvPool.Whole] at hkv
    simp only [currentCacheGeometry, hk, KvPool.kind, windowFor, hkv.sizes]

variable {kind : Kind} {override : Option ℕ} {numPages w : ℕ}

/-- A window is pinned by its size. -/
theorem windowFor_pin (h : windowFor c kind override numPages = some w) :
    windowFor c kind (some w) numPages = some w := by
  have hfloor := c.two_le_windowFloor
  cases kind with
  | slabs => cases h
  | hybrid =>
    rw [windowFor] at h ⊢
    split at h
    · rename_i hradix
      have hw := Option.some.inj h
      rw [if_pos hradix]
      rw [hybridSwaTokens, if_pos hradix, swaPagedNumTokens, none_or] at hw ⊢
      congr 1
      cases override <;> dsimp only at hw ⊢ <;> omega
    · cases h
  | dsv4 =>
    have hw := Option.some.inj h
    rw [windowFor]
    rw [dsv4PoolSizes, none_or] at hw ⊢
    congr 1
    cases override <;> dsimp only at hw ⊢ <;> omega

theorem windowFor_pos (hpages : 0 < numPages)
    (h : windowFor c kind override numPages = some w) : 0 < w := by
  have hfloor := c.two_le_windowFloor
  cases kind with
  | slabs => cases h
  | hybrid =>
    rw [windowFor] at h
    split at h
    · rename_i hradix
      have hw := Option.some.inj h
      rw [hybridSwaTokens, if_pos hradix, swaPagedNumTokens, none_or] at hw
      cases override <;> dsimp only at hw <;> omega
    · cases h
  | dsv4 =>
    have hw := Option.some.inj h
    rw [dsv4PoolSizes, none_or] at hw
    cases override <;> dsimp only at hw <;> omega

theorem windowFor_isSome {kv : KvPool} (h : kv.supportsSwaRatio c = true) (override : Option ℕ)
    (numPages : ℕ) :
    (windowFor c kv.kind override numPages).isSome = true := by
  cases kv with
  | slabs pool => cases h
  | hybrid pool =>
    rw [KvPool.kind, windowFor, if_pos (eq_of_beq h)]
    rfl
  | dsv4 pool => rfl

/-! ### The request of the rollback -/

variable {current : Option ℕ} {asked : Option ℤ}

theorem isSome_priorOf (h : asked.isSome = true → current.isSome = true) :
    (priorOf asked current).isSome = asked.isSome := by
  cases asked with
  | none => rfl
  | some n =>
    obtain ⟨m, rfl⟩ := isSome_iff_exists.mp (h rfl)
    rfl

theorem mem_priorOf {n : ℤ} (h : n ∈ priorOf asked current) :
    ∃ m : ℕ, current = some m ∧ n = m ∧ asked.isSome = true := by
  cases asked with
  | none => cases h
  | some k =>
    obtain ⟨m, hm, rfl⟩ := map_eq_some_iff.mp (mem_def.mp h)
    exact ⟨m, hm, rfl, rfl⟩

/-- **The rollback names the pools that the request names.** -/
theorem names_prior (hserves : e₀.Serves c) (hvalid : req.Valid c e₀) :
    req.Names (priorRequest c e₀ req) where
  moe := isSome_priorOf fun h => by
    obtain ⟨n, hn⟩ := isSome_iff_exists.mp h
    obtain ⟨cache, hcache, -⟩ := hvalid.moe n hn
    rw [currentCacheGeometry, hcache]
    rfl
  pages := isSome_priorOf fun _ => rfl
  mamba := isSome_priorOf fun h => by
    obtain ⟨n, hn⟩ := isSome_iff_exists.mp h
    rw [currentCacheGeometry, isSome_map]
    exact (hvalid.mamba n hn).1
  window := isSome_priorOf fun h => by
    obtain ⟨n, hn⟩ := isSome_iff_exists.mp h
    rw [hserves.window]
    exact windowFor_isSome (hvalid.window n hn).1 _ _

/-- **The sizes that serve pass the checks of the engine.** -/
theorem valid_prior (hserves : e₀.Serves c) (hvalid : req.Valid c e₀) :
    (priorRequest c e₀ req).Valid c e₀ where
  moe n hn := by
    obtain ⟨m, hm, rfl, -⟩ := mem_priorOf hn
    obtain ⟨cache, hcache, rfl⟩ := map_eq_some_iff.mp hm
    exact ⟨cache, hcache, (hserves.moe cache hcache).2⟩
  pages n hn := by
    obtain ⟨m, hm, rfl, -⟩ := mem_priorOf hn
    have hpages := hserves.pages
    have hm := Option.some.inj hm
    rw [currentCacheGeometry] at hm
    dsimp only at hm
    omega
  mamba n hn := by
    obtain ⟨m, hm, rfl, -⟩ := mem_priorOf hn
    obtain ⟨pool, hpool, rfl⟩ := map_eq_some_iff.mp hm
    have hmin := (hserves.linear pool hpool).2
    exact ⟨by rw [hpool]; rfl, by omega⟩
  window n hn := by
    obtain ⟨m, hm, rfl, hasked⟩ := mem_priorOf hn
    obtain ⟨k, hk⟩ := isSome_iff_exists.mp hasked
    rw [hserves.window] at hm
    have hpos := windowFor_pos hserves.pages hm
    exact ⟨(hvalid.window k hk).1, by omega⟩

theorem admits_of_valid (hvalid : req.Valid c e) (hpool : e.poolAdmits c req = true) :
    e.admits c req = true := by
  simp only [Engine.admits, asked, Bool.and_eq_true, all_eq_true, any_eq_true, decide_eq_true_eq]
  exact ⟨⟨⟨⟨hvalid.moe, hvalid.pages⟩, hvalid.mamba⟩, hvalid.window⟩, hpool⟩

/-! ### The sizes afterwards -/

/-- **After the rollback the sizes are the old ones.** -/
theorem geometry_prior (hserves : e₀.Serves c) (hvalid : req.Valid c e₀) (h : e.Serves c)
    (hresized : Engine.Resized c e₀ req (priorRequest c e₀ req) e) :
    currentCacheGeometry c e = currentCacheGeometry c e₀ := by
  -- a size that the request does not name was not touched; one that it names is named again
  have hpages : e.numPages = e₀.numPages := by
    cases ho : req.numPages with
    | none => exact (hresized.half.pages ho).1
    | some n =>
      have hprior : ((e₀.numPages : ℕ) : ℤ) ∈ (priorRequest c e₀ req).numPages := by
        rw [priorRequest, ho]
        rfl
      rw [hresized.kv.pages _ hprior, Int.toNat_natCast]
  have hmoe :
    (currentCacheGeometry c e).moeCacheSize = (currentCacheGeometry c e₀).moeCacheSize := by
    cases ho : req.moeCacheSize with
    | none => rw [currentCacheGeometry, currentCacheGeometry, hresized.half.moeKept ho]
    | some n =>
      obtain ⟨cache₀, hcache₀, -⟩ := hvalid.moe n ho
      have hprior : ((cache₀.cacheSize : ℕ) : ℤ) ∈ (priorRequest c e₀ req).moeCacheSize := by
        rw [priorRequest, ho, currentCacheGeometry, hcache₀]
        rfl
      obtain ⟨cache, hcache, -, hsize⟩ := hresized.moe _ hprior
      rw [Int.toNat_natCast] at hsize
      rw [currentCacheGeometry, currentCacheGeometry, hcache, hcache₀]
      exact congrArg some hsize
  have hmamba :
    (currentCacheGeometry c e).numMambaSlots = (currentCacheGeometry c e₀).numMambaSlots := by
    cases ho : req.numMambaSlots with
    | none => rw [currentCacheGeometry, currentCacheGeometry, hresized.half.linearKept ho]
    | some n =>
      obtain ⟨pool₀, hpool₀⟩ := isSome_iff_exists.mp (hvalid.mamba n ho).1
      have hprior : ((pool₀.numSlots - 1 : ℕ) : ℤ) ∈ (priorRequest c e₀ req).numMambaSlots := by
        rw [priorRequest, ho, currentCacheGeometry, hpool₀]
        rfl
      obtain ⟨pool, hpool, -, hsize, -⟩ := hresized.linear _ hprior
      rw [Int.toNat_natCast] at hsize
      rw [currentCacheGeometry, currentCacheGeometry, hpool, hpool₀]
      have hslots : pool.numSlots - 1 = pool₀.numSlots - 1 := by omega
      exact congrArg some hslots
  have hwindow :
    (currentCacheGeometry c e).numSwaPages = (currentCacheGeometry c e₀).numSwaPages := by
    rw [h.window, hserves.window, hresized.half.kvKind, hpages]
    cases ho : req.numSwaPages with
    | none => rw [hresized.half.override ho]
    | some n =>
      obtain ⟨w, hw⟩ :=
        isSome_iff_exists.mp (windowFor_isSome (hvalid.window n ho).1 e₀.override e₀.numPages)
      have hprior : ((w : ℕ) : ℤ) ∈ (priorRequest c e₀ req).numSwaPages := by
        rw [priorRequest, ho, hserves.window, hw]
        rfl
      -- the window is pinned to the pages it had
      rw [hresized.pinned _ hprior, Int.toNat_natCast, hw]
      exact windowFor_pin hw
  exact Geometry.ext hmoe hpages hmamba hwindow

/-- The window that a request for `n` units gets: the floor of the concurrency, and at most the
pages that there are. -/
def windowAsked (c : Config) (kind : Kind) (numPages n : ℕ) : ℕ :=
  match kind with
  | .slabs => 0
  | .hybrid => max c.windowFloor n
  | .dsv4 => min (numPages + 1) (max c.windowFloor (n + 1)) - 1

/-- What a request that is carried out has made of the sizes. -/
structure Fulfils (c : Config) (kind : Kind) (req : Request) (before after : Geometry) : Prop where
  moe : ∀ n ∈ req.moeCacheSize, after.moeCacheSize.map Nat.cast = some n
  moeKept : req.moeCacheSize = none → after.moeCacheSize = before.moeCacheSize
  pages : ∀ n ∈ req.numPages, (after.numPages : ℤ) = n
  pagesKept : req.numPages = none → after.numPages = before.numPages
  mamba : ∀ n ∈ req.numMambaSlots, after.numMambaSlots.map Nat.cast = some n
  mambaKept : req.numMambaSlots = none → after.numMambaSlots = before.numMambaSlots
  window : ∀ n ∈ req.numSwaPages, after.numSwaPages =
    some (windowAsked c kind after.numPages n.toNat)
  windowKept : req.numPages = none → req.numSwaPages = none → after.numSwaPages = before.numSwaPages

/-- A window that the pool can have: not below the floor of the concurrency, nor above the pages
that there are.  A pool without a window has the window 0. -/
def windowInRange (c : Config) (kind : Kind) (numPages : ℕ) (n : ℤ) : Prop :=
  match kind with
  | .slabs => n = 0
  | .hybrid => c.windowFloor ≤ n
  | .dsv4 => min (c.windowFloor : ℤ) (numPages + 1) ≤ n + 1 ∧ n ≤ numPages

/-- The window that a request asks for, at the page count that it asks for, is in range. -/
def Request.WindowInRange (c : Config) (e : Engine) (req : Request) : Prop :=
  ∀ n ∈ req.numSwaPages, windowInRange c e.kv.kind ((req.numPages.map Int.toNat).getD e.numPages) n

/-- Every pool that the request names has the requested size. -/
structure Geometry.Meets (req : Request) (geo : Geometry) : Prop where
  moe : ∀ n ∈ req.moeCacheSize, geo.moeCacheSize.map Nat.cast = some n
  pages : ∀ n ∈ req.numPages, (geo.numPages : ℤ) = n
  mamba : ∀ n ∈ req.numMambaSlots, geo.numMambaSlots.map Nat.cast = some n
  window : ∀ n ∈ req.numSwaPages, geo.numSwaPages.map Nat.cast = some n

/-- A window in range is the one that the pool gets. -/
theorem windowAsked_eq_iff {n : ℤ} :
    (windowAsked c kind numPages n.toNat : ℤ) = n ↔ windowInRange c kind numPages n := by
  have hfloor := c.two_le_windowFloor
  cases kind with
  | slabs =>
    rw [windowAsked, windowInRange]
    omega
  | hybrid =>
    rw [windowAsked, windowInRange]
    omega
  | dsv4 =>
    rw [windowAsked, windowInRange]
    omega

/-- **A request that is carried out gets the sizes that it asks for, just when its window is in
range.** -/
theorem Fulfils.meets_iff {before after : Geometry} (h : Fulfils c kind req before after) :
    after.Meets req ↔
      ∀ n ∈ req.numSwaPages, windowInRange c kind
        ((req.numPages.map Int.toNat).getD before.numPages) n := by
  have hpages : (req.numPages.map Int.toNat).getD before.numPages = after.numPages := by
    cases ho : req.numPages with
    | none => exact (h.pagesKept ho).symm
    | some n =>
      have hn := h.pages n ho
      show n.toNat = _
      omega
  have hiff : ∀ n ∈ req.numSwaPages, after.numSwaPages.map Nat.cast = some n ↔
      windowInRange c kind after.numPages n := by
    intro n hn
    rw [h.window n hn, map_some, some_inj, windowAsked_eq_iff]
  rw [hpages]
  constructor
  · exact fun hmeets n hn => (hiff n hn).mp (hmeets.window n hn)
  · exact fun hrange => ⟨h.moe, h.pages, h.mamba, fun n hn => (hiff n hn).mpr (hrange n hn)⟩

theorem fulfils_of_resized (hserves : e₀.Serves c) (hvalid : req.Valid c e₀) (h : e.Serves c)
    (hresized : Engine.Resized c e₀ req req e) :
    Fulfils c e₀.kv.kind req (currentCacheGeometry c e₀) (currentCacheGeometry c e) where
  moe n hn := by
    obtain ⟨cache₀, -, hcheck⟩ := hvalid.moe n hn
    have hpos := of_decide_eq_true (Bool.and_eq_true_iff.mp hcheck).1
    obtain ⟨cache, hcache, -, hsize⟩ := hresized.moe n hn
    have hsize : (cache.cacheSize : ℤ) = n := by omega
    rw [currentCacheGeometry, hcache]
    exact congrArg some hsize
  moeKept ho := by rw [currentCacheGeometry, currentCacheGeometry, hresized.half.moeKept ho]
  pages n hn := by
    have hpos := hvalid.pages n hn
    have hsize := hresized.kv.pages n hn
    rw [currentCacheGeometry]
    dsimp only
    omega
  pagesKept ho := (hresized.half.pages ho).1
  mamba n hn := by
    have hmin := (hvalid.mamba n hn).2
    have hpos := c.linearPoolMinSlots_pos
    obtain ⟨pool, hpool, -, hsize, -⟩ := hresized.linear n hn
    have hslots : ((pool.numSlots - 1 : ℕ) : ℤ) = n := by omega
    rw [currentCacheGeometry, hpool]
    exact congrArg some hslots
  mambaKept ho := by rw [currentCacheGeometry, currentCacheGeometry, hresized.half.linearKept ho]
  window n hn := by
    have hratio := (hvalid.window n hn).1
    rw [h.window, hresized.half.kvKind, hresized.pinned n hn]
    -- only these pools have a window of their own
    cases hk : e₀.kv with
    | slabs pool =>
      rw [hk] at hratio
      cases hratio
    | hybrid pool =>
      rw [hk] at hratio
      have hradix : c.cacheType = .swaRadix := eq_of_beq hratio
      rw [KvPool.kind, windowFor, if_pos hradix, hybridSwaTokens, if_pos hradix, swaPagedNumTokens,
        none_or]
      rfl
    | dsv4 pool =>
      rw [KvPool.kind, windowFor, dsv4PoolSizes, none_or, windowAsked, currentCacheGeometry]
      dsimp only
      rw [min_assoc, min_comm _ (e.numPages + 1), ← min_assoc, min_self]
  windowKept hp hs := by
    rw [h.window, hserves.window, hresized.half.kvKind, (hresized.half.pages hp).1,
      hresized.half.override hs]

end FreeToken.CacheRebuild
