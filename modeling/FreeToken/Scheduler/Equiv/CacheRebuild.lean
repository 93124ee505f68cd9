import FreeToken.Scheduler.Equiv.CacheGeometry

/-!
# A cache rebuild is carried out, or undone

`Scheduler.Idle` is what holds of a server that waits for requests: the engine serves, the page
table is everywhere the same, and every page, slot, window unit and row is free or held by the
prefix cache.  Each rebuild of such a server ends in such a state, and answers once:
`executePendingRebuild_answered`.

`Reachable` are the servers that have started, served and been rebuilt, in any order.  All of them
are idle in the sense of `Scheduler.Idle`, and each rebuild is all or nothing:
`rebuild_all_or_nothing`.
-/

namespace FreeToken.CacheRebuild

open Option Faulting

variable {c : Config} {e₀ e : Engine} {req req' : Request}

/-! ### Idle servers -/

/-- The prefix cache holds a second currency in the radix trees for it only. -/
structure CacheManager.Trees (c : Config) (cache : CacheManager) : Prop where
  states : c.cacheType ≠ .hybridRadix → cache.treeSlots = []
  window : c.cacheType ≠ .swaRadix → cache.treeSwa = 0

/-- What holds of a server that waits for requests. -/
structure Scheduler.Idle (c : Config) (s : Scheduler) : Prop where
  serves : s.engine.Serves c
  resolved : c.cacheType = .swaRadix → s.engine.linear = none
  cachePages : s.cache.numPages = s.engine.numPages
  cacheTable : s.cache.pageTable = s.engine.pageTable
  pageSlots : (s.cache.freeSlots ++ s.cache.prefixPages).Perm
    (pageSlots s.engine.numPages c.pageSize)
  states : StatesKept s.engine.linear s.cache.treeSlots
  trees : s.cache.Trees c
  window : s.engine.kv.swaAvailable + s.cache.treeSwa = s.engine.kv.swaCapacity
  rowTable : s.table.pageTable = s.engine.pageTable
  rows : s.table.freeSlots.Perm (List.range s.table.maxRunningReqs)
  tokenPool : s.tokenPool = s.table.tokenPool
  tokenWidth : s.table.tokenPool.width = s.engine.pageTable.width
  prefillBudget : s.prefillBudget = prefillCap c s.cache.prefillChunkBudget

/-- What is left of an idle server `s₀` while a rebuild is under way; `linear` is its state pool,
with its slots reclaimed or not. -/
structure Scheduler.Half (c : Config) (s₀ : Scheduler) (req : Request)
    (linear : Option LinearStatePool) (s : Scheduler) :
    Prop where
  engine : Engine.Half c { s₀.engine with linear } req s.engine
  runnable : s.runnable = s₀.runnable
  sent : s.sent = s₀.sent
  pending : s.pendingRebuild = s₀.pendingRebuild
  prefillBudget : s.prefillBudget = s₀.prefillBudget
  chunkBudget : s.cache.prefillChunkBudget = s₀.cache.prefillChunkBudget
  rowCount : s.table.maxRunningReqs = s₀.table.maxRunningReqs
  table : req.numPages = none → s.table = s₀.table ∧ s.tokenPool = s₀.tokenPool
  cache : req.numPages = none → req.numMambaSlots = none → req.numSwaPages = none →
    s.cache = s₀.cache
  trees : s.cache.Trees c
  states : req.numMambaSlots = none → StatesKept s.engine.linear s.cache.treeSlots
  window : req.numPages = none → req.numSwaPages = none → s.engine.kv.swaAvailable +
    s.cache.treeSwa = s.engine.kv.swaCapacity

/-- Half of a server is left in this state, whatever became of the slots. -/
def Scheduler.Struck (c : Config) (s₀ : Scheduler) (req : Request) (s : Scheduler) : Prop :=
  ∃ linear, SameStates linear s₀.engine.linear ∧ Scheduler.Half c s₀ req linear s

/-! ### The engine's part -/

variable {s₀ s₁ s : Scheduler} {linear : Option LinearStatePool}

/-- The engine's part does not touch the managers. -/
theorem Scheduler.Half.withEngine (h : Scheduler.Half c s₀ req linear s)
    (he : Engine.Half c { s₀.engine with linear } req e) :
    Scheduler.Half c s₀ req linear { s with engine := e } :=
  { h with
    engine := he
    states := fun hm => by
      have hstates := h.states hm
      rw [h.engine.linearKept hm] at hstates
      show StatesKept e.linear s.cache.treeSlots
      rw [he.linearKept hm]
      exact hstates
    window := fun hp hs => by
      have hwindow := h.window hp hs
      obtain ⟨table, hkv⟩ := h.engine.kvKept hp hs
      obtain ⟨table', hkv'⟩ := he.kvKept hp hs
      simp only [hkv, hkv', KvPool.swaAvailable_attach, KvPool.swaCapacity_attach] at hwindow ⊢
      exact hwindow }

/-- The managers of a server whose engine serves again. -/
structure Scheduler.EngineDone (c : Config) (s₀ : Scheduler) (req req' : Request)
    (linear : Option LinearStatePool) (s : Scheduler) : Prop where
  half : Scheduler.Half c s₀ req linear s
  serves : s.engine.Serves c
  resized : Engine.Resized c { s₀.engine with linear } req req' s.engine

theorem keeps_onEngine
    (hready : Scheduler.Half c s₀ req linear
      { s₁ with engine := { s₁.engine with teardownStarted := true } })
    (hsame : SameStates linear s₀.engine.linear) (hnames : req.Names req')
    (hserves : s₀.engine.Serves c)
    (hvalid : req'.Valid c s₀.engine) (hadmits : s₁.engine.admits c req' = true)
    (hsome : req'.isEmpty = false) :
    Keeps (fun s => s = s₁) (Scheduler.onEngine (Engine.rebuildRuntimeCache c req'))
      (fun _ => Scheduler.EngineDone c s₀ req req' linear)
      fun p s => req.losesShape s₀.engine.kv.kind p = false → s = s₁ ∨
        Scheduler.Half c s₀ req linear s := by
  have hengine := keeps_rebuildRuntimeCache hready.engine hnames (hserves.withStates hsame)
    (hvalid.withStates hsame) hadmits hsome
  refine (hengine.zoom Scheduler.engine (fun engine s => { s with engine }) (fun s => s = s₁)
    fun s hs => hs ▸ rfl).mono (fun _ h => h) (fun _ s h => ?_) fun p s h hp => ?_
  · obtain ⟨s, e, rfl, rfl, hserves, hresized⟩ := h
    exact ⟨hready.withEngine hresized.half, hserves, hresized⟩
  · obtain ⟨s, e, rfl, rfl, rfl | hstruck⟩ := h
    · exact .inl rfl
    · exact .inr (hready.withEngine (hstruck hp))

/-! ### The managers -/

/-- A request for pages, state slots or a window resets the prefix cache. -/
def Request.resetsCache (req : Request) : Bool :=
  req.numPages.isSome || req.numMambaSlots.isSome || req.numSwaPages.isSome

theorem Scheduler.Half.withCache (h : Scheduler.Half c s₀ req linear s)
    (hreset : req.resetsCache = true) {cache : CacheManager}
    (hchunk : cache.prefillChunkBudget = s.cache.prefillChunkBudget)
    (hslots : cache.treeSlots = s.cache.treeSlots)
    (hswa : cache.treeSwa = s.cache.treeSwa) : Scheduler.Half c s₀ req linear { s with cache } :=
  { h with
    chunkBudget := hchunk.trans h.chunkBudget
    cache := fun hp hm hs => by
      rw [Request.resetsCache, hp, hm, hs] at hreset
      cases hreset
    trees := ⟨fun hc => hslots.trans (h.trees.states hc), fun hc => hswa.trans (h.trees.window hc)⟩
    states := fun hm => by
      show StatesKept s.engine.linear cache.treeSlots
      rw [hslots]
      exact h.states hm
    window := fun hp hs => by
      show s.engine.kv.swaAvailable + cache.treeSwa = _
      rw [hswa]
      exact h.window hp hs }

/-- A prefix cache that is dropped leaves all slots and units free. -/
theorem Scheduler.Half.reset {linear' : Option LinearStatePool}
    (h : Scheduler.Half c s₀ req linear s)
    (hreset : req.resetsCache = true) {cache : CacheManager}
    (he : Engine.Half c { s₀.engine with linear := linear' } req e)
    (hchunk : cache.prefillChunkBudget = s.cache.prefillChunkBudget) (hslots : cache.treeSlots = [])
    (hswa : cache.treeSwa = 0)
    (hstates : StatesKept e.linear []) (hwindow : e.kv.swaAvailable = e.kv.swaCapacity) :
    Scheduler.Half c s₀ req linear' { s with engine := e, cache } :=
  { h with
    engine := he
    chunkBudget := hchunk.trans h.chunkBudget
    cache := fun hp hm hs => by
      rw [Request.resetsCache, hp, hm, hs] at hreset
      cases hreset
    trees := ⟨fun _ => hslots, fun _ => hswa⟩
    states := fun _ => by
      show StatesKept e.linear cache.treeSlots
      rw [hslots]
      exact hstates
    window := fun _ _ => by
      show e.kv.swaAvailable + cache.treeSwa = e.kv.swaCapacity
      rw [hswa, hwindow, add_zero] }

/-- A cache manager that has been rebuilt. -/
structure Scheduler.CacheFresh (c : Config) (s : Scheduler) : Prop where
  pages : s.cache.numPages = s.engine.numPages
  table : s.cache.pageTable = s.engine.pageTable
  freeSlots : s.cache.freeSlots = pageSlots s.engine.numPages c.pageSize
  prefixPages : s.cache.prefixPages = []
  treeSlots : s.cache.treeSlots = []
  treeSwa : s.cache.treeSwa = 0
  states : StatesKept s.engine.linear []
  window : s.engine.kv.swaAvailable = s.engine.kv.swaCapacity

/-- The window's units are all free once the prefix cache is dropped. -/
theorem Scheduler.EngineDone.window (h : Scheduler.EngineDone c s₀ req req' linear s)
    (hnames : req.Names req')
    (hidle : s₀.Idle c) (hvalid : req'.Valid c s₀.engine) (hreset : req'.resetsCache = true) :
    s.engine.kv.swaAvailable = s.engine.kv.swaCapacity := by
  by_cases hkv : req'.numPages.isSome = true ∨ req'.numSwaPages.isSome = true
  · exact h.resized.kv.free hkv
  · have hp : req'.numPages = none := not_isSome_iff_eq_none.mp fun hp => hkv (.inl hp)
    have hs : req'.numSwaPages = none := not_isSome_iff_eq_none.mp fun hs => hkv (.inr hs)
    rw [Request.resetsCache, hp, hs] at hreset
    obtain ⟨n, hn⟩ :=
      isSome_iff_exists.mp (show req'.numMambaSlots.isSome = true by simpa using hreset)
    -- a model with a state pool has no radix tree of the window
    have hradix : c.cacheType ≠ .swaRadix := fun hradix => by
      have hlinear := (hvalid.mamba n hn).1
      rw [hidle.resolved hradix] at hlinear
      cases hlinear
    have hwindow :=
      h.half.window (unnamed_of_none hnames.pages hp) (unnamed_of_none hnames.window hs)
    rwa [h.half.trees.window hradix, add_zero] at hwindow

theorem Scheduler.EngineDone.states (h : Scheduler.EngineDone c s₀ req req' linear s)
    (hnames : req.Names req')
    (hradix : c.cacheType ≠ .hybridRadix) : StatesKept s.engine.linear [] := by
  cases hm : req'.numMambaSlots with
  | none =>
    have hstates := h.half.states (unnamed_of_none hnames.mamba hm)
    rwa [h.half.trees.states hradix] at hstates
  | some n =>
    intro pool hpool
    obtain ⟨pool', hpool', -, -, hfree⟩ := h.resized.linear n hm
    cases hpool.symm.trans hpool'
    rw [hfree, List.append_nil]

theorem keeps_rebuildCacheManager (hsame : SameStates linear s₀.engine.linear)
    (hnames : req.Names req') (hidle : s₀.Idle c)
    (hvalid : req'.Valid c s₀.engine) (hreset : req'.resetsCache = true)
    (hreset₀ : req.resetsCache = true) :
    Keeps (Scheduler.EngineDone c s₀ req req' linear) (Scheduler.rebuildCacheManager c)
      (fun _ s =>
        (∃ linear, SameStates linear s₀.engine.linear ∧
        Scheduler.EngineDone c s₀ req req' linear s) ∧ s.CacheFresh c)
      fun _ => Scheduler.Struck c s₀ req := by
  refine Keeps.modify_bind (fun s => Scheduler.EngineDone c s₀ req req' linear s ∧
    s.cache.numPages = s.engine.numPages ∧ s.cache.pageTable = s.engine.pageTable)
    (fun s h => ⟨⟨h.half.withCache hreset₀ rfl rfl rfl, h.serves, h.resized⟩, rfl, rfl⟩) ?_
  refine keeps_step_bind (fun s h => ⟨linear, hsame, h.1.half⟩) ?_
  refine Keeps.modify_bind (fun s => Scheduler.EngineDone c s₀ req req' linear s ∧
    s.cache.numPages = s.engine.numPages ∧ s.cache.pageTable = s.engine.pageTable ∧
    s.cache.freeSlots = pageSlots s.engine.numPages c.pageSize)
    (fun s h => ⟨⟨h.1.half.withCache hreset₀ rfl rfl rfl, h.1.serves, h.1.resized⟩, h.2.1, h.2.2,
    rfl⟩) ?_
  refine keeps_step_bind (fun s h => ⟨linear, hsame, h.1.half⟩) ?_
  -- the tree is dropped, and its state slots are reclaimed with no failure between
  refine Keeps.modify_bind (fun s => ∃ s', (Scheduler.EngineDone c s₀ req req' linear s' ∧
    s'.cache.numPages = s'.engine.numPages ∧ s'.cache.pageTable = s'.engine.pageTable ∧
    s'.cache.freeSlots = pageSlots s'.engine.numPages c.pageSize) ∧
    s = { s' with cache := { s'.cache with prefixPages := [], treeSlots := [], treeSwa := 0 } })
    (fun s h => ⟨s, h, rfl⟩) (Keeps.modify fun s h => ?_)
  obtain ⟨s', ⟨hdone, hpages, htable, hfree⟩, rfl⟩ := h
  have hwindow := hdone.window hnames hidle hvalid hreset
  by_cases hradix : c.cacheType = .hybridRadix
  · rw [if_pos hradix]
    refine ⟨⟨_, sameStates_reclaim.trans hsame, ?_, hdone.serves.withStates sameStates_reclaim,
      hdone.resized.reclaim⟩, hpages, htable, hfree, rfl, rfl, rfl, statesKept_reclaim, hwindow⟩
    exact hdone.half.reset hreset₀ hdone.resized.half.reclaim rfl rfl rfl statesKept_reclaim hwindow
  · rw [if_neg hradix]
    have hstates := hdone.states hnames hradix
    refine ⟨⟨linear, hsame, ?_, hdone.serves, hdone.resized⟩, hpages, htable, hfree, rfl, rfl, rfl,
      hstates, hwindow⟩
    exact hdone.half.reset hreset₀ hdone.half.engine rfl rfl rfl hstates hwindow

/-- The page table and the token pool are the engine's. -/
structure Scheduler.TableFits (s : Scheduler) : Prop where
  rowTable : s.table.pageTable = s.engine.pageTable
  rows : s.table.freeSlots.Perm (List.range s.table.maxRunningReqs)
  tokenPool : s.tokenPool = s.table.tokenPool
  tokenWidth : s.table.tokenPool.width = s.engine.pageTable.width

theorem Scheduler.Half.tableFits (h : Scheduler.Half c s₀ req linear s) (hidle : s₀.Idle c)
    (hp : req.numPages = none) :
    s.TableFits := by
  obtain ⟨htable, htoken⟩ := h.table hp
  have hpage := (h.engine.pages hp).2
  refine ⟨?_, ?_, ?_, ?_⟩
  · rw [htable, hpage]
    exact hidle.rowTable
  · rw [htable]
    exact hidle.rows
  · rw [htable, htoken]
    exact hidle.tokenPool
  · rw [htable, hpage]
    exact hidle.tokenWidth

/-- The cache manager is rebuilt, over an engine that serves. -/
def Scheduler.CacheDone (c : Config) (s₀ : Scheduler) (req req' : Request) (s : Scheduler) : Prop :=
  (∃ linear, SameStates linear s₀.engine.linear ∧ Scheduler.EngineDone c s₀ req req' linear s) ∧
    s.CacheFresh c

theorem Scheduler.CacheDone.struck (h : Scheduler.CacheDone c s₀ req req' s) :
    Scheduler.Struck c s₀ req s := by
  obtain ⟨⟨linear, hsame, hdone⟩, -⟩ := h
  exact ⟨linear, hsame, hdone.half⟩

/-- The table manager and the numbers of the tables are of no concern to the caches. -/
theorem Scheduler.CacheDone.withTable (h : Scheduler.CacheDone c s₀ req req' s)
    (hnamed : req.numPages ≠ none)
    (table : TableManager) (hrows : table.maxRunningReqs = s.table.maxRunningReqs) (nextTable : ℕ)
    (tokenPool : Table) :
    Scheduler.CacheDone c s₀ req req'
      { s with table, tokenPool, engine := { s.engine with nextTable } } := by
  obtain ⟨⟨linear, hsame, hdone⟩, hfresh⟩ := h
  refine ⟨⟨linear, hsame, ?_, { hdone.serves with }, hdone.resized.withTable fun _ => rfl⟩,
    { hfresh with }⟩
  exact { hdone.half with
      engine := { hdone.half.engine with }
      rowCount := hrows.trans hdone.half.rowCount
      table := fun hp => absurd hp hnamed }

theorem keeps_rebuildTableManager (hnamed : req.numPages ≠ none) :
    Keeps (Scheduler.CacheDone c s₀ req req') Scheduler.rebuildTableManager
      (fun _ s => Scheduler.CacheDone c s₀ req req' s ∧ s.TableFits) fun _ =>
      Scheduler.Struck c s₀ req := by
  refine Keeps.modify_bind (fun s => Scheduler.CacheDone c s₀ req req' s ∧
    s.table.pageTable = s.engine.pageTable)
    (fun s h =>
    ⟨h.withTable hnamed { s.table with pageTable := s.engine.pageTable } rfl s.engine.nextTable
    s.tokenPool, rfl⟩) ?_
  refine keeps_step_bind (fun s h => h.1.struck) ?_
  refine Keeps.modify_bind (fun s => Scheduler.CacheDone c s₀ req req' s ∧
    s.table.pageTable = s.engine.pageTable ∧ s.table.freeSlots = List.range s.table.maxRunningReqs ∧
    s.table.tokenPool.width = s.engine.pageTable.width)
    (fun s h => ⟨h.1.withTable hnamed _ (by rfl) _ s.tokenPool, h.2, rfl, rfl⟩)
    (Keeps.modify fun s h => ?_)
  obtain ⟨hdone, htable, hrows, hwidth⟩ := h
  exact ⟨hdone.withTable hnamed s.table rfl s.engine.nextTable s.table.tokenPool, htable,
    hrows ▸ List.Perm.refl _, rfl, hwidth⟩

/-- **The managers agree on the pages**, so that `check_integrity` passes. -/
theorem Scheduler.CacheFresh.integral (h : s.CacheFresh c) : s.integral c = true := by
  have hsecond : s.secondCurrency c = true := by
    rw [Scheduler.secondCurrency]
    cases c.cacheType with
    | hybridRadix =>
      rw [all_eq_true]
      intro pool hpool
      have hslots := (h.states pool hpool).length_eq
      rw [List.append_nil, poolSlots, List.length_range'] at hslots
      simp [h.treeSlots, hslots]
    | swaRadix => simp [h.treeSwa, h.window]
    | _ => rfl
  simp [Scheduler.integral, hsecond, h.pages, h.freeSlots, h.prefixPages, pageSlots]

/-- A server that has been rebuilt for `req'`. -/
structure Scheduler.Rebuilt (c : Config) (s₀ : Scheduler) (req req' : Request) (s : Scheduler) :
    Prop where
  idle : s.Idle c
  runnable : s.runnable = s₀.runnable
  sent : s.sent = s₀.sent
  pending : s.pendingRebuild = s₀.pendingRebuild
  engine : ∃ linear, SameStates linear s₀.engine.linear ∧
    Engine.Resized c { s₀.engine with linear } req req' s.engine

/-- What follows the managers is the budget only. -/
def Scheduler.budgeted (c : Config) (s : Scheduler) : Scheduler :=
  { s with prefillBudget := prefillCap c s.cache.prefillChunkBudget }

theorem Scheduler.EngineDone.resolved (h : Scheduler.EngineDone c s₀ req req' linear s)
    (hsame : SameStates linear s₀.engine.linear) (hidle : s₀.Idle c)
    (hradix : c.cacheType = .swaRadix) : s.engine.linear = none := by
  have hsome := h.half.engine.linearIs.trans hsame.isSome_eq
  rw [hidle.resolved hradix] at hsome
  exact isNone_iff_eq_none.mp (isSome_eq_false_iff.mp hsome)

/-- With the cache reset, all is free. -/
theorem Scheduler.CacheDone.rebuilt (h : Scheduler.CacheDone c s₀ req req' s) (hfits : s.TableFits)
    (hidle : s₀.Idle c) :
    Scheduler.Rebuilt c s₀ req req' (s.budgeted c) := by
  obtain ⟨⟨linear, hsame, hdone⟩, hfresh⟩ := h
  refine ⟨?_, hdone.half.runnable, hdone.half.sent, hdone.half.pending, linear, hsame,
    hdone.resized⟩
  refine
    { serves := hdone.serves
      resolved := hdone.resolved hsame hidle
      cachePages := hfresh.pages
      cacheTable := hfresh.table
      pageSlots := ?_
      states := ?_
      trees := hdone.half.trees
      window := ?_
      rowTable := hfits.rowTable
      rows := hfits.rows
      tokenPool := hfits.tokenPool
      tokenWidth := hfits.tokenWidth
      prefillBudget := rfl }
  · show (s.cache.freeSlots ++ s.cache.prefixPages).Perm _
    rw [hfresh.freeSlots, hfresh.prefixPages, List.append_nil]
    exact List.Perm.refl _
  · show StatesKept s.engine.linear s.cache.treeSlots
    rw [hfresh.treeSlots]
    exact hfresh.states
  · show s.engine.kv.swaAvailable + s.cache.treeSwa = s.engine.kv.swaCapacity
    rw [hfresh.treeSwa, hfresh.window, add_zero]

theorem Scheduler.EngineDone.rebuilt (h : Scheduler.EngineDone c s₀ req req' linear s)
    (hsame : SameStates linear s₀.engine.linear) (hidle : s₀.Idle c) (hp : req.numPages = none)
    (hm : req.numMambaSlots = none)
    (hs : req.numSwaPages = none) : Scheduler.Rebuilt c s₀ req req' (s.budgeted c) := by
  have hcache := h.half.cache hp hm hs
  have hfits := h.half.tableFits hidle hp
  obtain ⟨hpages, htable⟩ := h.half.engine.pages hp
  refine ⟨?_, h.half.runnable, h.half.sent, h.half.pending, linear, hsame, h.resized⟩
  refine
    { serves := h.serves
      resolved := h.resolved hsame hidle
      cachePages := ?_
      cacheTable := ?_
      pageSlots := ?_
      states := h.half.states hm
      trees := h.half.trees
      window := h.half.window hp hs
      rowTable := hfits.rowTable
      rows := hfits.rows
      tokenPool := hfits.tokenPool
      tokenWidth := hfits.tokenWidth
      prefillBudget := rfl }
  · show s.cache.numPages = s.engine.numPages
    rw [hcache, hpages]
    exact hidle.cachePages
  · show s.cache.pageTable = s.engine.pageTable
    rw [hcache, htable]
    exact hidle.cacheTable
  · show (s.cache.freeSlots ++ s.cache.prefixPages).Perm
      (CacheRebuild.pageSlots s.engine.numPages c.pageSize)
    rw [hcache, hpages]
    exact hidle.pageSlots

theorem keeps_rebuildManagers (hsame : SameStates linear s₀.engine.linear) (hnames : req.Names req')
    (hidle : s₀.Idle c) (hvalid : req'.Valid c s₀.engine) :
    Keeps (Scheduler.EngineDone c s₀ req req' linear) (Scheduler.rebuildManagers c req')
      (fun _ => Scheduler.Rebuilt c s₀ req req') fun _ => Scheduler.Struck c s₀ req := by
  have hresets : req.resetsCache = req'.resetsCache := by
    rw [Request.resetsCache, Request.resetsCache, hnames.pages, hnames.mamba, hnames.window]
  refine (Keeps.onlyIf (Q := fun s => Scheduler.Rebuilt c s₀ req req' (s.budgeted c))
    (fun hreset => ?_) fun hkeep s hs => ?_).bind fun _ => ?_
  · refine (keeps_rebuildCacheManager hsame hnames hidle hvalid hreset (hresets.trans hreset)).bind
      fun _ => ?_
    refine (Keeps.onlyIf (Q := fun s => Scheduler.CacheDone c s₀ req req' s ∧ s.TableFits)
      (fun hpages => ?_) fun hpages s hs => ?_).bind fun _ => Keeps.read fun s hs => ?_
    · have hnamed : req.numPages ≠ none := isSome_iff_ne_none.mp (hnames.pages.symm.trans hpages)
      exact keeps_rebuildTableManager hnamed
    · obtain ⟨⟨linear, hsame, hdone⟩, hfresh⟩ := hs
      have hunnamed :=
        isNone_iff_eq_none.mp (isSome_eq_false_iff.mp (hnames.pages.symm.trans hpages))
      exact ⟨⟨⟨linear, hsame, hdone⟩, hfresh⟩, hdone.half.tableFits hidle hunnamed⟩
    · refine (Keeps.ensure hs.1.2.integral).mono (fun _ h => h) (fun _ s' hs' => ?_) fun _ _ h => h
      subst hs'
      exact hs.1.rebuilt hs.2 hidle
  · have hkeep : req.resetsCache = false := hresets.trans hkeep
    rw [Request.resetsCache, Bool.or_eq_false_iff, Bool.or_eq_false_iff] at hkeep
    simp only [isSome_eq_false_iff, isNone_iff_eq_none] at hkeep
    exact hs.rebuilt hsame hidle hkeep.1.1 hkeep.1.2 hkeep.2
  · exact Keeps.modify fun s hs => hs

/-! ### A rebuild -/

/-- **A rebuild whose request passes the checks** ends in an idle server; struck, it has not begun,
or it can be made up for. -/
theorem keeps_rebuildCache
    (hready : Scheduler.Half c s₀ req linear
      { s₁ with engine := { s₁.engine with teardownStarted := true } })
    (hsame : SameStates linear s₀.engine.linear) (hidle : s₀.Idle c) (hnames : req.Names req')
    (hvalid : req'.Valid c s₀.engine) (hadmits : s₁.engine.admits c req' = true)
    (hsome : req'.isEmpty = false) (hrunnable : s₁.runnable = false) :
    Keeps (fun s => s = s₁) (Scheduler.rebuildCache c req')
      (fun _ => Scheduler.Rebuilt c s₀ req req')
      fun p s => req.losesShape s₀.engine.kv.kind p = false → s = s₁ ∨
        Scheduler.Struck c s₀ req s := by
  refine Keeps.read fun s hs => ?_
  subst hs
  have hrun : (!s.runnable) = true := by rw [hrunnable]; rfl
  refine (Keeps.ensure hrun).bind fun _ => ?_
  refine keeps_step_bind (fun s hs _ => .inl hs) ?_
  have hengine := keeps_onEngine hready hsame hnames hidle.serves hvalid hadmits hsome
  refine (hengine.mono (fun _ h => h) (fun _ _ h => h) fun p s h hp => ?_).bind fun _ =>
    (keeps_rebuildManagers hsame hnames hidle hvalid).mono (fun _ h => h) (fun _ _ h => h)
      fun _ _ h _ => .inr h
  rcases h hp with rfl | hhalf
  · exact .inl rfl
  · exact .inr ⟨linear, hsame, hhalf⟩

theorem refuses_rebuildCache (hadmits : s.engine.admits c req = false) (hsome : req.isEmpty = false)
    (hrunnable : s.runnable = false) : Refuses (Scheduler.rebuildCache c req) s := by
  have hrun : (!s.runnable) = true := by rw [hrunnable]; rfl
  have hengine : Refuses (Engine.rebuildRuntimeCache c req) s.engine := by
    rw [Engine.rebuildRuntimeCache, hsome]
    refine Refuses.point_bind (Refuses.read_bind ?_)
    rw [hadmits]
    exact Refuses.ensure.bind
  exact Refuses.read_bind (Refuses.ensure_bind hrun (Refuses.point_bind (hengine.zoom rfl).bind))

theorem keeps_rebuildCache_empty (hidle : s₁.Idle c) (hempty : req.isEmpty = true)
    (hrunnable : s₁.runnable = false) :
    Keeps (fun s => s = s₁) (Scheduler.rebuildCache c req) (fun _ s => s = s₁) fun _ s =>
      s = s₁ := by
  refine Keeps.read fun s hs => ?_
  subst hs
  have hrun : (!s.runnable) = true := by rw [hrunnable]; rfl
  refine (Keeps.ensure hrun).bind fun _ => ?_
  refine keeps_step_bind (fun _ hs => hs) ?_
  have hengine :
      Keeps (fun s' => s' = s) (Scheduler.onEngine (Engine.rebuildRuntimeCache c req))
      (fun _ s' => s' = s) fun _ s' => s' = s := by
    rw [Engine.rebuildRuntimeCache, hempty]
    exact fun f s' hs' => .inl ⟨(), s', rfl, hs'⟩
  refine hengine.bind fun _ => ?_
  simp only [Request.isEmpty, Bool.and_eq_true, isNone_iff_eq_none] at hempty
  obtain ⟨⟨⟨-, hp⟩, hm⟩, hs⟩ := hempty
  rw [Scheduler.rebuildManagers, hp, hm, hs]
  refine Keeps.modify fun s' hs' => ?_
  subst hs'
  rw [← hidle.prefillBudget]

/-! ### The answer -/

variable {msg : RebuildMsg} {status : Status} {f : Option Point}

/-- One answer, from a server that is idle again: with the sizes that it asks for, or with those
from before. -/
structure Scheduler.Answered (c : Config) (s : Scheduler) (msg : RebuildMsg) (status : Status)
    (s' : Scheduler) : Prop where
  sent : s'.sent = s.sent ++ [rebuildResult c s'.engine msg.requestId status]
  served : status ≠ .failed
  idle : s'.Idle c
  runnable : s'.runnable = false
  pending : s'.pendingRebuild = none
  fulfils : status = .ok →
    Fulfils c s.engine.kv.kind msg.request (currentCacheGeometry c s.engine)
      (currentCacheGeometry c s'.engine)
  kept : status ≠ .ok → currentCacheGeometry c s'.engine = currentCacheGeometry c s.engine

theorem Scheduler.Idle.reply (h : s.Idle c) : (s.replyRebuild c msg.requestId status).Idle c :=
    { h with }

/-- The server at the start of a rebuild. -/
def Scheduler.begin (s : Scheduler) : Scheduler :=
  { s with pendingRebuild := none, engine := { s.engine with teardownStarted := false } }

theorem Scheduler.Idle.begin (h : s.Idle c) : s.begin.Idle c :=
    { h with serves := { h.serves with } }

theorem Scheduler.Idle.half (h : s.Idle c) (req : Request) :
    Scheduler.Half c s req s.engine.linear
      { s with engine := { s.engine with teardownStarted := true } } where
  engine := h.serves.half req
  runnable := rfl
  sent := rfl
  pending := rfl
  prefillBudget := rfl
  chunkBudget := rfl
  rowCount := rfl
  table _ := ⟨rfl, rfl⟩
  cache _ _ _ := rfl
  trees := h.trees
  states _ := h.states
  window _ _ := h.window

/-- An answer that leaves everything as it was. -/
theorem Scheduler.Idle.answered (h : s.Idle c) (hrunnable : s.runnable = false)
    (hfailed : status ≠ .failed)
    (hok : status ≠ .ok) :
    Scheduler.Answered c s msg status (s.begin.replyRebuild c msg.requestId status) where
  sent := rfl
  served := hfailed
  idle := h.begin.reply
  runnable := hrunnable
  pending := rfl
  fulfils h := absurd h hok
  kept _ := rfl

theorem fulfils_empty {kind : Kind} (hempty : req.isEmpty = true) (geo : Geometry) :
    Fulfils c kind req geo geo := by
  simp only [Request.isEmpty, Bool.and_eq_true, isNone_iff_eq_none] at hempty
  obtain ⟨⟨⟨hm, hp⟩, hl⟩, hs⟩ := hempty
  constructor <;> simp [hm, hp, hl, hs]

theorem Geometry.eq_of_sameStates (hsame : SameStates linear e.linear) :
    currentCacheGeometry c { e with linear } = currentCacheGeometry c e := by
  have hslots :
      linear.map (fun pool => pool.numSlots - 1) = e.linear.map fun pool => pool.numSlots - 1 := by
    have hmap := congrArg (Option.map fun pool : LinearStatePool => pool.numSlots - 1) hsame
    rwa [map_map, map_map] at hmap
  simp only [currentCacheGeometry, hslots]

/-- **The rollback succeeds.** -/
theorem rollback (hidle : s₀.Idle c) (hvalid : req.Valid c s₀.engine) (hsome : req.isEmpty = false)
    (hprior : s₀.engine.poolAdmits c (priorRequest c s₀.engine req) = true)
    (hrunnable : s₀.runnable = false) (hstruck : Scheduler.Struck c s₀ req s) :
    ∃ s', Scheduler.rebuildCache c (priorRequest c s₀.engine req) none s = (.ok (), none, s') ∧
      Scheduler.Rebuilt c s₀ req (priorRequest c s₀.engine req) s' := by
  obtain ⟨linear, hsame, hhalf⟩ := hstruck
  have hnames := names_prior hidle.serves hvalid
  have hvalid' := valid_prior hidle.serves hvalid
  have hadmits : s.engine.admits c (priorRequest c s₀.engine req) = true := by
    rw [hhalf.engine.admits hnames]
    refine admits_of_valid (hvalid'.withStates hsame) ?_
    rw [Engine.poolAdmits_withStates hsame]
    exact hprior
  have hready :
    Scheduler.Half c s₀ req linear { s with engine := { s.engine with teardownStarted := true } } :=
    hhalf.withEngine { hhalf.engine with started := rfl }
  have hrun :=
    keeps_rebuildCache hready hsame hidle hnames hvalid' hadmits (hnames.isEmpty_eq.trans hsome)
    (hhalf.runnable.trans hrunnable)
  obtain ⟨_, s', hrun, hdone⟩ := hrun.quiet rfl
  exact ⟨s', hrun, hdone⟩

theorem Scheduler.Rebuilt.geometry (h : Scheduler.Rebuilt c s₀ req req s) (hidle : s₀.Idle c)
    (hvalid : req.Valid c s₀.engine) :
    Fulfils c s₀.engine.kv.kind req (currentCacheGeometry c s₀.engine)
      (currentCacheGeometry c s.engine) := by
  obtain ⟨linear, hsame, hresized⟩ := h.engine
  rw [← Geometry.eq_of_sameStates hsame]
  exact fulfils_of_resized (hidle.serves.withStates hsame) (hvalid.withStates hsame) h.idle.serves
    hresized

theorem Scheduler.Rebuilt.geometry_prior
    (h : Scheduler.Rebuilt c s₀ req (priorRequest c s₀.engine req) s) (hidle : s₀.Idle c)
    (hvalid : req.Valid c s₀.engine) :
    currentCacheGeometry c s.engine = currentCacheGeometry c s₀.engine := by
  obtain ⟨linear, hsame, hresized⟩ := h.engine
  have hprior : priorRequest c { s₀.engine with linear } req = priorRequest c s₀.engine req := by
    simp only [priorRequest, Geometry.eq_of_sameStates hsame]
  rw [← hprior] at hresized
  rw [← Geometry.eq_of_sameStates hsame]
  exact CacheRebuild.geometry_prior (hidle.serves.withStates hsame) (hvalid.withStates hsame)
    h.idle.serves hresized

theorem Scheduler.Rebuilt.answered {req' : Request} (h : Scheduler.Rebuilt c s₀.begin req req' s)
    (hrunnable : s₀.runnable = false) (hfailed : status ≠ .failed)
    (hfulfils : status = .ok →
      Fulfils c s₀.engine.kv.kind msg.request (currentCacheGeometry c s₀.engine)
        (currentCacheGeometry c s.engine))
    (hkept : status ≠ .ok → currentCacheGeometry c s.engine = currentCacheGeometry c s₀.engine) :
    Scheduler.Answered c s₀ msg status (s.replyRebuild c msg.requestId status) where
  sent := congrArg (· ++ [rebuildResult c s.engine msg.requestId status]) h.sent
  served := hfailed
  idle := h.idle.reply
  runnable := h.runnable.trans hrunnable
  pending := h.pending
  fulfils := hfulfils
  kept := hkept

theorem executePendingRebuild_eq (hmsg : s.pendingRebuild = some msg) (htp : ¬ 1 < c.tpSize) :
    s.executePendingRebuild c f =
      match Scheduler.rebuildCache c msg.request f s.begin with
      | (.ok (), _, s) => s.replyRebuild c msg.requestId .ok
      | (.error .rejected, _, s) => s.replyRebuild c msg.requestId .rejected
      | (.error .other, f, s') =>
        if !s'.engine.teardownStarted then s'.replyRebuild c msg.requestId .rejected
        else
          match Scheduler.rebuildCache c (priorRequest c s.engine msg.request) f s' with
          | (.ok (), _, s) => s.replyRebuild c msg.requestId .rejected
          | (.error _, _, s) => s.replyRebuild c msg.requestId .failed := by
  rw [Scheduler.executePendingRebuild, hmsg]
  simp only [if_neg htp]
  rfl

/-- A fault that a rebuild can make up for, with a budget that still admits the sizes from before.
-/
structure Recoverable (c : Config) (s : Scheduler) (msg : RebuildMsg) (f : Option Point) :
    Prop where
  shapes : s.engine.admits c msg.request = true → ∀ p, f = some p →
    msg.request.losesShape s.engine.kv.kind p = false
  prior : s.engine.poolAdmits c (priorRequest c s.engine msg.request) = true

/-- **Every pending request is answered once**, and the server is idle again. -/
theorem executePendingRebuild_answered (hidle : s.Idle c) (hrunnable : s.runnable = false)
    (hmsg : s.pendingRebuild = some msg) (htp : ¬ 1 < c.tpSize) (hfault : Recoverable c s msg f) :
    ∃ status, Scheduler.Answered c s msg status (s.executePendingRebuild c f) := by
  have hrejected :
      Scheduler.Answered c s msg .rejected (s.begin.replyRebuild c msg.requestId .rejected) :=
    hidle.answered hrunnable Status.noConfusion Status.noConfusion
  rw [executePendingRebuild_eq hmsg htp]
  cases hempty : msg.request.isEmpty with
  | true =>
    rcases keeps_rebuildCache_empty hidle.begin hempty hrunnable f s.begin
      rfl with ⟨_, s', hrun, rfl⟩ | ⟨p, s', hrun, -, rfl⟩
    · rw [hrun]
      exact ⟨.ok, rfl, Status.noConfusion, hidle.begin.reply, hrunnable, rfl, fun _ =>
        fulfils_empty hempty _, fun _ => rfl⟩
    · rw [hrun]
      exact ⟨.rejected, hrejected⟩
  | false =>
    cases hadmits : s.engine.admits c msg.request with
    | false =>
      obtain ⟨e, f', hrun⟩ := refuses_rebuildCache (s := s.begin) hadmits hempty hrunnable f
      rw [hrun]
      cases e <;> exact ⟨.rejected, hrejected⟩
    | true =>
      have hvalid : msg.request.Valid c s.begin.engine := Request.Valid.of_admits hadmits
      have hrebuild := keeps_rebuildCache (hidle.begin.half msg.request) SameStates.rfl hidle.begin
        (Request.Names.rfl msg.request) hvalid hadmits hempty hrunnable
      rcases hrebuild f s.begin rfl with ⟨_, s', hrun, hdone⟩ | ⟨p, s', hrun, hf, hstruck⟩
      · rw [hrun]
        have hfulfils := hdone.geometry hidle.begin hvalid
        exact ⟨.ok, hdone.answered hrunnable Status.noConfusion (fun _ => hfulfils) fun h =>
          absurd rfl h⟩
      · rw [hrun]
        rcases hstruck (hfault.shapes hadmits p hf) with rfl | hstruck
        · exact ⟨.rejected, hrejected⟩
        · -- struck after the point of no return: the rollback
          have hstarted : s'.engine.teardownStarted = true := by
            obtain ⟨linear, -, hhalf⟩ := hstruck
            exact hhalf.engine.started
          obtain ⟨s'', hback, hdone⟩ :=
            rollback hidle.begin hvalid hempty hfault.prior hrunnable hstruck
          simp only [FaultError.fault, hstarted]
          have hback' :
              Scheduler.rebuildCache c (priorRequest c s.engine msg.request) none s' =
              (.ok (), none, s'') := hback
          rw [hback']
          exact ⟨.rejected, hdone.answered hrunnable Status.noConfusion
            (fun h => Status.noConfusion h) fun _ => hdone.geometry_prior hidle.begin hvalid⟩

variable {c : Config} {s : Scheduler} {msg : RebuildMsg} {f : Option Point}

/-! ### All servers -/

theorem serves_create (b : Boot c) : (Engine.create c b).Serves c where
  pages := Nat.lt_trans Nat.one_pos b.one_lt_numPages
  maxSeqLen := rfl
  width := rfl
  dummyRow := rfl
  kv := by
    show ((KvPool.create c b.override b.numPages b.pool).attachPageTable _).Whole c b.override
      b.numPages none
    rw [KvPool.whole_attach]
    cases b.pool with
    | slabs family => exact ⟨rfl, fun slab hslab => if_pos hslab⟩
    | hybrid => exact ⟨rfl, rfl, rfl, rfl, rfl⟩
    | dsv4 => exact ⟨rfl, fun _ _ => rfl⟩
  attached := KvPool.attach_attach _
  moe cache hcache := by
    obtain ⟨spec, hspec, rfl⟩ := Option.map_eq_some_iff.mp hcache
    exact ⟨⟨fun i hi => if_pos hi, rfl, rfl, rfl, rfl, fun h =>
      ⟨if_pos h, b.moe_room spec hspec h⟩⟩, b.moe_valid spec hspec⟩
  linear pool hpool := by
    obtain ⟨n, hn, rfl⟩ := Option.map_eq_some_iff.mp hpool
    exact ⟨⟨rfl, rfl, fun i hi => if_pos hi⟩, b.slots_room n hn⟩
  capture := rfl
  graphs := rfl

theorem idle_create (b : Boot c) : (Scheduler.create c b).Idle c where
  serves := { serves_create b with }
  resolved hradix := by
    show (b.numSlots.map _) = none
    rw [b.resolved hradix]
    rfl
  cachePages := rfl
  cacheTable := rfl
  pageSlots := by
    show (pageSlots b.numPages c.pageSize ++ []).Perm _
    rw [List.append_nil]
    exact List.Perm.refl _
  states pool hpool := by
    obtain ⟨n, -, rfl⟩ := Option.map_eq_some_iff.mp hpool
    show (poolSlots n ++ []).Perm _
    rw [List.append_nil]
    exact List.Perm.refl _
  trees := ⟨fun _ => rfl, fun _ => rfl⟩
  window := by
    show ((KvPool.create c b.override b.numPages b.pool).attachPageTable _).swaAvailable + 0 =
      ((KvPool.create c b.override b.numPages b.pool).attachPageTable _).swaCapacity
    rw [KvPool.swaAvailable_attach, KvPool.swaCapacity_attach]
    cases b.pool with
    | slabs family => rfl
    | hybrid =>
      simp [KvPool.create, KvPool.swaAvailable, KvPool.swaCapacity, HybridSWAKVCache.create,
        HybridSWAKVCache.initSwaPagedState]
    | dsv4 => rfl
  rowTable := rfl
  rows := List.Perm.refl _
  tokenPool := rfl
  tokenWidth := rfl
  prefillBudget := rfl

/-- What is free and what the prefix cache holds is all that there is. -/
structure Holdings.Balanced (c : Config) (s : Scheduler) (h : Holdings) : Prop where
  pages : (h.freeSlots ++ h.prefixPages).Perm (pageSlots s.engine.numPages c.pageSize)
  states : ∀ pool ∈ s.engine.linear, (h.stateSlots ++ h.treeSlots).Perm (poolSlots pool.numSlots)
  noStates : c.cacheType ≠ .hybridRadix → h.treeSlots = []
  noWindow : c.cacheType ≠ .swaRadix → h.treeSwa = 0
  window : (s.engine.kv.withWindow h).swaAvailable + h.treeSwa = s.engine.kv.swaCapacity
  rows : h.rows.Perm (List.range s.table.maxRunningReqs)

theorem Scheduler.Idle.serve (hidle : s.Idle c) {h : Holdings} (hbalanced : h.Balanced c s) :
    (s.serve h).Idle c := by
  -- serving changes the free lists, and no pool
  have hkv : (s.engine.kv.withWindow h).Whole c s.engine.override s.engine.numPages none ∧
      (s.engine.kv.withWindow h).attachPageTable s.engine.pageTable = s.engine.kv.withWindow h ∧
      (s.engine.kv.withWindow h).swaCapacity = s.engine.kv.swaCapacity := by
    have hwhole := hidle.serves.kv
    have hattached := hidle.serves.attached
    cases hk : s.engine.kv with
    | slabs pool =>
      rw [hk] at hwhole
      exact ⟨hwhole, rfl, rfl⟩
    | hybrid pool =>
      rw [hk] at hwhole
      exact ⟨⟨hwhole.full, hwhole.swa, hwhole.fullNumTokens, hwhole.swaNumTokens, hwhole.pageSize⟩,
        rfl, rfl⟩
    | dsv4 pool =>
      rw [hk] at hwhole hattached
      have hmap : s.engine.pageTable.id = pool.fullLocMap :=
        congrArg DSV4Pool.fullLocMap (KvPool.dsv4.inj hattached)
      refine ⟨⟨hwhole.sizes, hwhole.slab⟩, ?_, rfl⟩
      rw [KvPool.withWindow, KvPool.attachPageTable, hmap]
  obtain ⟨hwhole, hattached, hcapacity⟩ := hkv
  refine
    { serves :=
        { hidle.serves with
          kv := hwhole
          attached := hattached
          linear := fun pool hpool => ?_ }
      resolved := fun hradix => ?_
      cachePages := hidle.cachePages
      cacheTable := hidle.cacheTable
      pageSlots := hbalanced.pages
      states := fun pool hpool => ?_
      trees := ⟨hbalanced.noStates, hbalanced.noWindow⟩
      window := hbalanced.window.trans hcapacity.symm
      rowTable := hidle.rowTable
      rows := hbalanced.rows
      tokenPool := hidle.tokenPool
      tokenWidth := hidle.tokenWidth
      prefillBudget := hidle.prefillBudget }
  · obtain ⟨pool, hmem, rfl⟩ := Option.map_eq_some_iff.mp hpool
    obtain ⟨hpool, hmin⟩ := hidle.serves.linear pool hmem
    exact ⟨⟨hpool.conv, hpool.recurrent, hpool.slotStates⟩, hmin⟩
  · show s.engine.linear.map _ = none
    rw [hidle.resolved hradix]
    rfl
  · obtain ⟨pool, hmem, rfl⟩ := Option.map_eq_some_iff.mp hpool
    exact hbalanced.states pool hmem

/-- The idle servers: requests are served, and rebuilds are asked for between them or while one is
served. -/
inductive Reachable (c : Config) : Scheduler → Prop
  | boot (b : Boot c) : Reachable c (Scheduler.create c b)
  | serve {s : Scheduler} (h : Holdings) : Reachable c s → h.Balanced c s → Reachable c (s.serve h)
  | busy {s : Scheduler} (msg : RebuildMsg) :
    Reachable c s →
      Reachable c { Scheduler.onCacheRebuild c { s with runnable := true } msg with runnable :=
      false }
  | rebuild {s : Scheduler} (msg : RebuildMsg) (f : Option Point) :
    Reachable c s → Recoverable c s msg f →
      Reachable c ((s.onCacheRebuild c msg).executePendingRebuild c f)

/-- **A rebuild is asked for, of an idle server.** -/
theorem Scheduler.Idle.rebuild (hidle : s.Idle c) (hrunnable : s.runnable = false)
    (hpending : s.pendingRebuild = none) (hfault : Recoverable c s msg f) :
    ∃ status, Scheduler.Answered c s msg status
      ((s.onCacheRebuild c msg).executePendingRebuild c f) := by
  have hunsupported : Scheduler.Answered c s msg .unsupported
      ((s.replyRebuild c msg.requestId .unsupported).executePendingRebuild c f) := by
    have hnone : (s.replyRebuild c msg.requestId .unsupported).executePendingRebuild c f =
        s.replyRebuild c msg.requestId .unsupported := by
      rw [Scheduler.executePendingRebuild]
      simp only [Scheduler.replyRebuild, hpending]
    rw [hnone]
    exact ⟨rfl, Status.noConfusion, hidle.reply, hrunnable, hpending, Status.noConfusion, fun _ =>
      rfl⟩
  rw [Scheduler.onCacheRebuild]
  split
  · exact ⟨.unsupported, hunsupported⟩
  split
  · exact ⟨.unsupported, hunsupported⟩
  rename_i htp
  split
  · rename_i hbusy
    rw [hrunnable] at hbusy
    cases hbusy
  · have hidle' : Scheduler.Idle c { s with pendingRebuild := some msg } := { hidle with }
    obtain ⟨status, hanswered⟩ :=
      executePendingRebuild_answered hidle' hrunnable rfl htp { hfault with }
    exact ⟨status, { hanswered with }⟩

theorem Reachable.idle (h : Reachable c s) :
    s.Idle c ∧ s.runnable = false ∧ s.pendingRebuild = none := by
  induction h with
  | boot b => exact ⟨idle_create b, rfl, rfl⟩
  | serve h _ hbalanced ih => exact ⟨ih.1.serve hbalanced, ih.2⟩
  | busy msg _ ih =>
    rw [Scheduler.onCacheRebuild]
    split
    · exact ⟨{ ih.1 with }, rfl, ih.2.2⟩
    split
    · exact ⟨{ ih.1 with }, rfl, ih.2.2⟩
    · exact ⟨{ ih.1 with }, rfl, ih.2.2⟩
  | rebuild msg f _ hfault ih =>
    obtain ⟨status, hanswered⟩ := ih.1.rebuild ih.2.1 ih.2.2 hfault
    exact ⟨hanswered.idle, hanswered.runnable, hanswered.pending⟩

/-- **A rebuild is carried out, or undone.**  It brings exactly the sizes that are asked for, if the
window is in range. -/
theorem rebuild_all_or_nothing (h : Reachable c s) (hfault : Recoverable c s msg f) :
    ∃ status, Scheduler.Answered c s msg status
      ((s.onCacheRebuild c msg).executePendingRebuild c f) ∧
      (status = .ok →
        ((currentCacheGeometry c ((s.onCacheRebuild c msg).executePendingRebuild c f).engine).Meets
          msg.request ↔
          msg.request.WindowInRange c s.engine)) := by
  obtain ⟨hidle, hrunnable, hpending⟩ := h.idle
  obtain ⟨status, hanswered⟩ := hidle.rebuild hrunnable hpending hfault
  exact ⟨status, hanswered, fun hok => (hanswered.fulfils hok).meets_iff⟩

/-- A model with a sliding window, in a small memory. -/
def smallConfig : Config where
  pageSize := 1
  convShape := ⟨1, 1, 1, 1⟩
  recurrentShape := ⟨1, 1, 1, 1, 1⟩
  fullShape := ⟨1, 1, 1, 1, 1⟩
  swaShape := ⟨1, 1, 1, 1, 1⟩
  maxSeqLen := 64
  maxExtendTokens := 8
  maxRunningReq := 1
  linearPoolMinSlots := 2
  windowFloor := 10
  naiveSwaNumTokens := 4
  byRatio := id
  cacheType := .swaRadix
  tpSize := 1
  fits := fun _ => true
  two_le_windowFloor := Nat.le_add_left 2 8
  linearPoolMinSlots_pos := Nat.two_pos

def smallBoot : Boot smallConfig where
  numPages := 4
  pool := .hybrid
  override := none
  moe := none
  numSlots := none
  numSpecs := 0
  graphBsList := [1, 2]
  prefillChunkBudget := none
  one_lt_numPages := Nat.le_add_left 2 2
  moe_valid _ h := by cases h
  moe_room _ h := by cases h
  slots_room _ h := by cases h
  resolved _ := rfl

/-- The graphs cannot be captured for a larger pool: the old pool is back. -/
theorem rebuild_all_or_nothing_small :
    ∃ status, Scheduler.Answered smallConfig (Scheduler.create smallConfig smallBoot)
      ⟨7, .ifIdle, ⟨none, some 40, none, some 12⟩⟩ status
      (((Scheduler.create smallConfig smallBoot).onCacheRebuild smallConfig
        ⟨7, .ifIdle, ⟨none, some 40, none, some 12⟩⟩).executePendingRebuild smallConfig
          (some .graphCapture)) := by
  have hfault : Recoverable smallConfig (Scheduler.create smallConfig smallBoot)
      ⟨7, .ifIdle, ⟨none, some 40, none, some 12⟩⟩ (some .graphCapture) :=
    { shapes := fun _ p hp => by
        cases hp
        rfl
      prior := rfl }
  obtain ⟨status, hanswered, -⟩ := rebuild_all_or_nothing (.boot smallBoot) hfault
  exact ⟨status, hanswered⟩

/-- The window's tensor cannot be allocated once: the rollback reads the shape of the tensor that
was dropped. -/
theorem rollback_reads_dropped_tensor :
    ∃ s msg reply, Reachable smallConfig s ∧
      s.engine.poolAdmits smallConfig (priorRequest smallConfig s.engine msg.request) = true ∧
      ((s.onCacheRebuild smallConfig msg).executePendingRebuild smallConfig
        (some .hybridSwa)).sent = s.sent ++ [reply] ∧
      reply.status = .failed :=
  ⟨Scheduler.create smallConfig smallBoot, ⟨7, .ifIdle, ⟨none, some 40, none, some 12⟩⟩,
    ⟨7, .failed, 0, 4, 0, 10⟩, .boot smallBoot, rfl, rfl, rfl⟩

/-- A window below the floor of the concurrency is answered by 'ok', with the floor. -/
theorem window_is_floored :
    ∃ s msg reply, ∃ n : ℤ, Reachable smallConfig s ∧ msg.request.numSwaPages = some n ∧
      ((s.onCacheRebuild smallConfig msg).executePendingRebuild smallConfig none).sent = s.sent ++
      [reply] ∧
      reply.status = .ok ∧ (reply.numSwaPages : ℤ) ≠ n :=
  ⟨Scheduler.create smallConfig smallBoot, ⟨7, .ifIdle, ⟨none, none, none, some 1⟩⟩,
    ⟨7, .ok, 0, 4, 0, 10⟩, 1, .boot smallBoot,
    rfl, rfl, rfl, by decide⟩

end FreeToken.CacheRebuild
