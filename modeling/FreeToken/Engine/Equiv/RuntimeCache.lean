import FreeToken.KvCache.Equiv.PoolRebuild

/-!
# What a rebuild of the engine's caches leaves behind

`Engine.Serves` is what serving needs: whole pools, and a page table and graphs that fit them.
`Engine.Half` is what is left of an engine that a rebuild has struck: nothing is promised of a pool
that the request names, but that it can be resized.  From there, the same code leads to an engine
that serves: `keeps_teardown`.
-/

namespace FreeToken.CacheRebuild

open Option Faulting

/-! ### The pool of keys and values -/

inductive Kind
  | slabs
  | hybrid
  | dsv4
  deriving DecidableEq

def KvPool.kind : KvPool → Kind
  | .slabs _ => .slabs
  | .hybrid _ => .hybrid
  | .dsv4 _ => .dsv4

def KvPool.Shaped (c : Config) : KvPool → Prop
  | .hybrid pool => pool.Shaped c
  | _ => True

/-- All tensors are there, for so many pages. -/
def KvPool.Whole (c : Config) (override : Option ℕ) (numPages : ℕ) (numSwaPages : Option ℕ) :
    KvPool → Prop
  | .slabs pool => pool.Whole (numPages + 1)
  | .hybrid pool => pool.Whole c (numPages + 1) (hybridSwaTokens c override numPages numSwaPages)
  | .dsv4 pool => pool.Whole (dsv4PoolSizes c override (numPages + 1) numSwaPages)

section

variable {c : Config} {override : Option ℕ} {numPages : ℕ} {numSwaPages : Option ℕ} {kv : KvPool}
  {table : Table}

theorem KvPool.Whole.shaped (h : kv.Whole c override numPages numSwaPages) : kv.Shaped c := by
  cases kv with
  | slabs pool => trivial
  | hybrid pool => exact HybridPool.Whole.shaped h
  | dsv4 pool => trivial

/-- A window that is asked for is the one that the override pins. -/
theorem KvPool.Whole.pinned (h : kv.Whole c override numPages numSwaPages)
    (hpin : numSwaPages = none ∨ override = numSwaPages) :
    kv.Whole c override numPages none := by
  have hor : numSwaPages.or override = override := by
    rcases hpin with rfl | rfl
    · rfl
    · cases override <;> rfl
  cases kv with
  | slabs pool => exact h
  | hybrid pool =>
    have htokens :
        hybridSwaTokens c override numPages numSwaPages = hybridSwaTokens c override numPages
        none := by
      rw [hybridSwaTokens, hybridSwaTokens, swaPagedNumTokens, swaPagedNumTokens, hor, none_or]
    rw [KvPool.Whole, htokens] at h
    exact h
  | dsv4 pool =>
    have hsizes :
        dsv4PoolSizes c override (numPages + 1) numSwaPages = dsv4PoolSizes c override
        (numPages + 1) none := by
      rw [dsv4PoolSizes, dsv4PoolSizes, hor, none_or]
    rw [KvPool.Whole, hsizes] at h
    exact h

@[simp] theorem KvPool.kind_attach :
    (kv.attachPageTable table).kind = kv.kind := by cases kv <;> rfl

@[simp] theorem KvPool.attach_attach (table' : Table) :
    (kv.attachPageTable table).attachPageTable table' = kv.attachPageTable table' := by
  cases kv <;> rfl

@[simp] theorem KvPool.swaAvailable_attach :
    (kv.attachPageTable table).swaAvailable = kv.swaAvailable := by cases kv <;> rfl

@[simp] theorem KvPool.swaCapacity_attach :
    (kv.attachPageTable table).swaCapacity = kv.swaCapacity := by cases kv <;> rfl

@[simp] theorem KvPool.shaped_attach :
    (kv.attachPageTable table).Shaped c ↔ kv.Shaped c := by cases kv <;> rfl

@[simp] theorem KvPool.whole_attach :
    (kv.attachPageTable table).Whole c override numPages numSwaPages ↔
    kv.Whole c override numPages numSwaPages := by
  cases kv with
  | slabs pool => rfl
  | hybrid pool => rfl
  | dsv4 pool => exact ⟨fun h => ⟨h.sizes, h.slab⟩, fun h => ⟨h.sizes, h.slab⟩⟩

/-- **A resize of the pool leaves it whole, with all of its window free.** -/
theorem keeps_rebuildFromConfig (c : Config) (override : Option ℕ) (numPages : ℕ)
    (numSwaPages : Option ℕ) (k : Kind) :
    Keeps (fun kv => kv.kind = k ∧ kv.Shaped c)
      (KvPool.rebuildFromConfig c override numPages numSwaPages)
      (fun _ kv => kv.kind = k ∧ kv.Whole c override numPages numSwaPages ∧
        kv.swaAvailable = kv.swaCapacity)
      fun p kv => (k = .hybrid → p.losesGroups = false) → kv.kind = k ∧ kv.Shaped c := by
  intro f kv hkv
  obtain ⟨rfl, hshaped⟩ := hkv
  cases kv with
  | slabs pool =>
    exact (keeps_slabs (numPages + 1)).embed KvPool.slabs (fun _ _ h => ⟨rfl, h, rfl⟩)
      (fun _ _ _ _ => ⟨rfl, trivial⟩) f pool trivial
  | hybrid pool =>
    refine (keeps_hybrid (c := c) (numPages + 1)
      (hybridSwaTokens c override numPages numSwaPages)).embed KvPool.hybrid
      (fun _ _ h => ⟨rfl, h.1, ?_⟩) (fun _ _ h hp => ⟨rfl, h (hp rfl)⟩) f pool hshaped
    rw [KvPool.swaAvailable, KvPool.swaCapacity, h.2, h.1.swaNumTokens]
  | dsv4 pool =>
    refine (keeps_dsv4 (dsv4PoolSizes c override (numPages + 1) numSwaPages)).embed KvPool.dsv4
      (fun _ _ h => ⟨rfl, h.1, ?_⟩) (fun _ _ _ _ => ⟨rfl, trivial⟩) f pool trivial
    rw [KvPool.swaAvailable, KvPool.swaCapacity, h.2, h.1.sizes]

end

/-! ### The engine -/

structure Request.Names (req req' : Request) : Prop where
  moe : req'.moeCacheSize.isSome = req.moeCacheSize.isSome
  pages : req'.numPages.isSome = req.numPages.isSome
  mamba : req'.numMambaSlots.isSome = req.numMambaSlots.isSome
  window : req'.numSwaPages.isSome = req.numSwaPages.isSome

theorem Request.Names.rfl (req : Request) : req.Names req :=
    ⟨Eq.refl _, Eq.refl _, Eq.refl _, Eq.refl _⟩

structure Engine.Serves (c : Config) (e : Engine) : Prop where
  pages : 0 < e.numPages
  maxSeqLen : e.maxSeqLen = min c.maxSeqLen (e.numPages * c.pageSize)
  width : e.pageTable.width = pageTableWidth e.maxSeqLen c.pageSize
  dummyRow : e.dummyFill = e.numPages * c.pageSize
  kv : e.kv.Whole c e.override e.numPages none
  attached : e.kv.attachPageTable e.pageTable = e.kv
  moe : ∀ cache ∈ e.moe, cache.Whole ∧ cache.validateRebuild cache.cacheSize = true
  linear : ∀ pool ∈ e.linear, pool.Whole c ∧ c.linearPoolMinSlots ≤ pool.numSlots
  capture : e.capture = if e.graphBsList.isEmpty then none
    else some (pageTableWidth e.maxSeqLen c.pageSize)
  graphs : e.graphs = some (pageTableWidth e.maxSeqLen c.pageSize)

/-- What is left of the engine `e₀` while a rebuild of what `req` names is under way. -/
structure Engine.Half (c : Config) (e₀ : Engine) (req : Request) (e : Engine) : Prop where
  started : e.teardownStarted = true
  graphBs : e.graphBsList = e₀.graphBsList
  pages : req.numPages = none → e.numPages = e₀.numPages ∧ e.pageTable = e₀.pageTable
  override : req.numSwaPages = none → e.override = e₀.override
  kvKind : e.kv.kind = e₀.kv.kind
  kvShaped : e.kv.Shaped c
  kvKept : req.numPages = none → req.numSwaPages = none → ∃ table, e.kv =
    e₀.kv.attachPageTable table
  moeKept : req.moeCacheSize = none → e.moe = e₀.moe
  moeLimits : e.moe.map MoeCache.limits = e₀.moe.map MoeCache.limits
  linearKept : req.numMambaSlots = none → e.linear = e₀.linear
  linearIs : e.linear.isSome = e₀.linear.isSome
  linearShaped : ∀ pool ∈ e.linear, pool.Shaped c

variable {c : Config} {e₀ e : Engine} {req req' : Request}

structure Request.Valid (c : Config) (e₀ : Engine) (req : Request) : Prop where
  moe : ∀ n ∈ req.moeCacheSize, ∃ cache, e₀.moe = some cache ∧ cache.validateRebuild n = true
  pages : ∀ n ∈ req.numPages, 0 < n
  mamba : ∀ n ∈ req.numMambaSlots, e₀.linear.isSome = true ∧ (c.linearPoolMinSlots : ℤ) - 1 ≤ n
  window : ∀ n ∈ req.numSwaPages, e₀.kv.supportsSwaRatio c = true ∧ 0 < n

theorem Request.Valid.of_admits (h : e₀.admits c req = true) : req.Valid c e₀ := by
  simp only [Engine.admits, asked, Bool.and_eq_true, all_eq_true, any_eq_true, decide_eq_true_eq]
    at h
  obtain ⟨⟨⟨⟨hmoe, hpages⟩, hmamba⟩, hwindow⟩, -⟩ := h
  exact ⟨hmoe, hpages, hmamba, hwindow⟩

theorem unnamed_of_none {o o' : Option ℤ} (h : o'.isSome = o.isSome) (ho : o' = none) :
    o = none := by
  subst ho
  exact isNone_iff_eq_none.mp (isSome_eq_false_iff.mp h.symm)

theorem KvPool.supportsSwaRatio_congr {kv kv' : KvPool} (h : kv.kind = kv'.kind) :
    kv.supportsSwaRatio c = kv'.supportsSwaRatio c := by
  cases kv <;> cases kv' <;> first | rfl | cases h

/-- A pool that stays is priced at its sizes. -/
theorem Engine.Half.current (h : Engine.Half c e₀ req e) (hnames : req.Names req') :
    (account e req').current = (account e₀ req').current := by
  by_cases hboth : req'.numPages = none ∧ req'.numSwaPages = none
  · obtain ⟨table, hkv⟩ :=
      h.kvKept (unnamed_of_none hnames.pages hboth.1) (unnamed_of_none hnames.window hboth.2)
    simp only [account, hkv]
    cases e₀.kv <;> rfl
  · have hasked : (req'.numPages.isNone && req'.numSwaPages.isNone) = false := by
      rw [Bool.and_eq_false_iff]
      rcases Decidable.not_and_iff_or_not.mp hboth with hp | hp
      · exact .inl (isNone_eq_false_iff.mpr (isSome_iff_ne_none.mpr hp))
      · exact .inr (isNone_eq_false_iff.mpr (isSome_iff_ne_none.mpr hp))
    simp only [account, hasked]
    cases e.kv <;> cases e₀.kv <;> rfl

theorem Engine.Half.account_eq (h : Engine.Half c e₀ req e) (hnames : req.Names req') :
    account e req' = account e₀ req' := by
  have hcurrent := h.current hnames
  have hmoe : (account e req').targetMoe = (account e₀ req').targetMoe := by
    simp only [account]
    cases ho : req'.moeCacheSize with
    | none => rw [h.moeKept (unnamed_of_none hnames.moe ho)]
    | some n => rfl
  have hpages : (account e req').targetPages = (account e₀ req').targetPages := by
    simp only [account]
    cases ho : req'.numPages with
    | none => exact (h.pages (unnamed_of_none hnames.pages ho)).1
    | some n => rfl
  have hmamba : (account e req').targetMamba = (account e₀ req').targetMamba := by
    simp only [account]
    cases ho : req'.numMambaSlots with
    | none => rw [h.linearKept (unnamed_of_none hnames.mamba ho)]
    | some n => rfl
  have hwindow : (account e req').window = (account e₀ req').window := by
    simp only [account]
    cases ho : req'.numSwaPages with
    | none => rw [h.override (unnamed_of_none hnames.window ho)]
    | some n => rfl
  exact Account.ext hmoe hpages hmamba hwindow hcurrent

theorem any_validateRebuild {o o' : Option MoeCache}
    (h : o.map MoeCache.limits = o'.map MoeCache.limits) (n : ℤ) :
    (o.any fun cache => cache.validateRebuild n) = o'.any fun cache => cache.validateRebuild n := by
  cases o with
  | none =>
    cases o' with
    | none => rfl
    | some cache' => cases h
  | some cache =>
    cases o' with
    | none => cases h
    | some cache' => exact validateRebuild_congr (Option.some.inj h) n

theorem Engine.Half.poolAdmits (h : Engine.Half c e₀ req e) (hnames : req.Names req') :
    e.poolAdmits c req' = e₀.poolAdmits c req' := by
  have hkind := h.kvKind
  rw [Engine.poolAdmits, Engine.poolAdmits, h.account_eq hnames]
  cases hkv : e.kv <;> cases hkv₀ : e₀.kv <;> rw [hkv, hkv₀] at hkind <;> first | rfl | cases hkind

/-- **The checks read nothing that a resize has touched.** -/
theorem Engine.Half.admits (h : Engine.Half c e₀ req e) (hnames : req.Names req') :
    e.admits c req' = e₀.admits c req' := by
  rw [Engine.admits, Engine.admits, h.poolAdmits hnames, h.linearIs, KvPool.supportsSwaRatio_congr
    h.kvKind]
  simp only [any_validateRebuild h.moeLimits]

/-! ### The resizes -/

theorem keeps_whenAsked {σ : Type} {o : Option ℤ} {m : ℕ → Prog σ Unit} {P Q : σ → Prop}
    {X : Point → σ → Prop}
    (hsome : ∀ n, o = some n → Keeps P (m n.toNat) (fun _ => Q) X)
    (hnone : o = none → ∀ s, P s → Q s) :
    Keeps P (whenAsked o m) (fun _ => Q) X := by
  cases o with
  | none => exact Keeps.pure (hnone rfl)
  | some n => exact hsome n rfl

theorem keeps_resizeKvPool (numPages : ℕ) (numSwaPages : Option ℕ) (P : Engine → Prop)
    (hP : ∀ e, P e → e.kv.Shaped c) :
    Keeps P (Engine.resizeKvPool c numPages numSwaPages)
      (fun _ s => ∃ e kv, P e ∧ s = { e with kv, numPages } ∧ kv.kind = e.kv.kind ∧
        kv.Whole c e.override numPages numSwaPages ∧ kv.swaAvailable = kv.swaCapacity)
      fun p s => ∃ e kv, P e ∧ s = { e with kv } ∧
        ((e.kv.kind = .hybrid → p.losesGroups = false) → kv.kind = e.kv.kind ∧ kv.Shaped c) := by
  refine Keeps.read fun e he => ?_
  refine (Keeps.onlyIf (Q := fun s => s = e) (fun _ => ?_) fun _ _ hs => hs).bind fun _ => ?_
  · exact keeps_step fun s hs => ⟨e, e.kv, he, hs, fun _ => ⟨rfl, hP e he⟩⟩
  have hzoom := (keeps_rebuildFromConfig c e.override numPages numSwaPages e.kv.kind).zoom Engine.kv
    (fun kv e => { e with kv }) (fun s => s = e) fun s hs => by
      subst hs
      exact ⟨rfl, hP _ he⟩
  refine (hzoom.mono (fun _ h => h) (fun _ _ h => h) fun p s h => ?_).bind fun _ => ?_
  · obtain ⟨s₀, kv, rfl, rfl, hkv⟩ := h
    exact ⟨s₀, kv, he, rfl, hkv⟩
  · refine Keeps.modify fun s hs => ?_
    obtain ⟨s₀, kv, rfl, rfl, hkind, hwhole, hfree⟩ := hs
    exact ⟨s₀, kv, he, rfl, hkind, hwhole, hfree⟩

theorem named_of_some {o o' : Option ℤ} {n : ℤ} (h : o'.isSome = o.isSome) (ho : o' = some n) :
    o ≠ none := by
  subst ho
  exact isSome_iff_ne_none.mp h.symm

/-- The point is one of a resize that the request asks for, while the shapes of the tensors are
gone. -/
def Request.losesShape (req : Request) (kind : Kind) (p : Point) : Bool :=
  req.numMambaSlots.isSome && p.losesStates ||
    kind == .hybrid && (req.numPages.isSome || req.numSwaPages.isSome) && p.losesGroups

theorem Request.losesStates {p : Point} (h : req.losesShape e.kv.kind p = false)
    (hnamed : req.numMambaSlots ≠ none) :
    p.losesStates = false := by
  rw [Request.losesShape, isSome_iff_ne_none.mpr hnamed, Bool.true_and, Bool.or_eq_false_iff] at h
  exact h.1

theorem Request.losesGroups {p : Point} (h : req.losesShape e.kv.kind p = false)
    (hnamed : req.numPages ≠ none ∨ req.numSwaPages ≠ none) (hkind : e.kv.kind = .hybrid) :
    p.losesGroups = false := by
  have hasked : (req.numPages.isSome || req.numSwaPages.isSome) = true := by
    rw [Bool.or_eq_true]
    exact hnamed.imp isSome_iff_ne_none.mpr isSome_iff_ne_none.mpr
  rw [Request.losesShape, hkind, hasked, beq_self_eq_true, Bool.true_and, Bool.true_and,
    Bool.or_eq_false_iff] at h
  exact h.2

/-- Struck at this point, unless the point loses the shapes. -/
def Engine.Struck (c : Config) (e₀ : Engine) (req : Request) (p : Point) (e : Engine) : Prop :=
  req.losesShape e₀.kv.kind p = false → Engine.Half c e₀ req e

def Engine.Pinned (req : Request) (e : Engine) : Prop :=
  ∀ n ∈ req.numSwaPages, e.override = some n.toNat

def Engine.MoeDone (req : Request) (e : Engine) : Prop :=
  ∀ n ∈ req.moeCacheSize, ∃ cache, e.moe = some cache ∧ cache.Whole ∧ cache.cacheSize = n.toNat

structure Engine.KvDone (c : Config) (req : Request) (e : Engine) : Prop where
  pages : ∀ n ∈ req.numPages, e.numPages = n.toNat
  whole : e.kv.Whole c e.override e.numPages none
  free : req.numPages.isSome ∨ req.numSwaPages.isSome → e.kv.swaAvailable = e.kv.swaCapacity

def Engine.LinearDone (c : Config) (req : Request) (e : Engine) : Prop :=
  ∀ n ∈ req.numMambaSlots, ∃ pool, e.linear = some pool ∧ pool.Whole c ∧ pool.numSlots = n.toNat +
    1 ∧
    pool.freeSlots = poolSlots pool.numSlots

/-- Before the resize of the pool of keys and values. -/
def Engine.AtKv (c : Config) (e₀ : Engine) (req req' : Request) (e : Engine) : Prop :=
  (Engine.Half c e₀ req e ∧ e.capture = none ∧ e.Pinned req') ∧ e.MoeDone req'

/-- The pool of an engine that is being resized is another one, of the same kind. -/
theorem Engine.Half.withKv (h : Engine.Half c e₀ req e) {kv : KvPool} {numPages : ℕ}
    (hkind : kv.kind = e.kv.kind)
    (hshaped : kv.Shaped c) (hnamed : req.numPages = none → req.numSwaPages ≠ none ∧
      numPages = e₀.numPages) :
    Engine.Half c e₀ req { e with kv, numPages } :=
  { h with
    pages := fun hp => ⟨(hnamed hp).2, (h.pages hp).2⟩
    kvKind := hkind.trans h.kvKind
    kvShaped := hshaped
    kvKept := fun hp hs => absurd hs (hnamed hp).1 }

/-- The pools that `req` names are resized for `req'`. -/
structure Engine.Resized (c : Config) (e₀ : Engine) (req req' : Request) (e : Engine) : Prop where
  half : Engine.Half c e₀ req e
  pinned : e.Pinned req'
  moe : e.MoeDone req'
  kv : e.KvDone c req'
  linear : e.LinearDone c req'

theorem Engine.Resized.withTable (h : Engine.Resized c e₀ req req' e)
    {maxSeqLen nextTable dummyFill : ℕ} {pageTable : Table}
    (htable : req.numPages = none → pageTable = e.pageTable) :
    Engine.Resized c e₀ req req' { e with maxSeqLen, pageTable, nextTable, dummyFill } :=
  { half :=
    { h.half with pages := fun hp => ⟨(h.half.pages hp).1, (htable hp).trans (h.half.pages hp).2⟩ }
    pinned := h.pinned
    moe := h.moe
    kv := ⟨h.kv.pages, h.kv.whole, h.kv.free⟩
    linear := h.linear }

theorem Engine.Resized.attach (h : Engine.Resized c e₀ req req' e) {table : Table} :
    Engine.Resized c e₀ req req' { e with kv := e.kv.attachPageTable table } where
  half :=
    { h.half with
      kvKind := KvPool.kind_attach.trans h.half.kvKind
      kvShaped := KvPool.shaped_attach.mpr h.half.kvShaped
      kvKept := fun hp hs => by
        obtain ⟨table', hkv⟩ := h.half.kvKept hp hs
        exact ⟨table, by rw [hkv, KvPool.attach_attach]⟩ }
  pinned := h.pinned
  moe := h.moe
  kv := ⟨h.kv.pages, KvPool.whole_attach.mpr h.kv.whole, fun hasked => by simpa using h.kv.free hasked⟩
  linear := h.linear

theorem Engine.Resized.withGraphs (h : Engine.Resized c e₀ req req' e) (capture graphs : Option ℕ) :
    Engine.Resized c e₀ req req' { e with capture, graphs } where
  half := { h.half with }
  pinned := h.pinned
  moe := h.moe
  kv := ⟨h.kv.pages, h.kv.whole, h.kv.free⟩
  linear := h.linear

section

variable (hnames : req.Names req')
include hnames

theorem keeps_pin :
    Keeps (fun e => Engine.Half c e₀ req e ∧ e.capture = none)
      (whenAsked req'.numSwaPages fun n => Faulting.modify fun e => { e with override := some n })
      (fun _ e => Engine.Half c e₀ req e ∧ e.capture = none ∧ e.Pinned req')
      (Engine.Struck c e₀ req) := by
  refine keeps_whenAsked (fun n hn => ?_) fun hnone e he => ?_
  · refine Keeps.modify fun e he => ⟨?_, he.2, fun m hm => ?_⟩
    · have hasked := named_of_some hnames.window hn
      exact { he.1 with override := fun h => absurd h hasked }
    · cases hn.symm.trans hm
      rfl
  · refine ⟨he.1, he.2, fun n hn => ?_⟩
    rw [hnone] at hn
    cases hn

theorem keeps_moeStage (hvalid : req'.Valid c e₀) :
    Keeps (fun e => Engine.Half c e₀ req e ∧ e.capture = none ∧ e.Pinned req')
      (whenAsked req'.moeCacheSize fun n =>
        Faulting.zoomSome .other Engine.moe (fun moe e => { e with moe := some moe })
          (MoeCache.rebuild n))
      (fun _ e => (Engine.Half c e₀ req e ∧ e.capture = none ∧ e.Pinned req') ∧ e.MoeDone req')
        (Engine.Struck c e₀ req) := by
  refine keeps_whenAsked (fun n hn => ?_) fun hnone e he => ⟨he, fun n hn => ?_⟩
  · have hasked := named_of_some hnames.moe hn
    obtain ⟨cache₀, hcache₀, hcheck⟩ := hvalid.moe n hn
    have hnat : ((n.toNat : ℕ) : ℤ) = n := by
      have hexperts := (Bool.and_eq_true_iff.mp hcheck).1
      have hpos := of_decide_eq_true hexperts
      omega
    -- what the cache is cut to is limited by what no resize touches
    have hset :
        ∀ (e : Engine) (cache : MoeCache), Engine.Half c e₀ req e → cache.limits = cache₀.limits →
        Engine.Half c e₀ req { e with moe := some cache } := fun e cache he hcache =>
      { he with
        moeKept := fun h => absurd h hasked
        moeLimits := by
          rw [hcache₀]
          exact congrArg some hcache }
    refine ((keeps_moe cache₀.limits n.toNat).zoomSome (fun e => Engine.Half c e₀ req e ∧
      e.capture = none ∧ e.Pinned req') fun e he => ?_).mono (fun _ h => h) (fun _ e h => ?_)
      fun p e h => ?_
    · have hlimits := he.1.moeLimits
      rw [hcache₀] at hlimits
      obtain ⟨cache, hcache, hl⟩ := map_eq_some_iff.mp hlimits
      refine ⟨cache, hcache, hl, ?_⟩
      rw [validateRebuild_congr hl, hnat]
      exact hcheck
    · obtain ⟨e, cache, he, rfl, hl, hwhole, hsize⟩ := h
      refine ⟨⟨hset e cache he.1 hl, he.2⟩, fun m hm => ?_⟩
      cases hn.symm.trans hm
      exact ⟨cache, rfl, hwhole, hsize⟩
    · obtain ⟨e, cache, he, rfl, hl⟩ := h
      exact fun _ => hset e cache he.1 hl
  · rw [hnone] at hn
    cases hn

theorem keeps_kvStage (hserves : e₀.Serves c) :
    Keeps (Engine.AtKv c e₀ req req') (Engine.resizeNamedKv c req')
      (fun _ e => Engine.AtKv c e₀ req req' e ∧ e.KvDone c req') (Engine.Struck c e₀ req) := by
  unfold Engine.resizeNamedKv
  cases hpages : req'.numPages with
  | some n =>
    have hnamed := named_of_some hnames.pages hpages
    refine (keeps_resizeKvPool n.toNat (req'.numSwaPages.map Int.toNat) (Engine.AtKv c e₀ req req')
      fun e he => he.1.1.kvShaped).mono (fun _ h => h) (fun _ s hs => ?_) fun p s hs hp => ?_
    · obtain ⟨e, kv, he, rfl, hkind, hwhole, hfree⟩ := hs
      refine ⟨⟨⟨he.1.1.withKv hkind hwhole.shaped fun h => absurd h hnamed, he.1.2⟩, he.2⟩,
        fun m hm => ?_, ?_, fun _ => hfree⟩
      · cases hpages.symm.trans hm
        rfl
      · refine hwhole.pinned ?_
        cases hsw : req'.numSwaPages with
        | none => exact .inl rfl
        | some m => exact .inr (he.1.2.2 m hsw)
    · obtain ⟨e, kv, he, rfl, hkv⟩ := hs
      obtain ⟨hkind, hshaped⟩ :=
        hkv fun hk => Request.losesGroups hp (.inl hnamed) (he.1.1.kvKind.symm.trans hk)
      exact he.1.1.withKv hkind hshaped fun h => absurd h hnamed
  | none =>
    have hunnamed := unnamed_of_none hnames.pages hpages
    refine keeps_whenAsked (fun n hn => ?_) fun hnone e he => ⟨he, ?_⟩
    · have hnamed := named_of_some hnames.window hn
      refine Keeps.read fun e he => ?_
      have hcount := (he.1.1.pages hunnamed).1
      refine (keeps_resizeKvPool e.numPages (some n.toNat) (fun s => s = e)
        fun s hs => hs ▸ he.1.1.kvShaped).mono (fun _ h => h) (fun _ s hs => ?_) fun p s hs hp => ?_
      · obtain ⟨e', kv, rfl, rfl, hkind, hwhole, hfree⟩ := hs
        refine ⟨⟨⟨he.1.1.withKv hkind hwhole.shaped fun _ => ⟨hnamed, hcount⟩, he.1.2⟩, he.2⟩,
          fun m hm => ?_, ?_, fun _ => hfree⟩
        · cases hpages.symm.trans hm
        · exact hwhole.pinned (.inr (he.1.2.2 n hn))
      · obtain ⟨e', kv, rfl, rfl, hkv⟩ := hs
        obtain ⟨hkind, hshaped⟩ :=
          hkv fun hk => Request.losesGroups hp (.inr hnamed) (he.1.1.kvKind.symm.trans hk)
        exact he.1.1.withKv hkind hshaped fun _ => ⟨hnamed, hcount⟩
    · -- neither a page count nor a window is asked for: the pool is as it was
      have hunpinned := unnamed_of_none hnames.window hnone
      obtain ⟨table, hkv⟩ := he.1.1.kvKept hunnamed hunpinned
      refine ⟨fun m hm => ?_, ?_, fun h => ?_⟩
      · cases hpages.symm.trans hm
      · rw [hkv, he.1.1.override hunpinned, (he.1.1.pages hunnamed).1, KvPool.whole_attach]
        exact hserves.kv
      · rw [hpages, hnone] at h
        rcases h with h | h <;> cases h

theorem keeps_linearStage (hvalid : req'.Valid c e₀) :
    Keeps (fun e => Engine.AtKv c e₀ req req' e ∧ e.KvDone c req')
      (whenAsked req'.numMambaSlots fun n =>
        Faulting.zoomSome .other Engine.linear (fun linear e => { e with linear := some linear })
          (LinearStatePool.rebuild (n + 1)))
      (fun _ e => (Engine.AtKv c e₀ req req' e ∧ e.KvDone c req') ∧ e.LinearDone c req')
        (Engine.Struck c e₀ req) := by
  refine keeps_whenAsked (fun n hn => ?_) fun hnone e he => ⟨he, fun n hn => ?_⟩
  · have hasked := named_of_some hnames.mamba hn
    obtain ⟨pool₀, hpool₀⟩ := isSome_iff_exists.mp (hvalid.mamba n hn).1
    have hset : ∀ (e : Engine) (pool : LinearStatePool), Engine.Half c e₀ req e → pool.Shaped c →
        Engine.Half c e₀ req { e with linear := some pool } := fun e pool he hpool =>
      { he with
        linearKept := fun h => absurd h hasked
        linearIs := by
          rw [hpool₀]
          rfl
        linearShaped := fun pool' hpool' => Option.some.inj hpool' ▸ hpool }
    refine ((keeps_linear (c := c) (n.toNat + 1)).zoomSome (fun e => Engine.AtKv c e₀ req req' e ∧
      e.KvDone c req') fun e he => ?_).mono (fun _ h => h) (fun _ e h => ?_) fun p e h hp => ?_
    · have his := he.1.1.1.linearIs
      rw [hpool₀] at his
      obtain ⟨pool, hpool⟩ := isSome_iff_exists.mp his
      exact ⟨pool, hpool, he.1.1.1.linearShaped pool hpool⟩
    · obtain ⟨e, pool, he, rfl, hwhole, hsize, hfree⟩ := h
      refine ⟨⟨⟨⟨hset e pool he.1.1.1 hwhole.shaped, he.1.1.2⟩, he.1.2⟩, he.2.pages, he.2.whole,
        he.2.free⟩, fun m hm => ?_⟩
      cases hn.symm.trans hm
      exact ⟨pool, rfl, hwhole, hsize, hsize ▸ hfree⟩
    · obtain ⟨e, pool, he, rfl, hpool⟩ := h
      exact hset e pool he.1.1.1 (hpool (Request.losesStates hp hasked))
  · rw [hnone] at hn
    cases hn

/-- **All pools that the request names are resized.** -/
theorem keeps_resizePools (hserves : e₀.Serves c) (hvalid : req'.Valid c e₀) :
    Keeps (fun e => Engine.Half c e₀ req e ∧ e.capture = none) (Engine.resizePools c req')
      (fun _ e => Engine.Resized c e₀ req req' e ∧ e.capture = none) (Engine.Struck c e₀ req) := by
  have hpools := (keeps_pin hnames).bind fun _ => (keeps_moeStage hnames hvalid).bind fun _ =>
    (keeps_kvStage hnames hserves).bind fun _ => keeps_linearStage hnames hvalid
  refine hpools.mono (fun _ h => h) (fun _ e h => ?_) fun _ _ h => h
  obtain ⟨⟨⟨⟨hhalf, hcapture, hpinned⟩, hmoe⟩, hkv⟩, hlinear⟩ := h
  exact ⟨⟨hhalf, hpinned, hmoe, hkv, hlinear⟩, hcapture⟩

end

/-! ### The page table and the graphs -/

/-- The page table is there for the page count. -/
structure Engine.Tabled (c : Config) (e : Engine) : Prop where
  maxSeqLen : e.maxSeqLen = min c.maxSeqLen (e.numPages * c.pageSize)
  width : e.pageTable.width = pageTableWidth e.maxSeqLen c.pageSize

theorem keeps_refreshSeqState (hserves : e₀.Serves c) :
    Keeps (fun e => Engine.Resized c e₀ req req' e ∧ e.capture = none) (Engine.refreshSeqState c)
      (fun _ e => (Engine.Resized c e₀ req req' e ∧ e.capture = none) ∧ e.Tabled c ∧
        e.dummyFill = e.numPages * c.pageSize ∧
        e.kv.attachPageTable e.pageTable = e.kv) (Engine.Struck c e₀ req) := by
  refine Keeps.modify_bind (fun e => (Engine.Resized c e₀ req req' e ∧ e.capture = none) ∧
    e.maxSeqLen = min c.maxSeqLen (e.numPages * c.pageSize))
    (fun e he => ⟨⟨he.1.withTable (fun _ => rfl), he.2⟩, rfl⟩) ?_
  refine Keeps.read fun e he => ?_
  refine (Keeps.onlyIf (Q := fun e => (Engine.Resized c e₀ req req' e ∧ e.capture = none) ∧
    e.Tabled c) (fun hwide => ?_) fun hsame s hs => ?_).bind fun _ => ?_
  · -- a table of another width is allocated for another page count only
    have hnamed : req.numPages ≠ none := by
      intro hnone
      obtain ⟨hpages, htable⟩ := he.1.1.half.pages hnone
      have hwidth := hserves.width
      rw [hserves.maxSeqLen, ← hpages, ← he.2, ← htable] at hwidth
      rw [hwidth, bne_self_eq_false] at hwide
      cases hwide
    refine keeps_step_bind (fun s hs _ => hs ▸ he.1.1.half) (Keeps.modify fun s hs => ?_)
    subst hs
    exact ⟨⟨he.1.1.withTable fun hnone => absurd hnone hnamed, he.1.2⟩, he.2, rfl⟩
  · subst hs
    rw [bne_eq_false_iff_eq] at hsame
    exact ⟨he.1, he.2, hsame.symm⟩
  refine keeps_step_bind (fun e he _ => he.1.1.half) ?_
  refine Keeps.modify_bind (fun e => (Engine.Resized c e₀ req req' e ∧ e.capture = none) ∧
    e.Tabled c ∧ e.dummyFill = e.numPages * c.pageSize)
    (fun e he => ⟨⟨he.1.1.withTable fun _ => rfl, he.1.2⟩, ⟨he.2.maxSeqLen, he.2.width⟩, rfl⟩) ?_
  refine keeps_step_bind (fun e he _ => he.1.1.half) (Keeps.modify fun e he => ?_)
  exact ⟨⟨he.1.1.attach, he.1.2⟩, ⟨he.2.1.maxSeqLen, he.2.1.width⟩, he.2.2,
    KvPool.attach_attach e.pageTable⟩

/-- **An engine whose pools are resized serves**, once its table and its graphs are there. -/
theorem Engine.Resized.serves (h : Engine.Resized c e₀ req req' e) (hnames : req.Names req')
    (hserves : e₀.Serves c)
    (hvalid : req'.Valid c e₀) (htabled : e.Tabled c)
    (hdummy : e.dummyFill = e.numPages * c.pageSize)
    (hattached : e.kv.attachPageTable e.pageTable = e.kv)
    (hcapture : e.capture = if e.graphBsList.isEmpty then none
      else some (pageTableWidth e.maxSeqLen c.pageSize))
    (hgraphs : e.graphs = some (pageTableWidth e.maxSeqLen c.pageSize)) : e.Serves c where
  pages := by
    cases ho : req'.numPages with
    | none =>
      rw [(h.half.pages (unnamed_of_none hnames.pages ho)).1]
      exact hserves.pages
    | some n =>
      have hn := hvalid.pages n ho
      rw [h.kv.pages n ho]
      omega
  maxSeqLen := htabled.maxSeqLen
  width := htabled.width
  dummyRow := hdummy
  kv := h.kv.whole
  attached := hattached
  moe := by
    cases ho : req'.moeCacheSize with
    | none =>
      rw [h.half.moeKept (unnamed_of_none hnames.moe ho)]
      exact hserves.moe
    | some n =>
      intro cache hcache
      obtain ⟨cache', hcache', hwhole, hsize⟩ := h.moe n ho
      -- what was resized has the size that the validation let through
      cases hcache.symm.trans hcache'
      obtain ⟨cache₀, hcache₀, hcheck⟩ := hvalid.moe n ho
      have hlimits := h.half.moeLimits
      rw [hcache, hcache₀] at hlimits
      have hnat : ((n.toNat : ℕ) : ℤ) = n := by
        have hpos := of_decide_eq_true (Bool.and_eq_true_iff.mp hcheck).1
        omega
      refine ⟨hwhole, ?_⟩
      rw [hsize, validateRebuild_congr (Option.some.inj hlimits), hnat]
      exact hcheck
  linear := by
    cases ho : req'.numMambaSlots with
    | none =>
      rw [h.half.linearKept (unnamed_of_none hnames.mamba ho)]
      exact hserves.linear
    | some n =>
      intro pool hpool
      obtain ⟨pool', hpool', hwhole, hsize, -⟩ := h.linear n ho
      cases hpool.symm.trans hpool'
      have hmin := (hvalid.mamba n ho).2
      exact ⟨hwhole, by omega⟩
  capture := hcapture
  graphs := hgraphs

theorem keeps_captureGraphs (hnames : req.Names req') (hserves : e₀.Serves c)
    (hvalid : req'.Valid c e₀) :
    Keeps (fun e => (Engine.Resized c e₀ req req' e ∧ e.capture = none) ∧ e.Tabled c ∧
        e.dummyFill = e.numPages * c.pageSize ∧ e.kv.attachPageTable e.pageTable = e.kv)
      (Engine.captureGraphs c) (fun _ e => e.Serves c ∧ Engine.Resized c e₀ req req' e)
      (Engine.Struck c e₀ req) := by
  refine Keeps.read fun e he => ?_
  obtain ⟨⟨hresized, hnone⟩, htabled, hdummy, hattached⟩ := he
  set width := pageTableWidth e.maxSeqLen c.pageSize with hwidth
  refine (Keeps.onlyIf
    (Q := fun s => s = { e with capture := if e.graphBsList.isEmpty then none else some width })
    (fun hsome => ?_) fun hempty s hs => ?_).bind fun _ => ?_
  · have hisNone : e.capture.isNone = true := by rw [hnone]; rfl
    refine (Keeps.ensure hisNone).bind fun _ => ?_
    refine keeps_step_bind (fun s hs _ => hs ▸ hresized.half) (Keeps.modify fun s hs => ?_)
    rw [hs, if_neg (by simpa using hsome)]
  · rw [hs, if_pos (by simpa using hempty), ← hnone]
  refine keeps_step_bind (fun s hs _ => ?_) (Keeps.modify fun s hs => ?_)
  · subst hs
    exact (hresized.withGraphs _ e.graphs).half
  · subst hs
    have hdone :=
      hresized.withGraphs (if e.graphBsList.isEmpty then none else some width) (some width)
    exact ⟨hdone.serves hnames hserves hvalid ⟨htabled.maxSeqLen, htabled.width⟩ hdummy hattached
      rfl rfl, hdone⟩

/-- **From what a rebuild leaves when it is struck, the same code leads to an engine that serves.**
-/
theorem keeps_teardown (hnames : req.Names req') (hserves : e₀.Serves c)
    (hvalid : req'.Valid c e₀) :
    Keeps (fun e => Engine.Half c e₀ req { e with teardownStarted := true })
      (Engine.teardownAndResize c req')
      (fun _ e => e.Serves c ∧ Engine.Resized c e₀ req req' e) (Engine.Struck c e₀ req) := by
  refine Keeps.modify_bind (Engine.Half c e₀ req) (fun _ h => h) ?_
  refine keeps_step_bind (fun _ h _ => h) ?_
  refine Keeps.modify_bind (fun e => Engine.Half c e₀ req e ∧ e.capture = none)
    (fun _ h => ⟨{ h with }, rfl⟩) ?_
  refine keeps_step_bind (fun _ h _ => h.1) ?_
  refine Keeps.modify_bind (fun e => Engine.Half c e₀ req e ∧ e.capture = none)
    (fun _ h => ⟨{ h.1 with }, h.2⟩) ?_
  refine (keeps_resizePools hnames hserves hvalid).bind fun _ => ?_
  refine (keeps_refreshSeqState hserves).bind fun _ => ?_
  exact keeps_step_bind (fun _ h _ => h.1.1.half) (keeps_captureGraphs hnames hserves hvalid)

/-- **A rebuild of an engine** whose request passes the checks. -/
theorem keeps_rebuildRuntimeCache {e₁ : Engine}
    (hready : Engine.Half c e₀ req { e₁ with teardownStarted := true })
    (hnames : req.Names req') (hserves : e₀.Serves c) (hvalid : req'.Valid c e₀)
    (hadmits : e₁.admits c req' = true) (hsome : req'.isEmpty = false) :
    Keeps (fun e => e = e₁) (Engine.rebuildRuntimeCache c req') (fun _ e => e.Serves c ∧
      Engine.Resized c e₀ req req' e)
      fun p e => e = e₁ ∨ Engine.Struck c e₀ req p e := by
  rw [Engine.rebuildRuntimeCache, hsome]
  refine keeps_step_bind (fun _ h => .inl h) ?_
  refine Keeps.read fun e he => ?_
  subst he
  refine (Keeps.ensure hadmits).bind fun _ => ?_
  refine keeps_step_bind (fun _ h => .inl h) ?_
  exact (keeps_teardown hnames hserves hvalid).mono (fun s hs => hs ▸ hready) (fun _ _ h => h)
    fun _ _ h => .inr h

theorem Engine.Serves.half (h : e.Serves c) (req : Request) :
    Engine.Half c e req { e with teardownStarted := true } where
  started := rfl
  graphBs := rfl
  pages _ := ⟨rfl, rfl⟩
  override _ := rfl
  kvKind := rfl
  kvShaped := h.kv.shaped
  kvKept _ _ := ⟨e.pageTable, h.attached.symm⟩
  moeKept _ := rfl
  moeLimits := rfl
  linearKept _ := rfl
  linearIs := rfl
  linearShaped pool hpool := (h.linear pool hpool).1.shaped

theorem Request.Names.isEmpty_eq (h : req.Names req') : req'.isEmpty = req.isEmpty := by
  simp only [Request.isEmpty, ← not_isSome, h.moe, h.pages, h.mamba, h.window]

/-! ### Reclaimed state slots -/

/-- The same state pool, whatever slots are free. -/
def SameStates (linear linear' : Option LinearStatePool) : Prop :=
  linear.map (fun pool => { pool with freeSlots := [] }) = linear'.map fun pool =>
    { pool with freeSlots := [] }

section

variable {linear linear' : Option LinearStatePool}

theorem SameStates.rfl : SameStates linear linear := Eq.refl _

theorem SameStates.trans {linear'' : Option LinearStatePool} (h : SameStates linear linear')
    (h' : SameStates linear' linear'') :
    SameStates linear linear'' := Eq.trans h h'

theorem SameStates.isSome_eq (h : SameStates linear linear') : linear.isSome = linear'.isSome := by
  have hsome := congrArg Option.isSome h
  rwa [isSome_map, isSome_map] at hsome

theorem SameStates.exists_eq (h : SameStates linear linear') {pool : LinearStatePool}
    (hpool : pool ∈ linear) :
    ∃ freeSlots, { pool with freeSlots } ∈ linear' := by
  cases linear' with
  | none =>
    rw [mem_def.mp hpool] at h
    cases h
  | some pool' =>
    rw [mem_def.mp hpool] at h
    refine ⟨pool'.freeSlots, ?_⟩
    have heq := congrArg (fun pool : LinearStatePool => { pool with freeSlots := pool'.freeSlots })
      (Option.some.inj h)
    exact congrArg some heq.symm

theorem Engine.Serves.withStates (h : e.Serves c) (hsame : SameStates linear e.linear) :
    Engine.Serves c { e with linear } :=
  { h with
    linear := fun pool hpool => by
      obtain ⟨freeSlots, hpool'⟩ := hsame.exists_eq hpool
      obtain ⟨hwhole, hmin⟩ := h.linear _ hpool'
      exact ⟨⟨hwhole.conv, hwhole.recurrent, hwhole.slotStates⟩, hmin⟩ }

theorem Request.Valid.withStates (h : req.Valid c e) (hsame : SameStates linear e.linear) :
    Request.Valid c { e with linear } req :=
  { h with mamba := fun n hn => ⟨hsame.isSome_eq.trans (h.mamba n hn).1, (h.mamba n hn).2⟩ }

theorem Engine.poolAdmits_withStates (hsame : SameStates linear e.linear) (req : Request) :
    Engine.poolAdmits c { e with linear } req = e.poolAdmits c req := by
  have hslots : linear.map LinearStatePool.numSlots = e.linear.map LinearStatePool.numSlots := by
    have hmap := congrArg (Option.map LinearStatePool.numSlots) hsame
    rwa [map_map, map_map] at hmap
  have haccount : account { e with linear } req = account e req := by
    simp only [account, hslots]
  rw [Engine.poolAdmits, Engine.poolAdmits, haccount]

/-! Slots that are reclaimed: all of them are free. -/

/-- Every state slot is free or held by the prefix cache. -/
def StatesKept (linear : Option LinearStatePool) (treeSlots : List ℕ) : Prop :=
  ∀ pool ∈ linear, (pool.freeSlots ++ treeSlots).Perm (poolSlots pool.numSlots)

theorem sameStates_reclaim : SameStates (linear.map LinearStatePool.reclaimAllSlots) linear := by
  cases linear <;> exact Eq.refl _

theorem statesKept_reclaim : StatesKept (linear.map LinearStatePool.reclaimAllSlots) [] := by
  intro pool hpool
  obtain ⟨pool, -, rfl⟩ := map_eq_some_iff.mp hpool
  rw [List.append_nil]
  exact List.Perm.refl _

theorem Engine.Half.reclaim (h : Engine.Half c { e₀ with linear } req e) :
    Engine.Half c { e₀ with linear := linear.map LinearStatePool.reclaimAllSlots } req
      { e with linear := e.linear.map LinearStatePool.reclaimAllSlots } :=
  { h with
    linearKept := fun hm => congrArg (Option.map LinearStatePool.reclaimAllSlots) (h.linearKept hm)
    linearIs := by
      show (e.linear.map _).isSome = (linear.map _).isSome
      rw [isSome_map, isSome_map, h.linearIs]
    linearShaped := fun pool hpool => by
      obtain ⟨pool, hmem, rfl⟩ := map_eq_some_iff.mp hpool
      have hshaped := h.linearShaped pool hmem
      exact ⟨hshaped.conv, hshaped.recurrent⟩ }

theorem Engine.Resized.reclaim (h : Engine.Resized c { e₀ with linear } req req' e) :
    Engine.Resized c { e₀ with linear := linear.map LinearStatePool.reclaimAllSlots } req req'
      { e with linear := e.linear.map LinearStatePool.reclaimAllSlots } where
  half := h.half.reclaim
  pinned := h.pinned
  moe := h.moe
  kv := ⟨h.kv.pages, h.kv.whole, h.kv.free⟩
  linear := fun n hn => by
    obtain ⟨pool, hpool, hwhole, hsize, -⟩ := h.linear n hn
    have hmap :
      e.linear.map LinearStatePool.reclaimAllSlots =
      some pool.reclaimAllSlots := by rw [hpool, map_some]
    exact ⟨pool.reclaimAllSlots, hmap, ⟨hwhole.conv, hwhole.recurrent, hwhole.slotStates⟩, hsize,
      Eq.refl _⟩

end

end FreeToken.CacheRebuild
