import FreeToken.Kernel.Df11
import FreeToken.Lib.DisjointBits

/-!
# The code of DF11

* `kraft_walk`: the lengths of a tree meet Kraft's inequality with equality.
* `mergeHeap_induct`: what every merge of the two least entries keeps holds of the tree.
* `Balanced`: with equal counts the tree is as low as it can be.
* `lengthLimitedLengths_spec`: the limit is reached after finitely many rounds.
-/

namespace FreeToken

open List

variable {lengths : List (ℕ × ℕ)} {heap : List Entry} {lmax d c floor : ℕ} {t : Node} {l : ℕ × ℕ}

namespace Df11

variable {H : Heapq Entry.stamp} {freq : List (ℕ × ℕ)}

/-! ### Trees -/

namespace Node

def leaves : Node → List ℕ
  | leaf sym => [sym]
  | node n1 n2 => leaves n1 ++ leaves n2

def depth : Node → ℕ
  | leaf _ => 0
  | node n1 n2 => max (depth n1) (depth n2) + 1

def size (t : Node) : ℕ := t.leaves.length

end Node

theorem map_fst_walk (t : Node) (d : ℕ) : (walk t d).map Prod.fst = t.leaves := by
  induction t generalizing d with
  | leaf sym => rfl
  | node n1 n2 ih1 ih2 =>
    rw [walk, map_append, ih1, ih2]
    rfl

theorem length_of_walk (h : l ∈ walk t d) : 1 ≤ l.2 ∧ l.2 ≤ max (d + t.depth) 1 := by
  induction t generalizing d with
  | leaf sym =>
    obtain rfl := mem_singleton.mp h
    exact ⟨le_max_right _ _, le_rfl⟩
  | node n1 n2 ih1 ih2 =>
    have hdepth : (Node.node n1 n2).depth = max n1.depth n2.depth + 1 := rfl
    rw [hdepth]
    rcases mem_append.mp h with h | h
    · have hlen := ih1 h
      omega
    · have hlen := ih2 h
      omega

theorem walk_ne_nil (t : Node) (d : ℕ) : walk t d ≠ [] := by
  induction t generalizing d with
  | leaf sym => exact cons_ne_nil _ _
  | node n1 n2 ih1 _ =>
    intro h
    exact ih1 (d + 1) (append_eq_nil_iff.mp h).1

theorem le_of_walk (h : l ∈ walk t d) : d ≤ l.2 := by
  induction t generalizing d with
  | leaf sym =>
    obtain rfl := mem_singleton.mp h
    exact le_max_left _ _
  | node n1 n2 ih1 ih2 =>
    rcases mem_append.mp h with h | h
    · exact (Nat.le_succ d).trans (ih1 h)
    · exact (Nat.le_succ d).trans (ih2 h)

/-- The share of the code words of some lengths, in code words of length `D`. -/
def kraft (D : ℕ) (lengths : List (ℕ × ℕ)) : ℕ := sumOf (lengths.map fun l => 2 ^ (D - l.2))

theorem kraft_append (D : ℕ) (l l' : List (ℕ × ℕ)) :
    kraft D (l ++ l') = kraft D l + kraft D l' := by
  unfold kraft
  rw [map_append, sumOf_append]

/-- The leaves under a node share what is under it. -/
theorem kraft_walk {D : ℕ} (hd : 1 ≤ d) (hD : ∀ l ∈ walk t d, l.2 ≤ D) :
    kraft D (walk t d) = 2 ^ (D - d) := by
  induction t generalizing d with
  | leaf sym =>
    show 2 ^ (D - max d 1) + 0 = 2 ^ (D - d)
    rw [max_eq_left hd, add_zero]
  | node n1 n2 ih1 ih2 =>
    have h1 := ih1 (Nat.le_succ_of_le hd) fun l hl => hD l (mem_append_left _ hl)
    have h2 := ih2 (Nat.le_succ_of_le hd) fun l hl => hD l (mem_append_right _ hl)
    -- the node is above a leaf
    have hlt : d + 1 ≤ D := by
      obtain ⟨l, hl⟩ := exists_mem_of_ne_nil _ (walk_ne_nil n1 (d + 1))
      exact (le_of_walk hl).trans (hD l (mem_append_left _ hl))
    have hpow : 2 ^ (D - d) = 2 ^ (D - (d + 1)) + 2 ^ (D - (d + 1)) := by
      rw [← Nat.two_mul, ← Nat.pow_succ']
      congr 1
      omega
    rw [walk, kraft_append, h1, h2, hpow]

/-! ### Merging -/

theorem isHeap_nil : H.IsHeap [] := by
  have hnil : H.heapify [] = [] := (H.heapify_perm []).eq_nil
  have hheap := H.isHeap_heapify []
  rwa [hnil] at hheap

theorem mergeHeap_step (hheap : H.IsHeap heap) (hlen : 1 < heap.length) (rounds order : ℕ) :
    ∃ e1 e2 rest, heap.Perm (e1 :: e2 :: rest) ∧ (∀ e ∈ e2 :: rest, e1.f ≤ e.f) ∧
      (∀ e ∈ rest, e2.f ≤ e.f) ∧
      ∃ heap', H.IsHeap heap' ∧ heap'.Perm (⟨e1.f + e2.f, order, .node e1.node e2.node⟩ :: rest) ∧
        mergeHeap H (rounds + 1) heap order = mergeHeap H rounds heap' (order + 1) := by
  obtain ⟨e1, heap1, hpop1⟩ : ∃ e1 heap1, H.heappop heap = some (e1, heap1) := by
    cases hpop : H.heappop heap with
    | none =>
      rw [(H.heappop_eq_none heap).mp hpop] at hlen
      exact absurd hlen (by decide)
    | some r => exact ⟨r.1, r.2, rfl⟩
  have hperm1 := H.heappop_perm _ _ _ hpop1
  obtain ⟨e2, heap2, hpop2⟩ : ∃ e2 heap2, H.heappop heap1 = some (e2, heap2) := by
    cases hpop : H.heappop heap1 with
    | none =>
      rw [(H.heappop_eq_none heap1).mp hpop] at hperm1
      rw [hperm1.length_eq] at hlen
      exact absurd hlen (lt_irrefl 1)
    | some r => exact ⟨r.1, r.2, rfl⟩
  have hheap1 := H.isHeap_heappop _ _ _ hheap hpop1
  have hperm2 := H.heappop_perm _ _ _ hpop2
  have hperm : heap.Perm (e1 :: e2 :: heap2) := hperm1.trans (hperm2.cons e1)
  refine ⟨e1, e2, heap2, hperm, ?_, ?_, _,
    H.isHeap_heappush _ _ (H.isHeap_heappop _ _ _ hheap1 hpop2), H.heappush_perm _ _, ?_⟩
  · intro e he
    exact Int.ofNat_le.mp
      (H.heappop_le _ _ _ hheap hpop1 e (hperm.mem_iff.mpr (mem_cons_of_mem _ he)))
  · intro e he
    exact Int.ofNat_le.mp
      (H.heappop_le _ _ _ hheap1 hpop2 e (hperm2.mem_iff.mpr (mem_cons_of_mem _ he)))
  · rw [mergeHeap, if_pos hlen, hpop1, Option.bind_eq_bind, Option.bind_some]
    dsimp only
    rw [hpop2]
    rfl

theorem mergeHeap_induct (rounds order : ℕ) {P : List Entry → Prop}
    (hperm : ∀ {l l' : List Entry}, l.Perm l' → P l → P l')
    (hstep : ∀ {e1 e2 : Entry} {rest : List Entry} (order : ℕ), (∀ e ∈ e2 :: rest, e1.f ≤ e.f) →
      (∀ e ∈ rest, e2.f ≤ e.f) → P (e1 :: e2 :: rest) →
      P (⟨e1.f + e2.f, order, .node e1.node e2.node⟩ :: rest)) (hheap : H.IsHeap heap)
        (hne : heap ≠ []) (hlen : heap.length ≤ rounds + 1)
    (h : P heap) : ∃ e, mergeHeap H rounds heap order = some [e] ∧ P [e] := by
  induction rounds generalizing heap order with
  | zero =>
    have hone : heap.length = 1 := by
      have hpos := length_pos_of_ne_nil hne
      omega
    obtain ⟨e, rfl⟩ := length_eq_one_iff.mp hone
    exact ⟨e, rfl, h⟩
  | succ rounds ih =>
    by_cases hmany : 1 < heap.length
    · obtain ⟨e1, e2, rest, hpop, hle1, hle2, heap', hheap', hperm', hmerge⟩ :=
        mergeHeap_step hheap hmany rounds order
      have hlen' : heap'.length ≤ rounds + 1 := by
        have hlen1 := hpop.length_eq
        have hlen2 := hperm'.length_eq
        rw [length_cons, length_cons] at hlen1
        rw [length_cons] at hlen2
        omega
      have hne' : heap' ≠ [] := by
        rintro rfl
        exact absurd hperm'.length_eq (by simp)
      rw [hmerge]
      exact ih (order + 1) hheap' hne' hlen'
        (hperm hperm'.symm (hstep order hle1 hle2 (hperm hpop h)))
    · have hone : heap.length = 1 := by
        have hpos := length_pos_of_ne_nil hne
        omega
      obtain ⟨e, rfl⟩ := length_eq_one_iff.mp hone
      refine ⟨e, ?_, h⟩
      rw [mergeHeap, if_neg hmany]

def leafEntries : List (ℕ × ℕ) → ℕ → List Entry
  | [], _ => []
  | (sym, f) :: freq, order => ⟨f, order, .leaf sym⟩ :: leafEntries freq (order + 1)

theorem pushLeaves_spec (freq : List (ℕ × ℕ)) (hheap : H.IsHeap heap) (order : ℕ) :
    H.IsHeap (pushLeaves H freq heap order) ∧
      (pushLeaves H freq heap order).Perm (leafEntries freq order ++ heap) := by
  induction freq generalizing heap order with
  | nil => exact ⟨hheap, List.Perm.refl _⟩
  | cons sf freq ih =>
    obtain ⟨sym, f⟩ := sf
    obtain ⟨hheap', hperm⟩ := ih (H.isHeap_heappush heap ⟨f, order, .leaf sym⟩ hheap) (order + 1)
    refine ⟨hheap', hperm.trans ?_⟩
    have hpush := H.heappush_perm heap ⟨f, order, .leaf sym⟩
    exact (hpush.append_left (leafEntries freq (order + 1))).trans perm_middle

theorem leaves_leafEntries (freq : List (ℕ × ℕ)) (order : ℕ) :
    (leafEntries freq order).flatMap (fun e => e.node.leaves) = freq.map Prod.fst := by
  induction freq generalizing order with
  | nil => rfl
  | cons sf freq ih =>
    rw [leafEntries, flatMap_cons, ih]
    rfl

theorem length_leafEntries (freq : List (ℕ × ℕ)) (order : ℕ) :
    (leafEntries freq order).length = freq.length := by
  induction freq generalizing order with
  | nil => rfl
  | cons sf freq ih => rw [leafEntries, length_cons, length_cons, ih]

theorem mergeHeap_leaves (freq : List (ℕ × ℕ)) (hmany : 2 ≤ freq.length) :
    ∃ n1 n2 e, mergeHeap H freq.length (pushLeaves H freq [] 0) freq.length = some [e] ∧
      e.node = .node n1 n2 ∧
      (e.node.leaves).Perm (freq.map Prod.fst) := by
  obtain ⟨hheap, hperm⟩ := pushLeaves_spec (H := H) freq isHeap_nil 0
  rw [append_nil] at hperm
  have hlen := hperm.length_eq
  rw [length_leafEntries] at hlen
  obtain ⟨e, hmerge, hleaves, hnode⟩ := mergeHeap_induct (H := H) freq.length freq.length
    (P := fun l => (l.flatMap fun e => e.node.leaves).Perm (freq.map Prod.fst) ∧
    (l.length = 1 → ∃ e n1 n2, e ∈ l ∧ e.node = .node n1 n2)) (fun hl h => by
      refine ⟨((hl.flatMap_right _).symm).trans h.1, fun hone => ?_⟩
      obtain ⟨e, n1, n2, he, hn⟩ := h.2 (hl.length_eq.trans hone)
      exact ⟨e, n1, n2, hl.mem_iff.mp he, hn⟩)
    (fun {e1 e2 rest} order _ _ h => by
      refine ⟨?_, fun _ => ⟨_, e1.node, e2.node, mem_cons_self, rfl⟩⟩
      have hflat := h.1
      rw [flatMap_cons, flatMap_cons, ← append_assoc] at hflat
      exact hflat)
    hheap (ne_nil_of_length_pos (by omega)) (by omega)
    ⟨by
      rw [← leaves_leafEntries freq 0]
      exact hperm.flatMap_right _, fun hone => by omega⟩
  obtain ⟨e', n1, n2, he', hn⟩ := hnode rfl
  obtain rfl := mem_singleton.mp he'
  refine ⟨n1, n2, e', hmerge, hn, ?_⟩
  rw [flatMap_cons, flatMap_nil, append_nil] at hleaves
  exact hleaves

/-- What the lengths of a Huffman code are: one for each symbol, none of them zero, and within
Kraft's inequality. -/
structure Lengths (freq lengths : List (ℕ × ℕ)) : Prop where
  perm : (lengths.map Prod.fst).Perm (freq.map Prod.fst)
  pos : ∀ l ∈ lengths, 1 ≤ l.2
  kraft : ∀ D, (∀ l ∈ lengths, l.2 ≤ D) → kraft D lengths ≤ 2 ^ D

theorem huffmanLengths_spec (hne : freq ≠ []) :
    ∃ lengths, huffmanLengths H freq = some lengths ∧ Lengths freq lengths := by
  cases freq with
  | nil => exact absurd rfl hne
  | cons sf freq =>
    obtain ⟨sym, f⟩ := sf
    cases freq with
    | nil =>
      refine ⟨[(sym, 1)], rfl, List.Perm.refl _, forall_mem_singleton.mpr le_rfl, fun D _ => ?_⟩
      show 2 ^ (D - 1) + 0 ≤ 2 ^ D
      exact Nat.pow_le_pow_right two_pos (Nat.sub_le D 1)
    | cons sf' freq =>
      obtain ⟨n1, n2, e, hmerge, hnode, hleaves⟩ :=
        mergeHeap_leaves (H := H) ((sym, f) :: sf' :: freq) (by simp)
      refine ⟨walk e.node 0, ?_, ?_, fun l hl => (length_of_walk hl).1, fun D hD => ?_⟩
      · show (do
          let heap ← mergeHeap H _ _ _
          let root ← heap.head?
          return walk root.node 0) = _
        rw [hmerge]
        rfl
      · rw [map_fst_walk]
        exact hleaves
      · rw [hnode] at hD ⊢
        rw [walk, kraft_append, kraft_walk le_rfl fun l hl =>
          hD l (mem_append_left _ hl), kraft_walk le_rfl fun l hl => hD l (mem_append_right _ hl)]
        have hpos : 1 ≤ D := by
          obtain ⟨l, hl⟩ := exists_mem_of_ne_nil _ (walk_ne_nil n1 1)
          exact (le_of_walk hl).trans (hD l (mem_append_left _ hl))
        rw [← Nat.two_mul, ← Nat.pow_succ', Nat.succ_eq_add_one, Nat.sub_add_cancel hpos]

/-! ### Equal counts -/

/-- An entry of `2 ^ a` to `2 ^ (a + 1)` leaves that is as low as they allow. -/
def Low (a : ℕ) (e : Entry) : Prop :=
  2 ^ a ≤ e.node.size ∧ e.node.size ≤ 2 ^ (a + 1) ∧ e.node.depth ≤ a + 1 ∧
    (e.node.size = 2 ^ a → e.node.depth ≤ a)

/-- An entry that is between two full ones. -/
def between (a : ℕ) (e : Entry) : Bool := 2 ^ a < e.node.size ∧ e.node.size < 2 ^ (a + 1)

/-- A heap of low entries of which at most one is between two full ones.  An entry counts `c` for
each of its leaves. -/
def Balanced (c : ℕ) (heap : List Entry) : Prop :=
  (∀ e ∈ heap, e.f = c * e.node.size) ∧ ∃ a, (∀ e ∈ heap, Low a e) ∧ heap.countP (between a) ≤ 1

theorem size_node (n1 n2 : Node) : (Node.node n1 n2).size = n1.size + n2.size := length_append

theorem Balanced.step {c : ℕ} (hc : 0 < c) {e1 e2 : Entry} {rest : List Entry} (order : ℕ)
    (hle1 : ∀ e ∈ e2 :: rest, e1.f ≤ e.f) (hle2 : ∀ e ∈ rest, e2.f ≤ e.f)
    (h : Balanced c (e1 :: e2 :: rest)) :
    Balanced c (⟨e1.f + e2.f, order, .node e1.node e2.node⟩ :: rest) := by
  obtain ⟨hcount, a, hlow, hone⟩ := h
  have hmem1 : e1 ∈ e1 :: e2 :: rest := mem_cons_self
  have hmem2 : e2 ∈ e1 :: e2 :: rest := mem_cons_of_mem _ mem_cons_self
  have hmem : ∀ e ∈ rest, e ∈ e1 :: e2 :: rest := fun e he =>
    mem_cons_of_mem _ (mem_cons_of_mem _ he)
  -- the two entries are the smallest ones
  have hsize :
      ∀ e ∈ e1 :: e2 :: rest, ∀ e' ∈ e1 :: e2 :: rest, e.f ≤ e'.f → e.node.size ≤ e'.node.size := by
    intro e he e' he' hle
    rw [hcount e he, hcount e' he'] at hle
    exact le_of_mul_le_mul_left hle hc
  have hsize12 := hsize e1 hmem1 e2 hmem2 (hle1 e2 mem_cons_self)
  have hsize2 : ∀ e ∈ rest, e2.node.size ≤ e.node.size :=
    fun e he => hsize e2 hmem2 e (hmem e he) (hle2 e he)
  obtain ⟨hlo1, hhi1, hdepth1, hfull1⟩ := hlow e1 hmem1
  obtain ⟨hlo2, hhi2, hdepth2, hfull2⟩ := hlow e2 hmem2
  have hpow : 2 ^ (a + 1) = 2 * 2 ^ a := Nat.pow_succ'
  have hpow' : 2 ^ (a + 1 + 1) = 2 * 2 ^ (a + 1) := Nat.pow_succ'
  have hdepth : (Node.node e1.node e2.node).depth = max e1.node.depth e2.node.depth + 1 := rfl
  refine ⟨?_, ?_⟩
  · intro e he
    rcases mem_cons.mp he with rfl | he
    · show e1.f + e2.f = c * (Node.node e1.node e2.node).size
      rw [size_node, mul_add, ← hcount e1 hmem1, ← hcount e2 hmem2]
    · exact hcount e (hmem e he)
  rw [countP_cons, countP_cons] at hone
  by_cases hsmall : e2.node.size = 2 ^ a
  · -- two small entries become a full one
    have hsmall1 : e1.node.size = 2 ^ a := le_antisymm (hsmall ▸ hsize12) hlo1
    have hd1 := hfull1 hsmall1
    have hd2 := hfull2 hsmall
    refine ⟨a, ?_, ?_⟩
    · intro e he
      rcases mem_cons.mp he with rfl | he
      · unfold Low
        rw [size_node, hdepth, hsmall, hsmall1]
        have hpos : 0 < 2 ^ a := Nat.two_pow_pos a
        omega
      · exact hlow e (hmem e he)
    · have hfull : between a ⟨e1.f + e2.f, order, .node e1.node e2.node⟩ = false := by
        unfold between
        rw [size_node, hsmall, hsmall1]
        apply decide_eq_false
        omega
      rw [countP_cons_of_neg (by rw [hfull]; exact Bool.false_ne_true)]
      omega
  · -- every other entry is full, and a level is done
    have hlarge2 : 2 ^ a < e2.node.size := lt_of_le_of_ne hlo2 (Ne.symm hsmall)
    have hfull : ∀ e ∈ rest, e.node.size = 2 ^ (a + 1) := by
      intro e he
      obtain ⟨hlo, hhi, -, -⟩ := hlow e (hmem e he)
      have hle := hsize2 e he
      by_contra hne
      have hbetween : between a e = true := decide_eq_true ⟨by omega, by omega⟩
      have hpos : 0 < rest.countP (between a) := countP_pos_iff.mpr ⟨e, he, hbetween⟩
      -- then the second entry is full, and this one is not smaller
      have hnot2 : ¬between a e2 = true := by
        intro hb
        rw [if_pos hb] at hone
        omega
      have hfull2 : e2.node.size = 2 ^ (a + 1) := by
        by_contra hne2
        exact hnot2 (decide_eq_true ⟨hlarge2, by omega⟩)
      omega
    refine ⟨a + 1, ?_, ?_⟩
    · intro e he
      rcases mem_cons.mp he with rfl | he
      · unfold Low
        rw [size_node, hdepth]
        omega
      · obtain ⟨-, -, hdepthe, -⟩ := hlow e (hmem e he)
        have hsizee := hfull e he
        unfold Low
        rw [hsizee]
        omega
    · have hnone : rest.countP (between (a + 1)) = 0 := by
        rw [countP_eq_zero]
        intro e he hb
        have hb' := of_decide_eq_true hb
        rw [hfull e he] at hb'
        omega
      rw [countP_cons, hnone]
      split_ifs <;> omega

theorem Balanced.perm {l l' : List Entry} (hl : l.Perm l') (h : Balanced c l) : Balanced c l' := by
  obtain ⟨hcount, a, hlow, hone⟩ := h
  refine ⟨fun e he => hcount e (hl.mem_iff.mpr he), a, fun e he => hlow e (hl.mem_iff.mpr he), ?_⟩
  rwa [← hl.countP_eq]

theorem balanced_leafEntries (hfreq : ∀ sf ∈ freq, sf.2 = c) (order : ℕ) :
    Balanced c (leafEntries freq order) := by
  have hleaf : ∀ e ∈ leafEntries freq order, e.f = c ∧ ∃ sym, e.node = .leaf sym := by
    induction freq generalizing order with
    | nil => exact fun e he => absurd he not_mem_nil
    | cons sf freq ih =>
      intro e he
      rcases mem_cons.mp he with rfl | he
      · exact ⟨hfreq sf mem_cons_self, sf.1, rfl⟩
      · exact ih (fun sf h => hfreq sf (mem_cons_of_mem _ h)) (order + 1) e he
  refine ⟨fun e he => ?_, 0, fun e he => ?_, ?_⟩
  · obtain ⟨hf, sym, hnode⟩ := hleaf e he
    rw [hf, hnode]
    exact (mul_one c).symm
  · obtain ⟨-, sym, hnode⟩ := hleaf e he
    unfold Low
    rw [hnode]
    exact ⟨le_rfl, one_le_two, Nat.zero_le _, fun _ => le_rfl⟩
  · rw [countP_eq_zero.mpr]
    · exact Nat.zero_le 1
    · intro e he hb
      obtain ⟨-, sym, hnode⟩ := hleaf e he
      have hb' := of_decide_eq_true hb
      rw [hnode] at hb'
      exact absurd hb'.1 (lt_irrefl 1)

/-- With equal counts no code word is longer than it has to be. -/
theorem huffmanLengths_of_equal {m : ℕ} (hc : 0 < c) (hfreq : ∀ sf ∈ freq, sf.2 = c) (hm : 1 ≤ m)
    (hlen : freq.length ≤ 2 ^ m) (h : huffmanLengths H freq = some lengths) :
    ∀ l ∈ lengths, l.2 ≤ m := by
  cases freq with
  | nil =>
    have hnone : huffmanLengths H [] = none := by
      show (do
        let heap ← mergeHeap H 0 [] 0
        let root ← heap.head?
        return walk root.node 0) = none
      rfl
    rw [hnone] at h
    exact absurd h (by simp)
  | cons sf freq =>
    obtain ⟨sym, f⟩ := sf
    cases freq with
    | nil =>
      obtain rfl := Option.some.inj h
      exact forall_mem_singleton.mpr hm
    | cons sf' freq =>
      generalize hall : (sym, f) :: sf' :: freq = freq' at *
      have hmany : 2 ≤ freq'.length := by
        rw [← hall, length_cons, length_cons]
        omega
      obtain ⟨hheap, hperm⟩ := pushLeaves_spec (H := H) freq' isHeap_nil 0
      rw [append_nil] at hperm
      have hlen' := hperm.length_eq
      rw [length_leafEntries] at hlen'
      obtain ⟨e, hmerge, -, a, hlow, -⟩ := mergeHeap_induct (H := H) freq'.length freq'.length
        (P := Balanced c) Balanced.perm (Balanced.step hc) hheap (ne_nil_of_length_pos (by omega))
        (by omega) ((balanced_leafEntries hfreq 0).perm hperm.symm)
      obtain ⟨n1, n2, e', hmerge', -, hleaves⟩ := mergeHeap_leaves (H := H) freq' hmany
      obtain rfl : e = e' := by
        have heq := hmerge.symm.trans hmerge'
        exact (List.cons.inj (Option.some.inj heq)).1
      have hlengths : huffmanLengths H freq' = some (walk e.node 0) := by
        rw [← hall] at hmerge ⊢
        show (do
          let heap ← mergeHeap H _ _ _
          let root ← heap.head?
          return walk root.node 0) = _
        rw [hmerge]
        rfl
      obtain rfl := Option.some.inj (h.symm.trans hlengths)
      -- the tree has so many leaves
      have hsize : e.node.size ≤ 2 ^ m := by
        have hcount := hleaves.length_eq
        rw [length_map] at hcount
        exact hcount.trans_le hlen
      obtain ⟨hlo, -, hdepth, hfull⟩ := hlow e mem_cons_self
      have hle : e.node.depth ≤ m := by
        by_cases hexact : e.node.size = 2 ^ a
        · have hpow : 2 ^ a ≤ 2 ^ m := hexact ▸ hsize
          exact (hfull hexact).trans ((Nat.pow_le_pow_iff_right one_lt_two).mp hpow)
        · have hpow : 2 ^ a < 2 ^ m := (lt_of_le_of_ne hlo (Ne.symm hexact)).trans_le hsize
          exact hdepth.trans ((Nat.pow_lt_pow_iff_right one_lt_two).mp hpow)
      intro l hl
      have hll := (length_of_walk hl).2
      omega

/-! ### The limit -/

theorem le_maxLength : maxLength lengths ≤ lmax ↔ ∀ l ∈ lengths, l.2 ≤ lmax := by
  have hfold :
      ∀ m, lengths.foldl (fun m l => max m l.2) m ≤ lmax ↔ m ≤ lmax ∧
      ∀ l ∈ lengths, l.2 ≤ lmax := by
    induction lengths with
    | nil =>
      intro m
      exact ⟨fun h => ⟨h, fun l hl => absurd hl not_mem_nil⟩, fun h => h.1⟩
    | cons l lengths ih =>
      intro m
      rw [foldl_cons, ih, forall_mem_cons, max_le_iff, and_assoc]
  exact (hfold 0).trans (and_iff_right (Nat.zero_le _))

theorem Lengths.of_counts {freq' : List (ℕ × ℕ)} (hsame : freq'.map Prod.fst = freq.map Prod.fst)
    (h : Lengths freq' lengths) : Lengths freq lengths := ⟨hsame ▸ h.perm, h.pos, h.kraft⟩

theorem lengthLimitedFrom_step (lmax : ℕ) (hne : freq ≠ []) (rounds floor : ℕ) :
    (∃ lengths, lengthLimitedFrom H lmax (rounds + 1) freq floor = some lengths ∧
      Lengths freq lengths ∧
      ∀ l ∈ lengths, l.2 ≤ lmax) ∨
    (∃ lengths, huffmanLengths H freq = some lengths ∧ ¬∀ l ∈ lengths, l.2 ≤ lmax) ∧
      lengthLimitedFrom H lmax (rounds + 1) freq floor =
        lengthLimitedFrom H lmax rounds (freq.map fun sc => (sc.1, max sc.2 (floor * 2)))
          (floor * 2) := by
  obtain ⟨lengths, hlengths, hok⟩ := huffmanLengths_spec (H := H) hne
  by_cases hle : maxLength lengths ≤ lmax
  · left
    refine ⟨lengths, ?_, hok, le_maxLength.mp hle⟩
    rw [lengthLimitedFrom, hlengths]
    exact if_pos hle
  · right
    refine ⟨⟨lengths, hlengths, fun h => hle (le_maxLength.mpr h)⟩, ?_⟩
    rw [lengthLimitedFrom, hlengths]
    exact if_neg hle

theorem lengthLimitedFrom_spec {M : ℕ} (hlmax : 1 ≤ lmax) (rounds : ℕ) (hne : freq ≠ [])
    (hlen : freq.length ≤ 2 ^ lmax) (hfloor : 0 < floor) (hle : ∀ sf ∈ freq, sf.2 ≤ max M floor)
    (hM : M ≤ floor * 2 ^ rounds) :
    ∃ lengths, lengthLimitedFrom H lmax (rounds + 2) freq floor = some lengths ∧
      Lengths freq lengths ∧
      ∀ l ∈ lengths, l.2 ≤ lmax := by
  induction rounds generalizing freq floor with
  | zero =>
    rcases lengthLimitedFrom_step (H := H) lmax hne 1 floor with h | ⟨-, hnext⟩
    · exact h
    · -- now every count is the floor
      rw [pow_zero, mul_one] at hM
      have hequal : ∀ sf ∈ freq.map fun sc => (sc.1, max sc.2 (floor * 2)), sf.2 = floor * 2 := by
        intro sf hsf
        obtain ⟨sc, hsc, rfl⟩ := mem_map.mp hsf
        have hcount := hle sc hsc
        show max sc.2 (floor * 2) = floor * 2
        omega
      have hne' : (freq.map fun sc => (sc.1, max sc.2 (floor * 2))) ≠ [] :=
        fun h => hne (map_eq_nil_iff.mp h)
      rw [hnext]
      rcases lengthLimitedFrom_step (H := H) lmax hne' 0 (floor * 2) with h |
        ⟨⟨lengths, hl, hnot⟩, -⟩
      · obtain ⟨lengths, hl, hok, hlmax⟩ := h
        refine ⟨lengths, hl, hok.of_counts ?_, hlmax⟩
        rw [map_map]
        rfl
      · exact absurd (huffmanLengths_of_equal (by omega) hequal hlmax (by rwa [length_map]) hl) hnot
  | succ rounds ih =>
    rcases lengthLimitedFrom_step (H := H) lmax hne (rounds + 2) floor with h | ⟨-, hnext⟩
    · exact h
    · have hM' : M ≤ floor * 2 * 2 ^ rounds := by
        rw [Nat.pow_succ'] at hM
        rwa [mul_assoc]
      obtain ⟨lengths, hl, hok, hlmax⟩ :=
        ih (show (freq.map fun sc => (sc.1, max sc.2 (floor * 2))) ≠ [] from fun h =>
        hne (map_eq_nil_iff.mp h)) (by rwa [length_map]) (by omega) (by
          intro sf hsf
          obtain ⟨sc, hsc, rfl⟩ := mem_map.mp hsf
          have hcount := hle sc hsc
          show max sc.2 (floor * 2) ≤ max M (floor * 2)
          omega) hM'
      refine ⟨lengths, hnext.trans hl, hok.of_counts ?_, hlmax⟩
      rw [map_map]
      rfl

theorem lengthLimitedFrom_succ {rounds : ℕ}
    (h : lengthLimitedFrom H lmax rounds freq floor = some lengths) :
    lengthLimitedFrom H lmax (rounds + 1) freq floor = some lengths := by
  induction rounds generalizing freq floor with
  | zero => exact absurd h (Option.some_ne_none _).symm
  | succ rounds ih =>
    rw [lengthLimitedFrom] at h ⊢
    cases hhuffman : huffmanLengths H freq with
    | none =>
      rw [hhuffman] at h
      exact absurd h (Option.some_ne_none _).symm
    | some found =>
      rw [hhuffman] at h
      by_cases hle : maxLength found ≤ lmax
      · exact (if_pos hle).trans ((if_pos hle).symm.trans h)
      · exact (if_neg hle).trans (ih ((if_neg hle).symm.trans h))

/-- A Huffman code of at most `2 ^ lmax` symbols is found after finitely many rounds, with no length
above `lmax`. -/
theorem lengthLimitedLengths_spec (hlmax : 1 ≤ lmax) (hne : freq ≠ [])
    (hlen : freq.length ≤ 2 ^ lmax) :
    ∃ N lengths, (∀ rounds, N ≤ rounds → lengthLimitedLengths H rounds freq lmax = some lengths) ∧
      Lengths freq lengths ∧ ∀ l ∈ lengths, l.2 ≤ lmax := by
  have hM : maxLength freq ≤ 1 * 2 ^ maxLength freq := by
    rw [one_mul]
    exact Nat.lt_two_pow_self.le
  have hcount : ∀ sf ∈ freq, sf.2 ≤ max (maxLength freq) 1 := fun sf hsf =>
    (le_maxLength.mp le_rfl sf hsf).trans (le_max_left _ _)
  obtain ⟨lengths, hlengths, hok, hle⟩ :=
    lengthLimitedFrom_spec (H := H) hlmax (maxLength freq) hne hlen one_pos hcount hM
  refine ⟨maxLength freq + 2, lengths, fun rounds hrounds => ?_, hok, hle⟩
  induction rounds, hrounds using Nat.le_induction with
  | base => exact hlengths
  | succ rounds _ ih => exact lengthLimitedFrom_succ ih

end Df11

end FreeToken
