import FreeToken.KvCache.RadixTreeNode

/-!
# `RadixPrefixCache`

The plain radix prefix cache.  Clock readings (`time.monotonic_ns`) are arguments of the
operations, and a handle names its node by the node's address.
-/

namespace FreeToken

open TrieEdge RadixTreeNode

structure RadixCacheHandle where
  cachedLen : ℕ
  node : Path
deriving DecidableEq, Repr

structure RadixPrefixCache where
  pageSize : ℕ
  nodes : List RadixTreeNode := []
  /-- `evictable_size` and `protected_size`. -/
  sizes : KvSizes := {}
deriving DecidableEq, Repr

namespace RadixPrefixCache

variable (c : RadixPrefixCache)

def lockHandle (handle : RadixCacheHandle) (unlock : Bool) : RadixPrefixCache :=
  let r := climb (if unlock then decRef else incRef) handle.node.length c.sizes c.nodes handle.node
  { c with sizes := r.1, nodes := r.2 }

def matchPrefix (inputIds : List Token) (tic : ℤ) : RadixPrefixCache × RadixCacheHandle :=
  let (nodes, node, prefixLen) := treeWalk c.pageSize c.nodes inputIds tic
  ({ c with nodes := nodes }, ⟨prefixLen, node⟩)

/-- `get_matched_indices` of a handle. -/
def matchedIndices (handle : RadixCacheHandle) : List Slot := getMatchedIndices c.nodes handle.node

/-- The cache, the length that was cached already and the new handle. -/
def insertPrefix (inputIds : List Token) (indices : List Slot) (tic now : ℤ) :
    RadixPrefixCache × ℕ × RadixCacheHandle :=
  let insertLen := alignDown inputIds.length c.pageSize
  let inputIds := inputIds.take insertLen
  let indices := indices.take insertLen
  let (nodes, node, prefixLen) := treeWalk c.pageSize c.nodes inputIds tic
  if prefixLen ≠ insertLen then
    let newNode : RadixTreeNode :=
      { start := node, key := inputIds.drop prefixLen, value := indices.drop prefixLen
        timestamp := now }
    ({ c with nodes := nodes ++ [newNode]
              sizes := { c.sizes with evictable := c.sizes.evictable + newNode.length } },
      prefixLen, ⟨insertLen, stop newNode⟩)
  else ({ c with nodes := nodes }, prefixLen, ⟨insertLen, node⟩)

/-- The loop of `evict`; `none` is a failed assertion. -/
def evictLoop (H : Heapq timestamp) (size : ℕ) :
    ℕ → RadixPrefixCache → List RadixTreeNode → ℕ → List Slot →
      Option (RadixPrefixCache × List Slot)
  | 0, _, _, _, _ => none
  | fuel + 1, c, leaveNodes, evictedSize, evictedIndices =>
    if evictedSize < size then
      match H.heappop leaveNodes with
      | none => none
      | some (node, leaveNodes) =>
        if node.refCount = 0 && isLeaf c.nodes (stop node) then
          let nodes := unlinkNode c.nodes node
          evictLoop H size fuel
            { c with nodes := nodes
                     sizes := { c.sizes with evictable := c.sizes.evictable - node.length } }
            (pushParent H nodes leaveNodes node.start) (evictedSize + node.length)
            (evictedIndices ++ node.value)
        else none
    else some (c, evictedIndices)

/-- `evict`; `none` is a failed assertion. -/
def evict (H : Heapq timestamp) (size : ℕ) : Option (RadixPrefixCache × List Slot) :=
  if size = 0 then some (c, [])
  else if (size : ℤ) ≤ c.sizes.evictable then
    evictLoop H size (c.nodes.length + 1) c (H.heapify (evictableLeaves c.nodes)) 0 []
  else none

end RadixPrefixCache

end FreeToken
