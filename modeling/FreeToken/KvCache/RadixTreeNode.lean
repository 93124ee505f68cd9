import FreeToken.Lib.PageTrie
import FreeToken.Lib.Heapq

/-!
# `RadixTreeNode`

The node record the plain, hybrid and sliding-window radix caches share, and the walks and loops
over it that they share.  A node is addressed by the tokens from the root to its end, which no
split changes; its parent pointer is the address of its parent, and its children are the nodes
whose parent pointer is its address.  The root is the address `[]` and has no record.
-/

namespace FreeToken

open TrieEdge

abbrev Token := ℕ
abbrev Slot := ℕ

/-- The tokens from the root to a node boundary. -/
abbrev Path := List Token

structure RadixTreeNode where
  /-- `_parent`, as the address of the parent. -/
  start : Path
  /-- `_key`. -/
  key : List Token
  /-- `_value`. -/
  value : List Slot
  timestamp : ℤ
  refCount : ℤ := 0
  mambaValue : Option ℕ := none
  mambaRefCount : ℤ := 0
  swaTombstone : Bool := false
  swaRefCount : ℤ := 0
  swaUuid : Option ℕ := none
deriving DecidableEq, Repr

instance : TrieEdge RadixTreeNode Token where
  start := RadixTreeNode.start
  key := RadixTreeNode.key

namespace RadixTreeNode

def length (n : RadixTreeNode) : ℕ := n.key.length

/-- `get_match_len`: `fast_compare_key` of the node's key and the query. -/
def getMatchLen (n : RadixTreeNode) (inputIds : List Token) : ℕ :=
  commonPrefixLength n.key inputIds

/-- The new node above the cut, and the node itself, which keeps what is below. -/
def splitAt (n : RadixTreeNode) (pos : ℕ) : RadixTreeNode × RadixTreeNode :=
  ({ start := n.start, key := n.key.take pos, value := n.value.take pos, timestamp := n.timestamp
     refCount := n.refCount, swaRefCount := n.swaRefCount, swaTombstone := n.swaTombstone
     swaUuid := n.swaUuid },
   { n with start := n.start ++ n.key.take pos, key := n.key.drop pos, value := n.value.drop pos
            swaUuid := none })

end RadixTreeNode

open RadixTreeNode

/-- `is_leaf` of the node at an address. -/
def isLeaf (nodes : List RadixTreeNode) (a : Path) : Bool := nodes.all fun n => n.start ≠ a

/-- The tree with the record of node `n` overwritten by `n'`. -/
def setNode (nodes : List RadixTreeNode) (n n' : RadixTreeNode) : List RadixTreeNode :=
  splice nodes (stop n) [n']

/-- The tree after `node.split_at(pos)`. -/
def splitNode (nodes : List RadixTreeNode) (n : RadixTreeNode) (pos : ℕ) : List RadixTreeNode :=
  splice nodes (stop n) [(n.splitAt pos).1, (n.splitAt pos).2]

/-- The tree without `node`: `del parent.children[key_fn(node._key)]`. -/
def unlinkNode (nodes : List RadixTreeNode) (n : RadixTreeNode) : List RadixTreeNode :=
  splice nodes (stop n) []

/-- The values from the root down to the node at `a`. -/
def getMatchedIndices (nodes : List RadixTreeNode) (a : Path) : List Slot :=
  (ancestors nodes a).reverse.flatMap value

/-! ### The shared walk -/

/-- The loop of `_tree_walk`: the tree, the address reached and its length. -/
def treeWalkLoop (ps : ℕ) (inputIds : List Token) (tic : ℤ) :
    ℕ → List RadixTreeNode → Path → ℕ → List RadixTreeNode × Path × ℕ
  | 0, nodes, node, prefixLen => (nodes, node, prefixLen)
  | fuel + 1, nodes, node, prefixLen =>
    if prefixLen < inputIds.length then
      match childAt ps nodes node (inputIds.drop prefixLen) with
      | none => (nodes, node, prefixLen)
      | some child =>
        let matchLen := alignDown (child.getMatchLen (inputIds.drop prefixLen)) ps
        if matchLen ≠ child.length then
          let upper := (child.splitAt matchLen).1
          (setNode (splitNode nodes child matchLen) upper { upper with timestamp := tic },
            stop upper, prefixLen + matchLen)
        else
          treeWalkLoop ps inputIds tic fuel (setNode nodes child { child with timestamp := tic })
            (stop child) (prefixLen + matchLen)
    else (nodes, node, prefixLen)

/-- `_tree_walk`, which is `_walk` of the hybrid cache too. -/
def treeWalk (ps : ℕ) (nodes : List RadixTreeNode) (inputIds : List Token) (tic : ℤ) :
    List RadixTreeNode × Path × ℕ :=
  treeWalkLoop ps inputIds tic inputIds.length nodes [] 0

/-! ### Locking the path of a node -/

/-- The two size counters of the KV currency. -/
structure KvSizes where
  evictable : ℤ := 0
  protectedSize : ℤ := 0
deriving DecidableEq, Repr

/-- One step of taking a reference on the way to the root. -/
def incRef (s : KvSizes) (n : RadixTreeNode) : KvSizes × RadixTreeNode :=
  (if n.refCount = 0 then ⟨s.evictable - n.length, s.protectedSize + n.length⟩ else s,
    { n with refCount := n.refCount + 1 })

/-- One step of giving a reference back on the way to the root. -/
def decRef (s : KvSizes) (n : RadixTreeNode) : KvSizes × RadixTreeNode :=
  (if n.refCount - 1 = 0 then ⟨s.evictable + n.length, s.protectedSize - n.length⟩ else s,
    { n with refCount := n.refCount - 1 })

/-! ### Leaves and cascades -/

/-- The unlocked leaves, the candidates of every KV eviction. -/
def evictableLeaves (nodes : List RadixTreeNode) : List RadixTreeNode :=
  nodes.filter fun n => n.refCount = 0 && isLeaf nodes (stop n)

/-- What a cascade leaves: the tree, the surviving ancestor and the indices freed. -/
structure Cascade where
  nodes : List RadixTreeNode
  parent : Path
  kv : List Slot
  freed : ℕ
deriving DecidableEq, Repr

/-- Unlink the `dead` unlocked leaves met on the way up from `parent`. -/
def cascadeLoop (dead : RadixTreeNode → Bool) : ℕ → List RadixTreeNode → Path → Cascade
  | 0, nodes, parent => ⟨nodes, parent, [], 0⟩
  | fuel + 1, nodes, parent =>
    match edgeAt nodes parent with
    | none => ⟨nodes, parent, [], 0⟩
    | some p =>
      if dead p && isLeaf nodes parent && p.refCount = 0 then
        let c := cascadeLoop dead fuel (unlinkNode nodes p) p.start
        { c with kv := p.value ++ c.kv, freed := p.length + c.freed }
      else ⟨nodes, parent, [], 0⟩

/-- The cascade that follows the removal of a leaf whose parent is at address `parent`. -/
def cascade (dead : RadixTreeNode → Bool) (nodes : List RadixTreeNode) (parent : Path) : Cascade :=
  cascadeLoop dead parent.length nodes parent

/-- Push the surviving ancestor of a removal if it has become an unlocked leaf. -/
def pushParent (H : Heapq timestamp) (nodes : List RadixTreeNode) (heap : List RadixTreeNode)
    (parent : Path) : List RadixTreeNode :=
  match edgeAt nodes parent with
  | none => heap
  | some p => if isLeaf nodes parent && p.refCount = 0 then H.heappush heap p else heap

/-! ### The loop of `evict_full` -/

/-- The local state of an `evict_full` loop; `extra` is the cache's second currency.  A node in
the heap is not written to before it is popped. -/
structure EvictState (κ : Type*) where
  nodes : List RadixTreeNode
  fullEvictable : ℤ
  extra : κ
  heap : List RadixTreeNode
  kv : List Slot := []
  freed : ℕ := 0

section EvictFull

variable {κ : Type*} (H : Heapq timestamp) (dead : RadixTreeNode → Bool)
  (take : κ → RadixTreeNode → κ)

/-- Evict the leaf `node`, reclaim the dead leaves this exposes and push the surviving ancestor. -/
def evictNode (s : EvictState κ) (node : RadixTreeNode) (heap : List RadixTreeNode) :
    EvictState κ :=
  let c := cascade dead (unlinkNode s.nodes node) node.start
  { nodes := c.nodes
    fullEvictable := s.fullEvictable - node.length - c.freed
    extra := take s.extra node
    heap := pushParent H c.nodes heap c.parent
    kv := s.kv ++ node.value ++ c.kv
    freed := s.freed + node.length + c.freed }

/-- `while freed < num_tokens and leaves`. -/
def evictFullLoop (numTokens : ℕ) : ℕ → EvictState κ → EvictState κ
  | 0, s => s
  | fuel + 1, s =>
    if s.freed < numTokens then
      match H.heappop s.heap with
      | none => s
      | some (node, heap) =>
        if node.refCount ≠ 0 || !isLeaf s.nodes (stop node) then
          evictFullLoop numTokens fuel { s with heap := heap }
        else evictFullLoop numTokens fuel (evictNode H dead take s node heap)
    else s

end EvictFull

end FreeToken
