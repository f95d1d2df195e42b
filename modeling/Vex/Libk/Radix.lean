import Vex.Errno
import Mathlib.Data.BitVec

/-! The radix tree (`radix.c`) on a heap of nodes. A pointer is its address, 0 is null; what a slot
points to, a node or an item, depends on the level of the node it is in. Reading an address where
no node lives has no result. -/

namespace Vex.Libk

open Function

abbrev RADIX_SHIFT : Nat := 6
abbrev RADIX_SLOTS : Nat := 64
abbrev RADIX_MASK : BitVec 64 := 63
abbrev RADIX_MAX_DEPTH : Nat := 11

structure RadixNode where
  slots : Fin RADIX_SLOTS → Nat
  count : Nat

/-- A node as `slab_alloc` returns it, cleared. -/
def RadixNode.zero : RadixNode := { slots := fun _ => 0, count := 0 }

def RadixNode.set (node : RadixNode) (slot : Fin RADIX_SLOTS) (p : Nat) (count : Nat) : RadixNode :=
  { slots := update node.slots slot p, count := count }

abbrev RadixHeap := Nat → Option RadixNode

/-- `radix_tree_t`, with the heap its nodes are in. -/
structure RadixTree where
  root : Nat
  height : Nat
  heap : RadixHeap

def fits (height : Nat) (index : BitVec 64) : Bool :=
  height * RADIX_SHIFT ≥ 64 || index >>> (height * RADIX_SHIFT) == 0

def slotOf (level : Nat) (index : BitVec 64) : Fin RADIX_SLOTS :=
  Fin.ofNat RADIX_SLOTS (index >>> ((level - 1) * RADIX_SHIFT) &&& RADIX_MASK).toNat

/-! ## Looking up -/

/-- The loop of `radix_lookup` and `radix_remove` from the node `p` at `level` down to the last
level: the node there, or null, and the nodes passed, the last one first. -/
def descend (heap : RadixHeap) (index : BitVec 64) :
    (level : Nat) → Nat → List Nat → Option (Nat × List Nat)
  | level + 2, p, path => do
    let node ← heap p
    let child := node.slots (slotOf (level + 2) index)
    if child = 0 then some (0, p :: path) else descend heap index (level + 1) child (p :: path)
  | 0, p, path => some (p, path)
  | 1, p, path => some (p, path)

def radixInit (heap : RadixHeap) : RadixTree := { root := 0, height := 0, heap := heap }

def radixLookup (tree : RadixTree) (index : BitVec 64) : Option Nat :=
  if tree.root = 0 ∨ fits tree.height index = false then some 0
  else do
    let (leaf, _) ← descend tree.heap index tree.height tree.root []
    if leaf = 0 then some 0
    else do
      let node ← tree.heap leaf
      some (node.slots (slotOf 1 index))

/-! ## Inserting -/

/-- What the allocator answers, call by call; when there is no more it fails. -/
abbrev Supply := List (Option Nat)

/-- `slab_alloc`: memory that nothing lives in, or null. -/
def slabAlloc (heap : RadixHeap) : Supply → Nat × Supply
  | [] => (0, [])
  | answer :: supply =>
    match answer with
    | none => (0, supply)
    | some p => (if (heap p).isSome then 0 else p, supply)

/-- The smallest height from `height` on that holds `index`; `RADIX_MAX_DEPTH` holds any. -/
def heightFor (index : BitVec 64) : (fuel : Nat) → (height : Nat) → Nat
  | 0, height => height
  | fuel + 1, height => if fits height index then height else heightFor index fuel (height + 1)

/-- The first part of `radix_insert`: a tree without nodes gets its root. -/
def plant (tree : RadixTree) (index : BitVec 64) (supply : Supply) :
    Except Errno Unit × RadixTree × Supply :=
  if tree.root = 0 then
    match slabAlloc tree.heap supply with
    | (root, supply) =>
      if root = 0 then (.error .ENOMEM, tree, supply)
      else
        (.ok (),
          { root := root
            height := heightFor index (RADIX_MAX_DEPTH - 1) 1
            heap := update tree.heap root (some .zero) }, supply)
  else (.ok (), tree, supply)

/-- The second part: levels are put on top until the index fits. Each takes an answer. -/
def grow (index : BitVec 64) : Supply → RadixTree → Except Errno Unit × RadixTree × Supply
  | [], tree => (if fits tree.height index then .ok () else .error .ENOMEM, tree, [])
  | answer :: supply, tree =>
    if fits tree.height index then (.ok (), tree, answer :: supply)
    else
      let top := (slabAlloc tree.heap (answer :: supply)).1
      if top = 0 then (.error .ENOMEM, tree, supply)
      else
        grow index supply
          { root := top
            height := tree.height + 1
            heap := update tree.heap top (some (RadixNode.zero.set 0 tree.root 1)) }

/-- The third part: down to the last level, with nodes made where there are none. -/
def reach (index : BitVec 64) :
    (level : Nat) → Nat → RadixHeap → Supply → Option (Except Errno Nat × RadixHeap)
  | level + 2, p, heap, supply => do
    let node ← heap p
    let slot := slotOf (level + 2) index
    let child := node.slots slot
    if child = 0 then
      let fresh := (slabAlloc heap supply).1
      if fresh = 0 then some (.error .ENOMEM, heap)
      else
        reach index (level + 1) fresh
          (update (update heap fresh (some .zero)) p
            (some (node.set slot fresh (node.count + 1))))
          (slabAlloc heap supply).2
    else reach index (level + 1) child heap supply
  | 0, p, heap, _ => some (.ok p, heap)
  | 1, p, heap, _ => some (.ok p, heap)

/-- The last part: the item goes into its slot. -/
def place (heap : RadixHeap) (index : BitVec 64) (item leaf : Nat) :
    Option (Except Errno Unit × RadixHeap) := do
  let node ← heap leaf
  let slot := slotOf 1 index
  if node.slots slot ≠ 0 then some (.error .EEXIST, heap)
  else some (.ok (),
    update heap leaf (some (node.set slot item (node.count + 1))))

def radixInsert (tree : RadixTree) (index : BitVec 64) (item : Nat) (supply : Supply) :
    Option (Except Errno Unit × RadixTree) :=
  match plant tree index supply with
  | (.error e, tree, _) => some (.error e, tree)
  | (.ok (), tree, supply) =>
    match grow index supply tree with
    | (.error e, tree, _) => some (.error e, tree)
    | (.ok (), tree, supply) => do
      match ← reach index tree.height tree.root tree.heap supply with
      | (.error e, heap) => some (.error e, { tree with heap := heap })
      | (.ok leaf, heap) => do
        let (result, heap) ← place heap index item leaf
        some (result, { tree with heap := heap })

/-! ## Removing -/

def slabFree (heap : RadixHeap) (p : Nat) : RadixHeap := update heap p none

/-- Empty nodes are unlinked bottom-up along the path, from the node `p` at `level`. -/
def prune (index : BitVec 64) : List Nat → (level : Nat) → Nat → RadixHeap → Option RadixHeap
  | [], _, _, heap => some heap
  | parent :: path, level, p, heap => do
    let node ← heap p
    if node.count ≠ 0 then some heap
    else
      let heap := slabFree heap p
      let above ← heap parent
      prune index path (level + 1) parent (update heap parent
        (some (above.set (slotOf (level + 1) index) 0 (above.count - 1))))

/-- Levels whose only node is the first one below are taken off the top. -/
def shrink : (height : Nat) → Nat → RadixHeap → Option RadixTree
  | height + 2, root, heap => do
    let top ← heap root
    if top.count = 1 ∧ top.slots 0 ≠ 0 then shrink (height + 1) (top.slots 0) (slabFree heap root)
    else some { root := root, height := height + 2, heap := heap }
  | height, root, heap => some { root := root, height := height, heap := heap }

def radixRemove (tree : RadixTree) (index : BitVec 64) : Option (Nat × RadixTree) :=
  if tree.root = 0 ∨ fits tree.height index = false then some (0, tree)
  else do
    let (leaf, path) ← descend tree.heap index tree.height tree.root []
    if leaf = 0 then some (0, tree)
    else
      let node ← tree.heap leaf
      let item := node.slots (slotOf 1 index)
      if item = 0 then some (0, tree)
      else
        let heap ← prune index path 1 leaf (update tree.heap leaf
          (some (node.set (slotOf 1 index) 0 (node.count - 1))))
        let root ← heap tree.root
        if root.count = 0 then some (item, radixInit (slabFree heap tree.root))
        else
          let tree ← shrink tree.height tree.root heap
          some (item, tree)

/-! ## Walking -/

/-- The first slot of a node at `level` from `base` on that can hold `start` or more. -/
def firstSlot (level : Nat) (base start : BitVec 64) : Nat :=
  if start > base then ((start - base) >>> ((level - 1) * RADIX_SHIFT)).toNat else 0

/-- One turn of the loop of `gather_subtree` at slot `i`; `below` gathers a subtree from its base,
no more than the given number. -/
def gatherSlot (below : Nat → BitVec 64 → Nat → Option (List (BitVec 64 × Nat))) (level : Nat)
    (base : BitVec 64) (max : Nat) (node : RadixNode) (found : List (BitVec 64 × Nat))
    (i : Fin RADIX_SLOTS) : Option (List (BitVec 64 × Nat)) :=
  if found.length < max ∧ node.slots i ≠ 0 then
    let childBase := base + BitVec.ofNat 64 i <<< ((level - 1) * RADIX_SHIFT)
    if level > 1 then (below (node.slots i) childBase (max - found.length)).map (found ++ ·)
    else some (found ++ [(childBase, node.slots i)])
  else some found

/-- `gather_subtree`: the pairs it stores. From the slot it starts with, the loop goes over all
that follow; a slot past the last ends it at once. -/
def gatherSubtree (heap : RadixHeap) (start : BitVec 64) :
    (level : Nat) → Nat → BitVec 64 → Nat → Option (List (BitVec 64 × Nat))
  | 0, _, _, _ => some []
  | level + 1, p, base, max => do
    let node ← heap p
    ((List.finRange RADIX_SLOTS).drop (firstSlot (level + 1) base start)).foldlM
      (gatherSlot (gatherSubtree heap start level) (level + 1) base max node) []

def radixGather (tree : RadixTree) (start : BitVec 64) (max : Nat) :
    Option (List (BitVec 64 × Nat)) :=
  if tree.root = 0 ∨ max = 0 ∨ fits tree.height start = false then some []
  else gatherSubtree tree.heap start tree.height tree.root 0 max

end Vex.Libk
