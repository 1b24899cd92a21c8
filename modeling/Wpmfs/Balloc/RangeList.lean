import Mathlib.Algebra.Order.Ring.Int
import Mathlib.Algebra.Order.Ring.Nat
import Mathlib.Data.List.Basic
import Wpmfs.Balloc.Basic

/-!
# The range-list allocator

The default allocator keeps the used blocks as a list of ranges. The loops are translated as
recursions on the list; what the loop does at one node is a function of its own (`place`,
`carve`), so that the recursion only walks. A node allocation may fail at every call. A
`start_hint` is a pointer to a node, kept here as its position in the list. Block numbers stay
below `2 ^ 52`, so no sum here wraps around.
-/

namespace Wpmfs.Balloc

/-- `struct pmfs_blocknode`. -/
structure BlockNode where
  blockLow : Nat
  blockHigh : Nat
deriving DecidableEq, Repr

/-- The fields of `struct pmfs_sb_info` that this allocator uses. -/
structure RangeAlloc where
  blockStart : Nat
  blockEnd : Nat
  numFreeBlocks : Nat
  numBlocknodeAllocated : Nat
  blockInuse : List BlockNode
deriving DecidableEq, Repr

namespace RangeAlloc

/-- `pmfs_init_blockmap`, the node allocation succeeding. -/
def pmfsInitBlockmap (s : RangeAlloc) (initUsedSize : Nat) : RangeAlloc :=
  let numUsedBlock := reservedBlocks initUsedSize
  { s with
    blockInuse := ⟨s.blockStart, s.blockStart + numUsedBlock - 1⟩ :: s.blockInuse
    numFreeBlocks := s.numFreeBlocks - numUsedBlock
    numBlocknodeAllocated := s.numBlocknodeAllocated + 1 }

/-- How the loop of `pmfs_new_block` leaves. -/
inductive Placed where
  | noFit
  | noNode
  | found (newBlockLow : Nat) (list : List BlockNode) (numBlocknodeAllocated : Nat)

/-- One round of the loop of `pmfs_new_block`, at the node `i` followed by `rest`. `nodeOk` says
whether `pmfs_alloc_blocknode` gives a node, `nodes` is `num_blocknode_allocated`. -/
def place (blockEnd numBlocks : Nat) (nodeOk : Bool) (nodes : Nat) (i : BlockNode)
    (rest : List BlockNode) : Placed :=
  let nextBlockLow := match rest with
    | [] => blockEnd
    | nextI :: _ => nextI.blockLow
  -- `(i->block_high + num_blocks) & ~(num_blocks - 1)`, with `num_blocks` a power of two
  let newBlockLow := (i.blockHigh + numBlocks) / numBlocks * numBlocks
  let newBlockHigh := newBlockLow + numBlocks - 1
  let newNode : BlockNode := ⟨newBlockLow, newBlockHigh⟩
  if newBlockHigh ≥ nextBlockLow then .noFit
  else if newBlockLow = i.blockHigh + 1 ∧ newBlockHigh = nextBlockLow - 1 then
    match rest with
    | nextI :: post =>
      .found newBlockLow ({ i with blockHigh := nextI.blockHigh } :: post) (nodes - 1)
    | [] => .found newBlockLow [{ i with blockHigh := newBlockHigh }] nodes
  else if newBlockLow = i.blockHigh + 1 ∧ newBlockHigh < nextBlockLow - 1 then
    .found newBlockLow ({ i with blockHigh := newBlockHigh } :: rest) nodes
  else if newBlockLow > i.blockHigh + 1 ∧ newBlockHigh = nextBlockLow - 1 then
    match rest with
    | nextI :: post =>
      .found newBlockLow (i :: { nextI with blockLow := newBlockLow } :: post) nodes
    | [] => if nodeOk then .found newBlockLow [i, newNode] (nodes + 1) else .noNode
  else if newBlockLow > i.blockHigh + 1 ∧ newBlockHigh < nextBlockLow - 1 then
    if nodeOk then .found newBlockLow (i :: newNode :: rest) (nodes + 1) else .noNode
  else .noFit

/-- The loop of `pmfs_new_block`. -/
def placeLoop (blockEnd numBlocks : Nat) (nodeOk : Bool) (nodes : Nat) :
    List BlockNode → Placed
  | [] => .noFit
  | i :: rest =>
    match place blockEnd numBlocks nodeOk nodes i rest with
    | .noFit =>
      match placeLoop blockEnd numBlocks nodeOk nodes rest with
      | .found newBlockLow list nodes => .found newBlockLow (i :: list) nodes
      | out => out
    | out => out

/-- `pmfs_new_block`. -/
def pmfsNewBlock (s : RangeAlloc) (btype : BlockType) (nodeOk : Bool) :
    Except Errno Nat × RangeAlloc :=
  let numBlocks := pmfsGetNumblocks btype
  match placeLoop s.blockEnd numBlocks nodeOk s.numBlocknodeAllocated s.blockInuse with
  | .found newBlockLow list nodes =>
    (.ok newBlockLow, { s with
      blockInuse := list
      numBlocknodeAllocated := nodes
      numFreeBlocks := s.numFreeBlocks - numBlocks })
  | _ => (.error .enospc, s)

/-- How the loop of `__pmfs_free_block` leaves; `freed` has the new value of `*start_hint`. -/
inductive Carved where
  | notHere
  | noNode
  | freed (list : List BlockNode) (numBlocknodeAllocated : Nat) (startHint : Option Nat)

/-- One round of the loop of `__pmfs_free_block`, at the node `i` in position `pos`. -/
def carve (newBlockLow newBlockHigh : Nat) (nodeOk : Bool) (nodes pos : Nat) (i : BlockNode)
    (rest : List BlockNode) : Carved :=
  if newBlockLow > i.blockHigh then .notHere
  else if newBlockLow = i.blockLow ∧ newBlockHigh = i.blockHigh then
    .freed rest (nodes - 1) (if rest = [] then none else some pos)
  else if newBlockLow = i.blockLow ∧ newBlockHigh < i.blockHigh then
    .freed ({ i with blockLow := newBlockHigh + 1 } :: rest) nodes (some pos)
  else if newBlockLow > i.blockLow ∧ newBlockHigh = i.blockHigh then
    .freed ({ i with blockHigh := newBlockLow - 1 } :: rest) nodes
      (if rest = [] then none else some (pos + 1))
  else if newBlockLow > i.blockLow ∧ newBlockHigh < i.blockHigh then
    if nodeOk then
      .freed ({ i with blockHigh := newBlockLow - 1 } :: ⟨newBlockHigh + 1, i.blockHigh⟩ :: rest)
        (nodes + 1) (some (pos + 1))
    else .noNode
  else .notHere

/-- The loop of `__pmfs_free_block`, from the node in position `pos` on. -/
def carveLoop (newBlockLow newBlockHigh : Nat) (nodeOk : Bool) (nodes : Nat) :
    Nat → List BlockNode → Carved
  | _, [] => .notHere
  | pos, i :: rest =>
    match carve newBlockLow newBlockHigh nodeOk nodes pos i rest with
    | .notHere =>
      match carveLoop newBlockLow newBlockHigh nodeOk nodes (pos + 1) rest with
      | .freed list nodes startHint => .freed (i :: list) nodes startHint
      | out => out
    | out => out

/-- The position of the first node the loop looks at. -/
def startPos (s : RangeAlloc) (newBlockLow : Nat) : Option Nat → Nat
  | none => 0
  | some pos =>
    match s.blockInuse[pos]? with
    | some i => if newBlockLow ≥ i.blockLow then pos else 0
    | none => 0

/-- `__pmfs_free_block`, with the value of `*start_hint` before and after; `pmfs_free_block`
passes none. `none` is the `BUG_ON`. -/
def pmfsFreeBlock (s : RangeAlloc) (blocknr : Nat) (btype : BlockType) (startHint : Option Nat)
    (nodeOk : Bool) : Option (RangeAlloc × Option Nat) :=
  let numBlocks := pmfsGetNumblocks btype
  let pos := s.startPos blocknr startHint
  if s.blockInuse = [] then none
  else match carveLoop blocknr (blocknr + numBlocks - 1) nodeOk s.numBlocknodeAllocated pos
      (s.blockInuse.drop pos) with
    | .freed list nodes hint =>
      some ({ s with
        blockInuse := s.blockInuse.take pos ++ list
        numBlocknodeAllocated := nodes
        numFreeBlocks := s.numFreeBlocks + numBlocks }, hint)
    | _ => some (s, startHint)

end RangeAlloc

end Wpmfs.Balloc
