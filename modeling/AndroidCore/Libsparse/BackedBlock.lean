import AndroidCore.Libsparse.Format

/-!
# `AndroidCore.Libsparse.BackedBlock`: the list of backed blocks

`backed_block.c`. A `struct backed_block` says where the bytes of one region of
the image come from; a `struct backed_block_list` is a singly linked list of
them. The list is a `List BackedBlock` here, and a pointer to one of its nodes
(`last_used`, the `start` and `end` of a move) is the node's position.

`assert` and a division by zero stop the process. Functions that can reach
either return `Except Fault`.
-/

namespace AndroidCore.Libsparse

/-- What stops the process: a failed `assert`, or a division by zero. -/
inductive Fault where
  | assertFailed
  | divideByZero
deriving DecidableEq, Repr

/-- `enum backed_block_type` together with the `union` it selects. A `data`
pointer is an address, and an `fd` is a descriptor number. -/
inductive BackedBlockType where
  | data (data : Nat)
  | file (filename : String) (offset : Int)
  | fd (fd : Int) (offset : Int)
  | fill (val : UInt32)
deriving DecidableEq, Repr

/-- `a->type == b->type`: the tags agree. -/
def BackedBlockType.sameTag : BackedBlockType → BackedBlockType → Bool
  | .data _, .data _ => true
  | .file _ _, .file _ _ => true
  | .fd _ _, .fd _ _ => true
  | .fill _, .fill _ => true
  | _, _ => false

/-- `struct backed_block`, without its `next` pointer. -/
structure BackedBlock where
  block : UInt32
  len : UInt32
  type : BackedBlockType
deriving DecidableEq, Repr

/-- `struct backed_block_list`. `lastUsed` is the position of the node
`last_used` points to. -/
structure BackedBlockList where
  dataBlocks : List BackedBlock
  lastUsed : Option Nat
  blockSize : UInt32
deriving DecidableEq, Repr

/-- `backed_block_list_new`. -/
def backedBlockListNew (blockSize : UInt32) : BackedBlockList where
  dataBlocks := []
  lastUsed := none
  blockSize := blockSize

/-! ### Queueing a block -/

/-- The `switch` of `merge_bb`: the sources of two adjacent blocks of the same
type continue one another. -/
def BackedBlockType.continues (a : BackedBlock) (b : BackedBlockType) : Bool :=
  match a.type, b with
  -- Don't support merging data for now
  | .data _, .data _ => false
  | .fill v, .fill v' => v == v'
  | .file name off, .file name' off' => name == name' && off + a.len.toNat == off'
  | .fd n off, .fd n' off' => n == n' && off + a.len.toNat == off'
  | _, _ => false

/-- `merge_bb` on two blocks that exist. `none` is the `-EINVAL` of two blocks
that do not merge, `some a'` the block `b` was merged into. -/
def mergeBb (blockSize : UInt32) (a b : BackedBlock) : Except Fault (Option BackedBlock) :=
  if ¬ a.block < b.block then .error .assertFailed
  else if ¬ a.type.sameTag b.type then .ok none
  else if blockSize = 0 then .error .divideByZero
  -- Blocks are not adjacent; the division rounds down
  else if a.block + a.len / blockSize ≠ b.block then .ok none
  else if ¬ BackedBlockType.continues a b.type then .ok none
  else .ok (some { a with len := a.len + b.len })

/-- The first `merge_bb` call of `queue_bb`, on the new block and the node after
it. Gives the new block, merged or not, and the nodes that follow it. -/
def mergeNext (blockSize : UInt32) (new : BackedBlock) :
    List BackedBlock → Except Fault (BackedBlock × List BackedBlock)
  | [] => .ok (new, [])
  | next :: rest => do
      match ← mergeBb blockSize new next with
      | some new' => return (new', rest)
      | none => return (new, next :: rest)

/-- The node `queue_bb` starts its search from: `last_used` when the new block
lies behind it, else the head of the list. -/
def BackedBlockList.searchStart (bbl : BackedBlockList) (new : BackedBlock) : Nat :=
  match bbl.lastUsed with
  | none => 0
  | some i =>
    match bbl.dataBlocks[i]? with
    | none => 0
    | some b => if b.block < new.block then i else 0

/-- The position of the node the new block is put behind: the search walks on
while the next node's block number is smaller. -/
def BackedBlockList.insertPos (bbl : BackedBlockList) (new : BackedBlock) : Nat :=
  let start := bbl.searchStart new
  start + ((bbl.dataBlocks.drop (start + 1)).takeWhile fun b => b.block < new.block).length

/-- `queue_bb`. -/
def queueBb (bbl : BackedBlockList) (new : BackedBlock) : Except Fault BackedBlockList :=
  match bbl.dataBlocks with
  | [] => .ok { bbl with dataBlocks := [new] }
  | head :: _ =>
    if new.block < head.block then
      .ok { bbl with
        dataBlocks := new :: bbl.dataBlocks
        lastUsed := bbl.lastUsed.map (· + 1) }
    else do
      let pos := bbl.insertPos new
      let front := bbl.dataBlocks.take pos
      match bbl.dataBlocks.drop pos with
      | [] => return bbl
      | bb :: post =>
        let (new', post') ← mergeNext bbl.blockSize new post
        match ← mergeBb bbl.blockSize bb new' with
        | some bb' =>
          return { bbl with dataBlocks := front ++ bb' :: post', lastUsed := some pos }
        | none =>
          return { bbl with
            dataBlocks := front ++ bb :: new' :: post'
            lastUsed := some (pos + 1) }

/-- `backed_block_add_fill`. -/
def backedBlockAddFill (bbl : BackedBlockList) (fillVal len block : UInt32) :
    Except Fault BackedBlockList :=
  queueBb bbl { block, len, type := .fill fillVal }

/-- `backed_block_add_fd`. -/
def backedBlockAddFd (bbl : BackedBlockList) (fd offset : Int) (len block : UInt32) :
    Except Fault BackedBlockList :=
  queueBb bbl { block, len, type := .fd fd offset }

/-! ### Splitting and moving -/

/-- Where the bytes of a block continue after its first `n`. -/
def BackedBlockType.advance (n : UInt32) : BackedBlockType → BackedBlockType
  | .data p => .data (p + n.toNat)
  | .file name off => .file name (off + n.toNat)
  | .fd n' off => .fd n' (off + n.toNat)
  | .fill v => .fill v

/-- The two nodes `backed_block_split` leaves for the node `bb`: one node when
`bb` is not longer than `max_len`, else `bb` cut to `max_len` and the rest. -/
def splitNode (blockSize : UInt32) (bb : BackedBlock) (maxLen : UInt32) : List BackedBlock :=
  let maxLen := alignDown maxLen blockSize
  if bb.len ≤ maxLen then [bb]
  else
    [{ bb with len := maxLen },
      { block := bb.block + maxLen / blockSize
        len := bb.len - maxLen
        type := bb.type.advance maxLen }]

/-- `backed_block_split` on the node at `pos`. -/
def backedBlockSplit (bbl : BackedBlockList) (pos : Nat) (maxLen : UInt32) : BackedBlockList :=
  match bbl.dataBlocks[pos]? with
  | none => bbl
  | some bb =>
    let nodes := splitNode bbl.blockSize bb maxLen
    { bbl with
      dataBlocks := bbl.dataBlocks.take pos ++ nodes ++ bbl.dataBlocks.drop (pos + 1)
      lastUsed := bbl.lastUsed.map fun i => if pos < i then i + (nodes.length - 1) else i }

/-- The list `dest` with the nodes `seg` spliced in: behind the first node whose
successor is missing or has a larger block number than `seg` starts with. -/
def spliceInto (dest seg : List BackedBlock) : List BackedBlock :=
  match dest, seg with
  | _, [] => dest
  | [], seg => seg
  | head :: rest, s :: ss =>
    head :: (rest.takeWhile fun b => b.block ≤ s.block) ++ (s :: ss) ++
      rest.dropWhile fun b => b.block ≤ s.block

/-- `backed_block_list_move`: the nodes from `start` to `stop` leave `source` and
are spliced into `dest`. A missing `start` is the head of `source`, a missing
`stop` its last node. Nothing happens when there is no node to move. -/
def backedBlockListMove (source dest : BackedBlockList) (start stop : Option Nat) :
    BackedBlockList × BackedBlockList :=
  let first := start.getD 0
  let last := stop.getD (source.dataBlocks.length - 1)
  let seg := (source.dataBlocks.take (last + 1)).drop first
  if seg = [] then (source, dest)
  else
    ({ source with
        dataBlocks := source.dataBlocks.take first ++ source.dataBlocks.drop (last + 1)
        lastUsed := none },
      { dest with dataBlocks := spliceInto dest.dataBlocks seg, lastUsed := none })

end AndroidCore.Libsparse
