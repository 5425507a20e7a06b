import AndroidCore.Libsparse.SparseRead

/-!
# `AndroidCore.Libsparse.Image`: the image a sparse file stands for

What a sparse file is for: it describes an image, block number by block number.
A block number is either not backed ("don't care") or holds a `Cell`, the bytes
or the fill word one backed block puts there. `imageOf` reads a list of backed
blocks as such a map, and everything `libsparse` does to a list (queueing,
merging, splitting, moving, writing and reading back) is judged by it.

The definitions are over plain numbers: rounding up and addition never wrap
here. Where the C arithmetic does, the two part, and the theorems say when.
-/

namespace AndroidCore.Libsparse

/-- The content of one block of the image. The last block of a backed block can
be partial, so a cell has its own number of bytes, at most the block size. -/
inductive Cell where
  | raw (bytes : List UInt8)
  | fill (val : UInt32) (n : Nat)
  | unreadable
deriving DecidableEq, Repr

/-- The `n` bytes of a file from `offset` on, when the file has them. -/
def fileRange (content : List UInt8) (offset : Int) (n : Nat) : Option (List UInt8) :=
  if 0 ≤ offset ∧ offset.toNat + n ≤ content.length then
    some ((content.drop offset.toNat).take n)
  else none

/-- The cell made of `n` bytes of a source, `off` bytes into it. -/
def Env.cell (env : Env) (t : BackedBlockType) (off n : Nat) : Cell :=
  match t with
  | .data p => .raw (env.readMem (p + off) n)
  | .file name o =>
    match (env.file name).bind fun c => fileRange c (o + off) n with
    | some b => .raw b
    | none => .unreadable
  | .fd fd o =>
    match (env.fd fd).bind fun c => fileRange c (o + off) n with
    | some b => .raw b
    | none => .unreadable
  | .fill val => .fill val n

/-- A cell written out to the block boundary: raw bytes are padded with zeros, a
fill fills the whole block. -/
def Cell.pad (blockSize : Nat) : Cell → Cell
  | .raw bytes => .raw (bytes ++ zeros (blockSize - bytes.length))
  | .fill val _ => .fill val blockSize
  | .unreadable => .unreadable

namespace BackedBlock

/-- How many blocks of the image a backed block touches. -/
def numBlocks (bb : BackedBlock) (blockSize : Nat) : Nat :=
  (bb.len.toNat + blockSize - 1) / blockSize

/-- The block number right behind a backed block. -/
def endBlock (bb : BackedBlock) (blockSize : Nat) : Nat :=
  bb.block.toNat + bb.numBlocks blockSize

/-- The cell a backed block puts at block number `j`. -/
def image (env : Env) (blockSize : Nat) (bb : BackedBlock) (j : Nat) : Option Cell :=
  if bb.block.toNat ≤ j ∧ j < bb.endBlock blockSize then
    let off := (j - bb.block.toNat) * blockSize
    some (env.cell bb.type off (min blockSize (bb.len.toNat - off)))
  else none

/-- `a` ends before `b` starts: the byte ranges `[block * block_size,
block * block_size + len)` of the two are in this order and do not meet. -/
def Before (blockSize : Nat) (a b : BackedBlock) : Prop :=
  a.block.toNat * blockSize + a.len.toNat ≤ b.block.toNat * blockSize

instance (blockSize : Nat) (a b : BackedBlock) : Decidable (Before blockSize a b) :=
  inferInstanceAs (Decidable (_ ≤ _))

end BackedBlock

/-- The image a list of backed blocks stands for. -/
def imageOf (env : Env) (blockSize : Nat) (blocks : List BackedBlock) (j : Nat) : Option Cell :=
  blocks.findSome? fun bb => bb.image env blockSize j

namespace SparseFile

/-- The image a sparse file stands for. -/
def image (env : Env) (s : SparseFile) (j : Nat) : Option Cell :=
  imageOf env s.blockSize.toNat s.blocks j

/-- The blocks of a sparse file as its callers promise them: a positive block
size, and blocks that are not empty, sorted by block number and pairwise
disjoint. -/
structure Ordered (s : SparseFile) : Prop where
  blockSize_pos : 0 < s.blockSize.toNat
  nonempty : ∀ bb ∈ s.blocks, 0 < bb.len.toNat
  ordered : s.blocks.Pairwise (BackedBlock.Before s.blockSize.toNat)

/-- A sparse file whose length is a whole number of blocks, with every backed
block inside it. -/
structure Valid (s : SparseFile) : Prop extends Ordered s where
  len_eq : ∃ n : Nat, s.len = n * s.blockSize.toNat
  inside : ∀ bb ∈ s.blocks, bb.block.toNat * s.blockSize.toNat + bb.len.toNat ≤ s.len

/-- Every block that is not a fill can be read as a whole. -/
def Readable (env : Env) (s : SparseFile) : Prop :=
  ∀ bb ∈ s.blocks, env.cell bb.type 0 bb.len.toNat ≠ .unreadable

instance (env : Env) (s : SparseFile) : Decidable (s.Readable env) :=
  inferInstanceAs (Decidable (∀ bb ∈ s.blocks, _ ≠ _))

end SparseFile

end AndroidCore.Libsparse
