import Xv6.Log
import Xv6.Exec

/-!
# The file system: blocks

The lowest layer of `fs.c`: the superblock, the free map, and the inodes on disk. The layout is that
of `fs.h`,

```
[ boot block | super block | log | inode blocks | free bit map | data blocks ]
```

and everything lies in the bytes of blocks: inode `i` is 64 bytes of block `IBLOCK(i)`, the bit for
block `b` is in block `BBLOCK(b)`, and what a data block holds depends on who refers to it. Nothing
but the layout keeps these from overlapping, so a write to a block changes whatever is decoded from
it, and that it changes nothing else is something to be proved.

## What a system call sees

A system call runs alone here, from its first line to its last. What was shown of the buffer cache
and the log then leaves three things: the contents of each block as `bread` returns them, the
contents on the disk, and the set of blocks that the transaction has passed to `log_write`, which
`end_op` installs. Buffers are not locked, since nobody else asks for them.
-/

namespace Xv6

/-! ### The layout -/

/-- `NDIRECT`. -/
def ndirect : ℕ := 12

/-- `NINDIRECT`. -/
def nindirect : ℕ := 256

/-- `MAXFILE`. -/
def maxfile : ℕ := ndirect + nindirect

/-- `NINODE`. -/
def ninode : ℕ := 50

/-- `ROOTDEV`. -/
def rootdev : ℕ := 1

/-- `ROOTINO`. -/
def rootino : ℕ := 1

/-- `sizeof(struct dinode)`. -/
def dinodeSize : ℕ := 64

/-- `IPB`: inodes per block. -/
def ipb : ℕ := 16

/-- `BPB`: bitmap bits per block. -/
def bpb : ℕ := 8192

/-- `struct superblock`, without what only `mkfs` and the log use. -/
structure Superblock where
  /-- Size of the file system image (blocks). -/
  size : ℕ
  /-- Number of inodes. -/
  ninodes : ℕ
  /-- Block number of the first inode block. -/
  inodestart : ℕ
  /-- Block number of the first free map block. -/
  bmapstart : ℕ

namespace Superblock

/-- `IBLOCK(i, sb)`. -/
def iblock (sb : Superblock) (i : ℕ) : ℕ := i / ipb + sb.inodestart

/-- `BBLOCK(b, sb)`. -/
def bblock (sb : Superblock) (b : ℕ) : ℕ := b / bpb + sb.bmapstart

end Superblock

/-! ### Inodes on disk -/

/-- `T_DIR`. -/
def tDir : BitVec 16 := 1

/-- `T_FILE`. -/
def tFile : BitVec 16 := 2

/-- `T_DEVICE`. -/
def tDevice : BitVec 16 := 3

/-- `struct dinode`. -/
structure Dinode where
  /-- File type. -/
  type : BitVec 16
  /-- Major device number (`T_DEVICE` only). -/
  major : BitVec 16
  /-- Minor device number (`T_DEVICE` only). -/
  minor : BitVec 16
  /-- Number of links to inode in file system. -/
  nlink : BitVec 16
  /-- Size of file (bytes). -/
  size : BitVec 32
  /-- Data block addresses. -/
  addrs : Fin (ndirect + 1) → BitVec 32

namespace Dinode

/-- What `memset` to 0 leaves. -/
def zero : Dinode := ⟨0, 0, 0, 0, 0, fun _ => 0⟩

/-- The inode at an offset of a block. -/
def load (blk : Block) (o : ℕ) : Dinode where
  type := BitVec.ofNat 16 (Bytes.load 2 blk o)
  major := BitVec.ofNat 16 (Bytes.load 2 blk (o + 2))
  minor := BitVec.ofNat 16 (Bytes.load 2 blk (o + 4))
  nlink := BitVec.ofNat 16 (Bytes.load 2 blk (o + 6))
  size := BitVec.ofNat 32 (Bytes.load 4 blk (o + 8))
  addrs := fun k => BitVec.ofNat 32 (Bytes.load 4 blk (o + 12 + 4 * k))

/-- The fields before the addresses. -/
def storeHead (blk : Block) (o : ℕ) (d : Dinode) : Block :=
  Bytes.store 4 (Bytes.store 2 (Bytes.store 2 (Bytes.store 2 (Bytes.store 2 blk o d.type.toNat)
    (o + 2) d.major.toNat) (o + 4) d.minor.toNat) (o + 6) d.nlink.toNat) (o + 8) d.size.toNat

/-- Put an inode at an offset of a block. -/
def store (blk : Block) (o : ℕ) (d : Dinode) : Block :=
  Bytes.stores 4 (storeHead blk o d) (o + 12) (List.ofFn fun k => (d.addrs k).toNat)

end Dinode

/-! ### State -/

/-- `struct inode`. A process that waits for a lock it has itself waits for ever, so all that
matters of the lock is whether it is held. -/
structure Inode extends Dinode where
  dev : ℕ
  inum : ℕ
  /-- Reference count. -/
  ref : ℕ
  locked : Bool
  /-- Inode has been read from disk? -/
  valid : Bool

/-- The blocks and the inode table. -/
structure Fs where
  sb : Superblock
  /-- What `bread` returns. -/
  cache : ℕ → Block
  /-- What is on the disk. -/
  disk : ℕ → Block
  /-- The blocks that the transaction has passed to `log_write`. -/
  logged : Finset ℕ
  /-- `itable.inode`. -/
  inode : Fin ninode → Inode

namespace Fs

/-- Replace the contents of a block. -/
def setCache (s : Fs) (b : ℕ) (blk : Block) : Fs :=
  { s with cache := Function.update s.cache b blk }

/-- Replace an entry of the inode table. -/
def setInode (s : Fs) (ip : Fin ninode) (x : Inode) : Fs :=
  { s with inode := Function.update s.inode ip x }

@[simp] theorem setInode_inode_self (s : Fs) (ip : Fin ninode) (x : Inode) :
    (s.setInode ip x).inode ip = x := by
  simp [setInode]

theorem setInode_inode_of_ne (s : Fs) {ip jp : Fin ninode} (x : Inode) (h : jp ≠ ip) :
    (s.setInode ip x).inode jp = s.inode jp := by
  simp [setInode, h]

/-- The inode with a number, in its block. -/
def dinode (s : Fs) (i : ℕ) : Dinode := .load (s.cache (s.sb.iblock i)) (dinodeSize * (i % ipb))

/-- Replace it. -/
def setDinode (s : Fs) (i : ℕ) (d : Dinode) : Fs :=
  s.setCache (s.sb.iblock i) (d.store (s.cache (s.sb.iblock i)) (dinodeSize * (i % ipb)))

/-- Whether the free map has a block as used. -/
def bit (s : Fs) (b : ℕ) : Bool :=
  (Bytes.get (s.cache (s.sb.bblock b)) (b % bpb / 8)).getLsbD (b % bpb % 8)

/-- Change the byte of the free map that has the bit of a block. -/
def setBits (s : Fs) (b : ℕ) (f : Byte → Byte) : Fs :=
  s.setCache (s.sb.bblock b) (Bytes.put (s.cache (s.sb.bblock b)) (b % bpb / 8)
    (f (Bytes.get (s.cache (s.sb.bblock b)) (b % bpb / 8))))

/-! ### The transaction -/

/-- Record a changed block in the transaction. -/
def logWrite (b : ℕ) : Prog Fs Unit := do
  let s ← Prog.get
  if logblocks ≤ s.logged.card then Prog.panic "too big a transaction"
  else Prog.modify fun s => { s with logged := insert b s.logged }

/-- The end of the transaction: its blocks are installed. -/
def endOp : Prog Fs Unit := Prog.modify fun s => { s with
  disk := fun b => if b ∈ s.logged then s.cache b else s.disk b
  logged := ∅ }

/-! ### Blocks -/

/-- Zero a block. -/
def bzero (bno : ℕ) : Prog Fs Unit := do
  Prog.modify fun s => s.setCache bno fun _ => 0
  logWrite bno

/-- Allocate a zeroed disk block; 0 if there is none. The two loops of the code look at the bits of
the blocks in order. -/
def balloc : Prog Fs ℕ := do
  let s ← Prog.get
  match (List.range s.sb.size).find? fun b => !s.bit b with
  | none => return 0
  | some b => do
    Prog.modify fun s => s.setBits b (· ||| 1#8 <<< (b % bpb % 8))
    logWrite (s.sb.bblock b)
    bzero b
    return b

/-- Free a disk block. -/
def bfree (b : ℕ) : Prog Fs Unit := do
  let s ← Prog.get
  if s.bit b then do
    Prog.modify fun s => s.setBits b (· &&& ~~~(1#8 <<< (b % bpb % 8)))
    logWrite (s.sb.bblock b)
  else Prog.panic "freeing free block"

end Fs

end Xv6
