import Xv6.Fs.Block

/-!
# The file system: inodes and their contents

The middle of `fs.c`: the inode table and the map from a file to its blocks.

A process has a pointer `ip` into the table, a `Fin ninode`. The entry is locked while its copy of
the disk inode is in use. Between `ilock` and `iunlock` the copy may be ahead of the disk; `iupdate`
writes it back.

The source of `writei` is a list of bytes, the readable part of the source range. A kernel buffer
has all `n` bytes. A user range may end at a page that cannot be accessed, and `either_copyin` then
fails after it has moved the bytes before that page.
-/

namespace Xv6

open Prog Function

namespace Fs

/-! ### The inode table -/

/-- Change an entry of the inode table. -/
def updateInode (ip : Fin ninode) (f : Inode → Inode) : Prog Fs Unit :=
  Prog.modify fun s => s.setInode ip (f (s.inode ip))

/-- Find the inode with a number on a device and return its entry. Does not lock the inode and does
not read it from disk. -/
def iget (dev inum : ℕ) : Prog Fs (Fin ninode) := do
  let s ← Prog.get
  -- is the inode already in the table?
  match Table.first fun ip => decide (0 < (s.inode ip).ref) && (s.inode ip).dev == dev &&
      (s.inode ip).inum == inum with
  | some ip => do
    updateInode ip fun x => { x with ref := x.ref + 1 }
    return ip
  | none =>
    -- recycle an entry
    match Table.first fun ip => (s.inode ip).ref == 0 with
    | none => Prog.panic "iget: no inodes"
    | some ip => do
      updateInode ip fun x => { x with dev := dev, inum := inum, ref := 1, valid := false }
      return ip

/-- Increment the reference count of an entry. -/
def idup (ip : Fin ninode) : Prog Fs (Fin ninode) := do
  updateInode ip fun x => { x with ref := x.ref + 1 }
  return ip

/-- `acquiresleep` of the lock of an entry. The holder can only be the caller, who would sleep for
ever. -/
def lockInode (ip : Fin ninode) : Prog Fs Unit := do
  let s ← Prog.get
  if (s.inode ip).locked then Prog.panic "deadlock"
  else updateInode ip fun x => { x with locked := true }

/-- Lock an inode, and read it from disk if necessary. -/
def ilock (ip : Fin ninode) : Prog Fs Unit := do
  let s ← Prog.get
  if (s.inode ip).ref < 1 then Prog.panic "ilock"
  else do
    lockInode ip
    if !(s.inode ip).valid then do
      updateInode ip fun x => { x with toDinode := s.dinode x.inum, valid := true }
      if (s.dinode (s.inode ip).inum).type = 0 then Prog.panic "ilock: no type"

/-- Unlock an inode. -/
def iunlock (ip : Fin ninode) : Prog Fs Unit := do
  let s ← Prog.get
  if !(s.inode ip).locked || decide ((s.inode ip).ref < 1) then Prog.panic "iunlock"
  else updateInode ip fun x => { x with locked := false }

/-- Copy a modified in-memory inode to disk. -/
def iupdate (ip : Fin ninode) : Prog Fs Unit := do
  let s ← Prog.get
  Prog.modify fun s => s.setDinode (s.inode ip).inum (s.inode ip).toDinode
  logWrite (s.sb.iblock (s.inode ip).inum)

/-- Allocate an inode and mark it as allocated by giving it a type; `none` is the code's 0. -/
def ialloc (dev : ℕ) (type : BitVec 16) : Prog Fs (Option (Fin ninode)) := do
  let s ← Prog.get
  match (List.range s.sb.ninodes).find? fun i => decide (1 ≤ i ∧ (s.dinode i).type = 0) with
  | none => return none
  | some i => do
    Prog.modify fun s => s.setDinode i { Dinode.zero with type := type }
    logWrite (s.sb.iblock i)
    let ip ← iget dev i
    return some ip

/-! ### Inode content -/

/-- Entry `j` of an indirect block. -/
def indirect (s : Fs) (addr j : ℕ) : ℕ := Bytes.load 4 (s.cache addr) (4 * j)

/-- The address in a slot of an inode, with a new block if there is none; 0 if out of disk space. -/
def bmapSlot (ip : Fin ninode) (k : Fin (ndirect + 1)) : Prog Fs ℕ := do
  let s ← Prog.get
  let addr := ((s.inode ip).addrs k).toNat
  if addr = 0 then do
    let addr ← balloc
    if addr = 0 then return 0
    else do
      updateInode ip fun x => { x with
        addrs := update x.addrs k (BitVec.ofNat 32 addr) }
      return addr
  else return addr

/-- Return the disk block address of block `bn` of an inode. If there is no such block, one is
allocated; 0 if out of disk space. -/
def bmap (ip : Fin ninode) (bn : ℕ) : Prog Fs ℕ :=
  if h : bn < ndirect then bmapSlot ip ⟨bn, Nat.lt_succ_of_lt h⟩
  else if bn - ndirect < nindirect then do
    let j := bn - ndirect
    -- load indirect block, allocating if necessary
    let ind ← bmapSlot ip (Fin.last ndirect)
    if ind = 0 then return 0
    else do
      let s ← Prog.get
      if s.indirect ind j = 0 then do
        let addr ← balloc
        if addr ≠ 0 then do
          Prog.modify fun s => s.setCache ind (Bytes.store 4 (s.cache ind) (4 * j) addr)
          logWrite ind
        return addr
      else return s.indirect ind j
  else Prog.panic "bmap: out of range"

/-- Free the block in a direct slot, if there is one. -/
def freeSlot (ip : Fin ninode) (k : Fin (ndirect + 1)) : Prog Fs Unit := do
  let s ← Prog.get
  if (s.inode ip).addrs k ≠ 0 then do
    bfree ((s.inode ip).addrs k).toNat
    updateInode ip fun x => { x with addrs := update x.addrs k 0 }

/-- Free the block of an entry of an indirect block, if there is one. -/
def freeEntry (ind j : ℕ) : Prog Fs Unit := do
  let s ← Prog.get
  if s.indirect ind j ≠ 0 then bfree (s.indirect ind j)

/-- Truncate an inode (discard contents). -/
def itrunc (ip : Fin ninode) : Prog Fs Unit := do
  forEach (List.finRange ndirect) fun k => freeSlot ip k.castSucc
  let s ← Prog.get
  if (s.inode ip).addrs (Fin.last ndirect) ≠ 0 then do
    forEach (List.range nindirect)
      (freeEntry ((s.inode ip).addrs (Fin.last ndirect)).toNat)
    freeSlot ip (Fin.last ndirect)
  updateInode ip fun x => { x with size := 0 }
  iupdate ip

/-- Drop a reference to an entry. If that was the last reference and the inode has no links to it,
free the inode and its content on disk. -/
def iput (ip : Fin ninode) : Prog Fs Unit := do
  let s ← Prog.get
  let x := s.inode ip
  if x.ref = 1 ∧ x.valid = true ∧ x.nlink = 0 then do
    lockInode ip
    itrunc ip
    updateInode ip fun x => { x with type := 0 }
    iupdate ip
    updateInode ip fun x => { x with valid := false, locked := false }
  updateInode ip fun x => { x with ref := x.ref - 1 }

/-- Common idiom: unlock, then put. -/
def iunlockput (ip : Fin ninode) : Prog Fs Unit := do
  iunlock ip
  iput ip

/-- The loop of `readi` to a kernel buffer, with `n` bytes left. Every iteration reads a byte at
least, so `n` is fuel enough. -/
def readiFrom (ip : Fin ninode) : ℕ → ℕ → ℕ → Prog Fs (List Byte)
  | 0, _, _ => return []
  | fuel + 1, off, n =>
    if n = 0 then return []
    else do
      let addr ← bmap ip (off / bsize)
      if addr = 0 then return []
      else do
        let s ← Prog.get
        let m := min n (bsize - off % bsize)
        let rest ← readiFrom ip fuel (off + m) (n - m)
        return Bytes.read (s.cache addr) (off % bsize) m ++ rest

/-- Read data from an inode to a kernel buffer. The length of the result is what the code returns. -/
def readi (ip : Fin ninode) (off n : ℕ) : Prog Fs (List Byte) := do
  let s ← Prog.get
  let size := (s.inode ip).size.toNat
  if size < off ∨ u32 (off + n) < off then return []
  else
    let n := if size < u32 (off + n) then size - off else n
    readiFrom ip n off n

/-- The loop of `writei`, with `n` bytes left of which `src` is readable. Returns the number of
bytes written. -/
def writeiFrom (ip : Fin ninode) : ℕ → List Byte → ℕ → ℕ → Prog Fs ℕ
  | 0, _, _, _ => return 0
  | fuel + 1, src, off, n =>
    if n = 0 then return 0
    else do
      let addr ← bmap ip (off / bsize)
      if addr = 0 then return 0
      else do
        let m := min n (bsize - off % bsize)
        -- either_copyin moves what it can before it fails
        Prog.modify fun s => s.setCache addr
          (Bytes.write (s.cache addr) (off % bsize) (src.take m))
        if src.length < m then return 0
        else do
          logWrite addr
          let tot ← writeiFrom ip fuel (src.drop m) (off + m) (n - m)
          return m + tot

/-- Write data to an inode. Returns the number of bytes written, or `none` for the code's -1. -/
def writei (ip : Fin ninode) (src : List Byte) (off n : ℕ) : Prog Fs (Option ℕ) := do
  let s ← Prog.get
  if (s.inode ip).size.toNat < off ∨ u32 (off + n) < off then return none
  else if maxfile * bsize < u32 (off + n) then return none
  else do
    let tot ← writeiFrom ip n src off n
    updateInode ip fun x =>
      if x.size.toNat < off + tot then { x with size := BitVec.ofNat 32 (off + tot) } else x
    -- write the inode back even if the size did not change, for the blocks that bmap added
    iupdate ip
    return some tot

/-! ### Rules -/

section Rules

variable {s : Fs} {ip : Fin ninode} {E : String → Prop} {Q : ℕ → Fs → Prop}

/-- Put an address into a slot of an inode. -/
def setSlot (s : Fs) (ip : Fin ninode) (k : Fin (ndirect + 1)) (b : ℕ) : Fs :=
  s.setInode ip { s.inode ip with
    addrs := update (s.inode ip).addrs k (BitVec.ofNat 32 b) }

theorem wp_bmapSlot {k : Fin (ndirect + 1)}
    (hfound : ((s.inode ip).addrs k).toNat ≠ 0 → Q ((s.inode ip).addrs k).toNat s)
    (hnew : ((s.inode ip).addrs k).toNat = 0 → wp balloc
      (fun b s' => (b = 0 → Q 0 s') ∧ (b ≠ 0 → Q b (s'.setSlot ip k b))) E s) :
    wp (bmapSlot ip k) Q E s := by
  rw [bmapSlot, wp_bind, wp_get]
  dsimp only
  split_ifs with hold
  · refine wp_seq (hnew hold) fun b s' ⟨hfail, hok⟩ => ?_
    split_ifs with h0
    · exact hfail h0
    · exact hok h0
  · exact hfound hold

theorem wp_bmap_direct {bn : ℕ} (h : bn < ndirect)
    (hQ : wp (bmapSlot ip ⟨bn, Nat.lt_succ_of_lt h⟩) Q E s) :
    wp (bmap ip bn) Q E s := by
  rw [bmap, dif_pos h]
  exact hQ

theorem wp_bmap_indirect {bn : ℕ} (hlow : ndirect ≤ bn) (hhigh : bn < maxfile)
    (hQ : wp (bmapSlot ip (Fin.last ndirect)) (fun ind s' => (ind = 0 → Q 0 s') ∧
      (ind ≠ 0 → s'.indirect ind (bn - ndirect) ≠ 0 → Q (s'.indirect ind (bn - ndirect)) s') ∧
      (ind ≠ 0 → s'.indirect ind (bn - ndirect) = 0 → wp balloc (fun b s'' =>
        (b = 0 → Q 0 s'') ∧
        (b ≠ 0 → wp (logWrite ind) (fun _ => Q b) E
          (s''.setCache ind (Bytes.store 4 (s''.cache ind) (4 * (bn - ndirect)) b)))) E s')) E s) :
    wp (bmap ip bn) Q E s := by
  have hin : bn - ndirect < nindirect := by
    rw [maxfile] at hhigh
    omega
  rw [bmap, dif_neg (Nat.not_lt.mpr hlow), if_pos hin]
  refine wp_seq hQ fun ind s' ⟨hnone, hfound, hnew⟩ => ?_
  split_ifs with h0
  · exact hnone h0
  · rw [wp_bind, wp_get]
    split_ifs with hold
    · refine wp_seq (hnew h0 hold) fun b s'' ⟨hfail, hok⟩ => ?_
      by_cases hb : b = 0
      · subst hb
        exact hfail rfl
      · rw [if_pos hb, wp_bind, wp_modify, wp_bind]
        exact hok hb
    · exact hfound h0 hold

/-- **An iteration of the loop of `writei`.** -/
theorem wp_writeiFrom {fuel off n : ℕ} {src : List Byte} (hn : n ≠ 0)
    (hQ : wp (bmap ip (off / bsize)) (fun a s' => (a = 0 → Q 0 s') ∧
      (a ≠ 0 → src.length < min n (bsize - off % bsize) →
        Q 0 (s'.setCache a (Bytes.write (s'.cache a) (off % bsize)
          (src.take (min n (bsize - off % bsize)))))) ∧
      (a ≠ 0 → min n (bsize - off % bsize) ≤ src.length → wp (logWrite a)
        (fun _ => wp (writeiFrom ip fuel (src.drop (min n (bsize - off % bsize)))
            (off + min n (bsize - off % bsize)) (n - min n (bsize - off % bsize)))
          (fun tot => Q (min n (bsize - off % bsize) + tot)) E) E
        (s'.setCache a (Bytes.write (s'.cache a) (off % bsize)
          (src.take (min n (bsize - off % bsize))))))) E s) :
    wp (writeiFrom ip (fuel + 1) src off n) Q E s := by
  rw [writeiFrom, if_neg hn]
  refine wp_seq hQ fun a s' ⟨hnone, hshort, hok⟩ => ?_
  split_ifs with h0
  · exact hnone h0
  · rw [wp_bind, wp_modify]
    split_ifs with hlen
    · exact hshort h0 hlen
    · refine wp_seq (hok h0 (Nat.not_lt.mp hlen)) fun _ s'' hs'' => ?_
      rw [wp_bind]
      exact hs''

end Rules

end Fs

end Xv6
