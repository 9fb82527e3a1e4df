import Xv6.Fs.Inode

/-!
# The file system: directories and paths

The last part of `fs.c` and the functions of `sysfile.c` that change directories. A directory is a
file of 16-byte entries, each a 16-bit inode number and a name of up to `DIRSIZ` bytes that ends at
its first null, if it has one.

Strings are lists of bytes. Reading beyond the end of the list finds the null that ends the string.
-/

namespace Xv6

/-- `DIRSIZ`. -/
def dirsiz : ℕ := 14

/-- `sizeof(struct dirent)`. -/
def direntSize : ℕ := 16

/-! ### Strings -/

/-- Compare at most `n` bytes of two strings. -/
def strncmp : ℕ → List Byte → List Byte → ℤ
  | 0, _, _ => 0
  | n + 1, p, q =>
    if p.headD 0 ≠ 0 ∧ p.headD 0 = q.headD 0 then strncmp n p.tail q.tail
    else (p.headD 0).toNat - (q.headD 0).toNat

/-- What `strncpy` puts into a buffer of `n` bytes. -/
def strncpy : ℕ → List Byte → List Byte
  | 0, _ => []
  | n + 1, t => if t.headD 0 = 0 then List.replicate (n + 1) 0 else t.headD 0 :: strncpy n t.tail

/-- Compare names. -/
def namecmp (s t : List Byte) : ℤ := strncmp dirsiz s t

/-- The character `/`. -/
def slash : Byte := 0x2f

/-- The names `.` and `..`. -/
def dot : List Byte := [0x2e]

@[inherit_doc dot] def dotdot : List Byte := [0x2e, 0x2e]

/-- The next path element and the path behind it, which has no leading slashes; `none` if there is
no element left. -/
def skipelem (path : List Byte) : Option (List Byte × List Byte) :=
  let path := path.dropWhile (· == slash)
  if path.headD 0 = 0 then none
  else
    let inElem := fun c : Byte => c != slash && c != 0
    some ((path.takeWhile inElem).take dirsiz, (path.dropWhile inElem).dropWhile (· == slash))

namespace Fs

/-! ### Directories -/

/-- The bytes of a directory entry. -/
def dirent (name : List Byte) (inum : ℕ) : List Byte := leBytes 2 inum ++ strncpy dirsiz name

/-- The inode number in the bytes of a directory entry. -/
def direntInum (de : List Byte) : ℕ := field de 0 2

/-- The name in the bytes of a directory entry. -/
def direntName (de : List Byte) : List Byte := de.drop 2

/-- A loop over the entries of a directory. `visit` is what its body makes of the entry at an offset,
and `finish` is for the offset at the end. -/
def direntsFrom {α : Type} (dp : Fin ninode) (msg : String) (visit : List Byte → ℕ → Option α)
    (finish : ℕ → α) : ℕ → ℕ → Prog Fs α
  | 0, off => return finish off
  | fuel + 1, off => do
    let s ← Prog.get
    if off < (s.inode dp).size.toNat then do
      let de ← readi dp off direntSize
      if de.length ≠ direntSize then Prog.panic msg
      else
        match visit de off with
        | none => direntsFrom dp msg visit finish fuel (off + direntSize)
        | some a => return a
    else return finish off

/-- How often a loop over the entries of a directory can run. -/
def direntFuel (s : Fs) (dp : Fin ninode) : ℕ := (s.inode dp).size.toNat / direntSize + 1

/-- The loop of `dirlookup`. Returns the inode number and the offset of the entry. -/
def dirlookupFrom (dp : Fin ninode) (name : List Byte) : ℕ → ℕ → Prog Fs (Option (ℕ × ℕ)) :=
  direntsFrom dp "dirlookup read" (fun de off =>
    if direntInum de = 0 then none
    else if namecmp name (direntName de) = 0 then some (some (direntInum de, off))
    else none) fun _ => none

/-- Look for a directory entry in a directory. Returns the inode and the offset of the entry. -/
def dirlookup (dp : Fin ninode) (name : List Byte) : Prog Fs (Option (Fin ninode × ℕ)) := do
  let s ← Prog.get
  if (s.inode dp).type ≠ tDir then Prog.panic "dirlookup not DIR"
  else
    match ← dirlookupFrom dp name (s.direntFuel dp) 0 with
    | none => return none
    | some (inum, off) => do
      let ip ← iget (s.inode dp).dev inum
      return some (ip, off)

/-- Look for an empty entry; the end of the directory if there is none. -/
def emptyDirentFrom (dp : Fin ninode) : ℕ → ℕ → Prog Fs ℕ :=
  direntsFrom dp "dirlink read" (fun de off => if direntInum de = 0 then some off else none) id

/-- Write a new entry into a directory; `false` is the code's -1. -/
def dirlink (dp : Fin ninode) (name : List Byte) (inum : ℕ) : Prog Fs Bool := do
  -- check that name is not present
  match ← dirlookup dp name with
  | some (ip, _) => do
    iput ip
    return false
  | none => do
    let s ← Prog.get
    let off ← emptyDirentFrom dp (s.direntFuel dp) 0
    let r ← writei dp (dirent name inum) off direntSize
    return r == some direntSize

/-! ### Paths -/

/-- The loop of `namex` at the inode `ip` and the rest of a path. Every element of a path is at
least a byte long, so the length of the path is fuel enough. -/
def namexFrom (parent : Bool) :
    ℕ → Fin ninode → List Byte → List Byte → Prog Fs (Option (Fin ninode × List Byte))
  | 0, _, _, _ => return none
  | fuel + 1, ip, path, name =>
    match skipelem path with
    | none =>
      if parent then do
        iput ip
        return none
      else return some (ip, name)
    | some (name, path) => do
      ilock ip
      let s ← Prog.get
      if (s.inode ip).type ≠ tDir then do
        iunlockput ip
        return none
      else if parent && path.headD 0 == 0 then do
        -- stop one level early
        iunlock ip
        return some (ip, name)
      else
        match ← dirlookup ip name with
        | none => do
          iunlockput ip
          return none
        | some (next, _) => do
          iunlockput ip
          namexFrom parent fuel next path name

/-- Look up the inode for a path name, or for the parent of its last element. `cwd` is the current
directory of the process. The second part of the result is the last element that was looked at. -/
def namex (cwd : Option (Fin ninode)) (path : List Byte) (parent : Bool) :
    Prog Fs (Option (Fin ninode × List Byte)) := do
  let ip ← if path.headD 0 = slash then iget rootdev rootino
    else match cwd with
      | none => Prog.panic "kerneltrap" -- a null pointer is dereferenced
      | some cwd => idup cwd
  namexFrom parent (path.length + 1) ip path []

def namei (cwd : Option (Fin ninode)) (path : List Byte) : Prog Fs (Option (Fin ninode)) := do
  let r ← namex cwd path false
  return r.map Prod.fst

def nameiparent (cwd : Option (Fin ninode)) (path : List Byte) :
    Prog Fs (Option (Fin ninode × List Byte)) := namex cwd path true

/-! ### Creating, linking and unlinking -/

/-- Change the link count of an inode and write it back. -/
def addLink (ip : Fin ninode) (n : BitVec 16) : Prog Fs Unit := do
  updateInode ip fun x => { x with nlink := x.nlink + n }
  iupdate ip

/-- Create the entries `.` and `..` of a new directory. -/
def linkDots (type : BitVec 16) (ip : Fin ninode) (inum parent : ℕ) : Prog Fs Bool :=
  if type = tDir then do
    if ← dirlink ip dot inum then dirlink ip dotdot parent else return false
  else return true

/-- The entries that make the new inode `ip` a file of the directory `dp`. -/
def linkNew (dp : Fin ninode) (name : List Byte) (type : BitVec 16) (ip : Fin ninode) :
    Prog Fs Bool := do
  let s ← Prog.get
  if ← linkDots type ip (s.inode ip).inum (s.inode dp).inum then
    dirlink dp name (s.inode ip).inum
  else return false

/-- What `create` does with a directory that has no entry of that name. -/
def createIn (dp : Fin ninode) (name : List Byte) (type major minor : BitVec 16) :
    Prog Fs (Option (Fin ninode)) := do
  let s ← Prog.get
  match ← ialloc (s.inode dp).dev type with
  | none => do
    iunlockput dp
    return none
  | some ip => do
    ilock ip
    updateInode ip fun x => { x with major := major, minor := minor, nlink := 1 }
    iupdate ip
    if ← linkNew dp name type ip then do
      if type = tDir then addLink dp 1 -- for ".."
      iunlockput dp
      return some ip
    else do
      -- something went wrong, de-allocate ip
      updateInode ip fun x => { x with nlink := 0 }
      iupdate ip
      iunlockput ip
      iunlockput dp
      return none

/-- Create an inode under a path, or open the file that is there. The result is locked; `none` is
the code's 0. -/
def create (cwd : Option (Fin ninode)) (path : List Byte) (type major minor : BitVec 16) :
    Prog Fs (Option (Fin ninode)) := do
  match ← nameiparent cwd path with
  | none => return none
  | some (dp, name) => do
    ilock dp
    match ← dirlookup dp name with
    | some (ip, _) => do
      iunlockput dp
      ilock ip
      let s ← Prog.get
      let t := (s.inode ip).type
      if type = tFile ∧ (t = tFile ∨ t = tDevice) then return some ip
      else do
        iunlockput ip
        return none
    | none => createIn dp name type major minor

/-- Enter the inode `ip` in a directory of the same device. -/
def linkIn (dp : Fin ninode) (name : List Byte) (ip : Fin ninode) : Prog Fs Bool := do
  let s ← Prog.get
  if (s.inode dp).dev ≠ (s.inode ip).dev then return false
  else dirlink dp name (s.inode ip).inum

/-- The second half of `link`: enter the inode `ip` under a path. -/
def linkEntry (cwd : Option (Fin ninode)) (new : List Byte) (ip : Fin ninode) : Prog Fs Bool := do
  match ← nameiparent cwd new with
  | none => return false
  | some (dp, name) => do
    ilock dp
    let ok ← linkIn dp name ip
    iunlockput dp
    return ok

/-- Create the path `new` as a link to the same inode as `old`; `false` is the code's -1. -/
def link (cwd : Option (Fin ninode)) (old new : List Byte) : Prog Fs Bool := do
  match ← namei cwd old with
  | none => return false
  | some ip => do
    ilock ip
    let s ← Prog.get
    if (s.inode ip).type = tDir then do
      iunlockput ip
      return false
    else do
      addLink ip 1
      iunlock ip
      if ← linkEntry cwd new ip then do
        iput ip
        return true
      else do
        ilock ip
        addLink ip (-1)
        iunlockput ip
        return false

/-- The loop of `isdirempty`. -/
def isdiremptyFrom (dp : Fin ninode) : ℕ → ℕ → Prog Fs Bool :=
  direntsFrom dp "isdirempty: readi"
    (fun de _ => if direntInum de ≠ 0 then some false else none) fun _ => true

/-- Is the directory empty except for `.` and `..`? -/
def isdirempty (dp : Fin ninode) : Prog Fs Bool := do
  let s ← Prog.get
  isdiremptyFrom dp (s.direntFuel dp) (2 * direntSize)

/-- Is the inode a directory that is not empty? -/
def isFullDir (ip : Fin ninode) : Prog Fs Bool := do
  let s ← Prog.get
  if (s.inode ip).type = tDir then do
    let empty ← isdirempty ip
    return !empty
  else return false

/-- Remove the entry at `off` of `dp`, which names `ip`. Both are locked. -/
def unlinkEntry (dp ip : Fin ninode) (off : ℕ) : Prog Fs Unit := do
  let r ← writei dp (List.replicate direntSize 0) off direntSize
  if r ≠ some direntSize then Prog.panic "unlink: writei"
  else do
    let s ← Prog.get
    if (s.inode ip).type = tDir then addLink dp (-1)
    iunlockput dp
    addLink ip (-1)
    iunlockput ip

/-- Remove a path; `false` is the code's -1. -/
def unlink (cwd : Option (Fin ninode)) (path : List Byte) : Prog Fs Bool := do
  match ← nameiparent cwd path with
  | none => return false
  | some (dp, name) => do
    ilock dp
    if namecmp name dot = 0 ∨ namecmp name dotdot = 0 then do
      iunlockput dp
      return false
    else
      match ← dirlookup dp name with
      | none => do
        iunlockput dp
        return false
      | some (ip, off) => do
        ilock ip
        let s ← Prog.get
        if (s.inode ip).nlink.toInt < 1 then Prog.panic "unlink: nlink < 1"
        else if ← isFullDir ip then do
          iunlockput ip
          iunlockput dp
          return false
        else do
          unlinkEntry dp ip off
          return true

end Fs

end Xv6
