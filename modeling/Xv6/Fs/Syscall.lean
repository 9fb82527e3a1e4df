import Xv6.Family
import Xv6.Fs.Dir

/-!
# The file system: system calls

The kernel together with its file system. The processes, their memory and the open-file table are
those of `Kernel`; an open file gets the fields that only the file system uses, and a process its
current directory. A system call is one atomic step of a running process.

The strings that `argstr` fetches are arguments of the calls here, `none` where the address is bad.
Any process may have any string in its memory. The same goes for the source of a `write`, which is
given by its readable part. What `write` does with pipes and devices does not concern the file
system and is left out.
-/

namespace Xv6

open Prog Function

/-- `NDEV`. -/
def ndev : ℕ := 10

/-- `O_RDONLY`, `O_WRONLY`, `O_RDWR`, `O_CREATE`, `O_TRUNC`. -/
def oRdonly : BitVec 32 := 0x000

@[inherit_doc oRdonly] def oWronly : BitVec 32 := 0x001

@[inherit_doc oRdonly] def oRdwr : BitVec 32 := 0x002

@[inherit_doc oRdonly] def oCreate : BitVec 32 := 0x200

@[inherit_doc oRdonly] def oTrunc : BitVec 32 := 0x400

/-- `omode & flag`. -/
def hasMode (omode flag : BitVec 32) : Bool := omode &&& flag != 0

/-- The fields of `struct file` that only the file system uses. -/
structure FileNode where
  /-- `FD_INODE` and `FD_DEVICE`. -/
  ip : Fin ninode
  /-- `FD_INODE`. -/
  off : ℕ
  /-- `FD_DEVICE`. -/
  major : BitVec 16

/-- The kernel and its file system. -/
structure Sys where
  kernel : Kernel
  fs : Fs
  /-- The other half of `ftable.file`. -/
  node : Fin nfile → FileNode
  /-- Current directory of each process. -/
  cwd : Fin nproc → Option (Fin ninode)

/-- The kinds of file that have an inode. -/
def FileType.onDisk (t : FileType) : Bool := t == .inode || t == .device

namespace Sys

/-- The kernel, as a part of the system. -/
def kernelPart : Prog.Part Sys Kernel := ⟨kernel, fun w k => { w with kernel := k }⟩

/-- The file system, as a part of the system. -/
def fsPart : Prog.Part Sys Fs := ⟨fs, fun w s => { w with fs := s }⟩

/-- Run a function of the kernel. -/
def onKernel {α : Type} (x : Prog Kernel α) : Prog Sys α := zoom kernelPart x

/-- Run a function of the file system. -/
def onFs {α : Type} (x : Prog Fs α) : Prog Sys α := zoom fsPart x

/-- Set the current directory of a process. -/
def setCwd (p : Fin nproc) (ip : Option (Fin ninode)) : Prog Sys Unit :=
  Prog.modify fun w => { w with cwd := update w.cwd p ip }

/-- Change the file-system half of an open file. -/
def updateNode (f : Fin nfile) (g : FileNode → FileNode) : Prog Sys Unit :=
  Prog.modify fun w => { w with node := update w.node f (g (w.node f)) }

/-! ### Open files -/

/-- Close a file: decrement the reference count, close when it reaches 0. -/
def fileclose (f : Fin nfile) : Prog Sys Unit := do
  let w ← Prog.get
  let ff := w.kernel.file f
  onKernel (Xv6.fileclose f)
  if ff.ref = 1 ∧ ff.type.onDisk = true then
    onFs do
      Fs.iput (w.node f).ip
      Fs.endOp

/-- The `close` system call. -/
def sysClose (me : Fin nproc) (fd : Fin nofile) : Prog Sys Bool := do
  let w ← Prog.get
  match (w.kernel.proc me).ofile fd with
  | none => return false
  | some f => do
    onKernel (fdclear me fd)
    fileclose f
    return true

/-- Release the inode of a call that fails. -/
def openFail (ip : Fin ninode) : Prog Sys (Option (Fin nofile)) :=
  onFs do
    Fs.iunlockput ip
    Fs.endOp
    return none

/-- Make a new file out of the inode `ip`, which is locked. -/
def fileInit (omode : BitVec 32) (ip : Fin ninode) (f : Fin nfile) : Prog Sys Unit := do
  let w ← Prog.get
  let x := w.fs.inode ip
  onKernel (updateFile f fun y => { y with
    type := if x.type = tDevice then .device else .inode
    readable := !hasMode omode oWronly
    writable := hasMode omode oWronly || hasMode omode oRdwr })
  updateNode f fun y =>
    if x.type = tDevice then { y with ip := ip, major := x.major }
    else { y with ip := ip, off := 0 }

/-- The rest of `open` once the inode is known and locked. -/
def openInode (me : Fin nproc) (omode : BitVec 32) (ip : Fin ninode) :
    Prog Sys (Option (Fin nofile)) := do
  let w ← Prog.get
  let x := w.fs.inode ip
  if x.type = tDevice ∧ (x.major.toInt < 0 ∨ (ndev : ℤ) ≤ x.major.toInt) then openFail ip
  else
    match ← onKernel filealloc with
    | none => openFail ip
    | some f =>
      match ← onKernel (fdalloc me f) with
      | none => do
        fileclose f
        openFail ip
      | some fd => do
        fileInit omode ip f
        onFs do
          if hasMode omode oTrunc && x.type == tFile then Fs.itrunc ip
          Fs.iunlock ip
          Fs.endOp
        return some fd

/-- The inode that `open` is about, locked; `none` if the call fails. -/
def openLookup (cwd : Option (Fin ninode)) (path : List Byte) (omode : BitVec 32) :
    Prog Fs (Option (Fin ninode)) := do
  if hasMode omode oCreate then Fs.create cwd path tFile 0 0
  else
    match ← Fs.namei cwd path with
    | none => return none
    | some ip => do
      Fs.ilock ip
      let s ← Prog.get
      if (s.inode ip).type = tDir ∧ omode ≠ oRdonly then do
        Fs.iunlockput ip
        return none
      else return some ip

/-- The `open` system call; `none` is the code's -1. -/
def sysOpen (me : Fin nproc) (path : Option (List Byte)) (omode : BitVec 32) :
    Prog Sys (Option (Fin nofile)) := do
  match path with
  | none => return none
  | some path => do
    let w ← Prog.get
    match ← onFs (openLookup (w.cwd me) path omode) with
    | none => do
      onFs Fs.endOp
      return none
    | some ip => openInode me omode ip

/-- The chunk of a large write: what is sure to fit into a transaction. -/
def writeMax : ℕ := (maxopblocks - 1 - 1 - 2) / 2 * bsize

/-- The loop of `filewrite` on an inode, with `n` bytes left of which `src` is readable. -/
def filewriteFrom (f : Fin nfile) : ℕ → List Byte → ℕ → Prog Sys Bool
  | 0, _, _ => return true
  | fuel + 1, src, n =>
    if n = 0 then return true
    else do
      let n1 := min n writeMax
      let w ← Prog.get
      let node := w.node f
      onFs (Fs.ilock node.ip)
      let r ← onFs (Fs.writei node.ip (src.take n1) node.off n1)
      if 0 < r.getD 0 then updateNode f fun y => { y with off := u32 (y.off + r.getD 0) }
      onFs do
        Fs.iunlock node.ip
        Fs.endOp
      if r ≠ some n1 then return false
      else filewriteFrom f fuel (src.drop n1) (n - n1)

/-- The `write` system call on an inode; `false` is the code's -1. -/
def sysWrite (me : Fin nproc) (fd : Fin nofile) (src : List Byte) (n : ℕ) : Prog Sys Bool := do
  let w ← Prog.get
  match (w.kernel.proc me).ofile fd with
  | none => return false
  | some f =>
    if !(w.kernel.file f).writable then return false
    else if (w.kernel.file f).type = .inode then filewriteFrom f n src n
    else return false

/-! ### Paths -/

/-- `create`, with a path that may not have been fetched. -/
def createAt (cwd : Option (Fin ninode)) (path : Option (List Byte))
    (type major minor : BitVec 16) : Prog Fs (Option (Fin ninode)) :=
  match path with
  | none => return none
  | some path => Fs.create cwd path type major minor

/-- `mkdir` and `mknod` create an inode and do not keep it; `false` is the code's -1. -/
def sysCreate (me : Fin nproc) (path : Option (List Byte)) (type major minor : BitVec 16) :
    Prog Sys Bool := do
  let w ← Prog.get
  onFs do
    match ← createAt (w.cwd me) path type major minor with
    | none => do
      Fs.endOp
      return false
    | some ip => do
      Fs.iunlockput ip
      Fs.endOp
      return true

/-- The `mkdir` system call. -/
def sysMkdir (me : Fin nproc) (path : Option (List Byte)) : Prog Sys Bool :=
  sysCreate me path tDir 0 0

/-- The `mknod` system call. -/
def sysMknod (me : Fin nproc) (path : Option (List Byte)) (major minor : BitVec 16) :
    Prog Sys Bool := sysCreate me path tDevice major minor

/-- The `link` system call. -/
def sysLink (me : Fin nproc) (old new : Option (List Byte)) : Prog Sys Bool := do
  match old, new with
  | some old, some new => do
    let w ← Prog.get
    onFs do
      let ok ← Fs.link (w.cwd me) old new
      Fs.endOp
      return ok
  | _, _ => return false

/-- The `unlink` system call. -/
def sysUnlink (me : Fin nproc) (path : Option (List Byte)) : Prog Sys Bool := do
  match path with
  | none => return false
  | some path => do
    let w ← Prog.get
    onFs do
      let ok ← Fs.unlink (w.cwd me) path
      Fs.endOp
      return ok

/-- Drop the current directory of a process. -/
def putCwd (me : Fin nproc) : Prog Sys Unit := do
  let w ← Prog.get
  match w.cwd me with
  | none => Prog.panic "kerneltrap" -- a null pointer is dereferenced
  | some cwd => onFs do
    Fs.iput cwd
    Fs.endOp

/-- The directory that `chdir` is about; `none` if the call fails. -/
def chdirLookup (cwd : Option (Fin ninode)) :
    Option (List Byte) → Prog Fs (Option (Fin ninode))
  | none => return none
  | some path => do
    match ← Fs.namei cwd path with
    | none => return none
    | some ip => do
      Fs.ilock ip
      let s ← Prog.get
      if (s.inode ip).type ≠ tDir then do
        Fs.iunlockput ip
        return none
      else do
        Fs.iunlock ip
        return some ip

/-- The `chdir` system call. -/
def sysChdir (me : Fin nproc) (path : Option (List Byte)) : Prog Sys Bool := do
  let w ← Prog.get
  match ← onFs (chdirLookup (w.cwd me) path) with
  | none => do
    onFs Fs.endOp
    return false
  | some ip => do
    putCwd me
    setCwd me (some ip)
    return true

/-! ### Processes -/

/-- Create a new process, copying the parent. Returns the child's process number, or -1. -/
def kfork (me : Fin nproc) : Prog Sys ℤ := do
  match ← onKernel (forkMake me) with
  | none => return -1
  | some (np, pid) => do
    let w ← Prog.get
    match w.cwd me with
    | none => Prog.panic "kerneltrap" -- a null pointer is dereferenced
    | some cwd => do
      let ip ← onFs (Fs.idup cwd)
      setCwd np (some ip)
      onKernel do
        forkAdopt me np
        forkStart np
      return pid

/-- Close all open files. -/
def closeFiles (me : Fin nproc) : Prog Sys Unit :=
  forEach (List.finRange nofile) fun fd => do
    let w ← Prog.get
    match (w.kernel.proc me).ofile fd with
    | none => pure ()
    | some f => do
      fileclose f
      onKernel (fdclear me fd)

/-- Exit the current process. -/
def kexit (me : Fin nproc) (status : ℤ) : Prog Sys Unit := do
  let w ← Prog.get
  if w.kernel.initproc = some me then Prog.panic "init exiting"
  else do
    closeFiles me
    putCwd me
    setCwd me none
    onKernel do
      reparent me
      updateProc me fun p => { p with xstate := status, state := .zombie }

/-- Replace the image of a process; `none` is the code's -1. All of the executable is read at once;
the code reads the parts it needs, and releases the inode before it builds the stack. -/
def kexec (me : Fin nproc) (path : List Byte) (argv : List (List Byte)) :
    Prog Sys (Option ℕ) := do
  let w ← Prog.get
  match ← onFs (Fs.namei (w.cwd me) path) with
  | none => do
    onFs Fs.endOp
    return none
  | some ip => do
    let file ← onFs do
      Fs.ilock ip
      let s ← Prog.get
      Fs.readi ip 0 (s.inode ip).size.toNat
    let r ← onKernel (Xv6.kexec me (some file) argv)
    onFs do
      Fs.iunlockput ip
      Fs.endOp
    return r

/-- The `exec` system call. -/
def sysExec (me : Fin nproc) (path : Option (List Byte)) (uargv : ℕ) : Prog Sys (Option ℕ) := do
  match path with
  | none => return none
  | some path => do
    let (pages, argv) ← onKernel (fetchArgs me uargv maxarg [] [])
    let ret ← match argv with
      | none => pure none
      | some argv => kexec me path argv
    onKernel (forEach pages fun page => onVm (onKmem (kfree page)))
    return ret

end Sys

/-! ### Steps -/

/-- What a process can ask for, and what the scheduler can do. -/
inductive Call where
  | open (path : Option (List Byte)) (omode : BitVec 32)
  | write (fd : Fin nofile) (src : List Byte) (n : ℕ)
  | dup (fd : Fin nofile)
  | pipe (fdarray : ℕ)
  | close (fd : Fin nofile)
  | fork
  | exec (path : Option (List Byte)) (uargv : ℕ)
  | chdir (path : Option (List Byte))
  | mkdir (path : Option (List Byte))
  | mknod (path : Option (List Byte)) (major minor : BitVec 16)
  | link (old new : Option (List Byte))
  | unlink (path : Option (List Byte))
  | exit (status : ℤ)
  | wait (addr : ℕ)

namespace Call

/-- Run a system call to its end. -/
def run (me : Fin nproc) : Call → Prog Sys Unit
  | .open path omode => do
    let _ ← Sys.sysOpen me path omode
  | .write fd src n => do
    let _ ← Sys.sysWrite me fd src n
  | .dup fd => do
    let _ ← Sys.onKernel (sysDup me fd)
  | .pipe fdarray => do
    let _ ← Sys.onKernel (sysPipe me fdarray)
  | .close fd => do
    let _ ← Sys.sysClose me fd
  | .fork => do
    let _ ← Sys.kfork me
  | .exec path uargv => do
    let _ ← Sys.sysExec me path uargv
  | .chdir path => do
    let _ ← Sys.sysChdir me path
  | .mkdir path => do
    let _ ← Sys.sysMkdir me path
  | .mknod path major minor => do
    let _ ← Sys.sysMknod me path major minor
  | .link old new => do
    let _ ← Sys.sysLink me old new
  | .unlink path => do
    let _ ← Sys.sysUnlink me path
  | .exit status => Sys.kexit me status
  | .wait addr => do
    let _ ← Sys.onKernel (kwait me addr)

end Call

namespace Sys

/-- A file system that nobody uses yet. -/
structure Unused (s : Fs) : Prop where
  ref : ∀ ip, (s.inode ip).ref = 0
  locked : ∀ ip, (s.inode ip).locked = false
  logged : s.logged = ∅

/-- The system as `/init` starts: the kernel has booted, and the first process holds the only
reference to an inode, which is its current directory `/`. -/
def Boots (b : Boot) (img : Fs) (w : Sys) : Prop :=
  Unused img ∧ ∃ p ip, boot b b.start = .ok ((), w.kernel) ∧ w.kernel.initproc = some p ∧
    Fs.namei none [slash] img = .ok (some ip, w.fs) ∧
    w.cwd = update (fun _ => none) p (some ip)

/-- The states that are reached by system calls of running processes that meet the condition `P`,
and by the scheduler. -/
inductive Reaches (b : Boot) (img : Fs) (P : Fin nproc → Call → Sys → Prop) : Sys → Prop where
  | boot {w : Sys} (h : Boots b img w) : Reaches b img P w
  | call {w w' : Sys} {me : Fin nproc} {c : Call} (h : Reaches b img P w)
      (hen : (w.kernel.proc me).state = .running) (hc : P me c w)
      (hrun : c.run me w = .ok ((), w')) : Reaches b img P w'
  | schedule {w w' : Sys} {p : Fin nproc} {state : ProcState} {level : Fin 4}
      (h : Reaches b img P w) (hen : (Op.schedule p state level).Enabled w.kernel)
      (hrun : onKernel (Op.schedule p state level).run w = .ok ((), w')) : Reaches b img P w'

end Sys

end Xv6
