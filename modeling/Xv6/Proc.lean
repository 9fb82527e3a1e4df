import Xv6.Vm

/-!
# The kernel's state

The process table of `proc.h`, the open-file table of `file.h`, and the paging state, in one
record. Locks are not part of it: a function of the kernel runs from its first line to its last
without interruption, except where a later file cuts it into its critical sections.

Left out are the fields that no modelled function reads: the saved kernel context, the kernel
stack, the channel a process sleeps on, the working directory, the name shown by `procdump`, and
the scheduler's accounting other than the level, which `clock_evict` reads.
-/

namespace Xv6

open Prog Function

/-- `NPROC`. -/
def nproc : ℕ := 64

/-- `NOFILE`. -/
def nofile : ℕ := 16

/-- `NFILE`. -/
def nfile : ℕ := 100

/-- `enum procstate`. -/
inductive ProcState where
  | unused
  | used
  | sleeping
  | runnable
  | running
  | zombie
  deriving DecidableEq

/-- The paging statistics of a process. The counters do not wrap. -/
structure VmStats where
  /-- Number of page faults handled. -/
  pageFaults : ℤ
  /-- Number of pages evicted from this process. -/
  pagesEvicted : ℤ
  /-- Number of pages restored from swap. -/
  pagesSwappedIn : ℤ
  /-- Number of pages written to swap. -/
  pagesSwappedOut : ℤ
  /-- Pages resident in physical memory. -/
  residentPages : ℤ
  deriving DecidableEq

/-- `struct proc`. -/
structure Proc where
  state : ProcState
  /-- If set, the process has been killed. -/
  killed : Bool
  /-- Exit status to be returned to the parent's wait. -/
  xstate : ℤ
  pid : ℤ
  parent : Option (Fin nproc)
  /-- Size of process memory (bytes). -/
  sz : ℕ
  /-- User page table; `none` is the null pointer. -/
  pagetable : Option ℕ
  /-- Data page for the trampoline code; `none` is the null pointer. -/
  trapframe : Option ℕ
  ofile : Fin nofile → Option (Fin nfile)
  mlfqLevel : ℤ
  stats : VmStats

/-- Statistics of a new process. -/
def VmStats.zero : VmStats := ⟨0, 0, 0, 0, 0⟩

/-- The statistics fit together: what was swapped out is what was evicted. -/
def VmStats.Sound (s : VmStats) : Prop :=
  s.pagesEvicted = s.pagesSwappedOut ∧ 0 ≤ s.pagesSwappedIn

/-- An entry of the process table at boot, when all of it is zero. -/
def Proc.empty : Proc where
  state := .unused
  killed := false
  xstate := 0
  pid := 0
  parent := none
  sz := 0
  pagetable := none
  trapframe := none
  ofile := fun _ => none
  mlfqLevel := 0
  stats := .zero

/-- The kinds of open file. -/
inductive FileType where
  | none
  | pipe
  | inode
  | device
  deriving DecidableEq

/-- `struct file`, without what only the file system uses. -/
structure File where
  type : FileType
  /-- Reference count. -/
  ref : ℕ
  readable : Bool
  writable : Bool
  /-- The page of the pipe. -/
  pipe : ℕ
  deriving DecidableEq

/-- The part of `struct pipe` that decides when the pipe is freed. -/
structure Pipe where
  readopen : Bool
  writeopen : Bool
  deriving DecidableEq

/-- The state of the kernel. -/
structure Kernel where
  vm : Vm
  proc : Fin nproc → Proc
  nextpid : ℤ
  initproc : Option (Fin nproc)
  /-- `ftable.file`. -/
  file : Fin nfile → File
  /-- The `struct pipe` at each page address. -/
  pipe : ℕ → Pipe
  /-- The pages allocated once and for all at boot. No code reads this. -/
  bootPages : Multiset ℕ
  /-- How many process numbers have been given out. No code reads this. -/
  created : ℕ

namespace Kernel

/-- Replace the paging state. -/
def setVm (k : Kernel) (v : Vm) : Kernel := { k with vm := v }

@[simp] theorem setVm_vm (k : Kernel) (v : Vm) : (k.setVm v).vm = v := rfl

@[simp] theorem setVm_proc (k : Kernel) (v : Vm) : (k.setVm v).proc = k.proc := rfl

@[simp] theorem setVm_setVm (k : Kernel) (v v' : Vm) : (k.setVm v).setVm v' = k.setVm v' := rfl

@[simp] theorem setVm_self (k : Kernel) : k.setVm k.vm = k := rfl

/-- The paging state, as a part of the kernel's. -/
def vmPart : Prog.Part Kernel Vm where
  get := vm
  put := setVm

/-- Replace an entry of the process table. -/
def setProc (k : Kernel) (i : Fin nproc) (p : Proc) : Kernel :=
  { k with proc := update k.proc i p }

@[simp] theorem setProc_proc_self (k : Kernel) (i : Fin nproc) (p : Proc) :
    (k.setProc i p).proc i = p := by
  simp [setProc]

theorem setProc_proc_of_ne (k : Kernel) {i j : Fin nproc} (p : Proc) (h : j ≠ i) :
    (k.setProc i p).proc j = k.proc j := by
  simp [setProc, h]

@[simp] theorem setProc_setProc (k : Kernel) (i : Fin nproc) (p p' : Proc) :
    (k.setProc i p).setProc i p' = k.setProc i p' := by
  simp [setProc]

theorem setProc_setVm (k : Kernel) (i : Fin nproc) (p : Proc) (v : Vm) :
    (k.setProc i p).setVm v = (k.setVm v).setProc i p := rfl

/-- Replace an open file. -/
def setFile (k : Kernel) (f : Fin nfile) (x : File) : Kernel :=
  { k with file := update k.file f x }

/-- Replace a pipe. -/
def setPipe (k : Kernel) (pa : ℕ) (x : Pipe) : Kernel :=
  { k with pipe := update k.pipe pa x }

end Kernel

/-- Run a function of the paging code. -/
def onVm {α : Type} (x : Prog Vm α) : Prog Kernel α := zoom Kernel.vmPart x

theorem wp_onVm {α : Type} {x : Prog Vm α} {Q : α → Kernel → Prop} {E : String → Prop}
    {k : Kernel} :
    wp (onVm x) Q E k ↔ wp x (fun a v => Q a (k.setVm v)) E k.vm :=
  wp_zoom Kernel.vmPart

/-- Change the entry of a process. -/
def updateProc (i : Fin nproc) (f : Proc → Proc) : Prog Kernel Unit :=
  Prog.modify fun k => k.setProc i (f (k.proc i))

theorem wp_updateProc {i : Fin nproc} {f : Proc → Proc} {Q : Unit → Kernel → Prop}
    {E : String → Prop} {k : Kernel} :
    wp (updateProc i f) Q E k ↔ Q () (k.setProc i (f (k.proc i))) := Iff.rfl

/-- The first entry of the process table with a process number, in use or not. -/
def findProc (k : Kernel) (pid : ℤ) : Option (Fin nproc) :=
  Table.first fun i => (k.proc i).pid == pid

/-- The scheduling level of a process, 0 if not found. Higher levels are lower priorities. -/
def mlfqLevelOf (k : Kernel) (pid : ℤ) : ℤ :=
  (findProc k pid).elim 0 fun i => (k.proc i).mlfqLevel

/-- A null pointer is address 0. -/
def addrOf (p : Option ℕ) : ℕ := p.getD 0

end Xv6
