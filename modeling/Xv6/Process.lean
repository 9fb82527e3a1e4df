import Xv6.Copy
import Xv6.Files

/-!
# Processes

The life of a process from `proc.c` and `sysproc.c`: creation, growth, `fork`, `exit` and `wait`.
Each function is run by a process `me`, the code's `myproc()`.

`kwait` sleeps when a child is still running. Sleeping is a result here, after which the caller may
be run again; nothing has changed in between.
-/

namespace Xv6

/-! ### Machine integers -/

/-- Reduction of an arithmetic result to `int`. -/
def int32 (x : ℤ) : ℤ := (x + 2 ^ 31) % 2 ^ 32 - 2 ^ 31

/-- `x + n` for a `uint64` and an `int`. -/
def addInt (x : ℕ) (n : ℤ) : ℕ := ((x + n) % 2 ^ 64).toNat

/-- The `n` low bytes of a number, little-endian. -/
def leBytes (n x : ℕ) : List Byte := (List.range n).map fun j => BitVec.ofNat 8 (x / 256 ^ j)

/-- An `int` in memory. -/
def intBytes (x : ℤ) : List Byte := leBytes 4 (x % 2 ^ 32).toNat

/-! ### Creation and destruction -/

def allocpid : Prog Kernel ℤ := do
  let k ← Prog.get
  Prog.modify fun k => { k with nextpid := int32 (k.nextpid + 1), created := k.created + 1 }
  return k.nextpid

/-- The fields that `freeproc` clears. -/
def Proc.cleared (p : Proc) : Proc :=
  { p with
    trapframe := none, pagetable := none, sz := 0, pid := 0, parent := none, killed := false
    xstate := 0, state := .unused }

/-- Free a trapframe, if there is one. -/
def freeTrapframe : Option ℕ → Prog Kernel Unit
  | none => return ()
  | some tf => onVm (onKmem (kfree tf))

/-- Free a page table, if there is one. -/
def freePagetable (sz : ℕ) : Option ℕ → Prog Kernel Unit
  | none => return ()
  | some pagetable => onVm (procFreepagetable pagetable sz)

/-- Free a process and the data hanging from it, including user pages. -/
def freeproc (i : Fin nproc) : Prog Kernel Unit := do
  let k ← Prog.get
  freeTrapframe (k.proc i).trapframe
  freePagetable (k.proc i).sz (k.proc i).pagetable
  updateProc i Proc.cleared

/-- Look in the process table for an unused entry, and initialize what is needed to run in the
kernel. `none` is the code's 0. -/
def allocproc : Prog Kernel (Option (Fin nproc)) := do
  let k ← Prog.get
  match Table.first fun i => (k.proc i).state == .unused with
  | none => return none
  | some i => do
    let pid ← allocpid
    updateProc i fun p => { p with pid := pid, state := .used, mlfqLevel := 0, stats := .zero }
    -- allocate a trapframe page
    let tf ← onVm (onKmem kalloc)
    updateProc i fun p => { p with trapframe := tf }
    match tf with
    | none => do
      freeproc i
      return none
    | some tf => do
      -- an empty user page table
      let pagetable ← onVm (procPagetable tf)
      updateProc i fun p => { p with pagetable := pagetable }
      match pagetable with
      | none => do
        freeproc i
        return none
      | some _ => return some i

/-! ### Growing -/

/-- Grow or shrink user memory by `n` bytes; `false` is the code's -1. -/
def growproc (me : Fin nproc) (n : ℤ) : Prog Kernel Bool := do
  let k ← Prog.get
  let p := k.proc me
  if 0 < n then
    if trapframeVa < addInt p.sz n then return false
    else do
      let sz ← onVm (uvmalloc (addrOf p.pagetable) p.sz (addInt p.sz n) pteW)
      if sz = 0 then return false
      else do
        updateProc me fun p => { p with sz := sz }
        return true
  else if n < 0 then do
    let sz ← onVm (uvmdealloc (addrOf p.pagetable) p.sz (addInt p.sz n))
    updateProc me fun p => { p with sz := sz }
    return true
  else return true

/-- The `sbrk` system call; `none` is the code's -1. -/
def sysSbrk (me : Fin nproc) (n : ℤ) (eager : Bool) : Prog Kernel (Option ℕ) := do
  let k ← Prog.get
  let addr := (k.proc me).sz
  if eager || decide (n < 0) then
    if ← growproc me n then return some addr else return none
  else if addInt addr n < addr then return none
  else if trapframeVa < addInt addr n then return none
  else do
    updateProc me fun p => { p with sz := addInt p.sz n }
    return some addr

/-! ### `fork` -/

/-- Words of a trapframe. -/
def regEpc : Fin 512 := 3

@[inherit_doc regEpc] def regSp : Fin 512 := 6

@[inherit_doc regEpc] def regA0 : Fin 512 := 14

@[inherit_doc regEpc] def regA1 : Fin 512 := 15

/-- `sizeof(struct trapframe)`. -/
def trapframeSize : ℕ := 288

/-- `*dst = *src`, for trapframes. -/
def copyTrapframe (dst src : ℕ) : Prog Kmem Unit :=
  Prog.modify fun s => s.setPage dst fun i =>
    if (i : ℕ) < trapframeSize then s.mem src i else s.mem dst i

/-- Set a saved register. -/
def setReg (trapframe : ℕ) (reg : Fin 512) (x : ℕ) : Prog Kmem Unit :=
  writePte ⟨trapframe, reg⟩ (BitVec.ofNat 64 x)

/-- Increment reference counts on open file descriptors. -/
def dupFiles (me np : Fin nproc) : Prog Kernel Unit :=
  Prog.forEach (List.finRange nofile) fun fd => do
    let k ← Prog.get
    match (k.proc me).ofile fd with
    | none => pure ()
    | some f => do
      filedup f
      updateProc np fun p => { p with ofile := Function.update p.ofile fd (some f) }

/-! ### The critical sections of `fork` -/

/-- The first part of `kfork`, with the lock of the child held: everything up to the line
`release(&np->lock)`. The result is the child and its number. -/
def forkMake (me : Fin nproc) : Prog Kernel (Option (Fin nproc × ℤ)) := do
  match ← allocproc with
  | none => return none
  | some np => do
    let k ← Prog.get
    let p := k.proc me
    let c := k.proc np
    -- copy user memory from parent to child
    if ← onVm (uvmcopy (addrOf p.pagetable) (addrOf c.pagetable) p.sz) then do
      updateProc np fun c => { c with sz := p.sz }
      -- copy saved user registers; cause fork to return 0 in the child
      onVm (onKmem (copyTrapframe (addrOf c.trapframe) (addrOf p.trapframe)))
      onVm (onKmem (setReg (addrOf c.trapframe) regA0 0))
      dupFiles me np
      return some (np, c.pid)
    else do
      freeproc np
      return none

/-- The second part, with `wait_lock` held. -/
def forkAdopt (me np : Fin nproc) : Prog Kernel Unit :=
  updateProc np fun c => { c with parent := some me }

/-- The third part, with the lock of the child held again. -/
def forkStart (np : Fin nproc) : Prog Kernel Unit :=
  updateProc np fun c => { c with state := .runnable }

/-- Create a new process, copying the parent. Returns the child's process number, or -1. -/
def kfork (me : Fin nproc) : Prog Kernel ℤ := do
  match ← forkMake me with
  | none => return -1
  | some (np, pid) => do
    forkAdopt me np
    forkStart np
    return pid

/-! ### `exit` and `wait` -/

/-- Pass the abandoned children of a process to init. -/
def reparent (me : Fin nproc) : Prog Kernel Unit :=
  Prog.modify fun k => { k with
    proc := fun j =>
      if (k.proc j).parent = some me then { k.proc j with parent := k.initproc } else k.proc j }

/-- Close all open files. -/
def closeFiles (me : Fin nproc) : Prog Kernel Unit :=
  Prog.forEach (List.finRange nofile) fun fd => do
    let k ← Prog.get
    match (k.proc me).ofile fd with
    | none => pure ()
    | some f => do
      fileclose f
      fdclear me fd

/-- Exit the current process. It remains a zombie until its parent calls wait. -/
def kexit (me : Fin nproc) (status : ℤ) : Prog Kernel Unit := do
  let k ← Prog.get
  if k.initproc = some me then Prog.panic "init exiting"
  else do
    closeFiles me
    reparent me
    updateProc me fun p => { p with xstate := status, state := .zombie }

/-- How `wait` ends: it returns, or it has to sleep. -/
inductive WaitResult where
  | ret (r : ℤ)
  | sleep
  deriving DecidableEq

/-- Wait for a child process to exit and return its process number; -1 if there is no child. -/
def kwait (me : Fin nproc) (addr : ℕ) : Prog Kernel WaitResult := do
  let k ← Prog.get
  let isChild := fun j => (k.proc j).parent == some me
  match Table.first fun j => isChild j && (k.proc j).state == .zombie with
  | some j => do
    let pid := (k.proc j).pid
    let copied ← if addr = 0 then pure true
      else copyout me (addrOf (k.proc me).pagetable) addr (intBytes (k.proc j).xstate)
    if copied then do
      freeproc j
      return .ret pid
    else return .ret (-1)
  | none =>
    if (Table.first isChild).isNone || (k.proc me).killed then return .ret (-1)
    else return .sleep

/-- Mark a process as killed. -/
def setkilled (me : Fin nproc) : Prog Kernel Unit :=
  updateProc me fun p => { p with killed := true }

/-- Kill the process with a given number, waking it up if it sleeps; `false` is the code's -1. -/
def kkill (pid : ℤ) : Prog Kernel Bool := do
  let k ← Prog.get
  match findProc k pid with
  | none => return false
  | some i => do
    updateProc i fun p => { p with
      killed := true
      state := if p.state = .sleeping then .runnable else p.state }
    return true

end Xv6
