import Xv6.Exec
import Xv6.PageTree

/-!
# The system

The machine as a transition system. It boots, and from then on user processes trap into the kernel:
by an access that the page table does not permit, or by a system call. Each trap is one atomic
step, run to its end by the process that took it.

Steps that panic have no successor. The scheduler, the timer and the wakeups are one step,
`Op.schedule`, which may move any live process between running, runnable and sleeping and give it
any level.
-/

namespace Xv6

/-! ### Memory accesses of user code -/

/-- A load or a store. -/
inductive Access where
  | load
  | store
  deriving DecidableEq

/-- The flag an access needs besides `PTE_V` and `PTE_U`. -/
def Access.flag : Access → Pte
  | .load => pteR
  | .store => pteW

/-- Whether the page table lets user code access `va`. -/
def permits (v : Vm) (pagetable va : ℕ) (a : Access) : Bool :=
  let e := lookup v.kmem.mem pagetable (va / pgsize)
  decide (va < maxva) && e.has pteV && e.has pteU && e.has a.flag

/-- The branch of `usertrap` for load and store page faults. -/
def usertrapFault (me : Fin nproc) (va : ℕ) : Prog Kernel Unit := do
  let k ← Prog.get
  if ← vmfault me (addrOf (k.proc me).pagetable) va then pure ()
  else setkilled me
  let k ← Prog.get
  if (k.proc me).killed then kexit me (-1)

/-- User code loads from `va`, or traps. -/
def userLoad (me : Fin nproc) (va : ℕ) : Prog Kernel Unit := do
  let k ← Prog.get
  if permits k.vm (addrOf (k.proc me).pagetable) va .load then pure ()
  else usertrapFault me va

/-- User code stores a byte at `va`, or traps. -/
def userStore (me : Fin nproc) (va : ℕ) (b : Byte) : Prog Kernel Unit := do
  let k ← Prog.get
  let pagetable := addrOf (k.proc me).pagetable
  if permits k.vm pagetable va .store then
    copyoutMove (pte2pa (lookup k.vm.kmem.mem pagetable (va / pgsize))) (va % pgsize) [b]
  else usertrapFault me va

/-! ### System calls on files -/

/-- The `pipe` system call; `false` is the code's -1. -/
def sysPipe (me : Fin nproc) (fdarray : ℕ) : Prog Kernel Bool := do
  match ← pipealloc with
  | none => return false
  | some (rf, wf) =>
    match ← fdalloc me rf with
    | none => do
      fileclose rf
      fileclose wf
      return false
    | some fd0 =>
      match ← fdalloc me wf with
      | none => do
        fdclear me fd0
        fileclose rf
        fileclose wf
        return false
      | some fd1 => do
        let k ← Prog.get
        let pagetable := addrOf (k.proc me).pagetable
        let copied ←
          if ← copyout me pagetable fdarray (leBytes 4 fd0) then
            copyout me pagetable (u64 (fdarray + 4)) (leBytes 4 fd1)
          else pure false
        if copied then return true
        else do
          fdclear me fd0
          fdclear me fd1
          fileclose rf
          fileclose wf
          return false

/-- The `dup` system call; `none` is the code's -1. -/
def sysDup (me : Fin nproc) (fd : Fin nofile) : Prog Kernel (Option (Fin nofile)) := do
  let k ← Prog.get
  match (k.proc me).ofile fd with
  | none => return none
  | some f =>
    match ← fdalloc me f with
    | none => return none
    | some fd => do
      filedup f
      return some fd

/-- The `close` system call. -/
def sysClose (me : Fin nproc) (fd : Fin nofile) : Prog Kernel Bool := do
  let k ← Prog.get
  match (k.proc me).ofile fd with
  | none => return false
  | some f => do
    fdclear me fd
    fileclose f
    return true

/-- The `open` system call, once the file system has found the file. -/
def sysOpen (me : Fin nproc) (device readable writable : Bool) :
    Prog Kernel (Option (Fin nofile)) := do
  match ← filealloc with
  | none => return none
  | some f =>
    match ← fdalloc me f with
    | none => do
      fileclose f
      return none
    | some fd => do
      updateFile f fun x => { x with
        type := if device then .device else .inode
        readable := readable
        writable := writable }
      return some fd

/-! ### Steps -/

/-- What a process can ask for, and what the scheduler can do. -/
inductive Op where
  | load (me : Fin nproc) (va : ℕ)
  | store (me : Fin nproc) (va : ℕ) (b : Byte)
  | sbrk (me : Fin nproc) (n : ℤ) (eager : Bool)
  | fork (me : Fin nproc)
  | exec (me : Fin nproc) (fs : List Byte → Option (List Byte)) (path uargv : ℕ)
  | exit (me : Fin nproc) (status : ℤ)
  | wait (me : Fin nproc) (addr : ℕ)
  | kill (me : Fin nproc) (pid : ℤ)
  /-- A system call that copies data out, such as `read`. -/
  | copyout (me : Fin nproc) (dstva : ℕ) (src : List Byte)
  /-- A system call that copies data in, such as `write`. -/
  | copyin (me : Fin nproc) (srcva len : ℕ)
  | pipe (me : Fin nproc) (fdarray : ℕ)
  | dup (me : Fin nproc) (fd : Fin nofile)
  | close (me : Fin nproc) (fd : Fin nofile)
  | openFile (me : Fin nproc) (device readable writable : Bool)
  /-- The scheduler, a timer interrupt or a wakeup. -/
  | schedule (p : Fin nproc) (state : ProcState) (level : Fin 4)

/-- A process that user code or the kernel may run. -/
def ProcState.Live (s : ProcState) : Prop := s = .running ∨ s = .runnable ∨ s = .sleeping

namespace Op

/-- Only running processes trap, and the scheduler only moves live ones. -/
def Enabled (k : Kernel) : Op → Prop
  | load me _ | store me _ _ | sbrk me _ _ | fork me | exec me _ _ _ | exit me _ | wait me _
  | kill me _ | copyout me _ _ | copyin me _ _ | pipe me _ | dup me _ | close me _
  | openFile me _ _ _ => (k.proc me).state = .running
  | schedule p state _ => (k.proc p).state.Live ∧ state.Live

/-- Run a step to its end. -/
def run : Op → Prog Kernel Unit
  | load me va => userLoad me va
  | store me va b => userStore me va b
  | sbrk me n eager => do
    let _ ← sysSbrk me n eager
  | fork me => do
    let _ ← kfork me
  | exec me fs path uargv => do
    let _ ← sysExec me fs path uargv
  | exit me status => kexit me status
  | wait me addr => do
    let _ ← kwait me addr
  | kill _ pid => do
    let _ ← kkill pid
  | copyout me dstva src => do
    let k ← Prog.get
    let _ ← Xv6.copyout me (addrOf (k.proc me).pagetable) dstva src
  | copyin me srcva len => do
    let k ← Prog.get
    let _ ← Xv6.copyin me (addrOf (k.proc me).pagetable) srcva len
  | pipe me fdarray => do
    let _ ← sysPipe me fdarray
  | dup me fd => do
    let _ ← sysDup me fd
  | close me fd => do
    let _ ← sysClose me fd
  | openFile me device readable writable => do
    let _ ← sysOpen me device readable writable
  | schedule p state level => updateProc p fun x => { x with
      state := state
      mlfqLevel := (level : ℕ) }

end Op

/-! ### Boot -/

/-- What the machine starts with: the kernel image, the contents of memory, how many pages the
kernel allocates for itself before the first process, and the program `/init`. -/
structure Boot where
  sym : Symbols
  mem : ℕ → Page
  /-- Pages for the kernel page table, the kernel stacks and the disk driver. -/
  taken : ℕ
  init : List Byte

/-- The static data of the kernel after `frametable_init` and `swap_init`. -/
def Boot.start (b : Boot) : Kernel where
  vm :=
    { kmem := ⟨b.sym, b.mem, [], false⟩
      ftable := fun _ => .free
      clockHand := 0
      swapArea := fun _ => ⟨false, -1, 0, fill 0⟩
      lost := false
      uncounted := fun _ => 0 }
  proc := fun _ => .empty
  nextpid := 1
  initproc := none
  file := fun _ => ⟨.none, 0, false, false, 0⟩
  pipe := fun _ => ⟨false, false⟩
  bootPages := 0
  created := 0

/-- Allocate pages that are never freed. -/
def takePages : ℕ → Prog Kernel Unit
  | 0 => return ()
  | n + 1 => do
    match ← onVm (onKmem kalloc) with
    | none => Prog.panic "kalloc"
    | some pa => do
      Prog.modify fun k => { k with bootPages := pa ::ₘ k.bootPages }
      takePages n

/-- Set up the first user process. -/
def userinit : Prog Kernel (Fin nproc) := do
  match ← allocproc with
  | none => Prog.panic "kerneltrap" -- a null pointer is dereferenced
  | some p => do
    Prog.modify fun k => { k with initproc := some p }
    updateProc p fun x => { x with state := .runnable }
    return p

/-- The string `/init`. -/
def initPath : List Byte := [0x2f, 0x69, 0x6e, 0x69, 0x74]

/-- The first process runs: it replaces itself by `/init`. -/
def forkret (p : Fin nproc) (init : List Byte) : Prog Kernel Unit := do
  updateProc p fun x => { x with state := .running }
  match ← kexec p (some init) [initPath] with
  | none => Prog.panic "exec"
  | some argc => do
    let k ← Prog.get
    onVm (onKmem (setReg (addrOf (k.proc p).trapframe) regA0 argc))

/-- From power-on to the first instruction of `/init`. -/
def boot (b : Boot) : Prog Kernel Unit := do
  onVm (onKmem kinit)
  takePages b.taken
  let p ← userinit
  forkret p b.init

/-! ### Reachable states -/

/-- The states of the machine, as long as process numbers do not wrap. -/
inductive Reachable (b : Boot) : Kernel → Prop where
  | boot {k : Kernel} (h : boot b b.start = .ok ((), k)) : Reachable b k
  | step {k k' : Kernel} {op : Op} (h : Reachable b k) (hen : op.Enabled k)
      (hrun : op.run k = .ok ((), k')) (hpids : k'.created < 2 ^ 31) : Reachable b k'

/-- The states that are reached by steps that meet the condition `P`. -/
inductive Reaches (b : Boot) (P : Op → Kernel → Prop) : Kernel → Prop where
  | boot {k : Kernel} (h : boot b b.start = .ok ((), k)) : Reaches b P k
  | step {k k' : Kernel} {op : Op} (h : Reaches b P k) (hen : op.Enabled k) (hop : P op k)
      (hrun : op.run k = .ok ((), k')) (hpids : k'.created < 2 ^ 31) : Reaches b P k'

theorem Reaches.reachable {b : Boot} {P : Op → Kernel → Prop} {k : Kernel} (h : Reaches b P k) :
    Reachable b k := by
  induction h with
  | boot h => exact .boot h
  | step _ hen _ hrun hpids ih => exact .step ih hen hrun hpids

end Xv6
