import Xv6.Process

/-!
# `exec`

`kexec` of `exec.c` and the system call around it. The file system is given: the executable is the
list of its bytes, and `readi` reads from that list.

The new image is built in a page table of its own while the process still has the old one. The two
are exchanged only at the end, and whichever is not needed is freed.
-/

namespace Xv6

/-- `MAXARG`. -/
def maxarg : ℕ := 32

/-- `MAXPATH`. -/
def maxpath : ℕ := 128

/-- `ELF_MAGIC`. -/
def elfMagic : ℕ := 0x464C457F

/-- `x - y` on `uint64`. -/
def subU64 (x y : ℕ) : ℕ := (x + (2 ^ 64 - y % 2 ^ 64)) % 2 ^ 64

/-- Reduction of an arithmetic result to `uint`. -/
def u32 (x : ℕ) : ℕ := x % 2 ^ 32

/-! ### Reading the file -/

/-- `readi`: at most `n` bytes from `off` on. -/
def readi (file : List Byte) (off n : ℕ) : List Byte :=
  if file.length < off ∨ u32 (off + n) < off then [] else (file.drop off).take n

/-- A number from little-endian bytes. -/
def leNat (bs : List Byte) : ℕ := bs.foldr (fun b acc => b.toNat + 256 * acc) 0

/-- A field of a structure: `n` bytes from `off` on. -/
def field (bs : List Byte) (off n : ℕ) : ℕ := leNat ((bs.drop off).take n)

/-- `sizeof(struct elfhdr)`. -/
def elfhdrSize : ℕ := 64

/-- `sizeof(struct proghdr)`. -/
def proghdrSize : ℕ := 56

/-- `ELF_PROG_LOAD`. -/
def elfProgLoad : ℕ := 1

/-- Map ELF permissions to permission bits of an entry. -/
def flags2perm (flags : ℕ) : Pte :=
  (if flags % 2 = 1 then pteX else 0#64) ||| (if flags / 2 % 2 = 1 then pteW else 0#64)

/-! ### Loading segments -/

/-- The loop of `loadseg` over `n` pages, at byte `i` of the segment; `false` is the code's -1. -/
def loadsegFrom (pagetable va : ℕ) (file : List Byte) (offset sz : ℕ) : ℕ → ℕ → Prog Kernel Bool
  | 0, _ => return true
  | n + 1, i => do
    match ← onVm (onKmem (walkaddr pagetable (va + i))) with
    | none => Prog.panic "loadseg: address should exist"
    | some pa => do
      let m := min (sz - i) pgsize
      let bytes := readi file (u32 (offset + i)) m
      copyoutMove pa 0 bytes
      if bytes.length ≠ m then return false
      else loadsegFrom pagetable va file offset sz n (i + pgsize)

/-- Load a program segment into a page table at `va`. -/
def loadseg (pagetable va : ℕ) (file : List Byte) (offset sz : ℕ) : Prog Kernel Bool :=
  loadsegFrom pagetable va file offset sz (pagesOf sz) 0

/-- The loop over the program headers, with `n` of them left from `off` on. Returns the size of the
image, and whether it was loaded. -/
def execLoad (pagetable : ℕ) (file : List Byte) : ℕ → ℕ → ℕ → Prog Kernel (ℕ × Bool)
  | 0, _, sz => return (sz, true)
  | n + 1, off, sz => do
    let ph := readi file off proghdrSize
    let vaddr := field ph 16 8
    let filesz := field ph 32 8
    let memsz := field ph 40 8
    if ph.length ≠ proghdrSize then return (sz, false)
    else if field ph 0 4 ≠ elfProgLoad then
      execLoad pagetable file n (u32 (off + proghdrSize)) sz
    else if memsz < filesz then return (sz, false)
    else if u64 (vaddr + memsz) < vaddr then return (sz, false)
    else if vaddr % pgsize ≠ 0 then return (sz, false)
    else do
      let sz1 ← onVm (uvmalloc pagetable sz (u64 (vaddr + memsz)) (flags2perm (field ph 4 4)))
      if sz1 = 0 then return (sz, false)
      else if ← loadseg pagetable vaddr file (u32 (field ph 8 8)) (u32 filesz) then
        execLoad pagetable file n (u32 (off + proghdrSize)) sz1
      else return (sz1, false)

/-! ### The user stack -/

/-- Copy argument strings into the new stack, remembering their addresses; `none` is `goto bad`. -/
def execArgs (me : Fin nproc) (pagetable stackbase : ℕ) :
    List (List Byte) → ℕ → List ℕ → Prog Kernel (Option (ℕ × List ℕ))
  | [], sp, ustack => return some (sp, ustack)
  | s :: rest, sp, ustack =>
    if maxarg ≤ ustack.length then return none
    else do
      let sp := subU64 sp (s.length + 1)
      let sp := sp - sp % 16 -- riscv sp must be 16-byte aligned
      if sp < stackbase then return none
      else if ← copyout me pagetable sp (s ++ [0]) then
        execArgs me pagetable stackbase rest sp (ustack ++ [sp])
      else return none

/-- Commit to the user image. -/
def execCommit (me : Fin nproc) (pagetable sz sp entry argc : ℕ) : Prog Kernel (Option ℕ) := do
  let k ← Prog.get
  let p := k.proc me
  onVm (onKmem (setReg (addrOf p.trapframe) regA1 sp))
  updateProc me fun p => { p with pagetable := some pagetable, sz := sz }
  onVm (onKmem (setReg (addrOf p.trapframe) regEpc entry))
  onVm (onKmem (setReg (addrOf p.trapframe) regSp sp))
  onVm (procFreepagetable (addrOf p.pagetable) p.sz)
  return some argc

/-- The label `bad`, with a page table to free. -/
def execBad (pagetable sz : ℕ) : Prog Kernel (Option ℕ) := do
  onVm (procFreepagetable pagetable sz)
  return none

/-- The stack and its guard page. Returns the size of the image with them. -/
def execGuard (pagetable sz : ℕ) : Prog Kernel (Option ℕ) := do
  let sz := pgroundup sz
  let sz1 ← onVm (uvmalloc pagetable sz (sz + 2 * pgsize) pteW)
  if sz1 = 0 then execBad pagetable sz
  else do
    -- make the first page inaccessible as a stack guard
    onVm (onKmem (uvmclear pagetable (sz1 - 2 * pgsize)))
    return some sz1

/-- The first half of `kexec`: the new image with its stack. Returns its page table, its size and the
entry point. -/
def execImage (me : Fin nproc) (file : Option (List Byte)) :
    Prog Kernel (Option (ℕ × ℕ × ℕ)) :=
  match file with
  | none => return none
  | some file =>
    let elf := readi file 0 elfhdrSize
    if elf.length ≠ elfhdrSize then return none
    else if field elf 0 4 ≠ elfMagic then return none
    else do
      let k ← Prog.get
      match ← onVm (procPagetable (addrOf (k.proc me).trapframe)) with
      | none => return none
      | some pagetable => do
        let (sz, ok) ← execLoad pagetable file (field elf 56 2) (u32 (field elf 32 8)) 0
        let sz1 ← if ok then execGuard pagetable sz else execBad pagetable sz
        match sz1 with
        | none => return none
        | some sz1 => return some (pagetable, sz1, field elf 24 8)

/-- The argument block: the strings, and below them the array of pointers. Returns the stack pointer
and the number of arguments; `none` is `goto bad`. -/
def execBlock (me : Fin nproc) (pagetable sz1 : ℕ) (argv : List (List Byte)) :
    Prog Kernel (Option (ℕ × ℕ)) := do
  let stackbase := sz1 - pgsize
  match ← execArgs me pagetable stackbase argv sz1 [] with
  | none => return none
  | some (sp, ustack) => do
    -- push a copy of the array of argv pointers
    let argc := ustack.length
    let sp := subU64 sp ((argc + 1) * 8)
    let sp := sp - sp % 16
    if sp < stackbase then return none
    else if ← copyout me pagetable sp ((ustack ++ [0]).flatMap (leBytes 8)) then
      return some (sp, argc)
    else return none

/-- The second half: the arguments, and the exchange of the images. -/
def execEnd (me : Fin nproc) (pagetable sz1 entry : ℕ) (argv : List (List Byte)) :
    Prog Kernel (Option ℕ) := do
  match ← execBlock me pagetable sz1 argv with
  | none => execBad pagetable sz1
  | some (sp, argc) => execCommit me pagetable sz1 sp entry argc

/-- Replace the image of a process; `none` is the code's -1. `file` is what `namei` found. -/
def kexec (me : Fin nproc) (file : Option (List Byte)) (argv : List (List Byte)) :
    Prog Kernel (Option ℕ) := do
  match ← execImage me file with
  | none => return none
  | some (pagetable, sz1, entry) => execEnd me pagetable sz1 entry argv

/-! ### The system call -/

/-- Fetch the `uint64` at `addr` from the current process; `none` is the code's -1. -/
def fetchaddr (me : Fin nproc) (addr : ℕ) : Prog Kernel (Option ℕ) := do
  let k ← Prog.get
  let p := k.proc me
  if p.sz ≤ addr ∨ p.sz < u64 (addr + 8) then return none
  else
    match ← copyin me (addrOf p.pagetable) addr 8 with
    | none => return none
    | some bytes => return some (leNat bytes)

/-- Fetch the string at `addr` from the current process. -/
def fetchstr (me : Fin nproc) (addr max : ℕ) : Prog Kernel (Option (List Byte)) := do
  let k ← Prog.get
  copyinstr (addrOf (k.proc me).pagetable) addr max

/-- Fetch the argument strings, each into a page of its own, with room for `n` more. The result is
the pages and, if all went well, the strings. -/
def fetchArgs (me : Fin nproc) (uargv : ℕ) :
    ℕ → List ℕ → List (List Byte) → Prog Kernel (List ℕ × Option (List (List Byte)))
  | 0, pages, _ => return (pages, none)
  | n + 1, pages, argv => do
    match ← fetchaddr me (u64 (uargv + 8 * argv.length)) with
    | none => return (pages, none)
    | some uarg =>
      if uarg = 0 then return (pages, some argv)
      else
        match ← onVm (onKmem kalloc) with
        | none => return (pages, none)
        | some page =>
          match ← fetchstr me uarg pgsize with
          | none => return (pages ++ [page], none)
          | some s => do
            copyoutMove page 0 (s ++ [0])
            fetchArgs me uargv n (pages ++ [page]) (argv ++ [s])

/-- The `exec` system call. `fs` is what the file system has under each path. -/
def sysExec (me : Fin nproc) (fs : List Byte → Option (List Byte)) (path uargv : ℕ) :
    Prog Kernel (Option ℕ) := do
  match ← fetchstr me path maxpath with
  | none => return none
  | some path => do
    let (pages, argv) ← fetchArgs me uargv maxarg [] []
    let ret ← match argv with
      | none => pure none
      | some argv => kexec me (fs path) argv
    Prog.forEach pages fun page => onVm (onKmem (kfree page))
    return ret

end Xv6
