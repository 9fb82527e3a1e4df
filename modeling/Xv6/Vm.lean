import Xv6.Lib.Table
import Xv6.PageTable

/-!
# Swap area, frame table and user memory

`swap.c`, the table part of `frametable.c`, and the functions of `vm.c` and `proc.c` that build,
grow, copy and free the memory of a process. None of them looks at the process table, so the state
is memory together with the two tables of the paging code.

A loop `for(a = va; a < end; a += PGSIZE)` is a recursion on the number of pages left.
-/

namespace Xv6

open Prog Function

/-! ### The two tables -/

/-- `MAX_SWAP_SLOTS`. -/
def maxSwapSlots : ℕ := 512

/-- `struct swap_slot`. -/
structure SwapSlot where
  used : Bool
  /-- Owning process. -/
  pid : ℤ
  /-- The virtual address that was swapped out. -/
  va : ℕ
  /-- The page contents. -/
  data : Page

/-- `MAXFRAMES`. -/
def maxFrames : ℕ := 128

/-- `struct frame_entry`. -/
structure FrameEntry where
  used : Bool
  pid : ℤ
  va : ℕ
  pa : ℕ
  refBit : Bool
  swapSlot : ℤ
  deriving DecidableEq

/-- A frame-table entry that is not in use. -/
def FrameEntry.free : FrameEntry := ⟨false, -1, 0, 0, false, -1⟩

/-- Memory and the tables of the paging code. -/
structure Vm where
  kmem : Kmem
  ftable : Fin maxFrames → FrameEntry
  clockHand : ℕ
  swapArea : Fin maxSwapSlots → SwapSlot
  /-- Whether the kernel ever mapped a new page over an entry that names a slot. No code reads
  this. -/
  lost : Bool
  /-- For each process, how many frames were registered without being counted as resident, less
  how many were dropped without being discounted. No code reads this. -/
  uncounted : ℤ → ℤ

namespace Vm

/-- Replace memory. -/
def setKmem (v : Vm) (k : Kmem) : Vm := { v with kmem := k }

@[simp] theorem setKmem_kmem (v : Vm) (k : Kmem) : (v.setKmem k).kmem = k := rfl

@[simp] theorem setKmem_setKmem (v : Vm) (k k' : Kmem) :
    (v.setKmem k).setKmem k' = v.setKmem k' := rfl

@[simp] theorem setKmem_self (v : Vm) : v.setKmem v.kmem = v := rfl

/-- Memory, as a part of the paging state. -/
def kmemPart : Prog.Part Vm Kmem where
  get := kmem
  put := setKmem

/-- Replace one frame-table entry. -/
def setFrame (v : Vm) (i : Fin maxFrames) (e : FrameEntry) : Vm :=
  { v with ftable := update v.ftable i e }

@[simp] theorem setFrame_ftable_self (v : Vm) (i : Fin maxFrames) (e : FrameEntry) :
    (v.setFrame i e).ftable i = e := by
  simp [setFrame]

theorem setFrame_ftable_of_ne (v : Vm) {i j : Fin maxFrames} (e : FrameEntry) (h : j ≠ i) :
    (v.setFrame i e).ftable j = v.ftable j := by
  simp [setFrame, h]

/-- Replace one swap slot. -/
def setSlot (v : Vm) (i : Fin maxSwapSlots) (x : SwapSlot) : Vm :=
  { v with swapArea := update v.swapArea i x }

@[simp] theorem setSlot_kmem (v : Vm) (i : Fin maxSwapSlots) (x : SwapSlot) :
    (v.setSlot i x).kmem = v.kmem := rfl

@[simp] theorem setSlot_swapArea_self (v : Vm) (i : Fin maxSwapSlots) (x : SwapSlot) :
    (v.setSlot i x).swapArea i = x := by
  simp [setSlot]

theorem setSlot_swapArea_of_ne (v : Vm) {i j : Fin maxSwapSlots} (x : SwapSlot) (h : j ≠ i) :
    (v.setSlot i x).swapArea j = v.swapArea j := by
  simp [setSlot, h]

/-- Note `n` frames of a process that the statistics miss. -/
def noteUncounted (v : Vm) (pid n : ℤ) : Vm :=
  { v with uncounted := update v.uncounted pid (v.uncounted pid + n) }

@[simp] theorem noteUncounted_ftable (v : Vm) (pid n : ℤ) :
    (v.noteUncounted pid n).ftable = v.ftable := rfl

end Vm

/-- Run a memory function on the paging state. -/
def onKmem {α : Type} (x : Prog Kmem α) : Prog Vm α := zoom Vm.kmemPart x

theorem wp_onKmem {α : Type} {x : Prog Kmem α} {Q : α → Vm → Prop} {E : String → Prop} {v : Vm} :
    wp (onKmem x) Q E v ↔ wp x (fun a k => Q a (v.setKmem k)) E v.kmem :=
  wp_zoom Vm.kmemPart

/-! ### `swap.c` -/

/-- The first slot that is not used. -/
def freeSlot (area : Fin maxSwapSlots → SwapSlot) : Option (Fin maxSwapSlots) :=
  Table.first fun i => !(area i).used

/-- Copy a page to the first free slot; `none` is the code's `-1`. -/
def swapOut (page : ℕ) (pid : ℤ) (va : ℕ) : Prog Vm (Option (Fin maxSwapSlots)) := do
  let v ← Prog.get
  match freeSlot v.swapArea with
  | none => return none
  | some i => do
    Prog.modify fun v => v.setSlot i ⟨true, pid, va, v.kmem.mem page⟩
    return some i

/-- Copy a slot's data to a page; `false` is the code's `-1`. -/
def swapIn (slot buf : ℕ) : Prog Vm Bool := do
  let v ← Prog.get
  if h : slot < maxSwapSlots then
    if !(v.swapArea ⟨slot, h⟩).used then return false
    else do
      onKmem (writePage buf (v.swapArea ⟨slot, h⟩).data)
      return true
  else return false

/-- Mark a slot as free. -/
def swapFree (slot : ℕ) : Prog Vm Unit :=
  if h : slot < maxSwapSlots then
    Prog.modify fun v => v.setSlot ⟨slot, h⟩ ⟨false, -1, 0, (v.swapArea ⟨slot, h⟩).data⟩
  else return ()

section Leaves

variable {β : Type} {o : Vm → β}

theorem leaves_swapOut (ho : ∀ v i x, o (v.setSlot i x) = o v) (page : ℕ) (pid : ℤ) (va : ℕ) :
    Leaves o (swapOut page pid va) := by
  refine leaves_get fun v => ?_
  cases freeSlot v.swapArea with
  | none => exact leaves_pure _
  | some i => exact leaves_bind (leaves_modify fun _ => ho _ _ _) fun _ => leaves_pure _

theorem leaves_swapIn (ho : ∀ v m, o (v.setKmem m) = o v) (slot buf : ℕ) :
    Leaves o (swapIn slot buf) := by
  refine leaves_get fun v => ?_
  split_ifs
  · exact leaves_pure _
  · exact (leaves_zoom (fun _ _ => ho _ _) _).ret
  · exact leaves_pure _

theorem leaves_swapFree (ho : ∀ v i x, o (v.setSlot i x) = o v) (slot : ℕ) :
    Leaves o (swapFree slot) := by
  unfold swapFree
  split_ifs
  · exact leaves_modify fun _ => ho _ _ _
  · exact leaves_pure _

end Leaves

/-! ### The table of `frametable.c` -/

/-- Register a frame in the first free entry. A full table is left alone. -/
def frametableAdd (pa : ℕ) (pid : ℤ) (va : ℕ) : Prog Vm Unit := do
  let v ← Prog.get
  match Table.first fun i => !(v.ftable i).used with
  | none => return ()
  | some i => Prog.modify fun v => v.setFrame i ⟨true, pid, va, pa, true, -1⟩

theorem leaves_frametableAdd {β : Type} {o : Vm → β} (ho : ∀ v i x, o (v.setFrame i x) = o v)
    (pa : ℕ) (pid : ℤ) (va : ℕ) : Leaves o (frametableAdd pa pid va) := by
  refine leaves_get fun v => ?_
  cases Table.first fun i => !(v.ftable i).used with
  | none => exact leaves_pure _
  | some i => exact leaves_modify fun _ => ho _ _ _

/-- Clear the first entry of a frame. -/
def frametableRemove (pa : ℕ) : Prog Vm Unit := do
  let v ← Prog.get
  match Table.first fun i => (v.ftable i).used && (v.ftable i).pa == pa with
  | none => return ()
  | some i => Prog.modify fun v => (v.setFrame i .free).noteUncounted (v.ftable i).pid (-1)

/-- The number of entries in use. -/
def frametableUsed (v : Vm) : ℕ := Table.count fun i => (v.ftable i).used

/-- The number of entries of a process. -/
def frameCount (v : Vm) (pid : ℤ) : ℕ :=
  Table.count fun i => (v.ftable i).used && (v.ftable i).pid == pid

/-- The number of entries of a process that were counted as resident. -/
def tally (v : Vm) (pid : ℤ) : ℤ := frameCount v pid - v.uncounted pid

theorem frameCount_setFrame (v : Vm) (i : Fin maxFrames) (e : FrameEntry) (pid : ℤ) :
    frameCount (v.setFrame i e) pid + ((v.ftable i).used && (v.ftable i).pid == pid).toNat
      = frameCount v pid + (e.used && e.pid == pid).toNat := by
  have h := Table.count_add (i := i)
    (p := fun j => ((v.setFrame i e).ftable j).used && ((v.setFrame i e).ftable j).pid == pid)
    (q := fun j => (v.ftable j).used && (v.ftable j).pid == pid)
    fun j hj => by rw [Vm.setFrame_ftable_of_ne v e hj]
  rwa [Vm.setFrame_ftable_self] at h

/-- The pages that the frame table describes, by process and address. -/
def Vm.registered (v : Vm) : Set (ℤ × ℕ) :=
  {p | ∃ f, (v.ftable f).used = true ∧ (v.ftable f).pid = p.1 ∧ (v.ftable f).va = p.2}

theorem registered_setFrame (v : Vm) (i : Fin maxFrames) (e : FrameEntry) :
    (v.setFrame i e).registered ⊆ insert (e.pid, e.va) v.registered := by
  rintro ⟨pid, va⟩ ⟨f, hused, rfl, rfl⟩
  by_cases hf : f = i
  · left
    rw [hf, Vm.setFrame_ftable_self]
  · right
    refine ⟨f, ?_⟩
    rw [Vm.setFrame_ftable_of_ne v e hf] at hused ⊢
    exact ⟨hused, rfl, rfl⟩

/-! ### Unmapping -/

/-- One iteration of `uvmunmap`. -/
def unmapPage (pagetable a : ℕ) (doFree : Bool) : Prog Vm Unit := do
  match ← onKmem (walk pagetable a false) with
  | none => return ()
  | some pte => do
    let e ← onKmem (readPte pte)
    if !e.has pteV then
      if e.has pteSwapped then do
        -- free the swap slot so it can be reused
        swapFree (pteSwapSlot e)
        onKmem (writePte pte 0#64)
      else if e = 0#64 then return ()
      else Prog.panic "uvmunmap: not mapped"
    else if pteFlags e = pteV then Prog.panic "uvmunmap: not a leaf"
    else if doFree then do
      frametableRemove (pte2pa e)
      onKmem (kfree (pte2pa e))
      onKmem (writePte pte 0#64)
    else onKmem (writePte pte 0#64)

/-- The loop of `uvmunmap` over `n` pages from `a` on. -/
def uvmunmapFrom (pagetable : ℕ) (doFree : Bool) : ℕ → ℕ → Prog Vm Unit
  | _, 0 => return ()
  | a, n + 1 => do
    unmapPage pagetable a doFree
    uvmunmapFrom pagetable doFree (a + pgsize) n

/-- Remove `npages` mappings from `va` on; it is OK if they do not exist. -/
def uvmunmap (pagetable va npages : ℕ) (doFree : Bool) : Prog Vm Unit :=
  if va % pgsize ≠ 0 then Prog.panic "uvmunmap: not aligned"
  else uvmunmapFrom pagetable doFree va npages

/-- Deallocate user pages to bring the size from `oldsz` to `newsz`. Returns the new size. -/
def uvmdealloc (pagetable oldsz newsz : ℕ) : Prog Vm ℕ :=
  if oldsz ≤ newsz then return oldsz
  else if pgroundup newsz < pgroundup oldsz then do
    uvmunmap pagetable (pgroundup newsz) ((pgroundup oldsz - pgroundup newsz) / pgsize) true
    return newsz
  else return newsz

/-! ### Growing -/

/-- The loop of `uvmalloc` over `n` pages from `a` on; `oldsz` is the size to go back to. `false`
is the code's `return 0`. -/
def uvmallocFrom (pagetable oldsz : ℕ) (xperm : Pte) : ℕ → ℕ → Prog Vm Bool
  | _, 0 => return true
  | a, n + 1 => do
    match ← onKmem kalloc with
    | none => do
      let _ ← uvmdealloc pagetable a oldsz
      return false
    | some mem => do
      onKmem (writePage mem (fill 0))
      if ← onKmem (mappages pagetable a pgsize mem (pteR ||| pteU ||| xperm)) then
        uvmallocFrom pagetable oldsz xperm (a + pgsize) n
      else do
        onKmem (kfree mem)
        let _ ← uvmdealloc pagetable a oldsz
        return false

/-- Allocate entries and memory to grow from `oldsz` to `newsz`. Returns the new size, or 0 on
error. -/
def uvmalloc (pagetable oldsz newsz : ℕ) (xperm : Pte) : Prog Vm ℕ :=
  if newsz < oldsz then return oldsz
  else do
    let start := pgroundup oldsz
    if ← uvmallocFrom pagetable start xperm start ((newsz - start + pgsize - 1) / pgsize) then
      return newsz
    else return 0

/-! ### Copying and freeing -/

/-- The loop of `uvmcopy` over `n` pages from `i` on; `false` is the code's `-1`. -/
def uvmcopyFrom (old new : ℕ) : ℕ → ℕ → Prog Vm Bool
  | _, 0 => return true
  | i, n + 1 => do
    match ← onKmem (walk old i false) with
    | none => uvmcopyFrom old new (i + pgsize) n -- page table entry hasn't been allocated
    | some pte => do
      let e ← onKmem (readPte pte)
      if !e.has pteV then uvmcopyFrom old new (i + pgsize) n -- physical page hasn't been allocated
      else
        match ← onKmem kalloc with
        | none => do
          uvmunmap new 0 (i / pgsize) true
          return false
        | some mem => do
          let s ← Prog.get
          onKmem (writePage mem (s.kmem.mem (pte2pa e)))
          if ← onKmem (mappages new i pgsize mem (pteFlags e)) then
            uvmcopyFrom old new (i + pgsize) n
          else do
            onKmem (kfree mem)
            uvmunmap new 0 (i / pgsize) true
            return false

/-- Copy a parent's memory, page table and contents, into a child's page table. -/
def uvmcopy (old new sz : ℕ) : Prog Vm Bool :=
  uvmcopyFrom old new 0 ((sz + pgsize - 1) / pgsize)

/-- The levels of a Sv39 page table. -/
@[irreducible] def levels : ℕ := 3

/-- Free user memory pages, then the page-table pages. -/
def uvmfree (pagetable sz : ℕ) : Prog Vm Unit := do
  if 0 < sz then uvmunmap pagetable 0 (pgroundup sz / pgsize) true
  onKmem (freewalk levels pagetable)

/-- A page table with no user memory, but with trampoline and trapframe pages. -/
def procPagetable (trapframe : ℕ) : Prog Vm (Option ℕ) := do
  match ← onKmem uvmcreate with
  | none => return none
  | some pagetable => do
    let v ← Prog.get
    if ← onKmem (mappages pagetable trampolineVa pgsize v.kmem.sym.trampoline
        (pteR ||| pteX)) then
      if ← onKmem (mappages pagetable trapframeVa pgsize trapframe (pteR ||| pteW)) then
        return some pagetable
      else do
        uvmunmap pagetable trampolineVa 1 false
        uvmfree pagetable 0
        return none
    else do
      uvmfree pagetable 0
      return none

/-- Free a process's page table, and the memory it refers to. -/
def procFreepagetable (pagetable sz : ℕ) : Prog Vm Unit := do
  uvmunmap pagetable trampolineVa 1 false
  uvmunmap pagetable trapframeVa 1 false
  uvmfree pagetable sz

end Xv6
