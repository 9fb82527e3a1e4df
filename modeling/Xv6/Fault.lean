import Xv6.PageTree
import Xv6.Proc

/-!
# Page faults and page replacement

`clock_evict` of `frametable.c`, and the three functions of `vm.c` that bring a page in:
`kalloc_or_evict`, `vmfault` for faults of user code and `vmfault_alloc` for the kernel's own
copies.

`clock_evict` is four steps that take different locks, and each of them is a definition here:
choosing a victim (`clockSelect`), copying it to a slot (`swapOut`), rewriting the owner's entry
(`evictRewrite`) and freeing the frame. The choice is a pure function of the frame table, the hand
and the levels.
-/

namespace Xv6

/-! ### Choosing the victim -/

/-- The variables of the scan. -/
structure Scan where
  ftable : Fin maxFrames → FrameEntry
  clockHand : ℕ
  /-- `victim_idx`; `none` is -1. -/
  victim : Option (Fin maxFrames)
  /-- `victim_level`. -/
  level : ℤ

/-- The entry under the hand. -/
def handIdx (hand : ℕ) : Fin maxFrames := ⟨hand % maxFrames, Nat.mod_lt _ (by decide)⟩

/-- One pass of the scan. The second component says whether the loop is left. -/
def clockPass (levelOf : ℤ → ℤ) (pass : ℕ) (s : Scan) : Scan × Bool :=
  let i := handIdx s.clockHand
  let hand := (s.clockHand + 1) % maxFrames
  if !(s.ftable i).used then ({ s with clockHand := hand }, false)
  else if (s.ftable i).refBit then
    -- recently accessed: give it a second chance
    ({ s with
      ftable := Function.update s.ftable i { s.ftable i with refBit := false }
      clockHand := hand }, false)
  else
    let lvl := levelOf (s.ftable i).pid
    let s' : Scan := if lvl > s.level then
        { s with clockHand := hand, victim := some i, level := lvl }
      else { s with clockHand := hand }
    (s', s'.victim.isSome && decide (maxFrames ≤ pass))

/-- The scan, with `n` passes to go. -/
def clockScan (levelOf : ℤ → ℤ) : ℕ → ℕ → Scan → Scan
  | 0, _, s => s
  | n + 1, pass, s =>
    match clockPass levelOf pass s with
    | (s', true) => s'
    | (s', false) => clockScan levelOf n (pass + 1) s'

/-- The whole scan: at most twice around the table. -/
def clockLoop (levelOf : ℤ → ℤ) (ftable : Fin maxFrames → FrameEntry) (hand : ℕ) : Scan :=
  clockScan levelOf (2 * maxFrames) 0 ⟨ftable, hand, none, -1⟩

/-- The victim: what the scan found, or the first entry in use. -/
def clockVictim (s : Scan) : Option (Fin maxFrames) :=
  match s.victim with
  | some i => some i
  | none => Table.first fun i => (s.ftable i).used

/-! ### `clock_evict` -/

/-- The statistics of the owner of an evicted page. -/
def VmStats.unloaded (s : VmStats) : VmStats :=
  { s with
    pagesEvicted := s.pagesEvicted + 1
    pagesSwappedOut := s.pagesSwappedOut + 1
    residentPages := s.residentPages - 1 }

/-- The first critical section of `clock_evict`: choose the victim and clear its entry. The result
is the entry as it was. -/
def clockSelect : Prog Kernel (Option FrameEntry) := do
  let k ← Prog.get
  let s := clockLoop (mlfqLevelOf k) k.vm.ftable k.vm.clockHand
  match clockVictim s with
  | none => do
    Prog.modify fun k => k.setVm { k.vm with ftable := s.ftable, clockHand := s.clockHand }
    return none
  | some i => do
    Prog.modify fun k => k.setVm { k.vm with
      ftable := Function.update s.ftable i .free
      clockHand := s.clockHand }
    return some (s.ftable i)

/-- The third step of `clock_evict`: the owner's entry now names the slot. -/
def evictRewrite (saved : FrameEntry) (slot : ℕ) : Prog Kernel Unit := do
  let k ← Prog.get
  match findProc k saved.pid with
  | none => return ()
  | some owner => do
    match ← onVm (onKmem (walk (addrOf (k.proc owner).pagetable) saved.va false)) with
    | none => pure ()
    | some pte => do
      let e ← onVm (onKmem (readPte pte))
      if e.has pteV then onVm (onKmem (writePte pte (swappedPte slot)))
    -- update per-process statistics
    updateProc owner fun p => { p with stats := p.stats.unloaded }

open Prog in
/-- What the pages of memory and the statistics do not matter to is the same after the rewriting. -/
theorem leaves_evictRewrite {β : Type} {o : Kernel → β}
    (hmem : ∀ {α : Type} (x : Prog Kmem α), Leaves o (onVm (onKmem x)))
    (hproc : ∀ i, Leaves o (updateProc i fun p => { p with stats := p.stats.unloaded }))
    (saved : FrameEntry) (slot : ℕ) : Leaves o (evictRewrite saved slot) := by
  refine leaves_get fun k => ?_
  cases findProc k saved.pid with
  | none => exact leaves_pure _
  | some owner =>
    refine leaves_bind_option (hmem _) (hproc owner) fun pte => ?_
    refine leaves_bind (hmem _) fun e => ?_
    dsimp only
    split
    · exact leaves_bind (hmem _) fun _ => hproc owner
    · exact hproc owner

/-- Evict one page to swap. Returns the address of the freed frame, 0 if no frame is registered. -/
def clockEvict : Prog Kernel ℕ := do
  match ← clockSelect with
  | none => return 0
  | some saved => do
    match ← onVm (swapOut saved.pa saved.pid saved.va) with
    | none => Prog.panic "clock_evict: swap full"
    | some slot => do
      evictRewrite saved slot
      onVm (onKmem (kfree saved.pa))
      return saved.pa

/-- The second half of `kalloc_or_evict`: allocate, evicting if memory is exhausted. -/
def kallocElseEvict : Prog Kernel (Option ℕ) := do
  match ← onVm (onKmem kalloc) with
  | some mem => return some mem
  | none => do
    let freed ← clockEvict
    if freed = 0 then return none
    else onVm (onKmem kalloc)

/-- Allocate a page for a user, evicting one if the frame table is full or memory is exhausted. -/
def kallocOrEvict : Prog Kernel (Option ℕ) := do
  let k ← Prog.get
  if maxFrames ≤ frametableUsed k.vm then do
    let freed ← clockEvict
    if freed = 0 then return none
    else kallocElseEvict
  else kallocElseEvict

/-! ### The fault handlers -/

/-- The statistics of a fault on a page that was swapped out. -/
def VmStats.swappedIn (s : VmStats) : VmStats :=
  { s with pageFaults := s.pageFaults + 1, pagesSwappedIn := s.pagesSwappedIn + 1 }

/-- The statistics of a fault on a page that was never mapped. -/
def VmStats.allocated (s : VmStats) : VmStats :=
  { s with pageFaults := s.pageFaults + 1, residentPages := s.residentPages + 1 }

/-- Register a frame that the caller does not count as resident. -/
def frametableAddUncounted (pa : ℕ) (pid : ℤ) (va : ℕ) : Prog Vm Unit := do
  frametableAdd pa pid va
  Prog.modify fun v => v.noteUncounted pid 1

/-- The first case of `vmfault`: the page is swapped out. -/
def vmfaultSwapped (me : Fin nproc) (pagetable pageVa slot : ℕ) : Prog Kernel Bool := do
  match ← kallocOrEvict with
  | none => return false
  | some mem => do
    if ← onVm (swapIn slot mem) then do
      onVm (swapFree slot)
      if ← onVm (onKmem (mappages pagetable pageVa pgsize mem
          (pteW ||| pteR ||| pteX ||| pteU))) then do
        let k ← Prog.get
        onVm (frametableAddUncounted mem (k.proc me).pid pageVa)
        updateProc me fun p => { p with stats := p.stats.swappedIn }
        return true
      else do
        onVm (onKmem (kfree mem))
        return false
    else do
      onVm (onKmem (kfree mem))
      return false

/-- The second case of `vmfault`: lazy allocation. -/
def vmfaultLazy (me : Fin nproc) (pagetable pageVa : ℕ) : Prog Kernel Bool := do
  match ← kallocOrEvict with
  | none => return false
  | some mem => do
    onVm (onKmem (writePage mem (fill 0)))
    if ← onVm (onKmem (mappages pagetable pageVa pgsize mem
        (pteW ||| pteR ||| pteX ||| pteU))) then do
      let k ← Prog.get
      onVm (frametableAdd mem (k.proc me).pid pageVa)
      updateProc me fun p => { p with stats := p.stats.allocated }
      return true
    else do
      onVm (onKmem (kfree mem))
      return false

/-- Handle a page fault of process `me` at `va`; `true` is the code's 1. -/
def vmfault (me : Fin nproc) (pagetable va : ℕ) : Prog Kernel Bool := do
  let k ← Prog.get
  let pageVa := pgrounddown va
  if (k.proc me).sz ≤ pageVa then return false
  else
    match ← onVm (onKmem (walk pagetable pageVa false)) with
    | none => vmfaultLazy me pagetable pageVa
    | some pte => do
      let e ← onVm (onKmem (readPte pte))
      if !e.has pteV && e.has pteSwapped then
        vmfaultSwapped me pagetable pageVa (pteSwapSlot e)
      else vmfaultLazy me pagetable pageVa

/-- Note the loss of a slot, if the page about to be mapped is swapped out. -/
def noteLost (root vpn : ℕ) : Prog Vm Unit :=
  Prog.modify fun v => { v with lost := v.lost || (lookup v.kmem.mem root vpn).has pteSwapped }

/-- Allocate and map a user page during a copy of the kernel; `none` is the code's 0. The page is
mapped in the table of process `me`, whatever `pagetable` is. -/
def vmfaultAlloc (me : Fin nproc) (pagetable va : ℕ) : Prog Kernel (Option ℕ) := do
  let k ← Prog.get
  if (k.proc me).sz ≤ va then return none
  else do
    let va := pgrounddown va
    if ← onVm (onKmem (ismapped pagetable va)) then return none
    else
      match ← kallocOrEvict with
      | none => return none
      | some mem => do
        let k ← Prog.get
        onVm (noteLost (addrOf (k.proc me).pagetable) (va / pgsize))
        onVm (onKmem (writePage mem (fill 0)))
        if ← onVm (onKmem (mappages (addrOf (k.proc me).pagetable) va pgsize mem
            (pteW ||| pteU ||| pteR))) then do
          let k ← Prog.get
          onVm (frametableAddUncounted mem (k.proc me).pid va)
          return some mem
        else do
          onVm (onKmem (kfree mem))
          return none

end Xv6
