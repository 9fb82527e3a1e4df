import Xv6.Twins
import Xv6.Lib.Interleave

/-!
# Faults of several processes at once

`vmfault` and `vmfault_alloc` hold no lock from their first line to their last. The count of
`frametable_used`, an eviction, an allocation and the registration by `frametable_add` are each
under a lock, and other processes run in between. This file cuts the two handlers there and lets
the processes run in any order.

## What the check is worth

A handler looks whether the frame table has room, and makes room by an eviction if it has not. It
uses the room some steps later. Between the two it has a claim to an entry that nobody else can
see. The table is never overrun as long as entries in use and such claims together fit into it, and
the one step that can break this is a check that finds the table not full.
-/

namespace Xv6

open Threads Prog Function

/-! ### The handlers in steps -/

/-- Why a page is brought in. -/
inductive FaultKind where
  /-- Case 1 of `vmfault`: the page is swapped out. -/
  | swapped (slot : ℕ)
  /-- Case 2 of `vmfault`: the page was never mapped. -/
  | untouched
  /-- `vmfault_alloc`. -/
  | copying
  deriving DecidableEq

/-- A fault that is being handled. -/
structure PageFault where
  kind : FaultKind
  pagetable : ℕ
  /-- The address of the page. -/
  va : ℕ
  deriving DecidableEq

/-- Where a process stands between two steps. -/
inductive FaultPc where
  /-- In user code, or in a copy that is between two pages. -/
  | idle
  /-- About to call `frametable_used`. -/
  | check (f : PageFault)
  /-- The table is full: about to call `clock_evict`. -/
  | evict (f : PageFault)
  /-- About to call `kalloc`. -/
  | alloc (f : PageFault)
  /-- Memory is exhausted: about to call `clock_evict`. -/
  | evictDry (f : PageFault)
  /-- About to call `kalloc` for the second time. -/
  | realloc (f : PageFault)
  /-- About to fill the frame and map it. -/
  | map (f : PageFault) (mem : ℕ)
  /-- About to call `frametable_add`. -/
  | add (f : PageFault) (mem : ℕ)
  /-- The handler returns; `none` is the code's 0. -/
  | done (r : Option ℕ)
  deriving DecidableEq

/-- The first step of `vmfault`: which case is it? -/
def vmfaultBegin (me : Fin nproc) (pagetable va : ℕ) : Prog Kernel FaultPc := do
  let k ← Prog.get
  let pageVa := pgrounddown va
  if (k.proc me).sz ≤ pageVa then return .done none
  else
    match ← onVm (onKmem (walk pagetable pageVa false)) with
    | none => return .check ⟨.untouched, pagetable, pageVa⟩
    | some pte => do
      let e ← onVm (onKmem (readPte pte))
      if !e.has pteV && e.has pteSwapped then
        return .check ⟨.swapped (pteSwapSlot e), pagetable, pageVa⟩
      else return .check ⟨.untouched, pagetable, pageVa⟩

/-- The first step of `vmfault_alloc`. -/
def vmfaultAllocBegin (me : Fin nproc) (pagetable va : ℕ) : Prog Kernel FaultPc := do
  let k ← Prog.get
  if (k.proc me).sz ≤ va then return .done none
  else do
    let va := pgrounddown va
    if ← onVm (onKmem (ismapped pagetable va)) then return .done none
    else return .check ⟨.copying, pagetable, va⟩

/-- Map a frame at the page of a fault, or free it. -/
def mapFrame (pagetable va mem : ℕ) (perm : Pte) (next : FaultPc) : Prog Kernel FaultPc := do
  if ← onVm (onKmem (mappages pagetable va pgsize mem perm)) then return next
  else do
    onVm (onKmem (kfree mem))
    return .done none

/-- Fill the frame and map it. -/
def faultMap (me : Fin nproc) (f : PageFault) (mem : ℕ) : Prog Kernel FaultPc :=
  match f.kind with
  | .swapped slot => do
    if ← onVm (swapIn slot mem) then do
      onVm (swapFree slot)
      mapFrame f.pagetable f.va mem (pteW ||| pteR ||| pteX ||| pteU) (.add f mem)
    else do
      onVm (onKmem (kfree mem))
      return .done none
  | .untouched => do
    onVm (onKmem (writePage mem (fill 0)))
    mapFrame f.pagetable f.va mem (pteW ||| pteR ||| pteX ||| pteU) (.add f mem)
  | .copying => do
    let k ← Prog.get
    onVm (noteLost (addrOf (k.proc me).pagetable) (f.va / pgsize))
    onVm (onKmem (writePage mem (fill 0)))
    mapFrame (addrOf (k.proc me).pagetable) f.va mem (pteW ||| pteU ||| pteR) (.add f mem)

/-- Register the frame and count the fault. -/
def faultAdd (me : Fin nproc) (f : PageFault) (mem : ℕ) : Prog Kernel FaultPc := do
  let k ← Prog.get
  match f.kind with
  | .swapped _ => do
    onVm (frametableAddUncounted mem (k.proc me).pid f.va)
    updateProc me fun p => { p with stats := p.stats.swappedIn }
  | .untouched => do
    onVm (frametableAdd mem (k.proc me).pid f.va)
    updateProc me fun p => { p with stats := p.stats.allocated }
  | .copying => onVm (frametableAddUncounted mem (k.proc me).pid f.va)
  return .done (some mem)

/-- Make room, and go on if that succeeds. -/
def faultEvict (next : FaultPc) : Prog Kernel FaultPc := do
  let freed ← clockEvict
  return if freed = 0 then .done none else next

/-- **One step of a handler.** -/
def faultStep (me : Fin nproc) : FaultPc → Prog Kernel FaultPc
  | .idle => return .idle
  | .check f => do
    let k ← Prog.get
    return if maxFrames ≤ frametableUsed k.vm then .evict f else .alloc f
  | .evict f => faultEvict (.alloc f)
  | .alloc f => do
    let r ← onVm (onKmem kalloc)
    return r.elim (.evictDry f) (.map f)
  | .evictDry f => faultEvict (.realloc f)
  | .realloc f => do
    let r ← onVm (onKmem kalloc)
    return r.elim (.done none) (.map f)
  | .map f mem => faultMap me f mem
  | .add f mem => faultAdd me f mem
  | .done r => return .done r

/-- What the handler returns. -/
def FaultPc.result : FaultPc → Option ℕ
  | .done r => r
  | _ => none

/-! ### Undisturbed, the steps are the handlers -/

section Solo

variable (me : Fin nproc) (f : PageFault) (mem n : ℕ)

/-- A handler with `n` steps to go, undisturbed. -/
def handler (n : ℕ) (p : FaultPc) : Prog Kernel (Option ℕ) := do
  let q ← Prog.solo (faultStep me) n p
  return q.result

theorem handler_succ (p : FaultPc) :
    handler me (n + 1) p = faultStep me p >>= handler me n := by
  simp only [handler, Prog.solo, bind_assoc]
  rfl

theorem handler_done (r : Option ℕ) : ∀ n, handler me n (.done r) = return r := by
  intro n
  induction n with
  | zero => rfl
  | succ n ih => rw [handler_succ, faultStep, pure_bind, ih]

theorem handler_add : handler me (n + 1) (.add f mem) = do
    let _ ← faultAdd me f mem
    return some mem := by
  rw [handler_succ, faultStep, faultAdd]
  simp only [bind_assoc]
  refine bind_congr fun k => ?_
  cases f.kind <;> simp only [bind_assoc, pure_bind, handler_done]

theorem mapFrame_handler (pagetable va : ℕ) (perm : Pte) :
    (mapFrame pagetable va mem perm (.add f mem) >>= handler me (n + 1)) = do
      if ← onVm (onKmem (mappages pagetable va pgsize mem perm)) then do
        let _ ← faultAdd me f mem
        return some mem
      else do
        onVm (onKmem (kfree mem))
        return none := by
  rw [mapFrame, bind_assoc]
  refine bind_congr fun ok => ?_
  cases ok with
  | false => simp only [Bool.false_eq_true, if_false, bind_assoc, pure_bind, handler_done]
  | true => simp only [if_true, pure_bind, handler_add]

/-- What a handler does once it has a frame. -/
def handleFrame : Prog Kernel (Option ℕ) := handler me 2 (.map f mem)

theorem handler_map : handler me (n + 2) (.map f mem) = handleFrame me f mem := by
  have hsame : ∀ n, handler me (n + 2) (.map f mem) = faultMap me f mem >>= handler me (n + 1) :=
    fun n => handler_succ me _ _
  rw [handleFrame, hsame, hsame 0, faultMap]
  cases f.kind with
  | swapped slot =>
    simp only [bind_assoc]
    refine bind_congr fun ok => ?_
    cases ok <;> simp [bind_assoc, mapFrame_handler, handler_done]
  | untouched | copying => simp only [bind_assoc, mapFrame_handler]

theorem faultEvict_handler (next : FaultPc) : (faultEvict next >>= handler me n) = (do
    if (← clockEvict) = 0 then return none else handler me n next) := by
  rw [faultEvict, bind_assoc]
  refine bind_congr fun freed => ?_
  split_ifs <;> simp only [pure_bind, handler_done]

theorem handler_alloc : handler me (n + 5) (.alloc f) = (do
    match ← kallocElseEvict with
    | none => return none
    | some mem => handleFrame me f mem) := by
  rw [handler_succ, faultStep, kallocElseEvict]
  simp only [bind_assoc, pure_bind]
  refine bind_congr fun r => ?_
  cases r with
  | some mem => simp only [Option.elim_some, pure_bind, handler_map]
  | none =>
    simp only [Option.elim_none, bind_assoc]
    rw [handler_succ, faultStep, faultEvict_handler]
    refine bind_congr fun freed => ?_
    split_ifs
    · rw [pure_bind]
    · rw [handler_succ, faultStep, bind_assoc]
      refine bind_congr fun r => ?_
      cases r with
      | none => simp only [Option.elim_none, pure_bind, handler_done]
      | some mem => simp only [Option.elim_some, pure_bind, handler_map]

theorem handler_check : handler me 7 (.check f) = (do
    match ← kallocOrEvict with
    | none => return none
    | some mem => handleFrame me f mem) := by
  rw [handler_succ, faultStep, kallocOrEvict]
  simp only [bind_assoc, pure_bind]
  refine bind_congr fun k => ?_
  split_ifs with hfull
  · rw [handler_succ, faultStep, faultEvict_handler, bind_assoc]
    refine bind_congr fun freed => ?_
    split_ifs <;> simp only [pure_bind, handler_alloc]
  · exact handler_alloc me f 1

theorem vmfaultLazy_eq (pagetable va : ℕ) : vmfaultLazy me pagetable va = (do
    let r ← handler me 7 (.check ⟨.untouched, pagetable, va⟩)
    return r.isSome) := by
  rw [handler_check, vmfaultLazy, bind_assoc]
  refine bind_congr fun r => ?_
  cases r with
  | none => rfl
  | some mem =>
    simp only [handleFrame, handler_succ me 1, faultStep, faultMap, bind_assoc]
    refine bind_congr fun _ => ?_
    refine Eq.trans ?_ (bind_assoc _ _ _)
    rw [mapFrame_handler, bind_assoc]
    refine bind_congr fun ok => ?_
    cases ok <;> simp [faultAdd]

theorem vmfaultSwapped_eq (pagetable va slot : ℕ) : vmfaultSwapped me pagetable va slot = (do
    let r ← handler me 7 (.check ⟨.swapped slot, pagetable, va⟩)
    return r.isSome) := by
  rw [handler_check, vmfaultSwapped, bind_assoc]
  refine bind_congr fun r => ?_
  cases r with
  | none => rfl
  | some mem =>
    simp only [handleFrame, handler_succ me 1, faultStep, faultMap, bind_assoc]
    refine bind_congr fun found => ?_
    cases found with
    | false => simp [handler_done]
    | true =>
      simp only [if_true, bind_assoc]
      refine bind_congr fun _ => ?_
      refine Eq.trans ?_ (bind_assoc _ _ _)
      rw [mapFrame_handler, bind_assoc]
      refine bind_congr fun ok => ?_
      cases ok <;> simp [faultAdd]

end Solo

/-- **`vmfault` is its steps**, if nothing comes in between. -/
theorem vmfault_eq_solo (me : Fin nproc) (pagetable va : ℕ) :
    vmfault me pagetable va = (do
      let p ← vmfaultBegin me pagetable va
      let r ← handler me 7 p
      return r.isSome) := by
  rw [vmfault, vmfaultBegin, bind_assoc]
  refine bind_congr fun k => ?_
  by_cases hsz : (k.proc me).sz ≤ pgrounddown va
  · simp only [hsz, if_true, pure_bind, handler_done]
    rfl
  · simp only [hsz, if_false, bind_assoc]
    refine bind_congr fun r => ?_
    cases r with
    | none => simp only [pure_bind, vmfaultLazy_eq]
    | some pte =>
      simp only [bind_assoc]
      refine bind_congr fun e => ?_
      split_ifs
      · simp only [pure_bind, vmfaultSwapped_eq]
      · simp only [pure_bind, vmfaultLazy_eq]

/-- **`vmfault_alloc` is its steps**, if nothing comes in between. -/
theorem vmfaultAlloc_eq_solo (me : Fin nproc) (pagetable va : ℕ) :
    vmfaultAlloc me pagetable va = (do
      let p ← vmfaultAllocBegin me pagetable va
      handler me 7 p) := by
  rw [vmfaultAlloc, vmfaultAllocBegin, bind_assoc]
  refine bind_congr fun k => ?_
  by_cases hsz : (k.proc me).sz ≤ va
  · simp only [hsz, if_true, pure_bind, handler_done]
  · simp only [hsz, if_false, bind_assoc]
    refine bind_congr fun mapped => ?_
    cases mapped with
    | true => simp only [if_true, pure_bind, handler_done]
    | false =>
      simp only [Bool.false_eq_true, if_false, pure_bind, handler_check]
      refine bind_congr fun r => ?_
      cases r with
      | none => rfl
      | some mem =>
        simp only [handleFrame, handler_succ me 1, faultStep, faultMap, bind_assoc]
        refine bind_congr fun k => bind_congr fun _ => bind_congr fun _ => ?_
        rw [mapFrame_handler]
        refine bind_congr fun ok => ?_
        cases ok <;> simp [faultAdd]

/-! ### All processes at once -/

/-- The kernel, and how many pages faults have mapped and evictions have not taken back. No code
reads the number. -/
structure PagingState where
  kernel : Kernel
  resident : ℕ

/-- The kernel, as a part of the state. -/
def PagingState.kernelPart : Prog.Part PagingState Kernel where
  get := kernel
  put s k := { s with kernel := k }

/-- What a step does to the number of resident pages. -/
def residentAfter (n : ℕ) : FaultPc → FaultPc → ℕ
  | .evict _, .alloc _ => n - 1
  | .evictDry _, .realloc _ => n - 1
  | .add _ _, _ => n + 1
  | _, _ => n

/-- A step that keeps the number of resident pages. -/
def counted (p : FaultPc) (x : Prog Kernel FaultPc) : Prog PagingState FaultPc := do
  let q ← zoom PagingState.kernelPart x
  Prog.modify fun s => { s with resident := residentAfter s.resident p q }
  return q

/-- A process starts to handle a fault in its own page table. -/
def faultBegin (me : Fin nproc) (begin : ℕ → ℕ → Prog Kernel FaultPc) (va : ℕ) :
    Prog Kernel FaultPc := do
  let k ← Prog.get
  match (k.proc me).pagetable with
  | none => return .idle
  | some pagetable => begin pagetable va

/-- **The system.** A process that is not in a handler may fault anywhere, in user code or in a
copy; a process in a handler takes the next step of it. -/
def faults : Threads (Fin nproc) PagingState FaultPc
  | i, .idle, x => ∃ va, x = counted .idle (faultBegin i (vmfaultBegin i) va) ∨
      x = counted .idle (faultBegin i (vmfaultAllocBegin i) va)
  | _, .done _, x => x = pure .idle
  | i, p, x => x = counted p (faultStep i p)

/-- No process is in a handler, and the pages that faults have mapped are those registered. -/
def faultStart (k : Kernel) : Config (Fin nproc) PagingState FaultPc :=
  ⟨⟨k, frametableUsed k.vm⟩, fun _ => .idle⟩

/-! ### Claims to entries -/

/-- The process has made sure that there is room and has not used it yet. -/
def FaultPc.reserves : FaultPc → Bool
  | .alloc _ | .evictDry _ | .realloc _ | .map _ _ | .add _ _ => true
  | _ => false

/-- The number of processes with a claim to an entry. -/
def reserved (c : Config (Fin nproc) PagingState FaultPc) : ℕ :=
  Table.count fun i => (c.pc i).reserves

/-- A check that finds room finds it beyond the claims of others. -/
def Reserved (i : Fin nproc) (c : Config (Fin nproc) PagingState FaultPc) : Prop :=
  ∀ f, c.pc i = .check f → frametableUsed c.shared.kernel.vm < maxFrames →
    frametableUsed c.shared.kernel.vm + reserved c < maxFrames

/-- Every page that a fault maps is registered: `frametable_add` finds a free entry, so that the
page is in the table afterwards, and the resident pages are those of the table. -/
def AllRegistered (c : Config (Fin nproc) PagingState FaultPc) : Prop :=
  c.shared.resident = frametableUsed c.shared.kernel.vm ∧ c.shared.resident ≤ maxFrames ∧
  ∀ i f mem, c.pc i = .add f mem →
    (∃ e, (c.shared.kernel.vm.ftable e).used = false) ∧
    ∀ c', faults.Step i c c' →
      ((c.shared.kernel.proc i).pid, f.va) ∈ c'.shared.kernel.vm.registered

section Steps

variable {k : Kernel} {me : Fin nproc} {f : PageFault} {mem : ℕ}

theorem leaves_frames_swapIn (slot buf : ℕ) :
    Leaves Kernel.frames (onVm (swapIn slot buf)) :=
  leaves_frames (leaves_swapIn (fun _ _ => rfl) slot buf)

theorem leaves_frames_swapFree (slot : ℕ) :
    Leaves Kernel.frames (onVm (swapFree slot)) :=
  leaves_frames (leaves_swapFree (fun _ _ _ => rfl) slot)

theorem leaves_frames_updateProc (i : Fin nproc) (g : Proc → Proc) :
    Leaves Kernel.frames (updateProc i g) :=
  leaves_modify fun _ => rfl

theorem leaves_frames_mapFrame (pagetable va mem : ℕ) (perm : Pte) (next : FaultPc) :
    Leaves Kernel.frames (mapFrame pagetable va mem perm next) := by
  refine leaves_bind (leaves_frames_onKmem _) fun ok => ?_
  split_ifs
  · exact leaves_pure _
  · exact (leaves_frames_onKmem _).ret

theorem leaves_frames_faultMap (me : Fin nproc) (f : PageFault) (mem : ℕ) :
    Leaves Kernel.frames (faultMap me f mem) := by
  unfold faultMap
  cases f.kind with
  | swapped slot =>
    refine leaves_bind (leaves_frames_swapIn _ _) fun ok => ?_
    split_ifs
    · exact leaves_bind (leaves_frames_swapFree _) fun _ => leaves_frames_mapFrame _ _ _ _ _
    · exact (leaves_frames_onKmem _).ret
  | untouched =>
    exact leaves_bind (leaves_frames_onKmem _) fun _ => leaves_frames_mapFrame _ _ _ _ _
  | copying =>
    refine leaves_get fun k => leaves_bind ?_ fun _ =>
      leaves_bind (leaves_frames_onKmem _) fun _ => leaves_frames_mapFrame _ _ _ _ _
    exact leaves_frames (leaves_modify fun _ => rfl)

theorem wp_kfree_zero {Q : Unit → Kernel → Prop} :
    wp (onVm (onKmem (kfree 0))) Q (fun _ => True) k := by
  rw [wp_onVm, wp_onKmem, kfree, wp_bind, wp_get]
  have hlow : 0 < k.vm.kmem.sym.kend :=
    lt_of_lt_of_le (by decide) k.vm.kmem.sym.kernbase_le_kend
  rw [if_pos (Or.inr (Or.inl hlow))]
  exact trivial

/-- **An eviction frees one entry**, or there is none to free. -/
theorem clockEvict_frames (h : k.vm.clockHand < maxFrames) :
    wp clockEvict (fun freed k' => k'.vm.clockHand < maxFrames ∧
      (freed = 0 ∧ frametableUsed k'.vm = frametableUsed k.vm ∨
        freed ≠ 0 ∧ frametableUsed k.vm = frametableUsed k'.vm + 1)) (fun _ => True) k := by
  rw [clockEvict, wp_bind]
  refine clockSelect_spec h (fun _ => ⟨h, Or.inl ⟨rfl, rfl⟩⟩) fun i ft hand hi hsame hhand => ?_
  obtain ⟨k₁, hk₁⟩ : ∃ k₁, k₁ = k.setVm { k.vm with
    ftable := update ft i .free, clockHand := hand } := ⟨_, rfl⟩
  have hused : frametableUsed k.vm = frametableUsed k₁.vm + 1 := by
    refine Table.count_succ (i := i) (fun j hj => ?_) (Kernel.victim_used h hi) ?_
    · rw [hk₁]
      change _ = (update ft i .free j).used
      rw [update_of_ne hj, hsame.used]
    · rw [hk₁]
      change (update ft i .free i).used = false
      rw [update_self]
      rfl
  have hhand₁ : k₁.vm.clockHand < maxFrames := by rw [hk₁]; exact hhand
  rw [← hk₁]
  refine wp_seq (leaves_frames_swapOut _ _ _ k₁) fun slot k₂ h₂ => ?_
  cases slot with
  | none => exact trivial
  | some slot =>
    refine wp_seq (leaves_evictRewrite leaves_frames_onKmem (leaves_frames_updateProc · _) _ _ k₂)
      fun _ k₃ h₃ => ?_
    rw [wp_bind]
    by_cases hzero : (ft i).pa = 0
    · rw [hzero]
      exact wp_kfree_zero
    · refine wp_imp (leaves_frames_onKmem _ k₃) fun _ k₄ h₄ => ?_
      have hsame₄ : k₄.frames = k₁.frames := h₄.trans (h₃.trans h₂)
      have hft : k₄.vm.ftable = k₁.vm.ftable := congrArg Prod.fst hsame₄
      have hclock : k₄.vm.clockHand = k₁.vm.clockHand := congrArg Prod.snd hsame₄
      refine ⟨hclock ▸ hhand₁, Or.inr ⟨hzero, ?_⟩⟩
      rw [hused, frametableUsed, frametableUsed, hft]

/-- At most one entry was filled, and one for the page if there was one. -/
structure Registers (pid : ℤ) (va : ℕ) (v v' : Vm) : Prop where
  hand : v'.clockHand < maxFrames
  used_le : frametableUsed v' ≤ frametableUsed v + 1
  room : frametableUsed v < maxFrames →
    frametableUsed v' = frametableUsed v + 1 ∧ (pid, va) ∈ v'.registered

theorem frametableAdd_frames (pa : ℕ) (pid : ℤ) (va : ℕ) {v : Vm} (h : v.clockHand < maxFrames) :
    wp (frametableAdd pa pid va) (fun _ => Registers pid va v) (fun _ => True) v := by
  rw [frametableAdd, wp_bind, wp_get]
  cases hi : Table.first fun i => !(v.ftable i).used with
  | none =>
    refine ⟨h, Nat.le_succ _, fun hlt => ?_⟩
    obtain ⟨i, hsome⟩ := Table.first_isSome_of_count_lt hlt
    cases (hi.symm.trans hsome).symm
  | some i =>
    have hfree : (v.ftable i).used = false := by simpa using Table.of_first hi
    have hone : frametableUsed (v.setFrame i ⟨true, pid, va, pa, true, -1⟩)
        = frametableUsed v + 1 := by
      refine Table.count_succ (i := i) (fun j hj => ?_) ?_ hfree
      · rw [Vm.setFrame_ftable_of_ne _ _ hj]
      · rw [Vm.setFrame_ftable_self]
    refine ⟨h, hone.le, fun _ => ⟨hone, i, ?_⟩⟩
    rw [Vm.setFrame_ftable_self]
    exact ⟨rfl, rfl, rfl⟩

theorem frametableAddUncounted_frames (pa : ℕ) (pid : ℤ) (va : ℕ) {v : Vm}
    (h : v.clockHand < maxFrames) :
    wp (frametableAddUncounted pa pid va) (fun _ => Registers pid va v) (fun _ => True) v := by
  rw [frametableAddUncounted]
  exact wp_seq (frametableAdd_frames pa pid va h) fun _ _ hr => ⟨hr.hand, hr.used_le, hr.room⟩

theorem faultAdd_frames (h : k.vm.clockHand < maxFrames) :
    wp (faultAdd me f mem) (fun q k' => (∃ r, q = .done r) ∧
      Registers (k.proc me).pid f.va k.vm k'.vm) (fun _ => True) k := by
  rw [faultAdd, wp_bind, wp_get]
  cases f.kind with
  | swapped slot =>
    simp only [wp_bind, wp_onVm, wp_updateProc, wp_pure]
    exact wp_imp (frametableAddUncounted_frames _ _ _ h) fun _ _ hr => ⟨⟨_, rfl⟩, hr⟩
  | untouched =>
    simp only [wp_bind, wp_onVm, wp_updateProc, wp_pure]
    exact wp_imp (frametableAdd_frames _ _ _ h) fun _ _ hr => ⟨⟨_, rfl⟩, hr⟩
  | copying =>
    simp only [wp_bind, wp_onVm, wp_pure]
    exact wp_imp (frametableAddUncounted_frames _ _ _ h) fun _ _ hr => ⟨⟨_, rfl⟩, hr⟩

/-- What a step of a handler does to the frame table: it uses no more room than it had a claim to,
except at the check, and it keeps the number of resident pages. -/
structure FrameStep (p q : FaultPc) (k k' : Kernel) : Prop where
  hand : k'.vm.clockHand < maxFrames
  claims : frametableUsed k'.vm + q.reserves.toNat
    ≤ frametableUsed k.vm + p.reserves.toNat ∨
    (∃ f, p = .check f) ∧ frametableUsed k.vm < maxFrames ∧
      frametableUsed k'.vm + q.reserves.toNat = frametableUsed k.vm + 1
  resident : (p.reserves = true → frametableUsed k.vm < maxFrames) →
    residentAfter (frametableUsed k.vm) p q = frametableUsed k'.vm

theorem FrameStep.of_frames {p q : FaultPc} {k' : Kernel} (h : k.vm.clockHand < maxFrames)
    (hsame : k'.frames = k.frames) (hclaims : q.reserves.toNat ≤ p.reserves.toNat)
    (hres : ∀ n, residentAfter n p q = n) : FrameStep p q k k' := by
  have hft : k'.vm.ftable = k.vm.ftable := congrArg Prod.fst hsame
  have hclock : k'.vm.clockHand = k.vm.clockHand := congrArg Prod.snd hsame
  have hused : frametableUsed k'.vm = frametableUsed k.vm := by
    rw [frametableUsed, frametableUsed, hft]
  exact ⟨hclock ▸ h, Or.inl (by omega), fun _ => by rw [hres, hused]⟩

theorem faultEvict_frames {p next : FaultPc} (h : k.vm.clockHand < maxFrames)
    (hnext : next.reserves = true) (hfail : ∀ n, residentAfter n p (.done none) = n)
    (hres : ∀ n, residentAfter n p next = n - 1) :
    wp (faultEvict next) (fun q k' => FrameStep p q k k') (fun _ => True) k := by
  rw [faultEvict]
  refine wp_seq (clockEvict_frames h) ?_
  rintro freed k' ⟨hhand, ⟨hfreed, hused⟩ | ⟨hfreed, hused⟩⟩
  · rw [wp_pure, if_pos hfreed]
    exact ⟨hhand, Or.inl (by simp [FaultPc.reserves, hused]), fun _ => by rw [hfail, hused]⟩
  · rw [wp_pure, if_neg hfreed]
    refine ⟨hhand, Or.inl ?_, fun _ => ?_⟩
    · rw [hnext, hused, Bool.toNat_true]
      exact Nat.le_add_right _ _
    · rw [hres, hused, Nat.add_sub_cancel]

/-- **A step of a handler**, whatever the other processes have done before. -/
theorem faultStep_frames (me : Fin nproc) (h : k.vm.clockHand < maxFrames) (p : FaultPc) :
    wp (faultStep me p) (fun q k' => FrameStep p q k k') (fun _ => True) k := by
  cases p with
  | idle | done r => exact .of_frames h rfl le_rfl fun _ => rfl
  | check f =>
    rw [faultStep, wp_bind, wp_get, wp_pure]
    split_ifs with hfull
    · exact .of_frames h rfl le_rfl fun _ => rfl
    · exact ⟨h, Or.inr ⟨⟨f, rfl⟩, not_le.mp hfull, rfl⟩, fun _ => rfl⟩
  | evict f | evictDry f => exact faultEvict_frames h rfl (fun _ => rfl) fun _ => rfl
  | alloc f =>
    rw [faultStep]
    refine wp_seq (leaves_frames_onKmem kalloc k) fun r k' hsame => ?_
    cases r with
    | none | some mem => exact .of_frames h hsame le_rfl fun _ => rfl
  | realloc f =>
    rw [faultStep]
    refine wp_seq (leaves_frames_onKmem kalloc k) fun r k' hsame => ?_
    cases r with
    | none => exact .of_frames h hsame (Nat.zero_le _) fun _ => rfl
    | some mem => exact .of_frames h hsame le_rfl fun _ => rfl
  | map f mem =>
    refine wp_imp (leaves_frames_faultMap me f mem k) fun q k' hsame => ?_
    exact .of_frames h hsame (Bool.toNat_le _) fun _ => rfl
  | add f mem =>
    refine wp_imp (faultAdd_frames h) ?_
    rintro q k' ⟨⟨r, rfl⟩, hr⟩
    exact ⟨hr.hand, Or.inl hr.used_le, fun hlt => (hr.room (hlt rfl)).1.symm⟩

theorem vmfaultBegin_frames (pagetable va : ℕ) :
    wp (vmfaultBegin me pagetable va) (fun q k' => k'.frames = k.frames ∧ q.reserves = false)
      (fun _ => True) k := by
  rw [vmfaultBegin, wp_bind, wp_get]
  dsimp only
  split_ifs with hsz
  · exact ⟨rfl, rfl⟩
  · refine wp_seq (leaves_frames_onKmem _ k) fun r k₁ h₁ => ?_
    cases r with
    | none => exact ⟨h₁, rfl⟩
    | some pte =>
      refine wp_seq (leaves_frames_onKmem _ k₁) fun e k₂ h₂ => ?_
      split_ifs
      · exact ⟨h₂.trans h₁, rfl⟩
      · exact ⟨h₂.trans h₁, rfl⟩

theorem vmfaultAllocBegin_frames (pagetable va : ℕ) :
    wp (vmfaultAllocBegin me pagetable va)
      (fun q k' => k'.frames = k.frames ∧ q.reserves = false) (fun _ => True) k := by
  rw [vmfaultAllocBegin, wp_bind, wp_get]
  dsimp only
  split_ifs with hsz
  · exact ⟨rfl, rfl⟩
  · refine wp_seq (leaves_frames_onKmem _ k) fun mapped k₁ h₁ => ?_
    cases mapped with
    | true | false => exact ⟨h₁, rfl⟩

/-- The first step changes nothing that the clock sees, and claims nothing. -/
theorem faultBegin_frames {begin : ℕ → ℕ → Prog Kernel FaultPc} (h : k.vm.clockHand < maxFrames)
    (hbegin : ∀ pagetable va, wp (begin pagetable va)
      (fun q k' => k'.frames = k.frames ∧ q.reserves = false) (fun _ => True) k) (va : ℕ) :
    wp (faultBegin me begin va) (fun q k' => FrameStep .idle q k k') (fun _ => True) k := by
  rw [faultBegin, wp_bind, wp_get]
  cases (k.proc me).pagetable with
  | none => exact .of_frames h rfl le_rfl fun _ => rfl
  | some pagetable =>
    refine wp_imp (hbegin pagetable va) ?_
    rintro q k' ⟨hsame, hq⟩
    refine .of_frames h hsame ?_ fun _ => rfl
    rw [hq]
    exact Nat.zero_le _

end Steps

/-! ### The invariant of the system -/

section System

variable {b : Boot} {k : Kernel} {i : Fin nproc} {c c' : Config (Fin nproc) PagingState FaultPc}

theorem wp_counted {p : FaultPc} {x : Prog Kernel FaultPc} {Q : FaultPc → PagingState → Prop}
    {E : String → Prop} {s : PagingState} :
    wp (counted p x) Q E s ↔
      wp x (fun q k' => Q q ⟨k', residentAfter s.resident p q⟩) E s.kernel := by
  rw [counted, wp_bind, wp_zoom]
  rfl

/-- **A step of the system** is a step of a handler that keeps the number of resident pages, or
the return of one. -/
theorem faults_cases (h : faults.Step i c c')
    (hhand : c.shared.kernel.vm.clockHand < maxFrames) :
    ∃ q k', c' = c.move i q ⟨k', residentAfter c.shared.resident (c.pc i) q⟩ ∧
      FrameStep (c.pc i) q c.shared.kernel k' := by
  obtain ⟨hact, hrun⟩ := h
  rename_i x q s
  have hw : wp x (fun q s => ∃ k', s = ⟨k', residentAfter c.shared.resident (c.pc i) q⟩ ∧
      FrameStep (c.pc i) q c.shared.kernel k') (fun _ => True) c.shared := by
    have hstep : ∀ p, wp (counted p (faultStep i p)) (fun q s =>
        ∃ k', s = ⟨k', residentAfter c.shared.resident p q⟩ ∧
          FrameStep p q c.shared.kernel k') (fun _ => True) c.shared := fun p =>
      wp_counted.mpr (wp_imp (faultStep_frames i hhand p) fun _ k' hf => ⟨k', rfl, hf⟩)
    cases hp : c.pc i with
    | idle =>
      rw [hp] at hact
      obtain ⟨va, rfl | rfl⟩ := hact
      · exact wp_counted.mpr (wp_imp
          (faultBegin_frames hhand (fun _ _ => vmfaultBegin_frames _ _) va)
          fun _ k' hf => ⟨k', rfl, hf⟩)
      · exact wp_counted.mpr (wp_imp
          (faultBegin_frames hhand (fun _ _ => vmfaultAllocBegin_frames _ _) va)
          fun _ k' hf => ⟨k', rfl, hf⟩)
    | done r =>
      rw [hp] at hact
      obtain rfl := hact
      exact ⟨c.shared.kernel, rfl, .of_frames hhand rfl le_rfl fun _ => rfl⟩
    | _ =>
      rw [hp] at hact
      obtain rfl := hact
      exact hstep _
  obtain ⟨k', rfl, hf⟩ := wp_ok hw hrun
  exact ⟨q, k', rfl, hf⟩

/-- Entries in use and claims fit into the table, and the resident pages are those of the
table. -/
structure Fits (c : Config (Fin nproc) PagingState FaultPc) : Prop where
  hand : c.shared.kernel.vm.clockHand < maxFrames
  resident : c.shared.resident = frametableUsed c.shared.kernel.vm
  fits : frametableUsed c.shared.kernel.vm + reserved c ≤ maxFrames

theorem Fits.room (h : Fits c) (hi : (c.pc i).reserves = true) :
    frametableUsed c.shared.kernel.vm < maxFrames := by
  have hpos : 0 < reserved c := Table.count_pos_iff.mpr ⟨i, hi⟩
  have := h.fits
  omega

/-- **A step keeps the invariant** if its check counts the claims. -/
theorem Fits.step (h : Fits c) (hres : Reserved i c) (hs : faults.Step i c c') : Fits c' := by
  obtain ⟨q, k', rfl, hf⟩ := faults_cases hs h.hand
  have hcount : reserved (c.move i q ⟨k', residentAfter c.shared.resident (c.pc i) q⟩)
      + (c.pc i).reserves.toNat = reserved c + q.reserves.toNat := by
    have hadd := Table.count_add (i := i)
      (p := fun j => ((c.move i q ⟨k', residentAfter c.shared.resident (c.pc i) q⟩).pc j).reserves)
      (q := fun j => (c.pc j).reserves) fun j hj => by rw [Config.move_pc_of_ne _ _ _ hj]
    rw [Config.move_pc_self] at hadd
    exact hadd
  refine ⟨hf.hand, ?_, ?_⟩
  · rw [Config.move_shared, h.resident]
    exact hf.resident h.room
  · have hfits := h.fits
    change frametableUsed k'.vm + _ ≤ maxFrames
    rcases hf.claims with hle | ⟨⟨f, hcheck⟩, hlt, heq⟩
    · omega
    · have hroom := hres f hcheck hlt
      have hnone : (c.pc i).reserves.toNat = 0 := by
        rw [hcheck]
        rfl
      omega

/-- **Nothing escapes the frame table** as long as every check counts the claims of the
others. -/
theorem Reachable.faults_registered (h : Reachable b k)
    (hr : faults.Runs Reserved (faultStart k) c) : AllRegistered c := by
  have hfits : Fits c := by
    refine hr.invariant ⟨h.ok.inv.vm.hand, rfl, ?_⟩ fun i c₁ c₂ hc hP hs => hc.step hP hs
    have hzero : reserved (faultStart k) = 0 := Table.count_eq_zero.mpr fun _ => rfl
    rw [hzero]
    exact Table.count_le _
  refine ⟨hfits.resident, ?_, fun i f mem hpc => ?_⟩
  · rw [hfits.resident]
    exact Table.count_le _
  · have hroom := hfits.room (i := i) (by rw [hpc]; rfl)
    refine ⟨Table.count_lt_iff.mp hroom, ?_⟩
    rintro c' ⟨hact, hrun⟩
    rw [hpc] at hact
    obtain rfl := hact
    have hw : wp (counted (.add f mem) (faultStep i (.add f mem))) (fun _ s =>
        ((c.shared.kernel.proc i).pid, f.va) ∈ s.kernel.vm.registered) (fun _ => True) c.shared :=
      wp_counted.mpr (wp_imp (faultAdd_frames hfits.hand) fun _ _ hf => (hf.2.room hroom).2)
    exact (wp_of_ok hrun).mp hw

/-! ### The table is overrun -/

theorem counted_run {p q : FaultPc} {x : Prog Kernel FaultPc} {s : PagingState} {k' : Kernel}
    (h : x s.kernel = .ok (q, k')) :
    counted p x s = .ok (q, ⟨k', residentAfter s.resident p q⟩) := by
  refine bind_ok_iff.mpr ⟨q, { s with kernel := k' }, ?_, rfl⟩
  rw [zoom, show PagingState.kernelPart.get s = s.kernel from rfl, h]
  rfl

section Moves

variable {P : Fin nproc → Config (Fin nproc) PagingState FaultPc → Prop} {q : FaultPc}
  {k' : Kernel}

theorem runs_stay (hrun : (pure (c.pc i) : Prog Kernel FaultPc) c.shared.kernel = .ok (q, k')) :
    ∃ r, faults.Runs P c (c.move i q ⟨k', r⟩) := by
  obtain ⟨hq, hk⟩ := Prod.mk.inj (Except.ok.inj hrun)
  refine ⟨c.shared.resident, ?_⟩
  rw [← hq, ← hk, Config.move, update_eq_self]
  exact .refl

theorem runs_faultStep (hP : P i c)
    (hrun : faultStep i (c.pc i) c.shared.kernel = .ok (q, k')) :
    ∃ r, faults.Runs P c (c.move i q ⟨k', r⟩) := by
  have hmove : faults i (c.pc i) (counted (c.pc i) (faultStep i (c.pc i))) →
      ∃ r, faults.Runs P c (c.move i q ⟨k', r⟩) := fun hact =>
    ⟨_, .single ⟨i, hP, .mk hact (counted_run hrun)⟩⟩
  cases hp : c.pc i with
  | idle | done r =>
    rw [hp] at hrun
    exact runs_stay (by rw [hp]; exact hrun)
  | _ => exact hmove (by rw [hp]; rfl)

theorem runs_begin {root va : ℕ} (hP : P i c) (hidle : c.pc i = .idle)
    (hroot : (c.shared.kernel.proc i).pagetable = some root)
    (hrun : vmfaultBegin i root va c.shared.kernel = .ok (q, k')) :
    ∃ r, faults.Runs P c (c.move i q ⟨k', r⟩) := by
  have hbegin : faultBegin i (vmfaultBegin i) va c.shared.kernel = .ok (q, k') := by
    refine bind_ok_iff.mpr ⟨_, _, rfl, ?_⟩
    rw [hroot]
    exact hrun
  refine ⟨_, .single ⟨i, hP, .mk ?_ (counted_run (p := .idle) hbegin)⟩⟩
  rw [hidle]
  exact ⟨va, Or.inl rfl⟩

end Moves

/-- A handler that is not disturbed, as a run of the system. -/
theorem runs_handler : ∀ (n : ℕ) {c : Config (Fin nproc) PagingState FaultPc} {q : FaultPc}
    {k' : Kernel}, Prog.solo (faultStep i) n (c.pc i) c.shared.kernel = .ok (q, k') →
    ∃ r, faults.Runs (fun _ _ => True) c (c.move i q ⟨k', r⟩) := by
  intro n
  induction n with
  | zero => exact fun hrun => runs_stay hrun
  | succ n ih =>
    intro c q k' hrun
    obtain ⟨p, k₁, hfirst, hrest⟩ := bind_ok_iff.mp hrun
    obtain ⟨r₁, hone⟩ := runs_faultStep (P := fun _ _ => True) trivial hfirst
    obtain ⟨r, hmore⟩ := ih (c := c.move i p ⟨k₁, r₁⟩) (by
      rw [Config.move_pc_self]
      exact hrest)
    rw [Config.move_move] at hmore
    exact ⟨r, hone.trans hmore⟩

/-- The first step of a fault on a page that was never touched. -/
theorem vmfaultBegin_untouched {vpn root : ℕ} (hv : vpn < userPages)
    (hsz : vpn * pgsize < (k.proc i).sz) (habs : lookup k.vm.kmem.mem root vpn = 0#64) :
    vmfaultBegin i root (vpn * pgsize) k = .ok (.check ⟨.untouched, root, vpn * pgsize⟩, k) := by
  have hpage : pgrounddown (vpn * pgsize) = vpn * pgsize := by
    rw [pgrounddown, Nat.mul_div_cancel _ (by decide)]
  have hwp : wp (vmfaultBegin i root (vpn * pgsize)) (fun q k' =>
      q = .check ⟨.untouched, root, vpn * pgsize⟩ ∧ k' = k) (fun _ => False) k := by
    rw [vmfaultBegin, wp_bind, wp_get, hpage]
    dsimp only
    rw [if_neg (not_le.mpr hsz), wp_bind, wp_onVm, wp_onKmem]
    refine walk_spec (lt_maxVpn hv) ?_
    cases hl : leafTable k.vm.kmem.mem root (pathOf vpn) with
    | none => exact ⟨rfl, rfl⟩
    | some t =>
      rw [lookup_of_some hl] at habs
      simp only [Option.map_some, wp_bind, wp_onVm, wp_onKmem, wp_readPte, Kernel.setVm_vm,
        Vm.setKmem_kmem, habs, Pte.has_zero]
      exact ⟨rfl, rfl⟩
  obtain ⟨q, k', hrun, rfl, rfl⟩ := exists_of_wp hwp
  exact hrun

/-- A fault that is not disturbed, as a run of the system. -/
theorem runs_vmfault {root va : ℕ} {r : Bool} {k' : Kernel} (hidle : c.pc i = .idle)
    (hroot : (c.shared.kernel.proc i).pagetable = some root)
    (hrun : vmfault i root va c.shared.kernel = .ok (r, k')) :
    ∃ q n, faults.Runs (fun _ _ => True) c (c.move i q ⟨k', n⟩) := by
  rw [vmfault_eq_solo] at hrun
  obtain ⟨p, k₁, hbegin, hrest⟩ := bind_ok_iff.mp hrun
  obtain ⟨o, k₂, hsteps, hret⟩ := bind_ok_iff.mp hrest
  obtain ⟨q, k₃, hsolo, hret'⟩ := bind_ok_iff.mp hsteps
  obtain rfl : k₃ = k' :=
    (congrArg Prod.snd (Except.ok.inj hret')).trans (congrArg Prod.snd (Except.ok.inj hret))
  obtain ⟨n₁, hfirst⟩ := runs_begin (P := fun _ _ => True) trivial hidle hroot hbegin
  obtain ⟨n, hmore⟩ := runs_handler 7 (i := i) (c := c.move i p ⟨k₁, n₁⟩) (by
    rw [Config.move_pc_self]
    exact hsolo)
  rw [Config.move_move] at hmore
  exact ⟨q, n, hfirst.trans hmore⟩

/-- A process that may allocate gets a frame and maps it, whether or not there is room in the
frame table. -/
theorem untouched_mapped {sp : Space} {R : Multiset Space} {held : Multiset ℕ} {vpn : ℕ}
    (h : VmInv (sp ::ₘ R) held k.vm) (hv : vpn < userPages) (hn : vpn < sp.npages)
    (habs : lookup k.vm.kmem.mem sp.root vpn = 0#64) (hfree : 3 ≤ k.freePages) :
    ∃ x k₁ k₂, onVm (onKmem kalloc) k = .ok (some x, k₁) ∧
      faultMap i ⟨.untouched, sp.root, vpn * pgsize⟩ x k₁
        = .ok (.add ⟨.untouched, sp.root, vpn * pgsize⟩ x, k₂) ∧
      k₂.vm.ftable = k.vm.ftable := by
  have halloc : wp (onVm (onKmem kalloc)) (fun r k₁ => ∃ x, r = some x ∧
      VmInv (sp ::ₘ R) (x ::ₘ held) k₁.vm ∧ lookup k₁.vm.kmem.mem sp.root vpn = 0#64 ∧
      k₁.vm.ftable = k.vm.ftable ∧ 2 ≤ k₁.freePages) (fun _ => False) k := by
    refine wp_kalloc_kernel h (fun hnone => ?_)
      fun x k₁ h₁ _ _ hkeep _ hft _ _ hlen => ⟨x, rfl, h₁, ?_, hft, ?_⟩
    · omega
    · rw [(hkeep.same sp (Multiset.mem_cons_self _ _) vpn hv).1, habs]
    · omega
  obtain ⟨r, k₁, hrun, x, rfl, h₁, habs₁, hft, hlen⟩ := exists_of_wp halloc
  have hmap : wp (faultMap i ⟨.untouched, sp.root, vpn * pgsize⟩ x) (fun q k₂ =>
      q = .add ⟨.untouched, sp.root, vpn * pgsize⟩ x ∧ k₂.vm.ftable = k₁.vm.ftable)
      (fun _ => False) k₁ := by
    have hspec := placePage_spec (E := fun _ => False) h₁ hv hn leafPerm_user
      (by rw [habs₁, Pte.has_zero]) (fun _ => by rw [habs₁, Pte.has_zero]) (fill 0)
      (A := fun v => v.ftable = k₁.vm.ftable) (B := fun _ => False)
      (fun v' hm _ _ _ => hm.ftable) fun v' _ _ _ _ _ hshort _ => ?_
    · simp only [faultMap, mapFrame, wp_bind, wp_onVm]
      refine wp_imp hspec fun _ v₁ hr => ?_
      refine wp_imp hr fun ok v₂ hr' => ?_
      cases ok with
      | true => exact ⟨rfl, hr'⟩
      | false =>
        rw [if_neg Bool.false_ne_true] at hr' ⊢
        rw [wp_bind, wp_onVm]
        exact wp_imp hr' fun _ _ hno => hno.elim
    · have hmiss := missing_le k₁.vm.kmem.mem sp.root vpn
      rw [Kernel.freePages] at hlen
      omega
  obtain ⟨q, k₂, hrun₂, rfl, hft₂⟩ := exists_of_wp hmap
  exact ⟨x, k₁, k₂, hrun, hrun₂, hft₂.trans hft⟩

section Overrun

variable {me np : Fin nproc} {root root' : ℕ} (ht : Twins me np root root' 127 k)

include ht

/-- The parent takes the last entry, and the child still has memory to go on. -/
theorem Twins.last_entry : ∃ r k₁, vmfault me root (129 * pgsize) k = .ok (r, k₁) ∧
    frametableUsed k₁.vm = maxFrames ∧ ∃ y k₂ k₃, onVm (onKmem kalloc) k₁ = .ok (some y, k₂) ∧
      faultMap np ⟨.untouched, root', 129 * pgsize⟩ y k₂
        = .ok (.add ⟨.untouched, root', 129 * pgsize⟩ y, k₃) ∧
      k₃.vm.ftable = k₁.vm.ftable := by
  have hcalm := ht.calm
  have hv : 129 < userPages := Filled.user (by decide)
  have hmiss := missing_le k.vm.kmem.mem root 129
  have hfree := ht.free
  obtain ⟨-, x, k₁, hrun, hp⟩ := ht.pagedIn (by decide) ht.pagetable ht.sz
    (ht.untouched 129 le_rfl (by decide))
  have hone := hp.frames
  have hcost := hp.free
  rw [if_neg hcalm] at hone hcost
  change k.freePages = k₁.freePages + 1 + missing k.vm.kmem.mem root 129 at hcost
  have hinv₁ : VmInv (spaceOf k np root' ::ₘ otherSpaces k np) (0 + held k) k₁.vm := by
    rw [← spaces_cons ht.childTable, spaces_cons ht.pagetable]
    exact hp.inv
  have habs₁ : lookup k₁.vm.kmem.mem root' 129 = 0#64 :=
    ((hp.gone _ (spaceOf_mem_others ht.ne ht.childTable) 129 hv).mpr fun hev => hcalm hev.1).trans
      (ht.childUntouched 129 le_rfl (by decide))
  have hn : 129 < (spaceOf k np root').npages := by
    change 129 < pagesOf (k.proc np).sz
    rw [ht.childSz, pagesOf_mul]
    decide
  have hfull : frametableUsed k₁.vm = maxFrames := by
    change frametableUsed k₁.vm = k.framesUsed + 1 at hone
    rw [hone, ht.frames]
    rfl
  refine ⟨true, k₁, hrun, hfull, ?_⟩
  obtain ⟨y, k₂, k₃, halloc, hmap, hft⟩ := untouched_mapped (i := np) hinv₁ hv hn habs₁ (by omega)
  exact ⟨y, k₂, k₃, halloc, hmap, hft⟩

/-- The child passes the check while the entry is free and nobody has a claim to it. -/
theorem Twins.child_checks : ∃ r, faults.Runs Reserved (faultStart k)
    ((faultStart k).move np (.alloc ⟨.untouched, root', 129 * pgsize⟩) ⟨k, r⟩) := by
  have hbegin := vmfaultBegin_untouched (i := np) (Filled.user (u := 129) (by decide))
    (by rw [ht.childSz]; exact Nat.mul_lt_mul_of_pos_right (by decide) (by decide))
    (ht.childUntouched 129 le_rfl (by decide))
  have hcheck : faultStep np (.check ⟨.untouched, root', 129 * pgsize⟩) k
      = .ok (.alloc ⟨.untouched, root', 129 * pgsize⟩, k) := by
    refine bind_ok_iff.mpr ⟨k, k, rfl, ?_⟩
    rw [show frametableUsed k.vm = 127 from ht.frames]
    rfl
  obtain ⟨r₁, hfirst⟩ := runs_begin (P := Reserved) (c := faultStart k)
    (fun f hf => FaultPc.noConfusion hf) rfl ht.childTable hbegin
  have hnone : reserved ((faultStart k).move np (.check ⟨.untouched, root', 129 * pgsize⟩)
      ⟨k, r₁⟩) = 0 := by
    refine Table.count_eq_zero.mpr fun j => ?_
    by_cases hj : j = np
    · rw [hj, Config.move_pc_self]
      rfl
    · rw [Config.move_pc_of_ne _ _ _ hj]
      rfl
  obtain ⟨r, hsecond⟩ := runs_faultStep (P := Reserved) (i := np)
    (c := (faultStart k).move np (.check ⟨.untouched, root', 129 * pgsize⟩) ⟨k, r₁⟩)
    (fun _ _ hlt => by rw [hnone]; exact hlt) (by
      rw [Config.move_pc_self]
      exact hcheck)
  rw [Config.move_move] at hsecond
  exact ⟨r, hfirst.trans hsecond⟩

end Overrun

theorem faults_registered_small : ∃ k c, Reachable .small k ∧
    faults.Runs Reserved (faultStart k) c ∧ (∃ i f, c.pc i = .alloc f) ∧ AllRegistered c := by
  obtain ⟨me, np, root, root', k, hreach, ht⟩ := exists_twins (n := 127) (by decide)
  obtain ⟨r, hruns⟩ := ht.child_checks
  exact ⟨k, _, hreach, hruns, ⟨np, _, Config.move_pc_self _ _ _ _⟩,
    Reachable.faults_registered hreach hruns⟩

/-- **The frame table is overrun.** With one entry left, two processes pass the check one after
the other; the page of the slower one finds no entry. -/
theorem faults_overrun : ¬∀ b k, Reachable b k → ∀ c,
    faults.Runs (fun _ _ => True) (faultStart k) c → AllRegistered c := by
  intro hall
  obtain ⟨me, np, root, root', k, hreach, ht⟩ := exists_twins (n := 127) (by decide)
  obtain ⟨r₁, hruns₁⟩ := ht.child_checks
  obtain ⟨r, k₁, hfault, hfull, y, k₂, k₃, halloc, hmap, hft⟩ := ht.last_entry
  obtain ⟨q, r₂, hruns₂⟩ := runs_vmfault (i := me)
    (c := (faultStart k).move np (.alloc ⟨.untouched, root', 129 * pgsize⟩) ⟨k, r₁⟩)
    (by rw [Config.move_pc_of_ne _ _ _ ht.ne.symm]; rfl) ht.pagetable hfault
  obtain ⟨c₂, hc₂⟩ : ∃ c₂, c₂ = ((faultStart k).move np
    (.alloc ⟨.untouched, root', 129 * pgsize⟩) ⟨k, r₁⟩).move me q ⟨k₁, r₂⟩ := ⟨_, rfl⟩
  rw [← hc₂] at hruns₂
  have hpc : c₂.pc np = .alloc ⟨.untouched, root', 129 * pgsize⟩ := by
    rw [hc₂, Config.move_pc_of_ne _ _ _ ht.ne, Config.move_pc_self]
  -- the child goes on with a claim that is worth nothing
  have hgets : faultStep np (c₂.pc np) c₂.shared.kernel
      = .ok (.map ⟨.untouched, root', 129 * pgsize⟩ y, k₂) := by
    rw [hpc, hc₂]
    exact bind_ok_iff.mpr ⟨_, _, halloc, rfl⟩
  obtain ⟨r₃, hruns₃⟩ := runs_faultStep (P := fun _ _ => True) trivial hgets
  obtain ⟨c₃, hc₃⟩ : ∃ c₃, c₃ = c₂.move np (.map ⟨.untouched, root', 129 * pgsize⟩ y) ⟨k₂, r₃⟩ :=
    ⟨_, rfl⟩
  rw [← hc₃] at hruns₃
  have hmaps : faultStep np (c₃.pc np) c₃.shared.kernel
      = .ok (.add ⟨.untouched, root', 129 * pgsize⟩ y, k₃) := by
    rw [hc₃, Config.move_pc_self]
    exact hmap
  obtain ⟨r₄, hruns₄⟩ := runs_faultStep (P := fun _ _ => True) trivial hmaps
  have hbad := hall _ _ hreach _
    ((hruns₁.mono fun _ _ _ => trivial).trans (hruns₂.trans (hruns₃.trans hruns₄)))
  obtain ⟨⟨e, he⟩, -⟩ := hbad.2.2 np _ y (Config.move_pc_self _ _ _ _)
  have hused := Table.count_eq_iff.mp hfull e
  change (k₃.vm.ftable e).used = false at he
  rw [hft, hused] at he
  nomatch he.symm

end System

end Xv6
