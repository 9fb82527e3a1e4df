import Xv6.AllOrNothing

/-!
# `exec`, all or nothing

`kexec` with the two things around it that the model of `exec` leaves out: the name of the process,
and the file-system operation, which is ended before the stack is built or at the label `bad`,
whichever comes first. The file system itself is given, and a path names the bytes of a file.

Every byte of the file is up to the user. The program headers are read one by one, as many as the
header of the file says, and none of them can make `exec` panic. If `exec` fails, wherever that is,
the new image is freed with everything it has, and nobody else has been written to. If it succeeds,
all the pages of the old image are on the free list and all its swap slots are free.
-/

namespace Xv6

open Prog

/-- An entry of the frame table is never about a free page. -/
theorem VmInv.frame_notMem_free {S : Multiset Space} {held : Multiset ℕ} {v : Vm}
    (h : VmInv S held v) {i : Fin maxFrames} (hi : (v.ftable i).used = true) :
    (v.ftable i).pa ∉ v.kmem.freelist := by
  obtain ⟨sp, hsp, vpn, hd⟩ := h.entries i hi
  rw [← hd.pa]
  exact h.owned_notMem_free
    (mem_owned_of_footprint hsp (VmInv.mem_footprint_of_valid hd.user hd.valid))

/-- An image that was built and freed leaves the same pages free. -/
theorem Unexeced.free_eq {extra : Multiset ℕ} {k k' : Kernel} (h : KInv extra k)
    (hu : Unexeced extra k k') : (k'.vm.kmem.freelist : Multiset ℕ) = k.vm.kmem.freelist := by
  obtain ⟨v, rfl, hkeep⟩ := hu.same
  have hspaces := spaces_setVm hkeep.sym
  have hvm := hu.inv.vm
  rw [hspaces] at hvm
  exact hu.memory.free_eq h.vm hvm hkeep.sym

/-- The kernel, with what only `exec` looks at. -/
structure Launch where
  kernel : Kernel
  /-- `p->name`. -/
  name : Fin nproc → List Byte
  /-- `log.outstanding`. -/
  outstanding : ℤ

namespace Launch

variable {α : Type} {me : Fin nproc} {w : Launch} {E : String → Prop} {Q : Option ℕ → Launch → Prop}
  {path : List Byte}

/-- Replace the kernel. -/
def setKernel (w : Launch) (k : Kernel) : Launch := { w with kernel := k }

@[simp] theorem setKernel_kernel (w : Launch) (k : Kernel) : (w.setKernel k).kernel = k := rfl

@[simp] theorem setKernel_setKernel (w : Launch) (k k' : Kernel) :
    (w.setKernel k).setKernel k' = w.setKernel k' := rfl

/-- The kernel, as a part of the state. -/
def kernelPart : Prog.Part Launch Kernel := ⟨kernel, setKernel⟩

/-- Run a function of the kernel. -/
def onKernel (x : Prog Kernel α) : Prog Launch α := zoom kernelPart x

theorem wp_onKernel {x : Prog Kernel α} {Q : α → Launch → Prop} :
    wp (onKernel x) Q E w ↔ wp x (fun a k => Q a (w.setKernel k)) E w.kernel :=
  wp_zoom kernelPart

/-- Begin an operation of the file system. -/
def beginOp : Prog Launch Unit := Prog.modify fun w => { w with outstanding := w.outstanding + 1 }

/-- End it. -/
def endOp : Prog Launch Unit := Prog.modify fun w => { w with outstanding := w.outstanding - 1 }

/-- What comes after the last slash: the loop with pointers `last` and `s` into the path. -/
def lastElement : List Byte → List Byte → List Byte
  | last, [] => last
  | last, c :: s => lastElement (if c = slash then s else last) s

/-- Save the program name, of which there is room for 15 bytes. -/
def setName (me : Fin nproc) (path : List Byte) : Prog Launch Unit :=
  Prog.modify fun w => { w with
    name := Function.update w.name me ((lastElement path path).take 15) }

/-- The label `bad`. The page table is there with the size of its image, or it is null. The inode is
still held, so that the operation has to be ended, or it is not. -/
def bad (image : Option (ℕ × ℕ)) (ip : Bool) : Prog Launch (Option ℕ) := do
  match image with
  | none => pure ()
  | some (pagetable, sz) => onKernel (onVm (procFreepagetable pagetable sz))
  if ip then do
    endOp
    return none
  else return none

/-- Commit to the user image. -/
def commit (me : Fin nproc) (path : List Byte) (pagetable sz sp entry argc : ℕ) :
    Prog Launch (Option ℕ) := do
  let w ← Prog.get
  let p := w.kernel.proc me
  onKernel (onVm (onKmem (setReg (addrOf p.trapframe) regA1 sp)))
  setName me path
  onKernel (updateProc me fun p => { p with pagetable := some pagetable, sz := sz })
  onKernel (onVm (onKmem (setReg (addrOf p.trapframe) regEpc entry)))
  onKernel (onVm (onKmem (setReg (addrOf p.trapframe) regSp sp)))
  onKernel (onVm (procFreepagetable (addrOf p.pagetable) p.sz))
  return some argc

/-- The second half of `kexec`, without the inode. -/
def buildStack (me : Fin nproc) (path : List Byte) (pagetable sz entry : ℕ)
    (argv : List (List Byte)) : Prog Launch (Option ℕ) := do
  let sz := pgroundup sz
  let sz1 ← onKernel (onVm (uvmalloc pagetable sz (sz + 2 * pgsize) pteW))
  if sz1 = 0 then bad (some (pagetable, sz)) false
  else do
    onKernel (onVm (onKmem (uvmclear pagetable (sz1 - 2 * pgsize))))
    let stackbase := sz1 - pgsize
    match ← onKernel (execArgs me pagetable stackbase argv sz1 []) with
    | none => bad (some (pagetable, sz1)) false
    | some (sp, ustack) => do
      let argc := ustack.length
      let sp := subU64 sp ((argc + 1) * 8)
      let sp := sp - sp % 16
      if sp < stackbase then bad (some (pagetable, sz1)) false
      else if ← onKernel (copyout me pagetable sp ((ustack ++ [0]).flatMap (leBytes 8))) then
        commit me path pagetable sz1 sp entry argc
      else bad (some (pagetable, sz1)) false

/-- **The `exec` system call**; `none` is the code's -1. `fs` is what `namei` finds, and the inode is
held until the program has been loaded. -/
def kexec (me : Fin nproc) (fs : List Byte → Option (List Byte)) (path : List Byte)
    (argv : List (List Byte)) : Prog Launch (Option ℕ) := do
  beginOp
  match fs path with
  | none => do
    endOp
    return none
  | some file =>
    let elf := readi file 0 elfhdrSize
    if elf.length ≠ elfhdrSize then bad none true
    else if field elf 0 4 ≠ elfMagic then bad none true
    else do
      let w ← Prog.get
      match ← onKernel (onVm (procPagetable (addrOf (w.kernel.proc me).trapframe))) with
      | none => bad none true
      | some pagetable => do
        let (sz, ok) ← onKernel
          (execLoad pagetable file (field elf 56 2) (u32 (field elf 32 8)) 0)
        if ok then do
          endOp
          buildStack me path pagetable sz (field elf 24 8) argv
        else bad (some (pagetable, sz)) true

/-! ### What it comes to -/

/-- The state after `exec`, given the kernel and the result: only success changes the name. -/
def finish (w : Launch) (me : Fin nproc) (path : List Byte) (k : Kernel) (r : Option ℕ) : Launch where
  kernel := k
  name := if r.isSome then Function.update w.name me ((lastElement path path).take 15) else w.name
  outstanding := w.outstanding

theorem wp_bad_stack {pagetable sz : ℕ}
    {Q' : Option ℕ → Kernel → Prop} (h : wp (execBad pagetable sz) Q' E w.kernel)
    (hQ : ∀ k, Q' none k → Q none (w.setKernel k)) :
    wp (bad (some (pagetable, sz)) false) Q E w := by
  rw [execBad, wp_bind] at h
  rw [bad, wp_bind, wp_onKernel]
  exact wp_imp h fun _ k₁ h₁ => hQ k₁ h₁

theorem wp_commit {pagetable sz sp entry argc : ℕ}
    (h : wp (execCommit me pagetable sz sp entry argc)
      (fun r k => Q r (w.finish me path k r)) E w.kernel) :
    wp (commit me path pagetable sz sp entry argc) Q E w := by
  rw [execCommit, wp_bind, wp_get] at h
  rw [commit, wp_bind, wp_get]
  dsimp only at h ⊢
  rw [wp_bind] at h
  rw [wp_bind, wp_onKernel]
  refine wp_imp h fun _ k₁ h₁ => ?_
  rw [wp_bind, wp_updateProc, wp_bind] at h₁
  rw [wp_bind, setName, wp_modify, wp_bind, wp_onKernel, wp_updateProc,
    wp_bind, wp_onKernel]
  refine wp_imp h₁ fun _ k₂ h₂ => ?_
  rw [wp_bind] at h₂
  rw [wp_bind, wp_onKernel]
  refine wp_imp h₂ fun _ k₃ h₃ => ?_
  rw [wp_bind] at h₃
  rw [wp_bind, wp_onKernel]
  exact wp_imp h₃ fun _ k₄ h₄ => h₄

theorem wp_buildStack {pagetable sz entry : ℕ} {argv : List (List Byte)}
    (h : wp (execGuard pagetable sz) (fun r k => match r with
      | none => Q none (w.finish me path k none)
      | some sz1 => wp (execEnd me pagetable sz1 entry argv)
          (fun r k => Q r (w.finish me path k r)) E k) E w.kernel) :
    wp (buildStack me path pagetable sz entry argv) Q E w := by
  rw [execGuard] at h
  rw [buildStack]
  dsimp only at h ⊢
  rw [wp_bind] at h
  rw [wp_bind, wp_onKernel]
  refine wp_imp h fun sz1 k₁ h₁ => ?_
  by_cases hzero : sz1 = 0
  · rw [if_pos hzero] at h₁ ⊢
    exact wp_bad_stack h₁ fun _ hQ => hQ
  rw [if_neg hzero, wp_bind] at h₁
  rw [if_neg hzero, wp_bind, wp_onKernel, setKernel_kernel]
  generalize sz1 - 2 * pgsize = guard at h₁ ⊢
  refine wp_imp h₁ fun _ k₂ h₂ => ?_
  rw [wp_pure] at h₂
  dsimp only at h₂
  rw [execEnd, wp_bind, execBlock] at h₂
  dsimp only at h₂
  generalize sz1 - pgsize = stackbase at h₂ ⊢
  rw [wp_bind] at h₂
  rw [wp_bind, wp_onKernel, setKernel_kernel]
  refine wp_imp h₂ fun r k₃ h₃ => ?_
  rcases r with _ | ⟨sp, ustack⟩
  · rw [wp_pure] at h₃
    exact wp_bad_stack h₃ fun _ hQ => hQ
  · dsimp only at h₃ ⊢
    split_ifs at h₃ ⊢ with hlow
    · rw [wp_pure] at h₃
      exact wp_bad_stack h₃ fun _ hQ => hQ
    · rw [wp_bind] at h₃
      rw [wp_bind, wp_onKernel, setKernel_kernel]
      refine wp_imp h₃ fun ok k₄ h₄ => ?_
      cases ok with
      | true =>
        rw [if_pos rfl, wp_pure] at h₄
        exact wp_commit h₄
      | false =>
        rw [if_neg Bool.false_ne_true, wp_pure] at h₄
        exact wp_bad_stack h₄ fun _ hQ => hQ

/-- **`exec` with its surroundings** does what `kexec` does: the operation that it begins is ended,
however it ends, and the name is changed if it succeeds. -/
theorem wp_kexec {fs : List Byte → Option (List Byte)} {argv : List (List Byte)}
    (h : wp (Xv6.kexec me (fs path) argv) (fun r k => Q r (w.finish me path k r)) E w.kernel) :
    wp (kexec me fs path argv) Q E w := by
  rw [kexec, wp_bind, beginOp, wp_modify]
  obtain ⟨w₀, hw₀⟩ : ∃ w₀ : Launch, w₀ = { w with outstanding := w.outstanding + 1 } := ⟨_, rfl⟩
  have hkernel : w₀.kernel = w.kernel := by rw [hw₀]
  rw [← hw₀]
  -- ending the operation, whatever has become of the kernel
  have hend : ∀ k, ({ w₀.setKernel k with outstanding := (w₀.setKernel k).outstanding - 1 } : Launch)
      = w.setKernel k := fun k => by
    rw [hw₀]
    change ({ w with kernel := k, outstanding := w.outstanding + 1 - 1 } : Launch) = w.setKernel k
    rw [Int.add_sub_cancel]
    rfl
  have hbad : ∀ k, Q none (w.finish me path k none) →
      wp (bad none true) Q E (w₀.setKernel k) := by
    intro k hQ
    rw [bad]
    dsimp only
    rw [if_pos rfl, wp_bind, endOp, wp_modify, hend, wp_pure]
    exact hQ
  have hself : w₀.setKernel w.kernel = w₀ := by
    rw [← hkernel]
    rfl
  cases hfile : fs path with
  | none =>
    rw [hfile] at h
    have := hend w.kernel
    rw [hself] at this
    dsimp only
    rw [wp_bind, endOp, wp_modify, this, wp_pure]
    exact h
  | some file =>
    rw [hfile, Xv6.kexec, wp_bind, execImage] at h
    dsimp only at h ⊢
    by_cases hlen : (readi file 0 elfhdrSize).length ≠ elfhdrSize
    · rw [if_pos hlen, wp_pure] at h
      rw [if_pos hlen, ← hself]
      exact hbad _ h
    rw [if_neg hlen] at h ⊢
    by_cases hmagic : field (readi file 0 elfhdrSize) 0 4 ≠ elfMagic
    · rw [if_pos hmagic, wp_pure] at h
      rw [if_pos hmagic, ← hself]
      exact hbad _ h
    rw [if_neg hmagic, wp_bind, wp_get, wp_bind] at h
    rw [if_neg hmagic, wp_bind, wp_get, wp_bind, wp_onKernel, hkernel]
    refine wp_imp h fun r k₁ h₁ => ?_
    cases r with
    | none => exact hbad k₁ h₁
    | some pagetable =>
      dsimp only at h₁ ⊢
      rw [wp_bind] at h₁
      rw [wp_bind, wp_onKernel, setKernel_kernel]
      refine wp_imp h₁ fun r k₂ h₂ => ?_
      obtain ⟨sz, ok⟩ := r
      cases ok with
      | true =>
        rw [if_pos rfl] at h₂ ⊢
        rw [wp_bind, endOp, wp_modify, setKernel_setKernel, hend]
        rw [wp_bind] at h₂
        refine wp_buildStack (wp_imp h₂ ?_)
        rintro (_ | sz1) k₃ h₃
        · exact h₃
        · exact h₃
      | false =>
        rw [if_neg Bool.false_ne_true, wp_bind, execBad, wp_bind] at h₂
        rw [if_neg Bool.false_ne_true, bad, wp_bind, wp_onKernel, setKernel_kernel]
        refine wp_imp h₂ fun _ k₃ h₃ => ?_
        rw [if_pos rfl, wp_bind, endOp, wp_modify, setKernel_setKernel,
          setKernel_setKernel, hend, wp_pure]
        exact h₃

/-! ### Safe and atomic -/

/-- The allocator will give out `j` more pages, and then fail. -/
def starve (w : Launch) (j : ℕ) : Launch := w.setKernel (w.kernel.starve j)

/-- **What a failed `exec` leaves.** The process table is the same: page table, size and trapframe
of every process are at the same place, and nobody's page has been written. -/
structure Unlaunched (w w' : Launch) : Prop where
  proc : w'.kernel.proc = w.kernel.proc
  memory : Untouched (spaces w.kernel) (held w.kernel) w.kernel.vm w'.kernel.vm
  contents : ∀ q ∈ spaces w.kernel, ∀ u < userPages, KeepsAt w.kernel.vm w'.kernel.vm q.root u
  free : (w'.kernel.vm.kmem.freelist : Multiset ℕ) = w.kernel.vm.kmem.freelist
  name : w'.name = w.name
  outstanding : w'.outstanding = w.outstanding

/-- **What a successful `exec` leaves.** The old image, with root `old`, has been freed: its pages
are on the free list, no entry of the frame table is about them, and its swap slots are free. -/
structure Replaced (me : Fin nproc) (old : ℕ) (w w' : Launch) : Prop where
  pages : ∀ x ∈ footprint w.kernel.vm.kmem.mem (spaceOf w.kernel me old),
    x ∈ w'.kernel.vm.kmem.freelist
  frames : ∀ i, (w'.kernel.vm.ftable i).used = true →
    (w'.kernel.vm.ftable i).pa ∉ footprint w.kernel.vm.kmem.mem (spaceOf w.kernel me old)
  slots : ∀ u < userPages, ∀ slot : Fin maxSwapSlots,
    lookup w.kernel.vm.kmem.mem old u = swappedPte slot →
    (w'.kernel.vm.swapArea slot).used = false
  outstanding : w'.outstanding = w.outstanding

/-- **`exec` is safe and atomic**, for every file, for all arguments shorter than a page, and
wherever the allocator starts to fail: it ends, without a panic. The array `ustack` has room for
fewer than `MAXARG` arguments and the null pointer after them. -/
theorem exec_safe_and_atomic {b : Boot} (hw : Reachable b w.kernel)
    (hme : (w.kernel.proc me).state = .running) (j : ℕ) (fs : List Byte → Option (List Byte))
    (path : List Byte) (argv : List (List Byte)) (_hargc : argv.length < maxarg)
    (hargs : ∀ s ∈ argv, s.length < pgsize) :
    ∃ old r w', (w.kernel.proc me).pagetable = some old ∧
      kexec me fs path argv (w.starve j) = .ok (r, w') ∧
      (r = none ∧ Unlaunched (w.starve j) w' ∨
        r = some argv.length ∧ Replaced me old (w.starve j) w') := by
  obtain ⟨hinv, hc⟩ := hw.ok
  obtain ⟨⟨old, hroot⟩, tf, htf⟩ := hc me (by rw [hme]; exact ProcState.noConfusion)
  have hcut : KInv _ (w.starve j).kernel := hinv.starve j
  have hspec : wp (kexec me fs path argv) (fun r w' =>
      r = none ∧ Unlaunched (w.starve j) w' ∨
        r = some argv.length ∧ Replaced me old (w.starve j) w') (fun _ => False) (w.starve j) := by
    refine wp_kexec (kexec_spec hcut hroot htf hargs (fun k' hu _ => Or.inl ⟨rfl, ?_⟩)
      fun root n k' he _ => Or.inr ⟨rfl, ?_⟩)
    · have hfree := hu.free_eq hcut
      have hmem := hu.memory
      obtain ⟨v, rfl, hkeep⟩ := hu.same
      exact ⟨rfl, hmem.mono (fun _ hq => hq) fun _ hy => Multiset.mem_add.mpr (Or.inr hy),
        hkeep.same, hfree, rfl, rfl⟩
    · refine ⟨he.freed old hroot, fun i hi hx => ?_, fun u hu slot hs =>
        he.slots old hroot u trivial hu slot hs, rfl⟩
      exact he.inv.vm.frame_notMem_free hi (he.freed old hroot _ hx)
  obtain ⟨r, w', hrun, hr⟩ := exists_of_wp hspec
  exact ⟨old, r, w', hroot, hrun, hr⟩

/-- The first process replaces itself by `/init` once more, with one argument, when there are twenty
pages left. These are enough. -/
theorem exec_safe_and_atomic_small : ∃ (w : Launch) (me : Fin nproc) (old : ℕ) (w' : Launch),
    Reachable .small w.kernel ∧ (w.kernel.proc me).state = .running ∧
    kexec me (fun _ => some Boot.small.init) initPath [initPath] (w.starve 20)
      = .ok (some 1, w') ∧ Replaced me old (w.starve 20) w' := by
  obtain ⟨me, root, k, hboot, hb, hfree⟩ := Boot.small_boots
  obtain ⟨old, r, w', hroot, hrun, hr⟩ := exec_safe_and_atomic (w := ⟨k, fun _ => [], 0⟩)
    (.boot hboot) hb.state 20 (fun _ => some Boot.small.init) initPath [initPath]
    (by decide) (by decide)
  obtain ⟨hinv, hc⟩ := (Reachable.boot hboot).ok
  obtain ⟨-, tf, htf⟩ := hc me hb.live
  have hroom : (k.starve 20).freePages = 20 := List.length_take_of_le (by
    rw [Kernel.freePages] at hfree
    omega)
  have hsome : r ≠ none := by
    refine (wp_of_ok hrun).mp (wp_kexec (Q := fun r _ => r ≠ none) (E := fun _ => False)
      (kexec_spec (hinv.starve 20) hroot htf (by decide) (fun _ _ hshort => ?_)
        fun _ _ _ _ _ => Option.some_ne_none _))
    have hshort := hshort ⟨_, rfl, Boot.small_segmentless⟩
    rw [hroom] at hshort
    exact absurd hshort (by decide)
  obtain ⟨rfl, hreplaced⟩ := hr.resolve_left fun hnone => hsome hnone.1
  exact ⟨⟨k, fun _ => [], 0⟩, me, old, w', .boot hboot, hb.state, hrun, hreplaced⟩

end Launch

end Xv6
