import Xv6.System

/-!
# What memory management leaves alone

Paging, copies between kernel and user memory, `sbrk` and `exec` change memory, the page table and
the size of a process and its statistics. They change nothing that a process is as such (its state,
its number, its family) and none of its descriptors, and they do not know about open files. An
observation of the kernel that depends on such things only is the same before and after each of
them, and this file says so for each function once.
-/

namespace Xv6

open Prog

/-- What an entry of the process table says about the process. -/
structure Mark where
  state : ProcState
  pid : ℤ
  killed : Bool
  parent : Option (Fin nproc)
  xstate : ℤ

/-- The mark of an entry. -/
def Proc.mark (p : Proc) : Mark := ⟨p.state, p.pid, p.killed, p.parent, p.xstate⟩

/-- The mark of an entry and the descriptors of the process. -/
def Proc.life (p : Proc) : Mark × (Fin nofile → Option (Fin nfile)) := (p.mark, p.ofile)

/-- An observation to which memory, page tables and statistics do not matter. -/
structure Aside {β : Type} (o : Kernel → β) : Prop where
  setVm : ∀ (k : Kernel) (v : Vm), o (k.setVm v) = o k
  setProc : ∀ (k : Kernel) (i : Fin nproc) (p : Proc), p.life = (k.proc i).life →
    o (k.setProc i p) = o k

/-- What the kernel does not keep and the accounts are about. -/
def Vm.notes (v : Vm) : Bool × (ℤ → ℤ) := (v.lost, v.uncounted)

/-- An observation of memory that depends on these notes only. -/
structure OfNotes {β : Type} (o : Kernel → β) : Prop where
  setVm : ∀ (k : Kernel) (v : Vm), v.notes = k.vm.notes → o (k.setVm v) = o k
  setProc : ∀ (k : Kernel) (i : Fin nproc) (p : Proc), p.life = (k.proc i).life →
    o (k.setProc i p) = o k

/-- The marks of all processes. -/
def Kernel.marks (k : Kernel) (i : Fin nproc) : Mark := (k.proc i).mark

theorem Kernel.marks_aside : Aside Kernel.marks where
  setVm _ _ := rfl
  setProc k i p h := by
    funext j
    by_cases hj : j = i
    · rw [hj]
      exact (congrArg Proc.mark (Kernel.setProc_proc_self k i p)).trans (congrArg Prod.fst h)
    · exact congrArg Proc.mark (Kernel.setProc_proc_of_ne k p hj)

variable {β : Type} {o : Kernel → β} {me : Fin nproc}

theorem Aside.ofNotes (ho : Aside o) : OfNotes o := ⟨fun k v _ => ho.setVm k v, ho.setProc⟩

section OfNotes

variable (ho : OfNotes o)
include ho

theorem OfNotes.onVm {α : Type} {x : Prog Vm α} (hx : Leaves Vm.notes x) : Leaves o (onVm x) :=
  fun k => wp_onVm.mpr (wp_imp (hx k.vm) fun _ v hv => ho.setVm k v hv)

theorem OfNotes.onKmem {α : Type} (x : Prog Kmem α) : Leaves o (Xv6.onVm (Xv6.onKmem x)) :=
  ho.onVm (leaves_zoom (fun _ _ => rfl) x)

theorem OfNotes.updateProc {f : Proc → Proc} (hf : ∀ p, (f p).life = p.life) (i : Fin nproc) :
    Leaves o (Xv6.updateProc i f) :=
  leaves_modify fun k => ho.setProc k i _ (hf _)

theorem clockSelect_leaves : Leaves o clockSelect := by
  refine leaves_get fun k => ?_
  dsimp only
  split
  · exact leaves_bind (leaves_modify fun _ => ho.setVm _ _ (by rfl)) fun _ => leaves_pure _
  · exact leaves_bind (leaves_modify fun _ => ho.setVm _ _ (by rfl)) fun _ => leaves_pure _

theorem clockEvict_leaves : Leaves o clockEvict := by
  refine leaves_bind_option (clockSelect_leaves ho) (leaves_pure _) fun saved => ?_
  refine leaves_bind_option (ho.onVm (leaves_swapOut (fun _ _ _ => rfl) _ _ _)) (leaves_panic _)
    fun slot => ?_
  exact leaves_bind (leaves_evictRewrite ho.onKmem (ho.updateProc fun _ => rfl) saved slot)
    fun _ => (ho.onKmem _).ret

theorem kallocElseEvict_leaves : Leaves o kallocElseEvict := by
  refine leaves_bind_option (ho.onKmem _) ?_ fun mem => leaves_pure _
  exact leaves_bind (clockEvict_leaves ho) fun freed => leaves_guard (ho.onKmem _)

theorem kallocOrEvict_leaves : Leaves o kallocOrEvict := by
  refine leaves_get fun k => leaves_ite ?_ (kallocElseEvict_leaves ho)
  exact leaves_bind (clockEvict_leaves ho) fun freed =>
    leaves_guard (kallocElseEvict_leaves ho)

theorem vmfaultLazy_leaves (pagetable pageVa : ℕ) :
    Leaves o (vmfaultLazy me pagetable pageVa) := by
  refine leaves_bind_option (kallocOrEvict_leaves ho) (leaves_pure _) fun mem => ?_
  refine leaves_bind (ho.onKmem _) fun _ => leaves_bind (ho.onKmem _) fun ok =>
    leaves_ite ?_ (ho.onKmem _).ret
  exact leaves_get fun k => leaves_bind (ho.onVm (leaves_frametableAdd (fun _ _ _ => rfl) _ _ _))
    fun _ => (ho.updateProc (fun _ => by rfl) me).ret

variable (hadd : ∀ pa pid va, Leaves o (onVm (frametableAddUncounted pa pid va)))
include hadd

theorem vmfaultSwapped_leaves (pagetable pageVa slot : ℕ) :
    Leaves o (vmfaultSwapped me pagetable pageVa slot) := by
  refine leaves_bind_option (kallocOrEvict_leaves ho) (leaves_pure _) fun mem => ?_
  refine leaves_bind (ho.onVm (leaves_swapIn (fun _ _ => rfl) _ _)) fun ok =>
    leaves_ite ?_ (ho.onKmem _).ret
  refine leaves_bind (ho.onVm (leaves_swapFree (fun _ _ _ => rfl) _)) fun _ =>
    leaves_bind (ho.onKmem _) fun ok => leaves_ite ?_ (ho.onKmem _).ret
  exact leaves_get fun k => leaves_bind (hadd _ _ _) fun _ =>
    (ho.updateProc (fun _ => by rfl) me).ret

theorem vmfault_leaves (pagetable va : ℕ) :
    Leaves o (vmfault me pagetable va) := by
  refine leaves_get fun k => leaves_guard ?_
  refine leaves_bind_option (ho.onKmem _) (vmfaultLazy_leaves ho _ _) fun pte => ?_
  exact leaves_bind (ho.onKmem _) fun e =>
    leaves_ite (vmfaultSwapped_leaves ho hadd _ _ _) (vmfaultLazy_leaves ho _ _)

end OfNotes

variable (ho : Aside o)
include ho

theorem onVm_leaves {α : Type} (x : Prog Vm α) : Leaves o (onVm x) :=
  leaves_zoom (fun k v => ho.setVm k v) x

theorem leaves_vm {α γ : Type} {x : Prog Vm α} {f : α → Prog Kernel γ}
    (hf : ∀ a, Leaves o (f a)) : Leaves o (onVm x >>= f) :=
  leaves_bind (onVm_leaves ho x) hf

theorem updateProc_leaves {f : Proc → Proc} (hf : ∀ p, (f p).life = p.life) (i : Fin nproc) :
    Leaves o (updateProc i f) :=
  ho.ofNotes.updateProc hf i

theorem vmfaultAlloc_leaves (pagetable va : ℕ) :
    Leaves o (vmfaultAlloc me pagetable va) := by
  refine leaves_get fun k => leaves_guard ?_
  refine leaves_vm ho fun mapped => leaves_guard ?_
  refine leaves_bind_option (kallocOrEvict_leaves ho.ofNotes) (leaves_pure _) fun mem => ?_
  refine leaves_get fun k => leaves_vm ho fun _ =>
    leaves_vm ho fun _ => leaves_vm ho fun ok =>
    leaves_ite ?_ (leaves_vm ho fun _ => leaves_pure _)
  exact leaves_get fun k => leaves_vm ho fun _ =>
    leaves_pure _

theorem copyFrame_leaves (pagetable va0 : ℕ) :
    Leaves o (copyFrame me pagetable va0) :=
  leaves_bind_option (onVm_leaves ho _) (vmfaultAlloc_leaves ho _ _) fun _ => leaves_pure _

omit ho in
theorem copyinMove_leaves (pa0 off n : ℕ) : Leaves o (copyinMove pa0 off n) :=
  leaves_get fun _ => leaves_pure _

theorem copyoutFrom_leaves (pagetable : ℕ) : ∀ (fuel dstva : ℕ) (src : List Byte),
    Leaves o (copyoutFrom me pagetable fuel dstva src) := by
  intro fuel
  induction fuel with
  | zero => exact fun _ _ => leaves_pure _
  | succ fuel ih =>
    intro dstva src
    refine leaves_guard (leaves_guard ?_)
    refine leaves_bind_option (copyFrame_leaves ho _ _) (leaves_pure _) fun pa0 => ?_
    refine leaves_bind_option (onVm_leaves ho _) (leaves_panic _) fun pte => ?_
    exact leaves_vm ho fun e => leaves_guard (leaves_vm ho fun _ => ih _ _)

theorem copyinFrom_leaves (pagetable : ℕ) : ∀ fuel srcva len : ℕ,
    Leaves o (copyinFrom me pagetable fuel srcva len) := by
  intro fuel
  induction fuel with
  | zero => exact fun _ _ => leaves_pure _
  | succ fuel ih =>
    intro srcva len
    refine leaves_guard
      (leaves_bind_option (copyFrame_leaves ho _ _) (leaves_pure _) fun pa0 => ?_)
    exact leaves_bind (copyinMove_leaves _ _ _) fun bytes =>
      leaves_bind_option (ih _ _) (leaves_pure _) fun rest => leaves_pure _

theorem copyinstrFrom_leaves (pagetable : ℕ) : ∀ fuel srcva max : ℕ,
    Leaves o (copyinstrFrom pagetable fuel srcva max) := by
  intro fuel
  induction fuel with
  | zero => exact fun _ _ => leaves_pure _
  | succ fuel ih =>
    intro srcva max
    refine leaves_guard
      (leaves_bind_option (onVm_leaves ho _) (leaves_pure _) fun pa0 => ?_)
    exact leaves_bind (copyinMove_leaves _ _ _) fun bytes => leaves_guard
      (leaves_bind_option (ih _ _) (leaves_pure _) fun rest => leaves_pure _)

theorem loadsegFrom_leaves (pagetable va : ℕ) (file : List Byte) (offset sz : ℕ) : ∀ n i : ℕ,
    Leaves o (loadsegFrom pagetable va file offset sz n i) := by
  intro n
  induction n with
  | zero => exact fun _ => leaves_pure _
  | succ n ih =>
    intro i
    refine leaves_bind_option (onVm_leaves ho _) (leaves_panic _) fun pa => ?_
    exact leaves_vm ho fun _ => leaves_guard (ih _)

theorem execLoad_leaves (pagetable : ℕ) (file : List Byte) : ∀ n off sz : ℕ,
    Leaves o (execLoad pagetable file n off sz) := by
  intro n
  induction n with
  | zero => exact fun _ _ => leaves_pure _
  | succ n ih =>
    intro off sz
    refine leaves_guard (leaves_ite (ih _ _) (leaves_guard (leaves_guard (leaves_guard ?_))))
    refine leaves_vm ho fun sz1 => leaves_guard ?_
    exact leaves_bind (loadsegFrom_leaves ho _ _ _ _ _ _ _) fun ok =>
      leaves_ite (ih _ _) (leaves_pure _)

theorem execArgs_leaves (pagetable stackbase : ℕ) : ∀ argv sp ustack,
    Leaves o (execArgs me pagetable stackbase argv sp ustack) := by
  intro argv
  induction argv with
  | nil => exact fun _ _ => leaves_pure _
  | cons s rest ih =>
    intro sp ustack
    refine leaves_guard (leaves_guard ?_)
    exact leaves_bind (copyoutFrom_leaves ho _ _ _ _) fun ok =>
      leaves_ite (ih _ _) (leaves_pure _)

theorem execBad_leaves (pagetable sz : ℕ) : Leaves o (execBad pagetable sz) :=
  leaves_vm ho fun _ => leaves_pure _

theorem execCommit_leaves (pagetable sz sp entry argc : ℕ) :
    Leaves o (execCommit me pagetable sz sp entry argc) :=
  leaves_get fun _ => leaves_vm ho fun _ =>
    leaves_bind (updateProc_leaves ho (fun _ => by rfl) me) fun _ =>
    leaves_vm ho fun _ => leaves_vm ho fun _ =>
    leaves_vm ho fun _ => leaves_pure _

theorem execGuard_leaves (pagetable sz : ℕ) : Leaves o (execGuard pagetable sz) := by
  refine leaves_vm ho fun sz1 => leaves_ite (execBad_leaves ho _ _) ?_
  -- the difference is never to be computed
  generalize sz1 - 2 * pgsize = guard
  exact leaves_vm ho fun _ => leaves_pure _

theorem execImage_leaves (file : Option (List Byte)) : Leaves o (execImage me file) := by
  cases file with
  | none => exact leaves_pure _
  | some file =>
    refine leaves_guard (leaves_guard ?_)
    refine leaves_get fun k =>
      leaves_bind_option (onVm_leaves ho _) (leaves_pure _) fun pagetable => ?_
    exact leaves_bind (execLoad_leaves ho _ _ _ _ _) fun r => leaves_ite
      (leaves_bind_option (execGuard_leaves ho _ _) (leaves_pure _) fun _ => leaves_pure _)
      (leaves_bind_option (execBad_leaves ho _ _) (leaves_pure _) fun _ => leaves_pure _)

theorem execBlock_leaves (pagetable sz1 : ℕ) (argv : List (List Byte)) :
    Leaves o (execBlock me pagetable sz1 argv) := by
  rw [execBlock]
  generalize sz1 - pgsize = stackbase
  exact leaves_bind_option (execArgs_leaves ho _ _ _ _ _) (leaves_pure _) fun r =>
    leaves_guard (leaves_bind (copyoutFrom_leaves ho _ _ _ _)
      fun ok => leaves_guard (leaves_pure _))

theorem kexec_leaves (file : Option (List Byte)) (argv : List (List Byte)) :
    Leaves o (kexec me file argv) :=
  leaves_bind_option (execImage_leaves ho file) (leaves_pure _) fun _ =>
    leaves_bind_option (execBlock_leaves ho _ _ _) (execBad_leaves ho _ _)
      fun _ => execCommit_leaves ho _ _ _ _ _

theorem fetchaddr_leaves (addr : ℕ) : Leaves o (fetchaddr me addr) := by
  refine leaves_get fun k => leaves_guard ?_
  exact leaves_bind_option (copyinFrom_leaves ho _ _ _ _) (leaves_pure _) fun bytes =>
    leaves_pure _

theorem fetchstr_leaves (addr max : ℕ) : Leaves o (fetchstr me addr max) :=
  leaves_get fun _ => copyinstrFrom_leaves ho _ _ _ _

theorem fetchArgs_leaves (uargv : ℕ) : ∀ n pages argv,
    Leaves o (fetchArgs me uargv n pages argv) := by
  intro n
  induction n with
  | zero => exact fun _ _ => leaves_pure _
  | succ n ih =>
    intro pages argv
    refine leaves_bind_option (fetchaddr_leaves ho _) (leaves_pure _) fun uarg => ?_
    refine leaves_guard
      (leaves_bind_option (onVm_leaves ho _) (leaves_pure _) fun page => ?_)
    exact leaves_bind_option (fetchstr_leaves ho _ _) (leaves_pure _) fun s =>
      leaves_vm ho fun _ => ih _ _

theorem sysExec_leaves (fs : List Byte → Option (List Byte)) (path uargv : ℕ) :
    Leaves o (sysExec me fs path uargv) := by
  refine leaves_bind_option (fetchstr_leaves ho _ _) (leaves_pure _) fun path => ?_
  refine leaves_bind (fetchArgs_leaves ho _ _ _ _) fun ⟨pages, argv⟩ => ?_
  have hlast : ∀ ret : Option ℕ, Leaves o (do
      forEach pages fun page => onVm (onKmem (kfree page))
      return ret) := fun _ => leaves_bind
    (leaves_forEach (fun _ => onVm_leaves ho _) _) fun _ => leaves_pure _
  cases argv with
  | none => exact hlast none
  | some argv => exact leaves_bind (kexec_leaves ho _ _) hlast

theorem growproc_leaves (n : ℤ) : Leaves o (growproc me n) := by
  refine leaves_get fun k => leaves_ite (leaves_guard (leaves_vm ho fun sz => leaves_guard ?_))
    (leaves_ite (leaves_vm ho fun sz => ?_) (leaves_pure _))
  · exact (updateProc_leaves ho (fun _ => by rfl) me).ret
  · exact (updateProc_leaves ho (fun _ => by rfl) me).ret

theorem sysSbrk_leaves (n : ℤ) (eager : Bool) : Leaves o (sysSbrk me n eager) := by
  refine leaves_get fun k => leaves_ite ?_ (leaves_guard (leaves_guard ?_))
  · exact leaves_bind (growproc_leaves ho n) fun ok => leaves_guard (leaves_pure _)
  · exact (updateProc_leaves ho (fun _ => by rfl) me).ret

end Xv6
