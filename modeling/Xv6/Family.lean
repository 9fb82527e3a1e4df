import Xv6.Aside
import Xv6.Sched
import Xv6.Twins

/-!
# The processes and the rest of the kernel

An entry of the process table says what state a process is in, its number, whether it has been
killed, who its parent is and how it exited. Memory management leaves all this alone, and so do
open files. What remains are the few functions that are about processes: each of them has an
equation here for the table it leaves behind.
-/

namespace Xv6

open Prog Function

/-! ### What memory management and files leave alone -/

/-- The part of the process table that is about processes as such. -/
structure Family where
  mark : Fin nproc → Mark
  initproc : Option (Fin nproc)

/-- Replace an entry. -/
def Family.set (f : Family) (i : Fin nproc) (m : Mark) : Family :=
  { f with mark := update f.mark i m }

@[simp] theorem Family.set_mark_self (f : Family) (i : Fin nproc) (m : Mark) :
    (f.set i m).mark i = m := update_self ..

theorem Family.set_mark_of_ne (f : Family) {i j : Fin nproc} (m : Mark) (h : j ≠ i) :
    (f.set i m).mark j = f.mark j := update_of_ne h _ _

@[simp] theorem Family.set_set (f : Family) (i : Fin nproc) (m m' : Mark) :
    (f.set i m).set i m' = f.set i m' := by
  simp [set]

@[simp] theorem Family.set_self (f : Family) (i : Fin nproc) : f.set i (f.mark i) = f := by
  simp [set]

/-- The processes of a kernel. -/
def Kernel.family (k : Kernel) : Family := ⟨fun i => (k.proc i).mark, k.initproc⟩

section Leave

variable {me : Fin nproc}

theorem Kernel.family_setProc (k : Kernel) (i : Fin nproc) (p : Proc) :
    (k.setProc i p).family = k.family.set i p.mark := by
  have hmark : (k.setProc i p).family.mark = (k.family.set i p.mark).mark := by
    funext j
    by_cases hj : j = i
    · rw [hj, Family.set_mark_self]
      exact congrArg Proc.mark (Kernel.setProc_proc_self k i p)
    · rw [Family.set_mark_of_ne _ _ hj]
      exact congrArg Proc.mark (Kernel.setProc_proc_of_ne k p hj)
  exact congrArg (Family.mk · k.initproc) hmark

theorem updateProc_family {f : Proc → Proc} (hf : ∀ p, (f p).mark = p.mark) (i : Fin nproc) :
    Leaves Kernel.family (updateProc i f) :=
  leaves_modify fun k => by
    rw [Kernel.family_setProc, hf]
    exact Family.set_self k.family i

theorem Kernel.family_aside : Aside Kernel.family where
  setVm _ _ := rfl
  setProc k i p h := congrArg (Family.mk · k.initproc) (Kernel.marks_aside.setProc k i p h)

theorem updateFile_family (f : Fin nfile) (g : File → File) :
    Leaves Kernel.family (updateFile f g) :=
  leaves_modify fun _ => rfl

theorem filealloc_family : Leaves Kernel.family filealloc := by
  refine leaves_get fun k => ?_
  split
  · exact leaves_pure _
  · exact (updateFile_family _ _).ret

theorem filedup_family (f : Fin nfile) : Leaves Kernel.family (filedup f) :=
  leaves_get fun _ =>
    leaves_ite (leaves_panic _) (updateFile_family _ _)

theorem pipeclose_family (pi : ℕ) (writable : Bool) :
    Leaves Kernel.family (pipeclose pi writable) := by
  refine leaves_get fun k =>
    leaves_bind (leaves_modify fun _ => rfl) fun _ => ?_
  exact leaves_ite (onVm_leaves Kernel.family_aside _) (leaves_pure _)

theorem fileclose_family (f : Fin nfile) : Leaves Kernel.family (fileclose f) := by
  refine leaves_get fun k => leaves_ite (leaves_panic _)
    (leaves_ite (updateFile_family _ _) (leaves_bind (updateFile_family _ _) fun _ => ?_))
  exact leaves_ite (pipeclose_family _ _) (leaves_pure _)

theorem pipealloc_family : Leaves Kernel.family pipealloc := by
  refine leaves_bind_option filealloc_family (leaves_pure _) fun f0 => ?_
  refine leaves_bind_option filealloc_family
    (fileclose_family f0).ret fun f1 => ?_
  refine leaves_bind_option (onVm_leaves Kernel.family_aside _)
    (leaves_bind (fileclose_family f0) fun _ =>
      (fileclose_family f1).ret) fun pi => ?_
  refine leaves_bind ?_ fun _ => leaves_pure _
  exact leaves_bind (leaves_modify fun _ => rfl) fun _ =>
    leaves_bind (updateFile_family _ _) fun _ => updateFile_family _ _

theorem fdalloc_family (f : Fin nfile) : Leaves Kernel.family (fdalloc me f) := by
  refine leaves_get fun k => ?_
  split
  · exact leaves_pure _
  · exact (updateProc_family (fun _ => by rfl) me).ret

theorem fdclear_family (fd : Fin nofile) : Leaves Kernel.family (fdclear me fd) :=
  updateProc_family (fun _ => by rfl) me

theorem sysPipe_family (fdarray : ℕ) : Leaves Kernel.family (sysPipe me fdarray) := by
  have hclose : ∀ rf wf : Fin nfile, Leaves Kernel.family (do
      fileclose rf
      fileclose wf
      return false) := fun rf wf => leaves_bind (fileclose_family rf) fun _ =>
    (fileclose_family wf).ret
  refine leaves_bind pipealloc_family fun r => ?_
  rcases r with _ | ⟨rf, wf⟩
  · exact leaves_pure _
  · refine leaves_bind_option (fdalloc_family rf) (hclose rf wf) fun fd0 => ?_
    refine leaves_bind_option (fdalloc_family wf)
      (leaves_bind (fdclear_family fd0) fun _ => hclose rf wf) fun fd1 => ?_
    refine leaves_get fun k => leaves_bind
      (copyoutFrom_leaves Kernel.family_aside _ _ _ _) fun ok => ?_
    have hlast : ∀ copied : Bool, Leaves Kernel.family (if copied then pure true else do
        fdclear me fd0
        fdclear me fd1
        fileclose rf
        fileclose wf
        return false) := fun copied => leaves_guard
      (leaves_bind (fdclear_family fd0) fun _ =>
        leaves_bind (fdclear_family fd1) fun _ => hclose rf wf)
    cases ok with
    | true => exact leaves_bind (copyoutFrom_leaves Kernel.family_aside _ _ _ _) hlast
    | false => exact hlast false

theorem sysDup_family (fd : Fin nofile) : Leaves Kernel.family (sysDup me fd) := by
  refine leaves_get fun k => ?_
  cases (k.proc me).ofile fd with
  | none => exact leaves_pure _
  | some f =>
    exact leaves_bind_option (fdalloc_family f) (leaves_pure _) fun fd =>
      (filedup_family f).ret

theorem sysClose_family (fd : Fin nofile) : Leaves Kernel.family (sysClose me fd) := by
  refine leaves_get fun k => ?_
  cases (k.proc me).ofile fd with
  | none => exact leaves_pure _
  | some f =>
    exact leaves_bind (fdclear_family fd) fun _ =>
      (fileclose_family f).ret

theorem sysOpen_family (device readable writable : Bool) :
    Leaves Kernel.family (sysOpen me device readable writable) := by
  refine leaves_bind_option filealloc_family (leaves_pure _) fun f => ?_
  exact leaves_bind_option (fdalloc_family f)
    (fileclose_family f).ret fun fd =>
    (updateFile_family _ _).ret

theorem closeFiles_family : Leaves Kernel.family (closeFiles me) := by
  refine leaves_forEach (fun fd => leaves_get fun k => ?_) _
  cases (k.proc me).ofile fd with
  | none => exact leaves_pure _
  | some f => exact leaves_bind (fileclose_family f) fun _ => fdclear_family fd

theorem dupFiles_family (np : Fin nproc) : Leaves Kernel.family (dupFiles me np) := by
  refine leaves_forEach (fun fd => leaves_get fun k => ?_) _
  cases (k.proc me).ofile fd with
  | none => exact leaves_pure _
  | some f =>
    exact leaves_bind (filedup_family f) fun _ => updateProc_family (fun _ => by rfl) np

end Leave

/-! ### Making and freeing processes -/

/-- What `freeproc` leaves in an entry. -/
def Mark.free : Mark := ⟨.unused, 0, false, none, 0⟩

/-- The entry that `allocproc` takes. -/
def Kernel.firstUnused (k : Kernel) : Option (Fin nproc) :=
  Table.first fun j => (k.proc j).state == .unused

/-- No process was made. If there was an entry for it, the entry has been cleared. -/
def Unborn (k k' : Kernel) : Prop :=
  k'.family = k.firstUnused.elim k.family fun i => k.family.set i .free

/-- A process was made in the first entry that was not in use. Only its state and its number are
new. -/
def Born (state : ProcState) (k : Kernel) (i : Fin nproc) (k' : Kernel) : Prop :=
  k.firstUnused = some i ∧
    k'.family = k.family.set i { k.family.mark i with state := state, pid := k.nextpid }

section Make

variable {k k' : Kernel} {me i : Fin nproc}

theorem state_of_firstUnused (h : k.firstUnused = some i) : (k.proc i).state = .unused := by
  simpa using Table.of_first h

theorem freeproc_family (i : Fin nproc) (k : Kernel) :
    wp (freeproc i) (fun _ k' => k'.family = k.family.set i .free) (fun _ => True) k := by
  have htf : ∀ tf, Leaves Kernel.family (freeTrapframe tf) := fun tf => by
    cases tf with
    | none => exact leaves_pure _
    | some tf => exact onVm_leaves Kernel.family_aside _
  have hpt : ∀ sz pt, Leaves Kernel.family (freePagetable sz pt) := fun sz pt => by
    cases pt with
    | none => exact leaves_pure _
    | some pt => exact onVm_leaves Kernel.family_aside _
  rw [freeproc, wp_bind, wp_get]
  refine wp_seq (htf _ k) fun _ k₁ h₁ => ?_
  refine wp_seq (hpt _ _ k₁) fun _ k₂ h₂ => ?_
  rw [wp_updateProc, Kernel.family_setProc, h₂, h₁]
  rfl

theorem Born.abandon {state : ProcState} (h : Born state k i k') {α : Type} (r : α) :
    wp (do
      freeproc i
      return r) (fun a k'' => a = r ∧ Unborn k k'') (fun _ => True) k' := by
  refine wp_seq (freeproc_family i k') fun _ k'' hk => ⟨rfl, ?_⟩
  rw [Unborn, hk, h.2, h.1, Family.set_set]
  rfl

theorem Born.of_family {state : ProcState} {k'' : Kernel} (h : Born state k i k')
    (hm : k''.family = k'.family) : Born state k i k'' :=
  ⟨h.1, hm.trans h.2⟩

theorem allocproc_family (k : Kernel) :
    wp allocproc (fun r k' => (r = none ∧ Unborn k k') ∨ ∃ i, r = some i ∧ Born .used k i k')
      (fun _ => True) k := by
  rw [allocproc, wp_bind, wp_get]
  rw [← Kernel.firstUnused]
  cases hfirst : k.firstUnused with
  | none =>
    refine Or.inl ⟨rfl, ?_⟩
    rw [Unborn, hfirst]
    rfl
  | some i =>
    dsimp only
    rw [wp_bind, allocpid, wp_bind, wp_get, wp_bind, wp_modify,
      wp_pure, wp_bind, wp_updateProc, wp_bind]
    generalize hk₁ : Kernel.setProc _ i _ = k₁
    have hborn : Born .used k i k₁ := by
      refine ⟨hfirst, ?_⟩
      rw [← hk₁, Kernel.family_setProc]
      rfl
    refine wp_imp (onVm_leaves Kernel.family_aside _ k₁) fun tf k₂ h₂ => ?_
    refine wp_seq (updateProc_family (fun _ => by rfl) i k₂) fun _ k₃ h₃ => ?_
    have hborn₃ := (hborn.of_family h₂).of_family h₃
    cases tf with
    | none => exact wp_imp (hborn₃.abandon none) fun _ _ => Or.inl
    | some tf =>
      refine wp_seq (onVm_leaves Kernel.family_aside _ k₃) fun pagetable k₄ h₄ => ?_
      refine wp_seq (updateProc_family (fun _ => by rfl) i k₄) fun _ k₅ h₅ => ?_
      have hborn₅ := (hborn₃.of_family h₄).of_family h₅
      cases pagetable with
      | none => exact wp_imp (hborn₅.abandon none) fun _ _ => Or.inl
      | some root => exact Or.inr ⟨i, rfl, hborn₅⟩

/-! ### `fork` and the family -/

theorem forkMake_family (me : Fin nproc) (k : Kernel) :
    wp (forkMake me) (fun r k' => (r = none ∧ Unborn k k') ∨
      ∃ i, r = some (i, k.nextpid) ∧ Born .used k i k') (fun _ => True) k := by
  rw [forkMake]
  refine wp_seq (allocproc_family k) fun r k₁ h₁ => ?_
  rcases h₁ with ⟨rfl, hun⟩ | ⟨np, rfl, hborn⟩
  · exact Or.inl ⟨rfl, hun⟩
  · rw [wp_bind, wp_get]
    dsimp only
    refine wp_seq (onVm_leaves Kernel.family_aside _ k₁) fun ok k₂ h₂ => ?_
    have hborn₂ := hborn.of_family h₂
    cases ok with
    | false => exact wp_imp (hborn₂.abandon none) fun _ _ => Or.inl
    | true =>
      rw [if_pos rfl]
      refine wp_seq (updateProc_family (fun _ => by rfl) np k₂) fun _ k₃ h₃ => ?_
      refine wp_seq (onVm_leaves Kernel.family_aside _ k₃) fun _ k₄ h₄ => ?_
      refine wp_seq (onVm_leaves Kernel.family_aside _ k₄) fun _ k₅ h₅ => ?_
      refine wp_seq (dupFiles_family np k₅) fun _ k₆ h₆ => Or.inr ⟨np, ?_, ?_⟩
      · have hmark : (k₁.proc np).mark = (k₁.family).mark np := rfl
        rw [hborn.2, Family.set_mark_self] at hmark
        exact congrArg (fun m : Mark => some (np, m.pid)) hmark
      · exact (((hborn₂.of_family h₃).of_family h₄).of_family h₅).of_family h₆

theorem kfork_family (me : Fin nproc) (k : Kernel) :
    wp (kfork me) (fun r k' => (r = -1 ∧ Unborn k k') ∨ ∃ i, k.firstUnused = some i ∧
      k'.family = k.family.set i { k.family.mark i with
        state := .runnable, pid := k.nextpid, parent := some me }) (fun _ => True) k := by
  rw [kfork]
  refine wp_seq (forkMake_family me k) fun r k₁ h₁ => ?_
  rcases h₁ with ⟨rfl, hun⟩ | ⟨i, rfl, hborn⟩
  · exact Or.inl ⟨rfl, hun⟩
  · refine Or.inr ⟨i, hborn.1, ?_⟩
    have hmark : (k₁.proc i).mark = k₁.family.mark i := rfl
    rw [Kernel.family_setProc, Kernel.family_setProc, Family.set_set, hborn.2, Family.set_set]
    rw [hborn.2, Family.set_mark_self] at hmark
    refine congrArg (k.family.set i) ?_
    rw [Kernel.setProc_proc_self]
    change Mark.mk .runnable (k₁.proc i).mark.pid (k₁.proc i).mark.killed (some me)
      (k₁.proc i).mark.xstate = _
    rw [hmark]

/-! ### `exit` and `wait` -/

/-- The children of `me` now are init's. -/
def Family.orphaned (f : Family) (me : Fin nproc) : Family :=
  { f with
    mark := fun j =>
      if (f.mark j).parent = some me then { f.mark j with parent := f.initproc } else f.mark j }

theorem reparent_family (me : Fin nproc) (k : Kernel) :
    wp (reparent me) (fun _ k' => k'.family = k.family.orphaned me) (fun _ => False) k := by
  rw [reparent, wp_modify]
  refine congrArg (Family.mk · k.initproc) (funext fun j => ?_)
  change Proc.mark (if _ then _ else _) = if (k.proc j).parent = some me then _ else _
  split_ifs <;> rfl

theorem kexit_family (me : Fin nproc) (status : ℤ) (k : Kernel) :
    wp (kexit me status) (fun _ k' => k.initproc ≠ some me ∧
      k'.family = (k.family.orphaned me).set me { (k.family.orphaned me).mark me with
        state := .zombie, xstate := status }) (fun _ => True) k := by
  rw [kexit, wp_bind, wp_get]
  split_ifs with hinit
  · exact trivial
  · refine wp_seq (closeFiles_family k) fun _ k₁ h₁ => ?_
    rw [wp_bind]
    refine wp_mono (reparent_family me k₁) (fun _ k₂ h₂ => ?_) fun _ hf => hf.elim
    rw [h₁] at h₂
    rw [wp_updateProc, Kernel.family_setProc, ← h₂]
    exact ⟨hinit, rfl⟩

/-- The child that `wait` finds. -/
def Kernel.zombieChild (k : Kernel) (me : Fin nproc) : Option (Fin nproc) :=
  Table.first fun j => (k.proc j).parent == some me && (k.proc j).state == .zombie

theorem of_zombieChild (h : k.zombieChild me = some i) :
    (k.proc i).parent = some me ∧ (k.proc i).state = .zombie := by
  simpa using Table.of_first h

/-- A child was reaped: its status was copied out, unless nobody wants it, and its entry was
freed. -/
structure Reaped (me : Fin nproc) (addr : ℕ) (k : Kernel) (j : Fin nproc) (k' : Kernel) : Prop where
  child : k.zombieChild me = some j
  status : addr = 0 ∨ ∃ k₁, copyout me (addrOf (k.proc me).pagetable) addr
    (intBytes (k.proc j).xstate) k = .ok (true, k₁)
  family : k'.family = k.family.set j .free

theorem kwait_family (me : Fin nproc) (addr : ℕ) (k : Kernel) :
    wp (kwait me addr) (fun r k' =>
      match r with
      | .ret r => (∃ j, r = (k.proc j).pid ∧ Reaped me addr k j k') ∨ r = -1 ∧ k'.family = k.family
      | .sleep => k' = k) (fun _ => True) k := by
  rw [kwait, wp_bind, wp_get]
  dsimp only
  rw [← Kernel.zombieChild]
  cases hchild : k.zombieChild me with
  | none =>
    dsimp only
    split_ifs
    · exact Or.inr ⟨rfl, rfl⟩
    · rfl
  | some j =>
    have hreap : ∀ k₁ : Kernel, k₁.family = k.family →
        (addr = 0 ∨ ∃ k₁, copyout me (addrOf (k.proc me).pagetable) addr
          (intBytes (k.proc j).xstate) k = .ok (true, k₁)) →
        wp (do
          freeproc j
          return WaitResult.ret (k.proc j).pid) (fun r k' =>
            match r with
            | .ret r => (∃ j, r = (k.proc j).pid ∧ Reaped me addr k j k') ∨
              r = -1 ∧ k'.family = k.family
            | .sleep => k' = k) (fun _ => True) k₁ := by
      intro k₁ h₁ hstatus
      refine wp_seq (freeproc_family j k₁) fun _ k' hk' => ?_
      exact Or.inl ⟨j, rfl, hchild, hstatus, by rw [hk', h₁]⟩
    dsimp only
    split_ifs with haddr
    · exact hreap k rfl (Or.inl haddr)
    · rw [wp_bind]
      have hleave : Leaves Kernel.family (copyout me (addrOf (k.proc me).pagetable) addr
          (intBytes (k.proc j).xstate)) :=
      copyoutFrom_leaves Kernel.family_aside _ _ _ _
      have hcopy := wp_and (hleave k) (wp_self (copyout me
        (addrOf (k.proc me).pagetable) addr (intBytes (k.proc j).xstate)) k)
      refine wp_mono hcopy (fun copied k₁ h₁ => ?_) fun _ _ => trivial
      cases copied with
      | true => exact hreap k₁ h₁.1 (Or.inr ⟨k₁, h₁.2⟩)
      | false => exact Or.inr ⟨rfl, h₁.1⟩

end Make

end Xv6
