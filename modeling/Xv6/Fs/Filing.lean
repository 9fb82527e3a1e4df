import Xv6.Fs.Syscall
import Xv6.Lib.Ledger

/-!
# Open files and descriptors

The open-file table and the descriptors of all processes, apart from the rest of the kernel. Every
function on files is an operation on these two, and the count of a file is right when it is the
number of descriptors that point to the file and of references that running code holds.

A file that `filealloc` returns has a reference and no type until it becomes something. The
functions that are between the two steps say so, by the set of these files.
-/

namespace Xv6

open Ledger Prog Function Multiset

/-- The open-file table and the descriptors of all processes. -/
structure Filing where
  file : Fin nfile → File
  ofile : Fin nproc → Fin nofile → Option (Fin nfile)

/-- The open files and the descriptors of a kernel. -/
def Kernel.filing (k : Kernel) : Filing := ⟨k.file, fun i => (k.proc i).ofile⟩

namespace Filing

variable {F : Filing} {f g : Fin nfile} {i : Fin nproc} {fd : Fin nofile}
  {new new' : Finset (Fin nfile)} {e e' : Multiset (Fin nfile)}

/-- Replace an open file. -/
def set (F : Filing) (f : Fin nfile) (x : File) : Filing :=
  { F with file := update F.file f x }

/-- Make a descriptor point to a file, or to none. -/
def point (F : Filing) (i : Fin nproc) (fd : Fin nofile) (o : Option (Fin nfile)) : Filing :=
  { F with ofile := update F.ofile i (update (F.ofile i) fd o) }

@[simp] theorem set_file_self (F : Filing) (f : Fin nfile) (x : File) : (F.set f x).file f = x := by
  simp [set]

theorem set_file_of_ne (F : Filing) (x : File) (h : g ≠ f) : (F.set f x).file g = F.file g := by
  simp [set, h]

@[simp] theorem point_ofile_self (F : Filing) (o : Option (Fin nfile)) :
    (F.point i fd o).ofile i fd = o := by
  simp [point]

theorem point_ofile_of_ne (F : Filing) {j : Fin nproc} {o : Option (Fin nfile)} (h : j ≠ i) :
    (F.point i fd o).ofile j = F.ofile j := by
  simp [point, h]

theorem point_ofile_of_fd_ne (F : Filing) {gd : Fin nofile} {o : Option (Fin nfile)}
    (h : gd ≠ fd) : (F.point i fd o).ofile i gd = F.ofile i gd := by
  simp [point, h]

/-- The files that descriptors point to. -/
noncomputable def handles (F : Filing) : Multiset (Fin nfile) :=
  pointers fun x : Fin nproc × Fin nofile => F.ofile x.1 x.2

theorem handles_point (F : Filing) (i : Fin nproc) (fd : Fin nofile) (o : Option (Fin nfile)) :
    (F.point i fd o).handles + ofOption (F.ofile i fd) = F.handles + ofOption o := by
  have h := pointers_update (fun x : Fin nproc × Fin nofile => F.ofile x.1 x.2) (i, fd) o
  rw [handles, handles, ← h]
  congr 2
  funext ⟨j, gd⟩
  by_cases hj : j = i
  · subst hj
    by_cases hg : gd = fd
    · subst hg
      simp [point]
    · have hne : (j, gd) ≠ (j, fd) := fun hp => hg (congrArg Prod.snd hp)
      simp [point, hg, hne]
  · have hne : (j, gd) ≠ (i, fd) := fun hp => hj (congrArg Prod.fst hp)
    simp [point, hj, hne]

/-- Which files have an inode. -/
def onDisk (F : Filing) : Fin nfile → Bool := fun f => (F.file f).type.onDisk

theorem onDisk_set (F : Filing) (f : Fin nfile) (x : File) :
    (F.set f x).onDisk = update F.onDisk f x.type.onDisk := by
  funext g
  by_cases hg : g = f
  · subst hg
    simp [onDisk]
  · simp [onDisk, set_file_of_ne F x hg, hg]

theorem onDisk_set_of_eq (F : Filing) {x : File} (hx : x.type.onDisk = F.onDisk f) :
    (F.set f x).onDisk = F.onDisk := by
  rw [onDisk_set, hx]
  exact update_eq_self f F.onDisk

/-- The counts are right if the references `e` exist besides the descriptors. The files of `new`
have been allocated and have no type yet. -/
structure Exact (F : Filing) (new : Finset (Fin nfile)) (e : Multiset (Fin nfile)) : Prop where
  ref : ∀ f, (F.file f).ref = (e + F.handles).count f
  type_eq_none : ∀ f, (F.file f).type = .none ↔ (F.file f).ref = 0 ∨ f ∈ new
  fresh : ∀ f ∈ new, (F.file f).ref = 1

/-- A file is replaced, and the references change with it. -/
theorem Exact.set (h : F.Exact new e) {x : File} (href : x.ref = (e' + F.handles).count f)
    (hother : ∀ g, g ≠ f → e'.count g = e.count g)
    (htype : x.type = .none ↔ x.ref = 0 ∨ f ∈ new') (hfresh : f ∈ new' → x.ref = 1)
    (hnew : ∀ g, g ≠ f → (g ∈ new' ↔ g ∈ new)) : (F.set f x).Exact new' e' := by
  have hhandles : (F.set f x).handles = F.handles := rfl
  constructor
  · intro g
    by_cases hg : g = f
    · rw [hg, set_file_self, href, hhandles]
    · rw [set_file_of_ne F x hg, h.ref, hhandles, count_add, count_add,
        hother g hg]
  · intro g
    by_cases hg : g = f
    · rw [hg, set_file_self, htype]
    · rw [set_file_of_ne F x hg, h.type_eq_none, hnew g hg]
  · intro g hmem
    by_cases hg : g = f
    · subst hg
      rw [set_file_self, hfresh hmem]
    · rw [set_file_of_ne F x hg, h.fresh g ((hnew g hg).mp hmem)]

/-- A descriptor is changed, and the references change with it. -/
theorem Exact.point (h : F.Exact new e) {o : Option (Fin nfile)}
    (he : e' + ofOption o = e + ofOption (F.ofile i fd)) : (F.point i fd o).Exact new e' := by
  have hsum : e' + (F.point i fd o).handles = e + F.handles := by
    have hp := handles_point F i fd o
    have hboth : e' + (F.point i fd o).handles + (ofOption o + ofOption (F.ofile i fd))
        = e + F.handles + (ofOption o + ofOption (F.ofile i fd)) := by
      calc e' + (F.point i fd o).handles + (ofOption o + ofOption (F.ofile i fd))
          = (e' + ofOption o) + ((F.point i fd o).handles + ofOption (F.ofile i fd)) := by abel
        _ = (e + ofOption (F.ofile i fd)) + (F.handles + ofOption o) := by rw [he, hp]
        _ = _ := by abel
    exact add_right_cancel hboth
  exact ⟨fun f => by rw [hsum]; exact h.ref f, h.type_eq_none, h.fresh⟩

/-- The count of a file that a reference is held to. -/
theorem Exact.ref_pos (h : F.Exact new (f ::ₘ e)) : 0 < (F.file f).ref := by
  rw [h.ref]
  simp

end Filing

/-! ### What leaves files and descriptors alone -/

section Leave

variable {k : Kernel} {me np : Fin nproc} {fd : Fin nofile} {f : Fin nfile} {E : String → Prop}
  {F : Filing} {new : Finset (Fin nfile)} {e : Multiset (Fin nfile)}

theorem Kernel.filing_setProc (k : Kernel) (i : Fin nproc) (p : Proc) :
    (k.setProc i p).filing = { k.filing with ofile := update k.filing.ofile i p.ofile } := by
  refine congrArg (Filing.mk k.file) (funext fun j => ?_)
  by_cases hj : j = i
  · subst hj
    simp
  · rw [Kernel.setProc_proc_of_ne k p hj, update_of_ne hj]
    rfl

theorem updateProc_filing {g : Proc → Proc} (hg : ∀ p, (g p).ofile = p.ofile) (i : Fin nproc) :
    Leaves Kernel.filing (updateProc i g) :=
  leaves_modify fun k => by
    rw [Kernel.filing_setProc, hg]
    exact congrArg (Filing.mk k.file) (update_eq_self i k.filing.ofile)

theorem Kernel.filing_aside : Aside Kernel.filing where
  setVm _ _ := rfl
  setProc k i p h := by
    rw [Kernel.filing_setProc, show p.ofile = k.filing.ofile i from congrArg Prod.snd h]
    exact congrArg (Filing.mk k.file) (update_eq_self i k.filing.ofile)

theorem freeproc_filing (i : Fin nproc) : Leaves Kernel.filing (freeproc i) := by
  refine leaves_get fun k => leaves_bind ?_ fun _ =>
    leaves_bind ?_ fun _ => updateProc_filing (fun _ => by rfl) i
  · cases (k.proc i).trapframe with
    | none => exact leaves_pure _
    | some tf => exact onVm_leaves Kernel.filing_aside _
  · cases (k.proc i).pagetable with
    | none => exact leaves_pure _
    | some pagetable => exact onVm_leaves Kernel.filing_aside _

theorem allocproc_filing : Leaves Kernel.filing allocproc := by
  refine leaves_get fun k => ?_
  split
  · exact leaves_pure _
  · rename_i i _
    have hgive : Leaves Kernel.filing (do
        freeproc i
        return (none : Option (Fin nproc))) :=
      (freeproc_filing i).ret
    refine leaves_bind ?_ fun pid => leaves_bind (updateProc_filing (fun _ => by rfl) i)
      fun _ => leaves_bind (onVm_leaves Kernel.filing_aside _) fun tf =>
      leaves_bind (updateProc_filing (fun _ => by rfl) i) fun _ => ?_
    · exact leaves_get fun _ => leaves_bind
        (leaves_modify fun _ => rfl) fun _ => leaves_pure _
    · cases tf with
      | none => exact hgive
      | some tf =>
        refine leaves_bind (onVm_leaves Kernel.filing_aside _) fun pagetable =>
          leaves_bind (updateProc_filing (fun _ => by rfl) i) fun _ => ?_
        cases pagetable with
        | none => exact hgive
        | some _ => exact leaves_pure _

theorem kwait_filing (addr : ℕ) : Leaves Kernel.filing (kwait me addr) := by
  refine leaves_get fun k => ?_
  dsimp only
  split
  · rename_i j _
    have hfree : ∀ copied : Bool, Leaves Kernel.filing (if copied then do
        freeproc j
        return WaitResult.ret (k.proc j).pid
      else return .ret (-1)) := fun copied => leaves_ite
      (freeproc_filing j).ret (leaves_pure _)
    exact leaves_ite (hfree true)
      (leaves_bind (copyoutFrom_leaves Kernel.filing_aside _ _ _ _) hfree)
  · exact leaves_guard (leaves_pure _)

/-! ### Files -/

/-- A file with one reference less. -/
def File.closed (x : File) : File :=
  { x with ref := x.ref - 1, type := if x.ref = 1 then .none else x.type }

theorem Filing.Exact.closed
    (h : F.Exact new (f ::ₘ e)) : (F.set f (F.file f).closed).Exact (new.erase f) e := by
  have href := h.ref f
  rw [cons_add, count_cons_self] at href
  refine h.set ?_ (fun g hg => ?_) ?_ (fun hf => absurd hf (Finset.notMem_erase f new))
    fun g hg => ?_
  · change (F.file f).ref - 1 = _
    omega
  · rw [count_cons_of_ne hg]
  · have hpos := h.ref_pos
    have htype := h.type_eq_none f
    have hfresh := h.fresh f
    simp only [File.closed, Finset.notMem_erase, or_false]
    split_ifs with hone
    · simp [hone]
    · rw [htype]
      constructor
      · rintro (hz | hmem)
        · omega
        · exact absurd (hfresh hmem) hone
      · intro hz
        omega
  · rw [Finset.mem_erase]
    exact and_iff_right hg

theorem pipeclose_filing (pi : ℕ) (writable : Bool) :
    Leaves Kernel.filing (pipeclose pi writable) :=
  leaves_get fun _ => leaves_bind (leaves_modify fun _ => rfl)
    fun _ => leaves_ite (onVm_leaves Kernel.filing_aside _) (leaves_pure _)

theorem fileclose_filing (f : Fin nfile) (k : Kernel) :
    wp (fileclose f) (fun _ k' => 0 < (k.file f).ref ∧
      k'.filing = k.filing.set f (k.file f).closed) (fun _ => True) k := by
  rw [fileclose, wp_bind, wp_get]
  dsimp only
  by_cases hpanic : (k.file f).ref < 1
  · rw [if_pos hpanic]
    trivial
  rw [if_neg hpanic]
  by_cases hmore : 0 < (k.file f).ref - 1
  · rw [if_pos hmore]
    have hclosed : (k.file f).closed = { k.file f with ref := (k.file f).ref - 1 } := by
      rw [File.closed, if_neg (by omega)]
    exact ⟨by omega, by rw [hclosed]; rfl⟩
  · rw [if_neg hmore]
    have hclosed : (k.file f).closed = { k.file f with ref := 0, type := .none } := by
      rw [File.closed, if_pos (by omega), show (k.file f).ref - 1 = 0 by omega]
    have hset : (k.setFile f { k.file f with ref := 0, type := .none }).filing
        = k.filing.set f (k.file f).closed := by
      rw [hclosed]
      rfl
    have hpipe : Leaves Kernel.filing (if (k.file f).type = .pipe then
        pipeclose (k.file f).pipe (k.file f).writable else pure ()) :=
      leaves_ite (pipeclose_filing _ _) (leaves_pure _)
    rw [wp_bind]
    change wp (if (k.file f).type = .pipe then pipeclose (k.file f).pipe (k.file f).writable
      else pure ()) _ _ (k.setFile f { k.file f with ref := 0, type := .none })
    exact wp_imp (hpipe _) fun _ _ hk => ⟨by omega, hk.trans hset⟩

theorem filealloc_filing (k : Kernel) :
    wp filealloc (fun r k' => (r = none ∧ k' = k) ∨ ∃ f, r = some f ∧ (k.file f).ref = 0 ∧
      k' = k.setFile f { k.file f with ref := 1 }) E k := by
  rw [filealloc, wp_bind, wp_get]
  split
  · exact Or.inl ⟨rfl, rfl⟩
  · rename_i f hfirst
    exact Or.inr ⟨f, rfl, by simpa using Table.of_first hfirst, rfl⟩

theorem Filing.Exact.alloc
    (h : F.Exact new e) (hf : (F.file f).ref = 0) :
    (F.set f { F.file f with ref := 1 }).Exact (insert f new) (f ::ₘ e) := by
  have href := h.ref f
  rw [hf] at href
  refine h.set ?_ (fun g hg => ?_) ?_ (fun _ => rfl) fun g hg => ?_
  · rw [cons_add, count_cons_self, ← href]
  · rw [count_cons_of_ne hg]
  · exact iff_of_true ((h.type_eq_none f).mpr (Or.inl hf)) (Or.inr (Finset.mem_insert_self f new))
  · rw [Finset.mem_insert, or_iff_right hg]

theorem Filing.Exact.become
    (h : F.Exact new e) (hf : f ∈ new) {x : File} (href : x.ref = (F.file f).ref)
    (hx : x.type ≠ .none) : (F.set f x).Exact (new.erase f) e := by
  refine h.set (href.trans (h.ref f)) (fun _ _ => rfl) ?_
    (fun hmem => absurd hmem (Finset.notMem_erase f new)) fun g hg => ?_
  · have hone := h.fresh f hf
    simp only [Finset.notMem_erase, or_false]
    exact iff_of_false hx (by omega)
  · rw [Finset.mem_erase]
    exact and_iff_right hg

theorem fdalloc_filing (me : Fin nproc) (f : Fin nfile) (k : Kernel) :
    wp (fdalloc me f) (fun r k' => (r = none ∧ k' = k) ∨ ∃ fd, r = some fd ∧
      k.filing.ofile me fd = none ∧ k'.filing = k.filing.point me fd (some f)) E k := by
  rw [fdalloc, wp_bind, wp_get]
  split
  · exact Or.inl ⟨rfl, rfl⟩
  · rename_i fd hfirst
    have hfree : (k.proc me).ofile fd = none := by simpa using Table.of_first hfirst
    exact Or.inr ⟨fd, rfl, hfree, Kernel.filing_setProc _ _ _⟩

theorem Kernel.filing_fdclear (k : Kernel) (me : Fin nproc) (fd : Fin nofile) :
    wp (fdclear me fd) (fun _ k' => k'.filing = k.filing.point me fd none) E k :=
  Kernel.filing_setProc _ _ _

theorem Filing.Exact.dup (h : F.Exact ∅ e)
    (hf : 0 < (F.file f).ref) :
    (F.set f { F.file f with ref := (F.file f).ref + 1 }).Exact ∅ (f ::ₘ e) := by
  refine h.set ?_ (fun g hg => ?_) ?_ (fun hmem => absurd hmem (Finset.notMem_empty f))
    fun _ _ => Iff.rfl
  · rw [cons_add, count_cons_self, ← h.ref]
  · rw [count_cons_of_ne hg]
  · have htype := h.type_eq_none f
    simp only [Finset.notMem_empty, or_false] at htype ⊢
    exact iff_of_false (fun hn => by have := htype.mp hn; omega) (by omega)

theorem filedup_filing (f : Fin nfile) (k : Kernel) :
    wp (filedup f) (fun _ k' => 0 < (k.file f).ref ∧
      k' = k.setFile f { k.file f with ref := (k.file f).ref + 1 }) (fun _ => True) k := by
  rw [filedup, wp_bind, wp_get]
  split_ifs with hpanic
  · trivial
  · exact ⟨by omega, rfl⟩

theorem Filing.Exact.share (h : F.Exact ∅ e)
    (hfree : F.ofile me fd = none) (hf : 0 < (F.file f).ref) :
    ((F.point me fd (some f)).set f { F.file f with ref := (F.file f).ref + 1 }).Exact ∅ e := by
  have hset := h.dup hf
  refine hset.point ?_
  change e + {f} = f ::ₘ e + ofOption (F.ofile me fd)
  rw [hfree, ofOption_none, add_zero, ← singleton_add, add_comm]

/-- A system call on descriptors of the process `me`: the counts are right, the same files have an
inode, and the descriptors of the other processes are as they were. -/
structure Shelved (me : Fin nproc) (k k' : Kernel) : Prop where
  exact : k'.filing.Exact ∅ 0
  onDisk : k'.filing.onDisk = k.filing.onDisk
  others : ∀ i, i ≠ me → k'.filing.ofile i = k.filing.ofile i

/-- **`dup`** keeps the counts. -/
theorem sysDup_filing (fd : Fin nofile) (h : k.filing.Exact ∅ 0) :
    wp (sysDup me fd) (fun _ k' => Shelved me k k') (fun _ => True) k := by
  rw [sysDup, wp_bind, wp_get]
  cases hf : (k.proc me).ofile fd with
  | none => exact ⟨h, rfl, fun _ _ => rfl⟩
  | some f =>
    dsimp only
    refine wp_seq (fdalloc_filing me f k) fun r k₁ h₁ => ?_
    rcases h₁ with ⟨rfl, rfl⟩ | ⟨fd', rfl, hfree, hk₁⟩
    · exact ⟨h, rfl, fun _ _ => rfl⟩
    · dsimp only
      have hfile : k₁.file = k.file := congrArg Filing.file hk₁
      refine wp_seq (filedup_filing f k₁) fun _ k₂ h₂ => ?_
      have hk₂ : k₂.filing = (k.filing.point me fd' (some f)).set f
          { k.file f with ref := (k.file f).ref + 1 } := by
        rw [h₂.2, ← hk₁, ← hfile]
        rfl
      rw [hfile] at h₂
      refine ⟨hk₂ ▸ h.share hfree h₂.1, ?_, fun i hi => ?_⟩
      · rw [hk₂]
        exact Filing.onDisk_set_of_eq (k.filing.point me fd' (some f)) rfl
      · rw [hk₂]
        exact Filing.point_ofile_of_ne k.filing hi

/-- **`fork`** keeps the counts: the descriptors of the child had no files. -/
theorem dupFiles_filing (h : k.filing.Exact ∅ 0) (hnp : ∀ fd, k.filing.ofile np fd = none) :
    wp (dupFiles me np) (fun _ k' => k'.filing.Exact ∅ 0 ∧
      k'.filing.onDisk = k.filing.onDisk ∧ ∀ i, i ≠ np → k'.filing.ofile i = k.filing.ofile i)
      (fun _ => True) k := by
  refine wp_imp (wp_forEach (fun rest k' => k'.filing.Exact ∅ 0 ∧
      k'.filing.onDisk = k.filing.onDisk ∧
      (∀ i, i ≠ np → k'.filing.ofile i = k.filing.ofile i) ∧ rest.Nodup ∧
      ∀ fd ∈ rest, k'.filing.ofile np fd = none) ?_
    ⟨h, rfl, fun _ _ => rfl, List.nodup_finRange nofile, fun fd _ => hnp fd⟩)
    fun _ k' hk' => ⟨hk'.1, hk'.2.1, hk'.2.2.1⟩
  · rintro fd rest k₁ ⟨hexact, hdisk, hother, hnodup, hfree⟩
    rw [List.nodup_cons] at hnodup
    rw [wp_bind, wp_get]
    cases hf : (k₁.proc me).ofile fd with
    | none => exact ⟨hexact, hdisk, hother, hnodup.2, fun g hg => hfree g (List.mem_cons_of_mem _ hg)⟩
    | some f =>
      dsimp only
      refine wp_seq (filedup_filing f k₁) fun _ k₂ h₂ => ?_
      rw [wp_updateProc]
      have hk₃ : (k₂.setProc np { k₂.proc np with
          ofile := update (k₂.proc np).ofile fd (some f) }).filing
          = (k₁.filing.point np fd (some f)).set f { k₁.file f with ref := (k₁.file f).ref + 1 } := by
        rw [Kernel.filing_setProc, h₂.2]
        rfl
      change Filing.Exact (Kernel.filing _) ∅ 0 ∧ Filing.onDisk (Kernel.filing _) = _ ∧
        (∀ i, i ≠ np → Filing.ofile (Kernel.filing _) i = _) ∧ _ ∧
        ∀ g ∈ rest, Filing.ofile (Kernel.filing _) np g = none
      rw [hk₃]
      refine ⟨hexact.share (hfree fd List.mem_cons_self) h₂.1, ?_, fun i hi => ?_, hnodup.2,
        fun g hg => ?_⟩
      · exact (Filing.onDisk_set_of_eq (k₁.filing.point np fd (some f)) (by rfl)).trans hdisk
      · exact (update_of_ne hi _ _).trans (hother i hi)
      · have hne : g ≠ fd := fun heq => hnodup.1 (heq ▸ hg)
        exact (Filing.point_ofile_of_fd_ne k₁.filing hne).trans
          (hfree g (List.mem_cons_of_mem _ hg))

/-- As far as open files are concerned, the first part of `fork` duplicates them. -/
theorem forkMake_filing_of {Q : Option (Fin nproc × ℤ) → Kernel → Prop}
    (hfail : ∀ k', k'.filing = k.filing → Q none k')
    (hdup : ∀ np pid k', (k.proc np).state = .unused → k'.filing = k.filing →
      wp (dupFiles me np) (fun _ => Q (some (np, pid))) (fun _ => True) k') :
    wp (forkMake me) Q (fun _ => True) k := by
  rw [forkMake, wp_bind]
  refine wp_mono (wp_and (allocproc_filing k) (allocproc_family k)) (fun r k₁ hk₁ => ?_)
    fun _ _ => trivial
  obtain ⟨h₁, ⟨rfl, -⟩ | ⟨np, rfl, hborn⟩⟩ := hk₁
  · exact hfail k₁ h₁
  rw [wp_bind, wp_get]
  dsimp only
  refine wp_seq (onVm_leaves Kernel.filing_aside _ k₁) fun ok k₂ h₂ => ?_
  cases ok with
  | false =>
    rw [if_neg Bool.false_ne_true]
    exact wp_seq (freeproc_filing np k₂) fun _ k₃ h₃ => hfail k₃ (h₃.trans (h₂.trans h₁))
  | true =>
    rw [if_pos rfl]
    refine wp_seq (updateProc_filing (fun _ => by rfl) np k₂) fun _ k₃ h₃ => ?_
    refine wp_seq (onVm_leaves Kernel.filing_aside _ k₃) fun _ k₄ h₄ => ?_
    refine wp_seq (onVm_leaves Kernel.filing_aside _ k₄) fun _ k₅ h₅ => ?_
    rw [wp_bind]
    exact hdup np _ k₅ (state_of_firstUnused hborn.1) (h₅.trans (h₄.trans (h₃.trans (h₂.trans h₁))))

theorem dupFiles_none (h : ∀ fd, (k.proc me).ofile fd = none) :
    wp (dupFiles me np) (fun _ k' => k' = k) (fun _ => False) k := by
  refine wp_forEach (fun _ k' => k' = k) (fun fd rest k' hk' => ?_) rfl
  rw [hk', wp_bind, wp_get, h fd]
  rfl

/-- Without open files, `fork` leaves the files alone. -/
theorem forkMake_filing_none (h : ∀ fd, (k.proc me).ofile fd = none) :
    wp (forkMake me) (fun _ k' => k'.filing = k.filing) (fun _ => True) k := by
  refine forkMake_filing_of (fun _ hk' => hk') fun np pid k₁ _ h₁ => ?_
  have hnone : ∀ fd, (k₁.proc me).ofile fd = none := fun fd =>
    (congrArg (fun F => F.ofile me fd) h₁).trans (h fd)
  refine wp_mono (dupFiles_none hnone) (fun _ k₂ h₂ => ?_) fun _ => False.elim
  rw [h₂]
  exact h₁

/-- Without open files, `fork` makes a child, unless an entry or memory is missing. -/
theorem forkMake_of_none {extra : Multiset ℕ} {root : ℕ} (h : KInv extra k)
    (hlt : k.created + 1 < 2 ^ 31) (hroot : (k.proc me).pagetable = some root)
    (hofile : ∀ fd, (k.proc me).ofile fd = none) :
    wp (forkMake me) (fun r k' => k'.filing = k.filing ∧
      (r = none ∧ ((∀ i, (k.proc i).state ≠ .unused) ∨
          k.freePages < 6 + 3 * pagesOf (k.proc me).sz) ∨
        ∃ np root' pid, r = some (np, pid) ∧ Forked extra me np root root' k
          (k'.setProc np { k'.proc np with parent := some me, state := .runnable })))
      (fun _ => False) k := by
  refine wp_mono (wp_and (forkMake_filing_none hofile) ?_) (fun _ _ h => h) fun _ he => he.2
  exact forkMake_spec h hlt hroot (fun fd f hf => Option.some_ne_none f (hf.symm.trans (hofile fd)))
    (fun _ _ hwhy => .inl ⟨rfl, hwhy⟩) fun np root' k₁ hf _ => .inr ⟨np, root', _, rfl, hf⟩

/-! ### Pipes -/

theorem Filing.onDisk_closed (hf : (F.file f).type.onDisk = false) :
    (F.set f (F.file f).closed).onDisk = F.onDisk := by
  refine Filing.onDisk_set_of_eq F ?_
  change FileType.onDisk (if _ then _ else _) = (F.file f).type.onDisk
  split_ifs
  · rw [hf]
    rfl
  · rfl

/-- Another kernel has the same descriptors, and the same files have an inode. -/
structure SameShelf (k k' : Kernel) : Prop where
  onDisk : k'.filing.onDisk = k.filing.onDisk
  ofile : k'.filing.ofile = k.filing.ofile

theorem SameShelf.trans {k k' k'' : Kernel} (h : SameShelf k k') (h' : SameShelf k' k'') :
    SameShelf k k'' := ⟨h'.onDisk.trans h.onDisk, h'.ofile.trans h.ofile⟩

theorem SameShelf.of_filing {k k' : Kernel} (h : k'.filing = k.filing) : SameShelf k k' :=
  ⟨congrArg Filing.onDisk h, congrArg Filing.ofile h⟩

section Pipe

theorem fileclose_pipe (h : k.filing.Exact new (f ::ₘ e)) (hf : (k.file f).type.onDisk = false) :
    wp (fileclose f) (fun _ k' => k'.filing.Exact (new.erase f) e ∧ SameShelf k k' ∧
      ∀ g, g ≠ f → k'.file g = k.file g) (fun _ => True) k := by
  refine wp_imp (fileclose_filing f k) fun _ k' hk => ?_
  have hfile : k'.file = (k.filing.set f (k.file f).closed).file := congrArg Filing.file hk.2
  have hofile : k'.filing.ofile = (k.filing.set f (k.file f).closed).ofile := by rw [hk.2]
  refine ⟨by rw [hk.2]; exact h.closed, ⟨?_, hofile⟩, fun g hg => ?_⟩
  · rw [hk.2]
    exact Filing.onDisk_closed hf
  · rw [hfile]
    exact Filing.set_file_of_ne _ _ hg

theorem filealloc_new (h : k.filing.Exact new e) :
    wp filealloc (fun r k' => (r = none ∧ k' = k) ∨ ∃ f, r = some f ∧ f ∉ new ∧
      k'.filing.Exact (insert f new) (f ::ₘ e) ∧ SameShelf k k' ∧ (k'.file f).type = .none ∧
      ∀ g, g ≠ f → k'.file g = k.file g) E k := by
  refine wp_imp (filealloc_filing k) fun r k' hk => ?_
  rcases hk with ⟨hr, hk⟩ | ⟨f, hr, hf, rfl⟩
  · exact Or.inl ⟨hr, hk⟩
  · have htype : (k.file f).type = .none := (h.type_eq_none f).mpr (Or.inl hf)
    have hnew : f ∉ new := fun hmem => by
      have hone : (k.file f).ref = 1 := h.fresh f hmem
      omega
    refine Or.inr ⟨f, hr, hnew, h.alloc hf, ⟨Filing.onDisk_set_of_eq k.filing rfl, rfl⟩, ?_, ?_⟩
    · rw [Kernel.setFile_file_self]
      exact htype
    · exact fun g hg => Kernel.setFile_file_of_ne k _ hg

/-- Both files of a pipe that could not be made are closed. -/
theorem fileclose_both {f0 f1 : Fin nfile} {new' : Finset (Fin nfile)} {α : Type} {r : α}
    (h : k.filing.Exact new (f0 ::ₘ f1 ::ₘ e)) (hne : f1 ≠ f0)
    (h0 : (k.file f0).type.onDisk = false) (h1 : (k.file f1).type.onDisk = false)
    (hnew : (new.erase f0).erase f1 = new') :
    wp (do
      fileclose f0
      fileclose f1
      return r) (fun r' k' => r' = r ∧ k'.filing.Exact new' e ∧ SameShelf k k')
      (fun _ => True) k := by
  refine wp_seq (fileclose_pipe h h0) fun _ k₁ hk₁ => ?_
  rw [wp_bind]
  have h1' : (k₁.file f1).type.onDisk = false := by rw [hk₁.2.2 f1 hne, h1]
  refine wp_imp (fileclose_pipe hk₁.1 h1') fun _ k₂ hk₂ => ?_
  exact ⟨rfl, hnew ▸ hk₂.1, hk₁.2.1.trans hk₂.2.1⟩

theorem erase_both (f0 f1 : Fin nfile) :
    (({f1, f0} : Finset (Fin nfile)).erase f0).erase f1 = ∅ := by
  ext g
  simp only [Finset.mem_erase, Finset.mem_insert, Finset.mem_singleton, Finset.notMem_empty,
    iff_false]
  tauto

theorem pipeInit_filing {f0 f1 : Fin nfile} (pi : ℕ) (h : k.filing.Exact {f1, f0} e)
    (hne : f1 ≠ f0) (h0 : (k.file f0).type = .none) (h1 : (k.file f1).type = .none) :
    wp (pipeInit f0 f1 pi) (fun _ k' => k'.filing.Exact ∅ e ∧ SameShelf k k' ∧
      (k'.file f0).type = .pipe ∧ (k'.file f1).type = .pipe) E k := by
  have hfirst := h.become (f := f0) (by simp) (x := { k.file f0 with
    type := .pipe, readable := true, writable := false, pipe := pi }) rfl (by simp)
  have hother : (k.filing.set f0 { k.file f0 with
      type := .pipe, readable := true, writable := false, pipe := pi }).file f1 = k.file f1 :=
    Filing.set_file_of_ne _ _ hne
  have hboth := hfirst.become (f := f1) (by simp [hne]) (x := { k.file f1 with
    type := .pipe, readable := false, writable := true, pipe := pi })
    (by rw [hother]) (by simp)
  rw [erase_both] at hboth
  refine (wp_pipeInit hne).mpr ⟨hboth, ⟨?_, rfl⟩, ?_, ?_⟩
  · refine (Filing.onDisk_set_of_eq _ ?_).trans (Filing.onDisk_set_of_eq k.filing ?_)
    · change false = FileType.onDisk (Filing.file _ f1).type
      rw [hother, h1]
      rfl
    · change false = (k.file f0).type.onDisk
      rw [h0]
      rfl
  · rw [Kernel.initPipe_file k hne, if_neg hne.symm, if_pos rfl]
  · rw [Kernel.initPipe_file k hne, if_pos rfl]

/-- **`pipealloc`**: two new files that are pipes, or nothing. -/
theorem pipealloc_filing (h : k.filing.Exact ∅ 0) :
    wp pipealloc (fun r k' => SameShelf k k' ∧ match r with
      | none => k'.filing.Exact ∅ 0
      | some (rf, wf) => k'.filing.Exact ∅ (rf ::ₘ wf ::ₘ 0) ∧ wf ≠ rf ∧
        (k'.file rf).type = .pipe ∧ (k'.file wf).type = .pipe) (fun _ => True) k := by
  rw [pipealloc]
  refine wp_seq (filealloc_new h) fun r k₁ h₁ => ?_
  rcases h₁ with ⟨rfl, rfl⟩ | ⟨f0, rfl, -, hexact₁, hshelf₁, htype₁, -⟩
  · exact ⟨.of_filing rfl, h⟩
  dsimp only
  refine wp_seq (filealloc_new hexact₁) fun r k₂ h₂ => ?_
  rcases h₂ with ⟨rfl, rfl⟩ | ⟨f1, rfl, hf1, hexact₂, hshelf₂, htype₂, hother₂⟩
  · dsimp only
    refine wp_seq (fileclose_pipe hexact₁ (by rw [htype₁]; rfl)) fun _ k₃ h₃ => ?_
    exact ⟨hshelf₁.trans h₃.2.1, by simpa using h₃.1⟩
  have hne : f1 ≠ f0 := by simpa using hf1
  have htype0 : (k₂.file f0).type = .none := by rw [hother₂ f0 hne.symm, htype₁]
  have hexact₂' : k₂.filing.Exact {f1, f0} (f0 ::ₘ f1 ::ₘ 0) := by
    rw [cons_swap]
    exact hexact₂
  have hshelf := hshelf₁.trans hshelf₂
  dsimp only
  refine wp_seq (onVm_leaves Kernel.filing_aside _ k₂) fun r k₃ h₃ => ?_
  have hfile₃ : k₃.file = k₂.file := congrArg Filing.file h₃
  cases r with
  | none =>
    refine wp_imp (fileclose_both (h₃.symm ▸ hexact₂') hne (by rw [hfile₃, htype0]; rfl)
      (by rw [hfile₃, htype₂]; rfl) (erase_both f0 f1)) fun r k₄ h₄ => ?_
    obtain ⟨rfl, hexact₄, hshelf₄⟩ := h₄
    exact ⟨hshelf.trans ((SameShelf.of_filing h₃).trans hshelf₄), hexact₄⟩
  | some pi =>
    dsimp only
    refine wp_seq (pipeInit_filing pi (h₃.symm ▸ hexact₂') hne (by rw [hfile₃, htype0])
      (by rw [hfile₃, htype₂])) fun _ k₄ h₄ => ?_
    exact ⟨hshelf.trans ((SameShelf.of_filing h₃).trans h₄.2.1), h₄.1, hne, h₄.2.2⟩

theorem Filing.Exact.give (h : F.Exact new (f ::ₘ e)) (hfree : F.ofile me fd = none) :
    (F.point me fd (some f)).Exact new e := by
  refine h.point ?_
  rw [hfree, ofOption_none, add_zero, ofOption_some, ← singleton_add, add_comm]

theorem Filing.Exact.clear (h : F.Exact new e) (hf : F.ofile me fd = some f) :
    (F.point me fd none).Exact new (f ::ₘ e) := by
  refine h.point ?_
  rw [hf, ofOption_none, add_zero, ofOption_some, ← singleton_add, add_comm]

/-- On the way through `pipe`: its files are there, with the references `e` in no descriptor. -/
structure Piped (me : Fin nproc) (rf wf : Fin nfile) (e : Multiset (Fin nfile)) (k₀ k : Kernel) :
    Prop where
  exact : k.filing.Exact ∅ e
  onDisk : k.filing.onDisk = k₀.filing.onDisk
  others : ∀ i, i ≠ me → k.filing.ofile i = k₀.filing.ofile i
  ne : wf ≠ rf
  types : (k.file rf).type = .pipe ∧ (k.file wf).type = .pipe

section Piped

variable {k₀ k' : Kernel} {rf wf : Fin nfile}

theorem Piped.point {e' : Multiset (Fin nfile)} {o : Option (Fin nfile)}
    (h : Piped me rf wf e k₀ k) (hk : k'.filing = k.filing.point me fd o)
    (hexact : (k.filing.point me fd o).Exact ∅ e') : Piped me rf wf e' k₀ k' where
  exact := hk ▸ hexact
  onDisk := by
    rw [hk]
    exact h.onDisk
  others i hi := by rw [hk, Filing.point_ofile_of_ne _ hi, h.others i hi]
  ne := h.ne
  types := by
    rw [show k'.file = k.file from congrArg Filing.file hk]
    exact h.types

theorem Piped.give (h : Piped me rf wf (f ::ₘ e) k₀ k) (hfree : k.filing.ofile me fd = none)
    (hk : k'.filing = k.filing.point me fd (some f)) : Piped me rf wf e k₀ k' :=
  h.point hk (h.exact.give hfree)

theorem Piped.clear (h : Piped me rf wf e k₀ k) (hf : k.filing.ofile me fd = some f)
    (hk : k'.filing = k.filing.point me fd none) : Piped me rf wf (f ::ₘ e) k₀ k' :=
  h.point hk (h.exact.clear hf)

/-- The end of a `pipe` that fails: both files are closed, and no descriptor points to them. -/
theorem pipeFail_filing (h : Piped me rf wf (rf ::ₘ wf ::ₘ 0) k₀ k) :
    wp (do
      fileclose rf
      fileclose wf
      return false) (fun _ k' => Shelved me k₀ k') (fun _ => True) k := by
  have hempty : ((∅ : Finset (Fin nfile)).erase rf).erase wf = ∅ := by simp
  refine wp_imp (fileclose_both h.exact h.ne (by rw [h.types.1]; rfl) (by rw [h.types.2]; rfl)
    hempty) fun _ k' hk => ?_
  exact ⟨hk.2.1, hk.2.2.onDisk.trans h.onDisk, fun i hi => by rw [hk.2.2.ofile, h.others i hi]⟩

end Piped

/-- **`pipe`** keeps the counts. -/
theorem sysPipe_filing (fdarray : ℕ) (h : k.filing.Exact ∅ 0) :
    wp (sysPipe me fdarray) (fun _ k' => Shelved me k k') (fun _ => True) k := by
  rw [sysPipe]
  refine wp_seq (pipealloc_filing h) fun r k₁ h₁ => ?_
  obtain ⟨hshelf, h₁⟩ := h₁
  have hothers₁ : ∀ i, i ≠ me → k₁.filing.ofile i = k.filing.ofile i := fun i _ =>
    congrFun hshelf.ofile i
  rcases r with _ | ⟨rf, wf⟩
  · exact ⟨h₁, hshelf.onDisk, hothers₁⟩
  obtain ⟨hexact, hne, htypes⟩ := h₁
  have hp₁ : Piped me rf wf _ k k₁ := ⟨hexact, hshelf.onDisk, hothers₁, hne, htypes⟩
  dsimp only
  refine wp_seq (fdalloc_filing me rf k₁) fun r k₂ h₂ => ?_
  rcases h₂ with ⟨rfl, rfl⟩ | ⟨fd0, rfl, hfree₀, hk₂⟩
  · exact pipeFail_filing hp₁
  have hp₂ := hp₁.give hfree₀ hk₂
  have hfd0 : k₂.filing.ofile me fd0 = some rf := by rw [hk₂, Filing.point_ofile_self]
  dsimp only
  refine wp_seq (fdalloc_filing me wf k₂) fun r k₃ h₃ => ?_
  rcases h₃ with ⟨rfl, rfl⟩ | ⟨fd1, rfl, hfree₁, hk₃⟩
  · dsimp only
    refine wp_seq (Kernel.filing_fdclear _ me fd0) fun _ k₄ hk₄ => ?_
    exact pipeFail_filing (hp₂.clear hfd0 hk₄)
  have hp₃ := hp₂.give hfree₁ hk₃
  have hfd : fd0 ≠ fd1 := fun heq => by
    rw [← heq, hfd0] at hfree₁
    exact absurd hfree₁ (by simp)
  -- whatever the two copies did, the descriptors point to the two files
  have hend : ∀ (copied : Bool) (k₄ : Kernel), k₄.filing = k₃.filing →
      wp (if copied then pure true else do
        fdclear me fd0
        fdclear me fd1
        fileclose rf
        fileclose wf
        return false) (fun _ k' => Shelved me k k') (fun _ => True) k₄ := by
    intro copied k₄ hk₄
    cases copied with
    | true =>
      exact ⟨hk₄ ▸ hp₃.exact, by rw [hk₄, hp₃.onDisk], fun i hi => by rw [hk₄, hp₃.others i hi]⟩
    | false =>
      have hfd0' : k₃.filing.ofile me fd0 = some rf := by
        rw [hk₃, Filing.point_ofile_of_fd_ne _ hfd, hfd0]
      rw [if_neg Bool.false_ne_true]
      refine wp_seq (Kernel.filing_fdclear k₄ me fd0) fun _ k₅ hk₅ => ?_
      rw [hk₄] at hk₅
      refine wp_seq (Kernel.filing_fdclear k₅ me fd1) fun _ k₆ hk₆ => ?_
      have hfd1 : k₅.filing.ofile me fd1 = some wf := by
        rw [hk₅, Filing.point_ofile_of_fd_ne _ hfd.symm, hk₃, Filing.point_ofile_self]
      have hp₆ := (hp₃.clear hfd0' hk₅).clear hfd1 hk₆
      rw [cons_swap] at hp₆
      exact pipeFail_filing hp₆
  dsimp only
  rw [wp_bind, wp_get]
  refine wp_seq (copyoutFrom_leaves Kernel.filing_aside _ _ _ _ k₃) fun ok k₄ hk₄ => ?_
  cases ok with
  | true =>
    rw [if_pos rfl]
    refine wp_seq (copyoutFrom_leaves Kernel.filing_aside _ _ _ _ k₄) fun ok k₅ hk₅ => ?_
    exact hend ok k₅ (hk₅.trans hk₄)
  | false => exact hend false k₄ hk₄

end Pipe

end Leave

end Xv6
