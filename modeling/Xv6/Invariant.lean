import Xv6.FaultSpec
import Xv6.Process
import Xv6.SpaceLife

/-!
# The invariant of the kernel

The paging invariant is about spaces and held pages. Here the two are read off the process table
and the open files: every process with a page table has a space, and the held pages are the
trapframes, the pages of live pipes and what was allocated at boot. A function in the middle of its
work may hold `extra` pages.

The rest of the invariant says what the paging code relies on: process numbers identify processes,
sizes stay below the trapframe, a pipe is live as long as a file refers to it, and the books of
every process are in order.
-/

namespace Xv6

open Ledger Multiset

/-! ### What a state consists of -/

/-- The space with root `root` of a process. -/
def spaceOf (k : Kernel) (i : Fin nproc) (root : ℕ) : Space :=
  ⟨root, (k.proc i).pid, pagesOf (k.proc i).sz, tframePte (addrOf (k.proc i).trapframe),
    trampPte k.vm.kmem.sym⟩

/-- The space of a process. -/
def procSpace (k : Kernel) (i : Fin nproc) : Option Space :=
  (k.proc i).pagetable.map (spaceOf k i)

/-- The spaces of all processes. -/
noncomputable def spaces (k : Kernel) : Multiset Space :=
  ∑ i ∈ all (Fin nproc), ofOption (procSpace k i)

/-- The spaces of all processes but one. -/
noncomputable def otherSpaces (k : Kernel) (i : Fin nproc) : Multiset Space :=
  ∑ j ∈ (all (Fin nproc)).erase i, ofOption (procSpace k j)

/-- The trapframes of all processes. -/
noncomputable def trapframes (k : Kernel) : Multiset ℕ :=
  ∑ i ∈ all (Fin nproc), ofOption (k.proc i).trapframe

/-- The trapframes of all processes but one. -/
noncomputable def otherTrapframes (k : Kernel) (i : Fin nproc) : Multiset ℕ :=
  ∑ j ∈ (all (Fin nproc)).erase i, ofOption (k.proc j).trapframe

/-- The pages of live pipes: those that an open file refers to. -/
noncomputable def pipePages (k : Kernel) : Finset ℕ :=
  ((all (Fin nfile)).filter fun f => (k.file f).type = .pipe).image fun f => (k.file f).pipe

/-- The pages that are neither free nor part of a space. -/
noncomputable def held (k : Kernel) : Multiset ℕ := k.bootPages + trapframes k + (pipePages k).val

section Parts

variable {k k' : Kernel} {i : Fin nproc}

theorem spaces_eq (k : Kernel) (i : Fin nproc) :
    spaces k = ofOption (procSpace k i) + otherSpaces k i :=
  (Finset.add_sum_erase _ _ (mem_all i)).symm

theorem otherSpaces_congr (h : ∀ j, j ≠ i → procSpace k' j = procSpace k j) :
    otherSpaces k' i = otherSpaces k i :=
  Finset.sum_congr rfl fun j hj => by rw [h j (Finset.ne_of_mem_erase hj)]

theorem trapframes_eq (k : Kernel) (i : Fin nproc) :
    trapframes k = ofOption (k.proc i).trapframe + otherTrapframes k i :=
  (Finset.add_sum_erase _ _ (mem_all i)).symm

theorem otherTrapframes_congr (h : ∀ j, j ≠ i → (k'.proc j).trapframe = (k.proc j).trapframe) :
    otherTrapframes k' i = otherTrapframes k i :=
  Finset.sum_congr rfl fun j hj => by rw [h j (Finset.ne_of_mem_erase hj)]

theorem mem_spaces {sp : Space} : sp ∈ spaces k ↔ ∃ i, procSpace k i = some sp := by
  simp [spaces, mem_sum]

theorem mem_otherSpaces {sp : Space} :
    sp ∈ otherSpaces k i ↔ ∃ j, j ≠ i ∧ procSpace k j = some sp := by
  simp [otherSpaces, mem_sum]

theorem procSpace_eq_some {sp : Space} :
    procSpace k i = some sp ↔ ∃ root, (k.proc i).pagetable = some root ∧ spaceOf k i root = sp := by
  simp [procSpace]

theorem spaceOf_mem {root : ℕ} (hroot : (k.proc i).pagetable = some root) :
    spaceOf k i root ∈ spaces k :=
  mem_spaces.mpr ⟨i, procSpace_eq_some.mpr ⟨root, hroot, rfl⟩⟩

theorem spaceOf_mem_others {root : ℕ} (hne : j ≠ i) (hroot : (k.proc j).pagetable = some root) :
    spaceOf k j root ∈ otherSpaces k i :=
  mem_otherSpaces.mpr ⟨j, hne, procSpace_eq_some.mpr ⟨root, hroot, rfl⟩⟩

theorem mem_pipePages {pi : ℕ} :
    pi ∈ pipePages k ↔ ∃ f, (k.file f).type = .pipe ∧ (k.file f).pipe = pi := by
  simp [pipePages]

theorem pipePages_congr (h : ∀ f, (k'.file f).type = (k.file f).type ∧
    (k'.file f).pipe = (k.file f).pipe) : pipePages k' = pipePages k := by
  ext pi
  simp only [mem_pipePages, h]

end Parts

/-! ### The invariant -/

/-- Whether an end of a pipe is open. -/
def Pipe.isOpen (p : Pipe) (writable : Bool) : Bool := if writable then p.writeopen else p.readopen

/-- Files and pipes: each end of a live pipe is open exactly as long as one file refers to it. -/
structure FilesOk (k : Kernel) : Prop where
  closed : ∀ f, (k.file f).ref = 0 → (k.file f).type = .none
  opened : ∀ f, (k.file f).type = .pipe → (k.pipe (k.file f).pipe).isOpen (k.file f).writable = true
  unique : ∀ f g, (k.file f).type = .pipe → (k.file g).type = .pipe →
    (k.file f).pipe = (k.file g).pipe → (k.file f).writable = (k.file g).writable → f = g
  backed : ∀ f, (k.file f).type = .pipe → ∀ w, (k.pipe (k.file f).pipe).isOpen w = true →
    ∃ g, (k.file g).type = .pipe ∧ (k.file g).pipe = (k.file f).pipe ∧ (k.file g).writable = w

theorem FilesOk.congr {k k' : Kernel} (h : FilesOk k) (hfile : k'.file = k.file)
    (hpipe : k'.pipe = k.pipe) : FilesOk k' where
  closed := by rw [hfile]; exact h.closed
  opened := by rw [hfile, hpipe]; exact h.opened
  unique := by rw [hfile]; exact h.unique
  backed := by rw [hfile, hpipe]; exact h.backed

/-- The books of every process are in order. -/
structure BooksOk (k : Kernel) : Prop where
  sound : ∀ i, (k.proc i).stats.Sound
  swapped : ∀ i root, (k.proc i).pagetable = some root → k.debt i root ≤ 0
  resident : ∀ i, (k.proc i).pid ≠ 0 → (k.proc i).stats.residentPages = tally k.vm (k.proc i).pid
  fresh : ∀ pid, (k.created : ℤ) < pid → tally k.vm pid = 0

/-- **The invariant of the kernel**, while `extra` pages are in hand. -/
structure KInv (extra : Multiset ℕ) (k : Kernel) : Prop where
  vm : VmInv (spaces k) (extra + held k) k.vm
  unused : ∀ i, (k.proc i).state = .unused → (k.proc i).pid = 0 ∧ (k.proc i).sz = 0 ∧
    (k.proc i).pagetable = none ∧ (k.proc i).trapframe = none
  live : ∀ i, (k.proc i).state ≠ .unused → 0 < (k.proc i).pid ∧ (k.proc i).pid ≤ k.created
  size : ∀ i, (k.proc i).sz ≤ trapframeVa
  pids : ∀ i j, (k.proc i).state ≠ .unused → (k.proc i).pid = (k.proc j).pid → i = j
  nextpid : k.nextpid = int32 (k.created + 1)
  files : FilesOk k
  books : BooksOk k

/-- Every process in use has a page table and a trapframe. -/
def Complete (k : Kernel) : Prop := ∀ i, (k.proc i).state ≠ .unused →
  (∃ root, (k.proc i).pagetable = some root) ∧ ∃ tf, (k.proc i).trapframe = some tf

section KInv

variable {extra : Multiset ℕ} {k k' : Kernel} {me : Fin nproc} {root : ℕ}

theorem KInv.in_use (h : KInv extra k) (hroot : (k.proc me).pagetable = some root) :
    (k.proc me).state ≠ .unused := by
  intro hun
  have := (h.unused me hun).2.2.1
  rw [hroot] at this
  exact Option.some_ne_none root this

theorem KInv.root_inj (h : KInv extra k) {i j : Fin nproc} (hi : (k.proc i).pagetable = some root)
    (hj : (k.proc j).pagetable = some root) : i = j := by
  by_contra hne
  have hvm := h.vm
  rw [spaces_eq k i, procSpace, hi, Option.map_some, ofOption_some, singleton_add] at hvm
  exact hvm.footprint_apart (spaceOf_mem_others (Ne.symm hne) hj)
    (VmInv.mem_footprint_of_tables (root_mem_tables _ _))
    (VmInv.mem_footprint_of_tables (root_mem_tables _ _))

theorem KInv.owner (h : KInv extra k) (hroot : (k.proc me).pagetable = some root) :
    Owner k (spaceOf k me root) me where
  pid := rfl
  root := hroot
  pid_unique _ hi := (h.pids me _ (h.in_use hroot) hi.symm).symm
  root_unique _ hi := h.root_inj hi hroot

theorem KInv.owners (h : KInv extra k) : Owners (spaces k) k := by
  intro sp hsp _
  obtain ⟨i, hi⟩ := mem_spaces.mp hsp
  obtain ⟨root, hroot, rfl⟩ := procSpace_eq_some.mp hi
  exact ⟨i, h.owner hroot⟩

theorem spaces_cons (hroot : (k.proc me).pagetable = some root) :
    spaces k = spaceOf k me root ::ₘ otherSpaces k me := by
  rw [spaces_eq k me, procSpace, hroot, Option.map_some, ofOption_some, singleton_add]

/-- **A process with a page table may fault.** -/
theorem KInv.faulting (h : KInv extra k) (hroot : (k.proc me).pagetable = some root) :
    Faulting (spaceOf k me root) (otherSpaces k me) (extra + held k) me k where
  inv := spaces_cons hroot ▸ h.vm
  owners := spaces_cons hroot ▸ h.owners
  owner := h.owner hroot
  live := (h.live me (h.in_use hroot)).1
  size := rfl
  bound := h.size me
  top := by
    refine ⟨?_, ?_⟩
    · exact (Pte.has_mkPte _ _ (by decide)).trans (by decide)
    · exact (Pte.has_mkPte _ _ (by decide)).trans (by decide)

/-! ### Changes that the invariant does not see -/

/-- The fields of a process that the invariant reads are the same. -/
structure SameCore (p p' : Proc) : Prop where
  pid : p'.pid = p.pid
  sz : p'.sz = p.sz
  pagetable : p'.pagetable = p.pagetable
  trapframe : p'.trapframe = p.trapframe
  stats : p'.stats = p.stats
  unused : p'.state = .unused ↔ p.state = .unused

theorem SameCore.refl (p : Proc) : SameCore p p := ⟨rfl, rfl, rfl, rfl, rfl, Iff.rfl⟩

/-- Changing one process in fields that the invariant does not read. -/
theorem SameCore.setProc {p : Proc} (h : SameCore (k.proc me) p) (i : Fin nproc) :
    SameCore (k.proc i) ((k.setProc me p).proc i) := by
  by_cases hi : i = me
  · subst hi
    rw [Kernel.setProc_proc_self]
    exact h
  · rw [Kernel.setProc_proc_of_ne _ _ hi]
    exact .refl _

theorem procSpace_congr (hsym : k'.vm.kmem.sym = k.vm.kmem.sym) {i : Fin nproc}
    (hpid : (k'.proc i).pid = (k.proc i).pid) (hsz : (k'.proc i).sz = (k.proc i).sz)
    (hroot : (k'.proc i).pagetable = (k.proc i).pagetable)
    (htf : (k'.proc i).trapframe = (k.proc i).trapframe) : procSpace k' i = procSpace k i := by
  have hspace : spaceOf k' i = spaceOf k i := by
    funext root
    rw [spaceOf, spaceOf, hpid, hsz, htf, hsym]
  rw [procSpace, procSpace, hroot, hspace]

theorem spaces_congr (h : ∀ i, procSpace k' i = procSpace k i) : spaces k' = spaces k :=
  Finset.sum_congr rfl fun i _ => by rw [h i]

theorem spaces_setVm {v : Vm} (hsym : v.kmem.sym = k.vm.kmem.sym) :
    spaces (k.setVm v) = spaces k :=
  spaces_congr fun _ => procSpace_congr hsym rfl rfl rfl rfl

theorem trapframes_congr (h : ∀ i, (k'.proc i).trapframe = (k.proc i).trapframe) :
    trapframes k' = trapframes k :=
  Finset.sum_congr rfl fun i _ => by rw [h i]

/-- **Changes that the invariant does not see.** -/
theorem KInv.congr (h : KInv extra k) (hvm : k'.vm = k.vm)
    (hproc : ∀ i, SameCore (k.proc i) (k'.proc i)) (hboot : k'.bootPages = k.bootPages)
    (hcreated : k'.created = k.created) (hnext : k'.nextpid = k.nextpid)
    (hpipes : pipePages k' = pipePages k) (hfiles : FilesOk k') : KInv extra k' := by
  have hspaces : spaces k' = spaces k := spaces_congr fun i =>
    procSpace_congr (by rw [hvm]) (hproc i).pid (hproc i).sz (hproc i).pagetable (hproc i).trapframe
  have hheld : held k' = held k := by
    rw [held, held, hboot, trapframes_congr fun i => (hproc i).trapframe, hpipes]
  refine ⟨?_, fun i hi => ?_, fun i hi => ?_, fun i => ?_, fun i j hi hij => ?_, ?_, hfiles, ?_⟩
  · rw [hspaces, hheld, hvm]
    exact h.vm
  · rw [(hproc i).pid, (hproc i).sz, (hproc i).pagetable, (hproc i).trapframe]
    exact h.unused i ((hproc i).unused.mp hi)
  · rw [(hproc i).pid, hcreated]
    exact h.live i fun hun => hi ((hproc i).unused.mpr hun)
  · rw [(hproc i).sz]
    exact h.size i
  · rw [(hproc i).pid, (hproc j).pid] at hij
    exact h.pids i j (fun hun => hi ((hproc i).unused.mpr hun)) hij
  · rw [hnext, hcreated]
    exact h.nextpid
  · refine ⟨fun i => ?_, fun i root hroot => ?_, fun i hi => ?_, fun pid hpid => ?_⟩
    · rw [(hproc i).stats]
      exact h.books.sound i
    · rw [(hproc i).pagetable] at hroot
      rw [Kernel.debt, hvm, (hproc i).stats]
      exact h.books.swapped i root hroot
    · rw [(hproc i).pid] at hi ⊢
      rw [(hproc i).stats, hvm]
      exact h.books.resident i hi
    · rw [hcreated] at hpid
      rw [hvm]
      exact h.books.fresh pid hpid

theorem Complete.congr (h : Complete k) (hproc : ∀ i, SameCore (k.proc i) (k'.proc i)) :
    Complete k' := by
  intro i hi
  rw [(hproc i).pagetable, (hproc i).trapframe]
  exact h i fun hun => hi ((hproc i).unused.mpr hun)

/-! ### Paging -/

section Paged

variable (hp : Paged k k')

include hp

theorem Paged.trapframe (i : Fin nproc) : (k'.proc i).trapframe = (k.proc i).trapframe := by
  rw [hp.proc]

theorem Paged.state (i : Fin nproc) : (k'.proc i).state = (k.proc i).state := by rw [hp.proc]

theorem Paged.rest : k'.bootPages = k.bootPages ∧ k'.created = k.created ∧
    k'.nextpid = k.nextpid ∧ k'.file = k.file ∧ k'.pipe = k.pipe ∧ k'.initproc = k.initproc := by
  obtain ⟨v, stats, rfl⟩ := hp
  exact ⟨rfl, rfl, rfl, rfl, rfl, rfl⟩

theorem Paged.procSpace (hsym : k'.vm.kmem.sym = k.vm.kmem.sym) (i : Fin nproc) :
    procSpace k' i = procSpace k i :=
  procSpace_congr hsym (hp.pid i) (hp.sz i) (hp.pagetable i) (hp.trapframe i)

theorem Paged.spaces (hsym : k'.vm.kmem.sym = k.vm.kmem.sym) : spaces k' = spaces k :=
  spaces_congr (hp.procSpace hsym)

theorem Paged.held : held k' = held k := by
  obtain ⟨hboot, -, -, hfile, -⟩ := hp.rest
  have hpipes : pipePages k' = pipePages k :=
    pipePages_congr fun f => ⟨by rw [hfile], by rw [hfile]⟩
  rw [Xv6.held, Xv6.held, hboot, trapframes_congr hp.trapframe, hpipes]

theorem Complete.paged (h : Complete k) : Complete k' := by
  intro i hi
  rw [hp.pagetable, hp.trapframe]
  exact h i (by rw [← hp.state]; exact hi)

theorem BooksOk.paged (h : BooksOk k) (hlive : ∀ i, (k.proc i).pid ≤ k.created)
    (hb : Booked (Xv6.spaces k) k k') : BooksOk k' := by
  have hcreated : k'.created = k.created := hp.rest.2.1
  refine ⟨fun i => ?_, fun i root hroot => ?_, fun i hi => ?_, fun pid hpid => ?_⟩
  · exact hb.sound i (h.sound i)
  · rw [hp.pagetable] at hroot
    exact (hb.swapped i _ (spaceOf_mem hroot) hroot).trans (h.swapped i root hroot)
  · rw [hp.pid] at hi ⊢
    have := hb.resident i hi
    have := h.resident i hi
    omega
  · rw [hcreated] at hpid
    rw [hb.strange pid fun i hi => ?_]
    · exact h.fresh pid hpid
    · have := hlive i
      omega

end Paged

theorem KInv.pid_le (h : KInv extra k) (i : Fin nproc) : (k.proc i).pid ≤ k.created := by
  by_cases hi : (k.proc i).state = .unused
  · rw [(h.unused i hi).1]
    exact Int.natCast_nonneg _
  · exact (h.live i hi).2

/-- **Paging keeps the invariant.** -/
theorem KInv.paged (h : KInv extra k) (hp : Paged k k') (hsym : k'.vm.kmem.sym = k.vm.kmem.sym)
    (hinv : VmInv (spaces k) (extra + held k) k'.vm) (hb : Booked (spaces k) k k') :
    KInv extra k' := by
  obtain ⟨-, hcreated, hnext, hfile, hpipe, -⟩ := hp.rest
  refine ⟨?_, fun i hi => ?_, fun i hi => ?_, fun i => ?_, fun i j hi hij => ?_, ?_,
    h.files.congr hfile hpipe, h.books.paged hp h.pid_le hb⟩
  · rw [hp.spaces hsym, hp.held]
    exact hinv
  · rw [hp.state] at hi
    rw [hp.pid, hp.sz, hp.pagetable, hp.trapframe]
    exact h.unused i hi
  · rw [hp.state] at hi
    rw [hp.pid, hcreated]
    exact h.live i hi
  · rw [hp.sz]
    exact h.size i
  · rw [hp.state] at hi
    rw [hp.pid, hp.pid] at hij
    exact h.pids i j hi hij
  · rw [hnext, hcreated]
    exact h.nextpid

end KInv

end Xv6
