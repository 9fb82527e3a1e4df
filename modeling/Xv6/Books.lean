import Xv6.Proc
import Xv6.Space

/-!
# Processes and their books

Paging changes the paging state and the statistics of the processes, and nothing else of the
kernel (`Paged`). The statistics are the books of a process: how many of its pages were swapped
out and in, and how many are resident. This file relates them to what they count, the entries of
page tables that name a slot and the entries of the frame table.
-/

namespace Xv6

open Ledger Function

/-! ### What paging leaves alone -/

namespace Kernel

/-- Replace the paging state and the statistics of every process. -/
def repage (k : Kernel) (v : Vm) (stats : Fin nproc → VmStats) : Kernel :=
  { k with vm := v, proc := fun j => { k.proc j with stats := stats j } }

/-- How many swap slots are in use. -/
def slotsUsed (k : Kernel) : ℕ := Table.count fun i => (k.vm.swapArea i).used

/-- How many pages are free. -/
def freePages (k : Kernel) : ℕ := k.vm.kmem.freelist.length

/-- How many frame-table entries are in use. -/
def framesUsed (k : Kernel) : ℕ := frametableUsed k.vm

theorem framesUsed_congr {k k' : Kernel} (h : k'.vm.ftable = k.vm.ftable) :
    k'.framesUsed = k.framesUsed := by
  rw [framesUsed, framesUsed, frametableUsed, frametableUsed, h]

theorem slotsUsed_congr {k k' : Kernel} (h : k'.vm.swapArea = k.vm.swapArea) :
    k'.slotsUsed = k.slotsUsed := by
  rw [slotsUsed, slotsUsed, h]

/-- Change the statistics of a process. -/
def setStats (k : Kernel) (i : Fin nproc) (f : VmStats → VmStats) : Kernel :=
  k.setProc i { k.proc i with stats := f (k.proc i).stats }

@[simp] theorem setStats_vm (k : Kernel) (i : Fin nproc) (f : VmStats → VmStats) :
    (k.setStats i f).vm = k.vm := rfl

theorem setStats_self (k : Kernel) (i : Fin nproc) (f : VmStats → VmStats) :
    ((k.setStats i f).proc i).stats = f (k.proc i).stats := by
  rw [setStats, setProc_proc_self]

theorem setStats_of_ne (k : Kernel) {i j : Fin nproc} (f : VmStats → VmStats) (h : j ≠ i) :
    ((k.setStats i f).proc j).stats = (k.proc j).stats := by
  rw [setStats, setProc_proc_of_ne _ _ h]

end Kernel

/-- Only the paging state and statistics are different. -/
def Paged (k k' : Kernel) : Prop := ∃ v stats, k' = k.repage v stats

theorem Paged.refl (k : Kernel) : Paged k k := ⟨k.vm, fun j => (k.proc j).stats, rfl⟩

theorem Paged.setVm (k : Kernel) (v : Vm) : Paged k (k.setVm v) :=
  ⟨v, fun j => (k.proc j).stats, rfl⟩

theorem Paged.setStats (k : Kernel) (i : Fin nproc) (f : VmStats → VmStats) :
    Paged k (k.setStats i f) := by
  refine ⟨k.vm, update (fun j => (k.proc j).stats) i (f (k.proc i).stats), ?_⟩
  rw [Kernel.setStats, Kernel.setProc, Kernel.repage]
  congr 1
  funext j
  by_cases hj : j = i
  · subst hj
    rw [update_self, update_self]
  · rw [update_of_ne hj, update_of_ne hj]

section Paged

variable {k k' k'' : Kernel}

theorem Paged.trans (h : Paged k k') (h' : Paged k' k'') : Paged k k'' := by
  obtain ⟨v, stats, rfl⟩ := h
  obtain ⟨v', stats', rfl⟩ := h'
  exact ⟨v', stats', rfl⟩

variable (h : Paged k k')

include h

theorem Paged.proc (j : Fin nproc) :
    k'.proc j = { k.proc j with stats := (k'.proc j).stats } := by
  obtain ⟨v, stats, rfl⟩ := h
  rfl

theorem Paged.pid (j : Fin nproc) : (k'.proc j).pid = (k.proc j).pid := by rw [h.proc]

theorem Paged.pagetable (j : Fin nproc) : (k'.proc j).pagetable = (k.proc j).pagetable := by
  rw [h.proc]

theorem Paged.sz (j : Fin nproc) : (k'.proc j).sz = (k.proc j).sz := by rw [h.proc]

end Paged

/-- Process `j` is the one that a space belongs to. -/
structure Owner (k : Kernel) (sp : Space) (j : Fin nproc) : Prop where
  pid : (k.proc j).pid = sp.pid
  root : (k.proc j).pagetable = some sp.root
  /-- No other process has its number. -/
  pid_unique : ∀ i, (k.proc i).pid = sp.pid → i = j
  /-- No other process has its page table. -/
  root_unique : ∀ i, (k.proc i).pagetable = some sp.root → i = j

/-- Every space with a process number belongs to a process. -/
def Owners (S : Multiset Space) (k : Kernel) : Prop := ∀ sp ∈ S, 0 < sp.pid → ∃ j, Owner k sp j

theorem Owner.findProc {k : Kernel} {sp : Space} {j : Fin nproc} (h : Owner k sp j) :
    findProc k sp.pid = some j :=
  Table.first_of_unique (by simpa using h.pid) fun i hi => h.pid_unique i (by simpa using hi)

theorem Owner.paged {k k' : Kernel} {sp : Space} {j : Fin nproc} (h : Owner k sp j)
    (hp : Paged k k') : Owner k' sp j where
  pid := (hp.pid j).trans h.pid
  root := (hp.pagetable j).trans h.root
  pid_unique i hi := h.pid_unique i ((hp.pid i).symm.trans hi)
  root_unique i hi := h.root_unique i ((hp.pagetable i).symm.trans hi)

theorem Owners.paged {S : Multiset Space} {k k' : Kernel} (h : Owners S k) (hp : Paged k k') :
    Owners S k' := fun sp hsp hpos => (h sp hsp hpos).imp fun _ hj => hj.paged hp

/-! ### Pages that are swapped out -/

/-- How many pages of a page table are swapped out. -/
noncomputable def swapCount (m : ℕ → Page) (root : ℕ) : ℕ :=
  ∑ u ∈ below userPages, ((lookup m root u).has pteSwapped).toNat

section SwapCount

variable {m m' : ℕ → Page} {root vpn : ℕ}

theorem swapCount_le (h : ∀ u < userPages, (lookup m' root u).has pteSwapped = true →
    (lookup m root u).has pteSwapped = true) : swapCount m' root ≤ swapCount m root := by
  refine Finset.sum_le_sum fun u hu => ?_
  have := h u (mem_below.mp hu)
  revert this
  cases (lookup m' root u).has pteSwapped <;> cases (lookup m root u).has pteSwapped <;> simp

theorem swapCount_congr (h : ∀ u < userPages, lookup m' root u = lookup m root u) :
    swapCount m' root = swapCount m root :=
  Finset.sum_congr rfl fun u hu => by rw [h u (mem_below.mp hu)]

theorem swapCount_setLeaf (hv : vpn < userPages)
    (h : ∀ u < userPages, u ≠ vpn → lookup m' root u = lookup m root u) :
    swapCount m' root + ((lookup m root vpn).has pteSwapped).toNat
      = swapCount m root + ((lookup m' root vpn).has pteSwapped).toNat :=
  sum_add_eq_of_agree (f := fun u => ((lookup m' root u).has pteSwapped).toNat)
    (g := fun u => ((lookup m root u).has pteSwapped).toNat) (mem_below.mpr hv)
    fun u hu hne => by rw [h u (mem_below.mp hu) hne]

end SwapCount

/-- The pages of a process that are or were swapped out, as far as its counters cannot explain
them. -/
noncomputable def Kernel.debt (k : Kernel) (j : Fin nproc) (root : ℕ) : ℤ :=
  (k.proc j).stats.pagesSwappedIn + swapCount k.vm.kmem.mem root - (k.proc j).stats.pagesSwappedOut

/-! ### The books -/

/-- What paging does to the books: evictions are swap-outs, no page is swapped out that is not
counted, and the resident pages that a process counts change with those that are registered. -/
structure Booked (S : Multiset Space) (k k' : Kernel) : Prop where
  sound : ∀ j, (k.proc j).stats.Sound → (k'.proc j).stats.Sound
  swapped : ∀ j, ∀ q ∈ S, (k.proc j).pagetable = some q.root → k'.debt j q.root ≤ k.debt j q.root
  resident : ∀ j, (k.proc j).pid ≠ 0 →
    (k'.proc j).stats.residentPages - tally k'.vm (k.proc j).pid
      = (k.proc j).stats.residentPages - tally k.vm (k.proc j).pid
  /-- Numbers of no process have nothing registered. -/
  strange : ∀ pid, (∀ j, (k.proc j).pid ≠ pid) → tally k'.vm pid = tally k.vm pid

section Booked

variable {S R : Multiset Space} {sp : Space} {k k' k'' : Kernel} {v : Vm} {me : Fin nproc}

theorem Booked.refl (S : Multiset Space) (k : Kernel) : Booked S k k :=
  ⟨fun _ => id, fun _ _ _ _ => le_rfl, fun _ _ => rfl, fun _ _ => rfl⟩

theorem Booked.trans (h : Booked S k k') (hp : Paged k k') (h' : Booked S k' k'') :
    Booked S k k'' where
  sound j hj := h'.sound j (h.sound j hj)
  swapped j q hq hroot :=
    (h'.swapped j q hq ((hp.pagetable j).trans hroot)).trans (h.swapped j q hq hroot)
  resident j hj := by
    have hres := h'.resident j (by rw [hp.pid]; exact hj)
    rw [hp.pid] at hres
    exact hres.trans (h.resident j hj)
  strange pid hpid :=
    (h'.strange pid fun j => by rw [hp.pid]; exact hpid j).trans (h.strange pid hpid)

/-- The books when no page is swapped out and no frame is counted. -/
theorem Booked.setVm (htally : tally v = tally k.vm)
    (hswap : ∀ q ∈ S, swapCount v.kmem.mem q.root ≤ swapCount k.vm.kmem.mem q.root) :
    Booked S k (k.setVm v) where
  sound _ hj := hj
  swapped j q hq _ := by
    have := hswap q hq
    rw [Kernel.debt, Kernel.debt, Kernel.setVm_vm, Kernel.setVm_proc]
    omega
  resident j _ := by rw [Kernel.setVm_vm, Kernel.setVm_proc, htally]
  strange pid _ := by rw [Kernel.setVm_vm, htally]

/-- The books of code that leaves every space alone. -/
theorem Keeps.booked (h : Keeps S k.vm v) : Booked S k (k.setVm v) :=
  Booked.setVm h.tally fun q hq => (swapCount_congr fun u hu => (h.same q hq u hu).1).le

/-- An entry of the books: the statistics of a process change by `f`, and with them the pages of its
space that are swapped out and registered. -/
theorem Booked.enter (ho : Owner k sp me) (f : VmStats → VmStats)
    (hother : ∀ q ∈ S, q.root ≠ sp.root →
      swapCount v.kmem.mem q.root ≤ swapCount k.vm.kmem.mem q.root)
    (htally : ∀ pid, pid ≠ sp.pid → tally v pid = tally k.vm pid)
    (hsound : ∀ s : VmStats, s.Sound → (f s).Sound)
    (hswapped : ∀ s : VmStats,
      (f s).pagesSwappedIn + swapCount v.kmem.mem sp.root - (f s).pagesSwappedOut
        ≤ s.pagesSwappedIn + swapCount k.vm.kmem.mem sp.root - s.pagesSwappedOut)
    (hresident : ∀ s : VmStats, (f s).residentPages - tally v sp.pid
      = s.residentPages - tally k.vm sp.pid) :
    Booked S k ((k.setVm v).setStats me f) := by
  have hne : ∀ j, j ≠ me → ∀ q ∈ S, (k.proc j).pagetable = some q.root → q.root ≠ sp.root :=
    fun j hj q _ hroot heq => hj (ho.root_unique j (heq ▸ hroot))
  refine ⟨fun j => ?_, fun j q hq hroot => ?_, fun j hj => ?_, fun pid hpid' => ?_⟩
  · by_cases hj : j = me
    · rw [hj, Kernel.setStats_self]
      exact hsound _
    · rw [Kernel.setStats_of_ne _ _ hj, Kernel.setVm_proc]
      exact id
  · rw [Kernel.debt, Kernel.debt, Kernel.setStats_vm, Kernel.setVm_vm]
    by_cases hj : j = me
    · rw [hj, ho.root] at hroot
      rw [hj, Kernel.setStats_self, ← Option.some.inj hroot]
      exact hswapped _
    · have := hother q hq (hne j hj q hq hroot)
      rw [Kernel.setStats_of_ne _ _ hj, Kernel.setVm_proc]
      omega
  · rw [Kernel.setStats_vm, Kernel.setVm_vm]
    by_cases hj : j = me
    · rw [hj, Kernel.setStats_self, ho.pid]
      exact hresident _
    · rw [Kernel.setStats_of_ne _ _ hj, Kernel.setVm_proc,
        htally _ fun heq => hj (ho.pid_unique j heq)]
  · rw [Kernel.setStats_vm, Kernel.setVm_vm]
    exact htally pid fun heq => hpid' me (ho.pid.trans heq.symm)

end Booked

end Xv6
