import Xv6.Fs.Syscall

/-!
# Growing and forking, all or nothing

`growproc` and `kfork` allocate many pages one by one, and any of these allocations may be the
first that fails. Then everything done so far has to be undone.

That the allocator gives out `j` more pages and no other is a state with a shorter free list: the
pages that are cut off are in hand of nobody, as far as the invariant is concerned. So every
statement here is about an arbitrary set of pages in hand, and at the end it is read at a reachable
state whose free list has been cut.

A call of `growproc` that fails may leave page-table pages behind, which are part of the page table
and hold no entry. This is the only difference. A call of `kfork` that fails leaves nothing behind
but a process number that will not be used.
-/

namespace Xv6

open Ledger Prog Multiset

variable {extra : Multiset ℕ} {k k' k₁ : Kernel} {me i : Fin nproc} {root : ℕ}

/-! ### Running out of memory -/

/-- The allocator will give out `j` more pages, and then fail. -/
def Kernel.starve (k : Kernel) (j : ℕ) : Kernel :=
  k.setVm (k.vm.setKmem (k.vm.kmem.setFree (k.vm.kmem.freelist.take j)))

theorem Kernel.starve_zero (k : Kernel) : (k.starve 0).vm.kmem.freelist = [] := by
  change k.vm.kmem.freelist.take 0 = []
  rw [List.take_zero]

theorem KInv.starve (h : KInv 0 k) (j : ℕ) : KInv (k.vm.kmem.freelist.drop j) (k.starve j) where
  vm := by
    rw [show spaces (k.starve j) = spaces k from spaces_setVm rfl]
    refine h.vm.setKmem rfl h.vm.refreed ?_ fun _ _ _ _ => rfl
    have hcut := congrArg (fun l : List ℕ => (l : Multiset ℕ))
      (List.take_append_drop j k.vm.kmem.freelist)
    change (↑(k.vm.kmem.freelist.take j) : Multiset ℕ) + (_ + held k) = _ + (0 + held k)
    rw [zero_add, ← add_assoc, Multiset.coe_add]
    exact congrArg (· + held k) hcut
  unused := h.unused
  live := h.live
  size := h.size
  pids := h.pids
  nextpid := h.nextpid
  files := h.files.congr rfl rfl
  books := ⟨h.books.sound, h.books.swapped, h.books.resident, h.books.fresh⟩

/-! ### Growing -/

/-- With `j` pages left, a process does not grow by one page more. -/
theorem growproc_starved {j : ℕ} (h : KInv extra k) (hroot : (k.proc me).pagetable = some root)
    (hlen : k.vm.kmem.freelist.length ≤ j)
    (hroomy : (k.proc me).sz + (j + 1) * pgsize ≤ trapframeVa) {n : ℤ}
    (hn : n = ((j + 1) * pgsize : ℕ)) :
    wp (growproc me n) (fun r _ => r = false) (fun _ => False) k := by
  have haddr : addrOf (k.proc me).pagetable = root := by rw [hroot]; rfl
  have hsucc : pagesOf ((k.proc me).sz + (j + 1) * pgsize) = pagesOf (k.proc me).sz + (j + 1) := by
    simp only [pagesOf, pgsize]
    omega
  have htop := pagesOf_le hroomy
  have hvm := h.vm
  rw [spaces_cons hroot] at hvm
  have hbeyond := (hvm.spaces _ (mem_cons_self _ _)).beyond
  have hnew : addInt (k.proc me).sz n = (k.proc me).sz + (j + 1) * pgsize := by
    have hbound : (k.proc me).sz + (j + 1) * pgsize < 2 ^ 64 := hroomy.trans_lt (by decide)
    rw [addInt, hn]
    omega
  rw [growproc, wp_bind, wp_get]
  dsimp only
  rw [haddr, if_pos (by simp only [pgsize] at hn; omega), hnew, if_neg (Nat.not_lt.mpr hroomy),
    wp_bind, wp_onVm]
  -- at most `j` pages are added, and so the last one is not
  have huser : pagesOf (k.proc me).sz + j ≤ userPages := by omega
  have hup := hvm.resize huser fun u hu hu' => hbeyond u ((Nat.le_add_right _ j).trans hu) hu'
  refine wp_imp (uvmalloc_spec hup leafPerm_grow (h.size me) (Nat.le_add_right _ _)
    (Nat.add_le_add_left ((Nat.min_le_right _ _).trans hlen) _)
    fun u hu hu' => hbeyond u hu (Nat.lt_of_lt_of_le hu' huser)) ?_
  rintro r v ⟨_, ⟨-, hlast, -⟩ | ⟨rfl, -⟩⟩
  · change _ ≤ pagesOf (k.proc me).sz + j at hlast
    omega
  · rw [if_pos rfl, wp_pure]

/-! ### Forking -/

namespace Undone

theorem procSpace_eq (h : KInv extra k) (hu : Undone extra k k') (j : Fin nproc) :
    procSpace k' j = procSpace k j := by
  rcases hu.procs j with heq | ⟨hun, hun'⟩
  · exact procSpace_congr hu.keeps.sym (by rw [heq]) (by rw [heq]) (by rw [heq]) (by rw [heq])
  · rw [procSpace, procSpace, (h.unused j hun).2.2.1, (hu.inv.unused j hun').2.2.1]
    rfl

theorem trapframe_eq (h : KInv extra k) (hu : Undone extra k k') (j : Fin nproc) :
    (k'.proc j).trapframe = (k.proc j).trapframe := by
  rcases hu.procs j with heq | ⟨hun, hun'⟩
  · rw [heq]
  · rw [(h.unused j hun).2.2.2, (hu.inv.unused j hun').2.2.2]

theorem free_eq (h : KInv extra k) (hu : Undone extra k k') :
    (k'.vm.kmem.freelist : Multiset ℕ) = k.vm.kmem.freelist := by
  have hspaces : spaces k' = spaces k := spaces_congr (hu.procSpace_eq h)
  have hheld : held k' = held k := by
    have hpipes : pipePages k' = pipePages k :=
      pipePages_congr fun f => ⟨by rw [hu.file], by rw [hu.file]⟩
    rw [held, held, hu.boot, trapframes_congr (hu.trapframe_eq h), hpipes]
  have hvm' := hu.inv.vm
  rw [hspaces, hheld] at hvm'
  exact hu.memory.free_eq h.vm hvm' hu.keeps.sym

end Undone

/-- **`forkMake`** undoes everything when it fails. -/
theorem forkMake_undone (h : KInv extra k) (hlt : k.created + 1 < 2 ^ 31)
    (hroot : (k.proc me).pagetable = some root) :
    wp (forkMake me) (fun r k' => r = none → Undone extra k k') (fun _ => True) k := by
  exact forkMake_spec h hlt hroot (fun _ _ _ => trivial) (fun _ hun _ _ => hun)
    fun _ _ _ _ _ hnone => absurd hnone (Option.some_ne_none _)

theorem forkMake_starved (h : KInv extra k) (hlt : k.created + 1 < 2 ^ 31)
    (hnil : k.vm.kmem.freelist = []) :
    wp (forkMake me) (fun r _ => r = none) (fun _ => False) k := by
  rw [forkMake, wp_bind]
  exact allocproc_spec h hlt (fun _ => rfl) (fun _ _ _ => rfl)
    fun _ _ _ _ _ hspared => absurd hnil hspared.free

/-! ### Wherever memory runs out -/

namespace Sys

variable {b : Boot} {w w' : Sys}

/-- The allocator will give out `j` more pages, and then fail. -/
def starve (w : Sys) (j : ℕ) : Sys := { w with kernel := w.kernel.starve j }

/-- What a call of `kfork` leaves that fails. No page of a process or of a pipe has been written,
page-table pages and trapframes included, and no user page has been moved. No reference has been
taken. An entry of the process table is what it was, or it was unused and is unused. -/
structure Unforked (w w' : Sys) : Prop where
  free : (w'.kernel.vm.kmem.freelist : Multiset ℕ) = w.kernel.vm.kmem.freelist
  memory : Untouched (spaces w.kernel) (held w.kernel) w.kernel.vm w'.kernel.vm
  contents : ∀ q ∈ spaces w.kernel, ∀ u < userPages, KeepsAt w.kernel.vm w'.kernel.vm q.root u
  file : w'.kernel.file = w.kernel.file
  pipe : w'.kernel.pipe = w.kernel.pipe
  fs : w'.fs = w.fs
  node : w'.node = w.node
  cwd : w'.cwd = w.cwd
  procs : ∀ i, w'.kernel.proc i = w.kernel.proc i ∨
    (w.kernel.proc i).state = .unused ∧ (w'.kernel.proc i).state = .unused

/-- **`kfork`** undoes everything when it fails. A call that does not fail returns a process
number, which is positive. -/
theorem kfork_undone (h : KInv extra w.kernel) (hlt : w.kernel.created + 1 < 2 ^ 31)
    (hroot : (w.kernel.proc me).pagetable = some root) :
    wp (kfork me) (fun r w' => r = -1 → Unforked w w') (fun _ => True) w := by
  rw [kfork, wp_bind]
  refine (wp_zoom kernelPart).mpr ?_
  refine wp_mono (wp_and (forkMake_undone h hlt hroot) (forkMake_family me w.kernel))
    (fun r k hr => ?_) fun _ _ => trivial
  rcases hr with ⟨hundone, ⟨rfl, -⟩ | ⟨np, rfl, -⟩⟩
  · rw [wp_pure]
    have hu := hundone rfl
    refine fun _ => ⟨hu.free_eq h, ?_, hu.keeps.same, hu.file, hu.pipe, rfl, rfl, rfl, hu.procs⟩
    exact hu.memory.mono (fun _ hq => hq) fun _ hy => mem_add.mpr (Or.inr hy)
  · dsimp only
    refine wp_bind_of_forall fun w₁ w₂ => ?_
    cases w₁.cwd me with
    | none => exact trivial
    | some cwd =>
      refine wp_bind_of_forall fun _ _ => wp_bind_of_forall fun _ _ =>
        wp_bind_of_forall fun _ _ => ?_
      rw [wp_pure, h.nextpid_eq hlt]
      omega

/-- **Growing memory and forking are all or nothing**, in every reachable state and wherever the
allocator starts to fail. -/
theorem growth_and_fork_all_or_nothing (hw : Reachable b w.kernel)
    (hme : (w.kernel.proc me).state = .running) (j : ℕ) :
    ∃ root, (w.kernel.proc me).pagetable = some root ∧
      (∀ n k', growproc me n (w.kernel.starve j) = .ok (false, k') →
        Ungrown root (w.kernel.starve j) k' ∧ ∀ x ∈ (w.kernel.starve j).vm.kmem.freelist,
          x ∈ k'.vm.kmem.freelist ∨ x ∈ tables k'.vm.kmem.mem root) ∧
      (w.kernel.created + 1 < 2 ^ 31 → ∀ w', kfork me (w.starve j) = .ok (-1, w') →
        Unforked (w.starve j) w') := by
  obtain ⟨hinv, hc⟩ := hw.ok
  obtain ⟨root, hroot⟩ := (hc me (by rw [hme]; exact ProcState.noConfusion)).1
  have hcut := hinv.starve j
  refine ⟨root, hroot, fun n k' hrun => ?_, fun hlt w' hrun => ?_⟩
  · have hspec : wp (growproc me n) (fun r k' => r = false → Ungrown root (w.kernel.starve j) k')
        (fun _ => True) (w.kernel.starve j) :=
      growproc_spec hcut (fun i hi => hc i hi) hroot n fun _ _ _ _ _ hun => hun
    have hun := wp_ok hspec hrun rfl
    exact ⟨hun, fun x hx => hun.freed hx⟩
  · exact wp_ok (kfork_undone (w := w.starve j) hcut hlt hroot) hrun rfl

/-- The first process asks for two pages when one is left, and forks when none is. -/
theorem growth_and_fork_all_or_nothing_small : ∃ (w : Sys) (me : Fin nproc) (root : ℕ),
    Reachable .small w.kernel ∧ (w.kernel.proc me).state = .running ∧
    (∃ n k', n = 2 * (pgsize : ℤ) ∧ growproc me n (w.kernel.starve 1) = .ok (false, k') ∧
      Ungrown root (w.kernel.starve 1) k') ∧
    ∃ w', kfork me (w.starve 0) = .ok (-1, w') ∧ Unforked (w.starve 0) w' := by
  obtain ⟨me, _, k, hboot, hb, -⟩ := Boot.small_boots
  obtain ⟨w, rfl⟩ : ∃ w : Sys, w.kernel = k :=
    ⟨⟨k, ⟨⟨0, 0, 0, 0⟩, fun _ _ => 0, fun _ _ => 0, ∅, fun _ => ⟨.zero, 0, 0, 0, false, false⟩⟩,
      fun _ => ⟨⟨0, by decide⟩, 0, 0⟩, fun _ => none⟩, rfl⟩
  have hreach : Reachable .small w.kernel := .boot hboot
  have hlt : w.kernel.created + 1 < 2 ^ 31 := by rw [hb.created]; decide
  obtain ⟨root, hroot, hgrow, -⟩ := growth_and_fork_all_or_nothing hreach hb.state 1
  obtain ⟨-, -, -, hfork⟩ := growth_and_fork_all_or_nothing hreach hb.state 0
  obtain ⟨n, hn⟩ : ∃ n : ℤ, n = ((1 + 1) * pgsize : ℕ) := ⟨_, rfl⟩
  have hroomy : (w.kernel.proc me).sz + (1 + 1) * pgsize ≤ trapframeVa := by rw [hb.sz]; decide
  obtain ⟨_, k', hrun, rfl⟩ := exists_of_wp
    (growproc_starved (hreach.ok.inv.starve 1) hroot (List.length_take_le 1 _) hroomy hn)
  have hmake : wp (kfork me) (fun r _ => r = -1) (fun _ => False) (w.starve 0) := by
    rw [kfork, wp_bind]
    refine (wp_zoom kernelPart).mpr (wp_imp (forkMake_starved (k := (w.starve 0).kernel)
      (hreach.ok.inv.starve 0) hlt w.kernel.starve_zero) ?_)
    rintro _ k₁ rfl
    exact rfl
  obtain ⟨_, w', hrun', rfl⟩ := exists_of_wp hmake
  exact ⟨w, me, root, hreach, hb.state, ⟨n, k', hn, hrun, (hgrow n k' hrun).1⟩, w', hrun',
    hfork hlt w' hrun'⟩

end Sys

end Xv6
