import Xv6.Copies

/-!
# A run with two processes

The races of the paging code take two processes and a frame table that is full, or almost full. In
this run the first process touches pages one after another and then forks. The child has pages of
its own, and no frame of it is registered: a fault of the child evicts a page of the parent.
-/

namespace Xv6

open Prog

variable {perm : Pte} {pg : Page} {me np : Fin nproc} {root root' n : ℕ} {k k' : Kernel}

/-- The process `me` has touched `n` pages above its stack and then forked `np`. -/
structure Twins (me np : Fin nproc) (root root' n : ℕ) (k : Kernel) : Prop where
  ok : KOk k
  ne : np ≠ me
  pagetable : (k.proc me).pagetable = some root
  childTable : (k.proc np).pagetable = some root'
  sz : (k.proc me).sz = fillPages * pgsize
  childSz : (k.proc np).sz = fillPages * pgsize
  untouched : ∀ u, n + 2 ≤ u → u < fillPages → lookup k.vm.kmem.mem root u = 0#64
  childUntouched : ∀ u, n + 2 ≤ u → u < fillPages → lookup k.vm.kmem.mem root' u = 0#64
  frames : k.framesUsed = min n maxFrames
  slots : k.slotsUsed ≤ n - maxFrames
  free : 20000 ≤ k.freePages

/-- Slots that are in use afterwards were in use before. -/
theorem Keeps.slotsUsed_le {S : Multiset Space} (h : Keeps S k.vm k'.vm) :
    k'.slotsUsed ≤ k.slotsUsed := by
  refine Table.count_mono fun i hi => ?_
  rw [← h.slots i hi]
  exact hi

theorem Filled.twins (h : Filled perm pg me root n k) (hn : n ≤ 640) :
    ∃ k' np root', kfork me k = .ok (2, k') ∧ k'.created = 2 ∧ Twins me np root root' n k' := by
  obtain ⟨k', hrun, hcreated, np, root', hf, hft⟩ := h.fork hn
  have hne : np ≠ me := fun heq => h.ok.inv.in_use h.pagetable (heq ▸ hf.old)
  have hme : k'.proc me = k.proc me := hf.others me hne.symm
  have hkeep : ∀ u < userPages, lookup k'.vm.kmem.mem root u = lookup k.vm.kmem.mem root u :=
    fun u hu => (hf.keeps.same _ (spaceOf_mem h.pagetable) u hu).1
  refine ⟨k', np, root', hrun, hcreated, ⟨hf.inv, hf.complete h.ok.complete⟩, hne, ?_,
    hf.pagetable, ?_, ?_, fun u hu hu' => ?_, fun u hu hu' => ?_, ?_, ?_, ?_⟩
  · rw [hme, h.pagetable]
  · rw [hme, h.sz]
  · rw [hf.sz, h.sz]
  · rw [hkeep u (Filled.user hu'), h.untouched u hu hu']
  · exact hf.skipped u (Filled.user hu') (by rw [h.untouched u hu hu', Pte.has_zero])
  · rw [Kernel.framesUsed_congr hft, h.frames]
  · rw [← h.slots]
    exact hf.keeps.slotsUsed_le
  · have hbefore := h.free
    have hcost := hf.free
    rw [h.sz, pagesOf_mul, fillPages] at hcost
    omega

/-- Either of them may touch the next page. -/
theorem Twins.pagedIn (ht : Twins me np root root' n k) (hn : n < 640) {i : Fin nproc} {r : ℕ}
    (hroot : (k.proc i).pagetable = some r) (hsz : (k.proc i).sz = fillPages * pgsize)
    (habs : lookup k.vm.kmem.mem r (n + 2) = 0#64) :
    permits k.vm r ((n + 2) * pgsize) .load = false ∧
    ∃ x k₁, vmfault i r ((n + 2) * pgsize) k = .ok (true, k₁) ∧
      FaultedIn (spaceOf k i r) (otherSpaces k i) (0 + held k) x (n + 2) k k₁ := by
  have hfree := ht.free
  have hslots := ht.slots
  have hmiss := missing_le k.vm.kmem.mem r (n + 2)
  have hpages : fillPages = 1000 := rfl
  have hdiv : (n + 2) * pgsize / pgsize = n + 2 := Nat.mul_div_cancel _ (by decide)
  have hcan : CanPageIn k r (n + 2) := by
    refine ⟨?_, by split_ifs <;> omega⟩
    rintro (hfull | hdry)
    · have : maxSwapSlots = 512 := rfl
      have : maxFrames = 128 := rfl
      omega
    · omega
  obtain ⟨_, k₁, hrun, rfl, x, hp⟩ := exists_of_wp (vmfault_pagedIn (ht.ok.inv.faulting hroot)
    ((n + 2) * pgsize) (Q := fun b k' => b = true ∧ ∃ x, FaultedIn (spaceOf k i r)
      (otherSpaces k i) (0 + held k) x (n + 2) k k') hdiv.symm
    (by rw [hsz]; exact Nat.mul_lt_mul_of_pos_right (by omega) (by decide))
    (by change (lookup k.vm.kmem.mem r (n + 2)).has pteV = false; rw [habs, Pte.has_zero]) hcan
    fun x k' hp => ⟨rfl, x, hp⟩)
  exact ⟨by simp [permits, hdiv, habs, Pte.has_zero], x, k₁, hrun, hp⟩

/-- With one entry left nothing has to be evicted. -/
theorem Twins.calm (ht : Twins me np root root' 127 k) : ¬k.MustEvict := by
  rintro (hfull | hdry)
  · exact absurd (hfull.symm.trans ht.frames) (by decide)
  · have := ht.free
    omega

/-- **There are two processes** and as many registered frames as wanted. -/
theorem exists_twins {n : ℕ} (hn : n ≤ 640) :
    ∃ me np root root' k, Reachable .small k ∧ Twins me np root root' n k := by
  obtain ⟨me, root, k, hreach, hf⟩ := filled_by_loads hn
  obtain ⟨k', np, root', hrun, hcreated, htwins⟩ := hf.twins hn
  refine ⟨me, np, root, root', k', .step hreach.reachable
    (show (Op.fork me).Enabled k from hf.state) (bind_ok_iff.mpr ⟨2, k', hrun, rfl⟩) ?_, htwins⟩
  rw [hcreated]
  decide

end Xv6
