import Xv6.Filling

/-!
# Swap slots and the resident-page statistic

Two accounts that the kernel keeps and that go wrong in the same place. A used swap slot should be
named by the page-table entry of the page it holds, or it can never be freed; and the statistic
`resident_pages` of a process should be the number of frames it has in the frame table.

`vmfault_alloc`, the fault path of kernel copies, breaks both. It takes a page that is swapped out
for one that was never touched, so it maps zeros over the entry that names the slot, and it
registers the frame without counting it. In runs without such steps the accounts are right.
-/

namespace Xv6

open Ledger Prog

variable {b : Boot} {k k' : Kernel} {i : Fin nproc} {root n : ℕ}

/-! ### Frames and swapped entries -/

/-- **The frame table is sound.** -/
theorem Reachable.frame_described (h : Reachable b k) :
    (∀ f, (k.vm.ftable f).used = true → ∃ i root, LiveMapping k (k.vm.ftable f) i root) ∧
      ∀ f g, (k.vm.ftable f).used = true → (k.vm.ftable g).used = true →
        (k.vm.ftable f).pa = (k.vm.ftable g).pa ∨
          (k.vm.ftable f).pid = (k.vm.ftable g).pid ∧
            (k.vm.ftable f).va = (k.vm.ftable g).va → f = g := by
  have hinv := h.ok.inv
  refine ⟨fun f hf => hinv.liveMapping hf, fun f g hf hg hsame => ?_⟩
  rcases hsame with hpa | ⟨hpid, hva⟩
  · exact hinv.vm.distinct f g hf hg hpa
  · obtain ⟨i, root, hi⟩ := hinv.liveMapping hf
    obtain ⟨j, root', hj⟩ := hinv.liveMapping hg
    obtain rfl : i = j := hj.unique i hi.live (hi.pid.trans hpid)
    obtain rfl : root = root' := Option.some.inj (hi.pagetable.symm.trans hj.pagetable)
    refine hinv.vm.distinct f g hf hg ?_
    rw [← hi.pa, ← hj.pa, hva]

theorem frame_described_full : ∃ k, Reachable .small k ∧ k.framesUsed = maxFrames ∧
    k.slotsUsed = 1 ∧
    (∀ f, (k.vm.ftable f).used = true → ∃ i root, LiveMapping k (k.vm.ftable f) i root) ∧
    ∀ f g, (k.vm.ftable f).used = true → (k.vm.ftable g).used = true →
      (k.vm.ftable f).pa = (k.vm.ftable g).pa ∨
        (k.vm.ftable f).pid = (k.vm.ftable g).pid ∧
          (k.vm.ftable f).va = (k.vm.ftable g).va → f = g := by
  obtain ⟨i, root, k, hreach, hf⟩ := filled_by_loads (n := 129) (by decide)
  exact ⟨k, hreach.reachable, hf.frames, hf.slots, Reachable.frame_described hreach.reachable⟩

/-- **Swapped entries are exact and unaliased**, so a fault brings back the page's own contents,
and it fails only when there is no memory at all. -/
theorem Reachable.swapped_exact (h : Reachable b k) :
    (∀ i root vpn, (k.proc i).pagetable = some root → vpn < maxVpn →
      (lookup k.vm.kmem.mem root vpn).has pteSwapped = true →
      OwnsSlot k i vpn (lookup k.vm.kmem.mem root vpn)) ∧
    (∀ i j root root' u w, (k.proc i).pagetable = some root → (k.proc j).pagetable = some root' →
      u < maxVpn → w < maxVpn → (lookup k.vm.kmem.mem root u).has pteSwapped = true →
      (lookup k.vm.kmem.mem root' w).has pteSwapped = true →
      pteSwapSlot (lookup k.vm.kmem.mem root u) = pteSwapSlot (lookup k.vm.kmem.mem root' w) →
      i = j ∧ u = w) ∧
    ∀ i root va, (k.proc i).pagetable = some root → va / pgsize < maxVpn →
      (lookup k.vm.kmem.mem root (va / pgsize)).has pteSwapped = true →
      wp (vmfault i root va) (fun r k' =>
        if r then logical k'.vm root (va / pgsize) = logical k.vm root (va / pgsize)
        else k' = k ∧ k.freePages = 0 ∧ k.victim = none) (· = "clock_evict: swap full") k := by
  have hinv := h.ok.inv
  refine ⟨fun i root vpn hroot hv hs => hinv.ownsSlot hroot hv hs,
    fun i j root root' u w hi hj hu hw hsu hsw heq => ?_,
    fun i root va hroot hva hs => hinv.vmfault_swapped hroot hva hs⟩
  obtain ⟨-, -, slot, hslot, -, hpid, hva⟩ := hinv.ownsSlot hi hu hsu
  obtain ⟨-, -, slot', hslot', -, hpid', hva'⟩ := hinv.ownsSlot hj hw hsw
  obtain rfl : slot = slot' := Fin.ext (hslot.symm.trans (heq.trans hslot'))
  refine ⟨hinv.pids i j (hinv.in_use hi) (hpid.symm.trans hpid'), ?_⟩
  exact Nat.eq_of_mul_eq_mul_right (by decide) (hva.symm.trans hva')

theorem swapped_exact_one : ∃ k i root u, Reachable .small k ∧
    (k.proc i).pagetable = some root ∧ (lookup k.vm.kmem.mem root u).has pteSwapped = true ∧
    OwnsSlot k i u (lookup k.vm.kmem.mem root u) ∧
    wp (vmfault i root (u * pgsize)) (fun r k' =>
      if r then logical k'.vm root u = logical k.vm root u
      else k' = k ∧ k.freePages = 0 ∧ k.victim = none) (· = "clock_evict: swap full") k := by
  obtain ⟨i, root, k, hreach, hf⟩ := filled_by_copies (n := 129) (by decide)
  obtain ⟨u, hu, hsw⟩ := hf.swapped (by decide)
  have huser : u + 2 < maxVpn := lt_maxVpn (Filled.user (by rw [fillPages]; omega))
  have hdiv : (u + 2) * pgsize / pgsize = u + 2 := Nat.mul_div_cancel _ (by decide)
  obtain ⟨howns, -, hfault⟩ := Reachable.swapped_exact hreach
  have hwp := hfault i root ((u + 2) * pgsize) hf.pagetable
  rw [hdiv] at hwp
  exact ⟨k, i, root, u + 2, hreach, hf.pagetable, hsw, howns i root _ hf.pagetable huser hsw,
    hwp huser hsw⟩

/-! ### Statistics -/

/-- **What was swapped out is what was evicted**, and it covers what came back and what is out. -/
theorem Reachable.statistics (h : Reachable b k) (i : Fin nproc)
    (hi : (k.proc i).state ≠ .unused) :
    (k.proc i).stats.pagesEvicted = (k.proc i).stats.pagesSwappedOut ∧
      ∃ root, (k.proc i).pagetable = some root ∧
        (k.proc i).stats.pagesSwappedIn + swapCount k.vm.kmem.mem root
          ≤ (k.proc i).stats.pagesSwappedOut := by
  have hok := h.ok
  obtain ⟨⟨root, hroot⟩, -⟩ := hok.complete i hi
  refine ⟨(hok.inv.books.sound i).1, root, hroot, ?_⟩
  have hdebt := hok.inv.books.swapped i root hroot
  rw [Kernel.debt] at hdebt
  omega

/-- A process that names a slot has pages swapped out. -/
theorem swapCount_pos {m : ℕ → Page} {u : ℕ} (hu : u < userPages)
    (hs : (lookup m root u).has pteSwapped = true) : 0 < swapCount m root := by
  refine Finset.sum_pos' (fun _ _ => Nat.zero_le _) ⟨u, mem_below.mpr hu, ?_⟩
  rw [hs, Bool.toNat_true]
  exact Nat.one_pos

/-- A process loads from one page more than the frames there are, and from the page that is out. -/
theorem statistics_swapped_in : ∃ k i, Reachable .small k ∧ (k.proc i).state ≠ .unused ∧
    0 < (k.proc i).stats.pagesSwappedIn ∧ 0 < (k.proc i).stats.pagesEvicted ∧
    (k.proc i).stats.pagesEvicted = (k.proc i).stats.pagesSwappedOut ∧
    ∃ root, (k.proc i).pagetable = some root ∧
      (k.proc i).stats.pagesSwappedIn + swapCount k.vm.kmem.mem root
        ≤ (k.proc i).stats.pagesSwappedOut := by
  obtain ⟨i, root, k, hreach, hf⟩ := filled_by_loads (n := 129) (by decide)
  obtain ⟨u, hu, hsw⟩ := hf.swapped (by decide)
  have hinvalid := (hf.ok.inv.ownsSlot hf.pagetable
    (lt_maxVpn (Filled.user (by rw [fillPages]; omega))) hsw).invalid
  obtain ⟨_, k', hrun, x, hp⟩ := exists_of_wp (hf.load_in (by decide) hu.le hinvalid)
  have hin : (((lookup k.vm.kmem.mem root (u + 2)).has pteSwapped).toNat : ℤ) ≤ _ :=
    hp.swappedIn i hf.pagetable (hf.ok.inv.books.sound i)
  rw [hsw, Bool.toNat_true] at hin
  have hlive : (k'.proc i).state ≠ .unused := by
    rw [hp.paged.state, hf.state]
    exact ProcState.noConfusion
  have hen : (Op.load i ((u + 2) * pgsize)).Enabled k := hf.state
  have hreach' : Reachable .small k' := .step hreach.reachable hen hrun (by
    rw [hp.paged.rest.2.1, hf.created]
    decide)
  obtain ⟨hevicted, root', hroot, hle⟩ := Reachable.statistics hreach' i hlive
  exact ⟨k', i, hreach', hlive, hin, by omega, hevicted, root', hroot, hle⟩

/-! ### Swap slots -/

/-- Every used slot is named by an entry of a process in use. -/
def SlotsNamed (k : Kernel) : Prop :=
  ∀ s : Fin maxSwapSlots, (k.vm.swapArea s).used = true →
    ∃ i root u, (k.proc i).state ≠ .unused ∧ (k.proc i).pagetable = some root ∧ u < maxVpn ∧
      (lookup k.vm.kmem.mem root u).has pteSwapped = true ∧
      pteSwapSlot (lookup k.vm.kmem.mem root u) = s

theorem KInv.slotsNamed {extra : Multiset ℕ} (h : KInv extra k) (hlost : k.vm.lost = false) :
    SlotsNamed k := by
  intro s hs
  obtain ⟨sp, hsp, u, hu, he⟩ := h.vm.named hlost s hs
  obtain ⟨i, hi⟩ := mem_spaces.mp hsp
  obtain ⟨root, hroot, rfl⟩ := procSpace_eq_some.mp hi
  have hentry : lookup k.vm.kmem.mem root u = swappedPte s := he
  refine ⟨i, root, u, h.in_use hroot, hroot, lt_maxVpn hu, ?_, ?_⟩
  · rw [hentry]
    exact Pte.has_swappedPte_pteSwapped s
  · rw [hentry, pteSwapSlot_swappedPte (s.isLt.trans (by decide))]

/-- **No swap slot leaks** as long as system calls find the pages resident that they copy to or from.
When no process in use has had pages evicted, all slots are free. -/
theorem Reaches.slots_named (h : Reaches b (fun op k => op.Backed k) k) :
    SlotsNamed k ∧
      ((∀ i, (k.proc i).state ≠ .unused → (k.proc i).stats.pagesEvicted = 0) →
        ∀ s, (k.vm.swapArea s).used = false) := by
  have hlost : k.vm.lost = false :=
    h.invariant (I := fun k => k.vm.lost = false) (fun _ _ _ _ hb => hb.calm.lost)
      fun _ _ _ hop hd hl => (hd.tidy hop).lost.trans hl
  have hok := h.reachable.ok
  have hnamed := hok.inv.slotsNamed hlost
  refine ⟨hnamed, fun hnone s => ?_⟩
  by_contra hs
  obtain ⟨i, root, u, hlive, hroot, hu, hsw, -⟩ := hnamed s (Bool.of_not_eq_false hs)
  have huser := hok.inv.user_of_swapped hroot hu hsw
  have hpos := swapCount_pos huser hsw
  have hdebt := hok.inv.books.swapped i root hroot
  obtain ⟨hevicted, hin⟩ := hok.inv.books.sound i
  rw [Kernel.debt, ← hevicted, hnone i hlive] at hdebt
  omega

/-- Loads of pages that were never touched keep the accounts. -/
theorem filled_tidily {P : Op → Kernel → Prop}
    (hP : ∀ op k, op.Backed k → op.Counts k → P op k) (hn : n ≤ 640) :
    ∃ i root k, Reaches .small P k ∧ Filled faultPerm (fill 0) i root n k := by
  refine filled_of_step (fun _ => hP _ _ trivial (Or.inl ⟨rfl, by decide⟩))
    (fun {i root n k} hf hlt => ?_) n hn
  obtain ⟨_, k', hrun, hf'⟩ := exists_of_wp (hf.load hlt)
  refine ⟨.load i ((n + 2) * pgsize), k', hf.state, hP _ _ trivial ?_, hrun, hf'⟩
  change (lookup k.vm.kmem.mem (addrOf (k.proc i).pagetable) _).has pteSwapped = false
  rw [hf.pagetable, Nat.mul_div_cancel _ (by decide)]
  exact (congrArg (Pte.has · pteSwapped) (hf.absent hlt)).trans (Pte.has_zero _)

/-- A process touches one page more than there are frames. -/
theorem slots_named_one : ∃ k s, Reaches .small (fun op k => op.Backed k) k ∧
    (k.vm.swapArea s).used = true ∧ SlotsNamed k := by
  obtain ⟨i, root, k, hreach, hf⟩ :=
    filled_tidily (P := fun op k => op.Backed k) (fun _ _ hb _ => hb) (n := 129) (by decide)
  obtain ⟨u, hu, hsw⟩ := hf.swapped (by decide)
  obtain ⟨-, -, s, -, hused, -⟩ := hf.ok.inv.ownsSlot hf.pagetable
    (lt_maxVpn (Filled.user (by rw [fillPages]; omega))) hsw
  exact ⟨k, s, hreach, hused, hreach.slots_named.1⟩

/-- A copy from a page that is swapped out maps zeros and forgets the slot. -/
theorem Filled.copyin_swapped {perm : Pte} {pg : Page} {u : ℕ} (h : Filled perm pg i root n k)
    (hn : n < 640) (hu : u < n) {s : Fin maxSwapSlots}
    (hs : lookup k.vm.kmem.mem root (u + 2) = swappedPte s)
    (hused : (k.vm.swapArea s).used = true) :
    wp (Op.copyin i ((u + 2) * pgsize) 1).run (fun _ k' => KOk k' ∧
      (k'.proc i).pagetable = some root ∧ k'.created = 1 ∧
      (∀ j, j ≠ i → (k'.proc j).state = .unused) ∧ k'.vm.swapArea s = k.vm.swapArea s ∧
      (lookup k'.vm.kmem.mem root (u + 2)).has pteV = true) (fun _ => False) k := by
  have haddr : addrOf (k.proc i).pagetable = root := by rw [h.pagetable]; rfl
  have hround : pgrounddown ((u + 2) * pgsize) = (u + 2) * pgsize := by
    rw [pgrounddown, Nat.mul_div_cancel _ (by decide)]
  have hinvalid : (lookup k.vm.kmem.mem root (u + 2)).has pteV = false := by
    rw [hs, Pte.has_swappedPte_pteV]
  change wp (do
    let k ← Prog.get
    let _ ← copyin i (addrOf (k.proc i).pagetable) ((u + 2) * pgsize) 1) _ _ k
  rw [wp_bind, wp_get, haddr, wp_bind, copyin]
  change wp (copyinFrom i root (0 + 1) ((u + 2) * pgsize) 1) _ _ k
  rw [copyinFrom, if_neg Nat.one_ne_zero, hround, wp_bind]
  refine copyFrame_pagedIn h.faulting (h.below_sz hn hu.le) hinvalid (h.canPageIn hn _)
    fun x k' hp _ => ?_
  have hentry : lookup k'.vm.kmem.mem root (u + 2) = mkPte x _ := hp.entry
  have hcalling := (h.ok.calling h.state).serviced h.pagetable hp.serviced
  refine ⟨hcalling.ok, ?_, hp.paged.rest.2.1.trans h.created, fun j hj => ?_,
    hp.kept s hused (Or.inl rfl), ?_⟩
  · rw [hp.paged.pagetable, h.pagetable]
  · rw [hp.paged.state, h.others j hj]
  · rw [hentry]
    exact Pte.has_mkPte_pteV _ _

/-- **A slot leaks.** The first process has a byte written to 129 pages by system calls, and one of
the pages goes to the swap area. A system call that reads from that page maps zeros over it. -/
theorem slots_leak : ¬∀ b k, Reachable b k → SlotsNamed k := by
  intro hall
  obtain ⟨i, root, k, hreach, hf⟩ := filled_by_copies (n := 129) (by decide)
  obtain ⟨u, hu, hsw⟩ := hf.swapped (by decide)
  have huser : u + 2 < userPages := Filled.user (by rw [fillPages]; omega)
  have hleaf := (hf.ok.inv.spaceOk hf.pagetable).leaf (u + 2) huser
  obtain ⟨s, hs⟩ := hleaf.of_swapped hsw
  change lookup k.vm.kmem.mem root (u + 2) = swappedPte s at hs
  change LeafOk k.vm.swapArea (k.proc i).pid (u + 2) (lookup k.vm.kmem.mem root (u + 2)) at hleaf
  rw [hs] at hleaf
  obtain ⟨-, hused, hpid, hva⟩ := hleaf.owner
  obtain ⟨_, k', hrun, hok, hroot, hcreated, hothers, hkept, hval⟩ :=
    exists_of_wp (hf.copyin_swapped (by decide) hu hs hused)
  have hreach' : Reachable .small k' := .step hreach
    (show (Op.copyin i ((u + 2) * pgsize) 1).Enabled k from hf.state) hrun (by rw [hcreated]; decide)
  -- whoever names the slot is the page itself, which is resident
  obtain ⟨j, root', w, hin, hroot', hw, hsw', hslot⟩ :=
    hall _ _ hreach' s (by rw [hkept]; exact hused)
  obtain rfl : j = i := by
    by_contra hj
    exact hin (hothers j hj)
  obtain rfl : root' = root := Option.some.inj (hroot'.symm.trans hroot)
  obtain ⟨-, -, s', hs', hused', -, hva'⟩ := hok.inv.ownsSlot hroot' hw hsw'
  obtain rfl : s' = s := Fin.ext (hs'.symm.trans hslot)
  rw [hkept, hva] at hva'
  obtain rfl : u + 2 = w := Nat.eq_of_mul_eq_mul_right (by decide) hva'
  have hres := ((hok.inv.spaceOk hroot').leaf _ huser).resident hval
  change Resident (lookup k'.vm.kmem.mem root' (u + 2)) at hres
  rw [hres.unswapped] at hsw'
  cases hsw'

/-! ### The resident-page statistic -/

theorem frameCount_le (v : Vm) (pid : ℤ) : frameCount v pid ≤ maxFrames := Table.count_le _

/-- In every reachable state the statistic is off by the frames that were not counted. -/
theorem Reachable.resident_iff (h : Reachable b k) (hi : (k.proc i).state ≠ .unused) :
    (k.proc i).stats.residentPages = frameCount k.vm (k.proc i).pid ↔
      k.vm.uncounted (k.proc i).pid = 0 := by
  have hres := h.ok.inv.books.resident i (h.ok.inv.live i hi).1.ne'
  rw [hres, tally]
  omega

theorem Booted.uncounted (h : Booted i root n k) {pid : ℤ} (hpid : 0 < pid) :
    k.vm.uncounted pid = 0 := by
  have hcount : frameCount k.vm pid = 0 := Table.count_eq_zero.mpr fun f => by
    rw [h.calm.frames f, Bool.false_and]
  have htally : tally k.vm pid = 0 := by
    rcases (Int.add_one_le_of_lt hpid).lt_or_eq with hlt | heq
    · exact h.ok.inv.books.fresh pid (by rw [h.created]; exact hlt)
    · have hres := h.ok.inv.books.resident i (by rw [h.pid]; decide)
      rw [h.pid, h.stats] at hres
      rw [← heq]
      exact hres.symm
  rw [tally, hcount] at htally
  omega

/-- **The statistic is true** as long as system calls find their pages resident, no page is swapped in
and none that has a frame is unmapped by `sbrk` or `exec`. -/
theorem Reaches.counted_exact (h : Reaches b (fun op k => op.Backed k ∧ op.Counts k) k)
    (i : Fin nproc) (hi : (k.proc i).state ≠ .unused) :
    (k.proc i).stats.residentPages = frameCount k.vm (k.proc i).pid ∧
      0 ≤ (k.proc i).stats.residentPages ∧ (k.proc i).stats.residentPages ≤ maxFrames := by
  have hzero : k.Exact := h.invariant
    (fun _ _ _ _ hb j hj => hb.uncounted (hb.ok.inv.live j hj).1)
    fun _ _ _ hop hd hx => (hd.tidy hop.1).counted hop.2 hx
  have heq := (h.reachable.resident_iff hi).mpr (hzero i hi)
  have hle := frameCount_le k.vm (k.proc i).pid
  refine ⟨heq, ?_, ?_⟩
  · omega
  · omega

theorem Filled.frameCount {perm : Pte} {pg : Page} (h : Filled perm pg i root n k) :
    frameCount k.vm 1 = k.framesUsed := by
  refine Table.count_congr fun f => ?_
  cases hf : (k.vm.ftable f).used with
  | false => rfl
  | true =>
    obtain ⟨j, root', hm⟩ := h.ok.inv.liveMapping hf
    obtain rfl : j = i := by
      by_contra hj
      exact hm.live (h.others j hj)
    rw [← hm.pid, h.pid]
    rfl

/-- A process has all frames there are, after an eviction. -/
theorem counted_exact_full : ∃ k i, Reaches .small (fun op k => op.Backed k ∧ op.Counts k) k ∧
    (k.proc i).state ≠ .unused ∧ (k.proc i).stats.residentPages = maxFrames := by
  obtain ⟨i, root, k, hreach, hf⟩ := filled_tidily (P := fun op k => op.Backed k ∧ op.Counts k)
    (fun _ _ hb hc => ⟨hb, hc⟩) (n := 129) (by decide)
  have hlive : (k.proc i).state ≠ .unused := by rw [hf.state]; exact ProcState.noConfusion
  refine ⟨k, i, hreach, hlive, ?_⟩
  rw [(hreach.counted_exact i hlive).1, hf.pid, hf.frameCount, hf.frames]
  decide

/-- **The statistic drifts.** A system call that writes to a page that was never touched registers
a frame, and the process still counts none. -/
theorem counted_drifts : ¬∀ b k, Reachable b k → ∀ i, (k.proc i).state ≠ .unused →
    (k.proc i).stats.residentPages = frameCount k.vm (k.proc i).pid := by
  intro hall
  obtain ⟨i, root, k, hboot, hb, hfree⟩ := Boot.small_boots
  obtain ⟨k₁, hrun₁, hf₁, hstats⟩ := hb.filled hfree copyPerm markedPage
  have hreach₁ : Reachable .small k₁ := .step (.boot hboot)
    (show (Op.sbrk i (998 * pgsize) false).Enabled k from hb.state) hrun₁
    (by rw [hf₁.created]; decide)
  obtain ⟨_, k₂, hrun₂, ht, hproc⟩ := exists_of_wp (hf₁.copyout (by decide))
  have hf₂ := hf₁.next (by decide) ht
  have hreach₂ : Reachable .small k₂ := .step hreach₁
    (show (Op.copyout i ((0 + 2) * pgsize) [1]).Enabled k₁ from hf₁.state) hrun₂
    (by rw [hf₂.created]; decide)
  have hres := hall _ _ hreach₂ i (by rw [hf₂.state]; exact ProcState.noConfusion)
  rw [hproc (by decide), hstats, hf₁.pid, hf₂.frameCount, hf₂.frames] at hres
  exact absurd hres (by decide)

end Xv6
