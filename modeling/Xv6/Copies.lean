import Xv6.Filling

/-!
# Memory that is copied

`fork` copies the memory of a process, and system calls copy to and from it. Both should act on
what the process sees, its logical memory, and both do so for pages that are resident and for pages
that were never touched. Neither knows about pages that are swapped out: `uvmcopy` skips them, and
the copies of the kernel take them for untouched. So both are right exactly when a page that is
swapped out happens to be zero where it matters.
-/

namespace Xv6

open Prog

variable {b : Boot} {k k' : Kernel} {me : Fin nproc} {root : ℕ}

/-! ### `fork` -/

/-- A page that is not resident and not swapped out is zero. -/
theorem logical_of_absent {v : Vm} {vpn : ℕ} (hval : (lookup v.kmem.mem root vpn).has pteV = false)
    (hs : (lookup v.kmem.mem root vpn).has pteSwapped = false) : logical v root vpn = fill 0 :=
  contents_lazy hval hs

theorem Forked.logical {np : Fin nproc} {root' u : ℕ} (h : Forked 0 me np root root' k k')
    (hok : KOk k) (hroot : (k.proc me).pagetable = some root) (hu : u < userPages) :
    Xv6.logical k'.vm root' u = Xv6.logical k.vm root u ↔
      ((lookup k.vm.kmem.mem root u).has pteSwapped = true → Xv6.logical k.vm root u = fill 0) := by
  cases hval : (lookup k.vm.kmem.mem root u).has pteV with
  | true =>
    have hres := ((hok.inv.spaceOk hroot).leaf u hu).resident hval
    change Resident (lookup k.vm.kmem.mem root u) at hres
    refine iff_of_true (h.copied u hu hval).2 fun hs => ?_
    rw [hres.unswapped] at hs
    nomatch hs
  | false =>
    have hchild : Xv6.logical k'.vm root' u = fill 0 := by
      rw [Xv6.logical, h.skipped u hu hval]
      exact contents_lazy (Pte.has_zero _) (Pte.has_zero _)
    rw [hchild]
    cases hs : (lookup k.vm.kmem.mem root u).has pteSwapped with
    | true => rw [imp_iff_right (Eq.refl true), eq_comm]
    | false =>
      rw [logical_of_absent hval hs]
      exact iff_of_true rfl fun _ => rfl

/-- **`fork` duplicates memory** iff every page of the parent that is swapped out is zero. The memory
of the parent does not change in any case. -/
theorem Reachable.fork_duplicates (h : Reachable b k) (hroot : (k.proc me).pagetable = some root)
    {pid : ℤ} (hrun : kfork me k = .ok (pid, k')) (hpid : pid ≠ -1) (hpids : k'.created < 2 ^ 31) :
    ∃ np root', (k.proc np).state = .unused ∧ (k'.proc np).pid = pid ∧
      (k'.proc np).pagetable = some root' ∧ (k'.proc np).sz = (k.proc me).sz ∧
      ((∀ u < pagesOf (k.proc me).sz, logical k'.vm root' u = logical k.vm root u) ↔
        ∀ u < pagesOf (k.proc me).sz, (lookup k.vm.kmem.mem root u).has pteSwapped = true →
          logical k.vm root u = fill 0) ∧
      ∀ u < userPages, logical k'.vm root u = logical k.vm root u := by
  have hok := h.ok
  have hlt : k.created + 1 < 2 ^ 31 := by
    rcases wp_ok (kfork_created me k) hrun with ⟨hno, -⟩ | hcreated
    · exact absurd hno hpid
    · rwa [hcreated] at hpids
  have hspec : wp (kfork me) (fun r k' => r ≠ -1 →
      r = k.created + 1 ∧ ∃ np root', Forked 0 me np root root' k k') (fun _ => True) k :=
    kfork_spec hok.inv hlt hroot (fun _ _ _ => trivial)
      (fun _ _ _ hno => absurd rfl hno) fun np root' k' hf _ _ => ⟨rfl, np, root', hf⟩
  obtain ⟨rfl, np, root', hf⟩ := wp_ok hspec hrun hpid
  have hfits : pagesOf (k.proc me).sz ≤ userPages := pagesOf_le (hok.inv.size me)
  refine ⟨np, root', hf.old, hf.pid, hf.pagetable, hf.sz, ?_, fun u hu => ?_⟩
  · exact forall_congr' fun u => imp_congr_right fun hu => hf.logical hok hroot (hu.trans_le hfits)
  · exact (hf.keeps.same _ (spaceOf_mem hroot) u hu).2

/-- A process without open files can fork as long as there is an entry and enough memory. -/
theorem KOk.fork (h : KOk k) (hroot : (k.proc me).pagetable = some root)
    (hlt : k.created + 1 < 2 ^ 31) (hofile : ∀ fd, (k.proc me).ofile fd = none)
    (hroom : ∃ j, (k.proc j).state = .unused)
    (hfree : 6 + 3 * pagesOf (k.proc me).sz ≤ k.freePages) :
    ∃ k' np root', kfork me k = .ok (k.created + 1, k') ∧ Forked 0 me np root root' k k' ∧
      k'.vm.ftable = k.vm.ftable := by
  have hwp : wp (kfork me) (fun r k' => r = k.created + 1 ∧
      ∃ np root', Forked 0 me np root root' k k' ∧ k'.vm.ftable = k.vm.ftable)
      (fun _ => False) k := by
    refine kfork_spec h.inv hlt hroot (fun fd f hfd => ?_)
      (fun k' _ hwhy => ?_) fun np root' k' hf hft => ⟨rfl, np, root', hf, hft⟩
    · rw [hofile fd] at hfd
      exact Option.some_ne_none f hfd.symm
    · rcases hwhy with hfull | hshort
      · obtain ⟨j, hj⟩ := hroom
        exact absurd hj (hfull j)
      · omega
  obtain ⟨r, k', hrun, rfl, np, root', hf, hft⟩ := exists_of_wp hwp
  exact ⟨k', np, root', hrun, hf, hft⟩

/-- Where only one process is in use there is another entry. -/
theorem exists_unused (h : ∀ j, j ≠ me → (k.proc j).state = .unused) :
    ∃ j, (k.proc j).state = .unused := by
  have : Nontrivial (Fin nproc) := inferInstanceAs (Nontrivial (Fin 64))
  obtain ⟨j, hj⟩ := exists_ne me
  exact ⟨j, h j hj⟩

theorem Filled.fork {perm : Pte} {pg : Page} {n : ℕ} (h : Filled perm pg me root n k)
    (hn : n ≤ 640) : ∃ k', kfork me k = .ok (2, k') ∧ k'.created = 2 ∧
      ∃ np root', Forked 0 me np root root' k k' ∧ k'.vm.ftable = k.vm.ftable := by
  have hfree : 6 + 3 * pagesOf (k.proc me).sz ≤ k.freePages := by
    have := h.free
    rw [h.sz, pagesOf_mul, fillPages]
    omega
  obtain ⟨k', np, root', hrun, hf, hft⟩ := h.ok.fork h.pagetable (by rw [h.created]; decide)
    h.ofile (exists_unused h.others) hfree
  rw [h.created] at hrun
  exact ⟨k', hrun, by rw [hf.created, h.created], np, root', hf, hft⟩

theorem fork_duplicates_small : ∃ k k' me root np root', Reachable .small k ∧
    kfork me k = .ok (2, k') ∧ (k'.proc np).pagetable = some root' ∧
    ((∀ u < pagesOf (k.proc me).sz, logical k'.vm root' u = logical k.vm root u) ↔
      ∀ u < pagesOf (k.proc me).sz, (lookup k.vm.kmem.mem root u).has pteSwapped = true →
        logical k.vm root u = fill 0) := by
  obtain ⟨me, root, k, hreach, hf⟩ := filled_by_copies (n := 129) (by decide)
  obtain ⟨k', hrun, hcreated, -⟩ := hf.fork (by decide)
  obtain ⟨np, root', -, -, hroot', -, hiff, -⟩ := Reachable.fork_duplicates hreach hf.pagetable hrun
    (by decide) (by rw [hcreated]; decide)
  exact ⟨k, k', me, root, np, root', hreach, hrun, hroot', hiff⟩

theorem byteAt_markedPage : byteAt markedPage 0 = 1 := by
  decide

theorem markedPage_ne : markedPage ≠ fill 0 := by
  intro heq
  have hbyte := congrFun heq ⟨0, by decide⟩
  exact absurd hbyte (by decide)

/-- **`fork` loses a page.** The child of a process with a page that is swapped out sees zeros
there. -/
theorem fork_loses_page : ¬∀ b k, Reachable b k → ∀ me root pid k',
    (k.proc me).pagetable = some root → kfork me k = .ok (pid, k') → pid ≠ -1 →
    k'.created < 2 ^ 31 → ∀ np root', (k'.proc np).pid = pid → (k'.proc np).pagetable = some root' →
    ∀ u < pagesOf (k.proc me).sz, logical k'.vm root' u = logical k.vm root u := by
  intro hall
  obtain ⟨me, root, k, hreach, hf⟩ := filled_by_copies (n := 129) (by decide)
  obtain ⟨u, hu, hs⟩ := hf.swapped (by decide)
  obtain ⟨k', hrun, hcreated, np, root', hfork, -⟩ := hf.fork (by decide)
  have hpid : (k'.proc np).pid = 2 := by
    rw [hfork.pid, hf.created]
    rfl
  have heq := hall _ _ hreach me root 2 k' hf.pagetable hrun (by decide) (by rw [hcreated]; decide)
    np root' hpid hfork.pagetable (u + 2) (by rw [hf.sz, pagesOf_mul, fillPages]; omega)
  have hzero := (hfork.logical hf.ok hf.pagetable (Filled.user (by rw [fillPages]; omega))).mp heq hs
  rw [(hf.touched u hu).1] at hzero
  exact markedPage_ne hzero

/-! ### Copies of the kernel -/

/-- **Copies act on logical memory** iff at every iteration the page can be had, and is not swapped
out or is zero where it matters: where it is read, or where it is not written. -/
theorem Reachable.copies_exact (h : Reachable b k) (hroot : (k.proc me).pagetable = some root)
    {va len : ℕ} (hsz : va + len ≤ (k.proc me).sz) (hU : Grants k.vm root va len pteU) :
    ((∃ k', copyin me root va len k = .ok (some (logicalBytes k.vm root va len), k')) ↔
      CopyinExact me root len va len k) ∧
    ∀ src, src.length = len → Grants k.vm root va len pteW →
      ((∃ k', copyout me root va src k = .ok (true, k') ∧ Written k.vm k'.vm root va src ∧
          ∀ j root', j ≠ me → (k.proc j).pagetable = some root' →
            ∀ u < userPages, logical k'.vm root' u = logical k.vm root' u) ↔
        CopyoutExact me root len va src k) := by
  have hf := h.ok.inv.faulting hroot
  refine ⟨?_, fun src hlen hW => ?_⟩
  · rw [← wp_eq_iff]
    exact copyin_iff hf hsz hU
  · subst hlen
    refine Iff.trans ?_ (copyout_iff hf hsz hU hW)
    refine exists_congr fun k' => and_congr_right fun _ => and_congr_right fun _ => ?_
    constructor
    · rintro hall q hq u hu
      obtain ⟨j, hj, hspace⟩ := mem_otherSpaces.mp hq
      obtain ⟨root', hroot', rfl⟩ := procSpace_eq_some.mp hspace
      exact hall j root' hj hroot' u hu
    · intro hall j root' hj hroot' u hu
      exact hall _ (spaceOf_mem_others hj hroot') u hu

section Filled

variable {n u : ℕ} (h : Filled copyPerm markedPage me root n k) (hn : n ≤ 640)

include h hn

/-- A byte of a page that was touched is below the size of the process. -/
theorem Filled.touched_below (hu : u < n) : (u + 2) * pgsize + 1 ≤ (k.proc me).sz := by
  rw [h.sz, fillPages, pgsize]
  omega

theorem Filled.touched_grants (hu : u < n) : Grants k.vm root ((u + 2) * pgsize) 1 pteU := by
  rintro w ⟨hlow, hhigh⟩ hval
  have hw : w = u + 2 := by
    rw [Nat.mul_div_cancel _ (by decide)] at hlow
    rw [pgsize] at hhigh
    omega
  rw [hw] at hval ⊢
  obtain ⟨-, ⟨x, -, hx⟩ | hs⟩ := h.touched u hu
  · rw [hx, Pte.has_mkPte _ _ (by decide)]
    rfl
  · have hinvalid := (h.ok.inv.ownsSlot h.pagetable
      (lt_maxVpn (Filled.user (by rw [fillPages]; omega))) hs).invalid
    cases hinvalid.symm.trans hval

end Filled

/-- A copy from a page that is resident. -/
theorem copies_exact_small : ∃ k k' me root, Reachable .small k ∧
    copyin me root (2 * pgsize) 1 k = .ok (some [1], k') := by
  obtain ⟨me, root, k, hreach, hf⟩ := filled_by_copies (n := 1) (by decide)
  have hval := hf.resident (by decide) (u := 0) (by decide)
  have hdiv : 2 * pgsize / pgsize = 2 := by decide
  have hbyte : logicalBytes k.vm root (2 * pgsize) 1 = [1] := by
    rw [logicalBytes, List.range_one, List.map_singleton, logicalByte, Nat.add_zero, hdiv,
      (hf.touched 0 Nat.one_pos).1]
    decide +kernel
  have hexact : CopyinExact me root 1 (2 * pgsize) 1 k := by
    refine .inr ⟨.inl (by rw [hdiv]; exact hval), fun hs => ?_, fun _ _ _ => trivial⟩
    rw [hdiv] at hs
    cases (hf.ok.inv.ownsSlot hf.pagetable (by decide) hs).invalid.symm.trans hval
  obtain ⟨k', hrun⟩ := (Reachable.copies_exact hreach hf.pagetable
    (hf.touched_below (by decide) (u := 0) (by decide))
    (hf.touched_grants (by decide) (u := 0) (by decide))).1.mpr hexact
  exact ⟨k, k', me, root, hreach, hbyte ▸ hrun⟩

/-- **A system call reads zeros** from a page that is swapped out, although there is memory for it
and room in the swap area. -/
theorem copyin_reads_zeros : ¬∀ b k, Reachable b k → ∀ me root va len,
    (k.proc me).pagetable = some root → va + len ≤ (k.proc me).sz → Grants k.vm root va len pteU →
    3 * len ≤ k.freePages → 0 < k.framesUsed → k.slotsUsed + len ≤ maxSwapSlots →
    ∃ k', copyin me root va len k = .ok (some (logicalBytes k.vm root va len), k') := by
  intro hall
  obtain ⟨me, root, k, hreach, hf⟩ := filled_by_copies (n := 129) (by decide)
  obtain ⟨u, hu, hs⟩ := hf.swapped (by decide)
  have hsz := hf.touched_below (by decide) hu
  have hU := hf.touched_grants (by decide) hu
  have hfree : 3 * 1 ≤ k.freePages := by
    have := hf.free
    omega
  have hrun := hall _ _ hreach me root ((u + 2) * pgsize) 1 hf.pagetable hsz hU hfree
    (by rw [hf.frames]; decide) (by rw [hf.slots]; decide)
  have hexact := (copyin_iff hf.faulting hsz hU).mp (wp_eq_iff.mpr hrun)
  have hdiv : (u + 2) * pgsize / pgsize = u + 2 := Nat.mul_div_cancel _ (by decide)
  have hzero := (hexact.resolve_left Nat.one_ne_zero).2.1 (by rw [hdiv]; exact hs) 0
    (onPage_pos _ Nat.one_ne_zero)
  rw [Nat.add_zero] at hzero
  have hbyte : logicalByte k.vm root ((u + 2) * pgsize) = 1 := by
    rw [logicalByte, hdiv, (hf.touched u hu).1, Nat.mul_mod_left, byteAt_markedPage]
  exact absurd (hbyte.symm.trans hzero) (by decide)

end Xv6
