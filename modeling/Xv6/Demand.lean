import Xv6.Twins

/-!
# Demand paging, seen from user code

User code that is denied an access traps into `vmfault`. What it should see is its own memory, as
if every page were always resident. This file says to what extent that is so.

A fault that returns is transparent: no process sees any difference, whatever page was evicted on
the way. But a fault need not return. `vmfault` takes a resident page for one that was never
touched, so an access that is denied for its flags panics in `mappages`; and a full swap area
panics in `clock_evict`. `FaultPanics` is exactly when. And a page that comes back from the swap
area comes back executable, whatever its flags were.
-/

namespace Xv6

open Prog

variable {b : Boot} {k k' : Kernel} {i : Fin nproc} {root va : ℕ} {a : Access}

/-! ### Transparency -/

/-- The fault at `va` was answered with `r` and no memory has changed. If the answer is yes then the
page is mapped, and user code finds on it what it had. -/
structure FaultServed (k : Kernel) (root va : ℕ) (r : Bool) (k' : Kernel) : Prop where
  ok : KOk k'
  paged : Paged k k'
  same : ∀ j root', (k.proc j).pagetable = some root' →
    ∀ u < userPages, logical k'.vm root' u = logical k.vm root' u
  mapped : r = true → (lookup k'.vm.kmem.mem root (va / pgsize)).has pteV = true ∧
    (lookup k'.vm.kmem.mem root (va / pgsize)).has pteU = true ∧
    k'.vm.kmem.mem (pte2pa (lookup k'.vm.kmem.mem root (va / pgsize)))
      = logical k.vm root (va / pgsize)

/-- The fault at `va` stops the machine: the swap area is full and a page has to go, or the page is
resident and a frame is found for it. -/
def FaultPanics (k : Kernel) (i : Fin nproc) (root va : ℕ) : Prop :=
  pgrounddown va < (k.proc i).sz ∧
    (k.MustEvict ∧ k.victim ≠ none ∧ freeSlot k.vm.swapArea = none ∨
      (lookup k.vm.kmem.mem root (va / pgsize)).has pteV = true ∧
        ¬(k.freePages = 0 ∧ k.victim = none))

/-- A fault of process `i` at `va` leaves the page with entry `e` where it is. -/
def Kernel.Spares (k : Kernel) (i : Fin nproc) (va : ℕ) (e : Pte) : Prop :=
  pgrounddown va < (k.proc i).sz → ¬k.Evicts e

/-- What a fault of process `i` does to the pages of the others: the victim is swapped out. -/
def Others (k : Kernel) (i : Fin nproc) (va : ℕ) (k' : Kernel) : Prop :=
  ∀ q ∈ otherSpaces k i, ∀ u < userPages, SameAt k.vm k'.vm q.root u ∧
    (lookup k'.vm.kmem.mem q.root u = lookup k.vm.kmem.mem q.root u ↔
      k.Spares i va (lookup k.vm.kmem.mem q.root u))

/-- The space of every process is one of those that a fault keeps. -/
theorem mem_cons_spaces (hroot : (k.proc i).pagetable = some root) {j : Fin nproc} {root' : ℕ}
    (hj : (k.proc j).pagetable = some root') :
    spaceOf k j root' ∈ spaceOf k i root ::ₘ otherSpaces k i := by
  rw [← spaces_cons hroot]
  exact spaceOf_mem hj

theorem KOk.served_self (h : KOk k) : FaultServed k root va false k :=
  ⟨h, .refl k, fun _ _ _ _ _ => rfl, nofun⟩

section Vmfault

variable (h : KOk k) (hroot : (k.proc i).pagetable = some root)

include h hroot

theorem KOk.served {r : Bool}
    (hs : Serviced (spaceOf k i root ::ₘ otherSpaces k i) (0 + held k) k k')
    (hsame : ∀ q ∈ spaceOf k i root ::ₘ otherSpaces k i, ∀ u < userPages,
      logical k'.vm q.root u = logical k.vm q.root u)
    (hmapped : r = true → va / pgsize < userPages ∧
      (lookup k'.vm.kmem.mem root (va / pgsize)).has pteV = true ∧
      (lookup k'.vm.kmem.mem root (va / pgsize)).has pteU = true) :
    FaultServed k root va r k' := by
  have hcalling : Calling 0 i k' := Calling.serviced ⟨h.inv, h.complete, h.inv.in_use hroot⟩ hroot hs
  refine ⟨hcalling.ok, hs.paged, fun j root' hj u hu => ?_, fun hr => ?_⟩
  · exact hsame _ (mem_cons_spaces hroot hj) u hu
  · obtain ⟨hv, hV, hU⟩ := hmapped hr
    refine ⟨hV, hU, ?_⟩
    have heq : logical k'.vm root (va / pgsize) = logical k.vm root (va / pgsize) :=
      hsame _ (Multiset.mem_cons_self _ _) _ hv
    rw [← heq, logical, contents_valid hV]

theorem KOk.served_pagedIn {x : ℕ} (hv : va / pgsize < userPages)
    (hp : FaultedIn (spaceOf k i root) (otherSpaces k i) (0 + held k) x (va / pgsize) k k') :
    FaultServed k root va true k' := by
  have hentry : lookup k'.vm.kmem.mem root (va / pgsize) = mkPte x _ := hp.entry
  refine h.served hroot hp.serviced (fun q hq u hu => ?_) fun _ => ⟨hv, ?_, ?_⟩
  · rcases Multiset.mem_cons.mp hq with rfl | hq
    · by_cases hne : u = va / pgsize
      · rw [hne]
        exact hp.data
      · exact (hp.rest u hu hne).1
    · exact (hp.others q hq u hu).1
  · rw [hentry]
    exact Pte.has_mkPte_pteV _ _
  · rw [hentry, Pte.has_mkPte _ _ (by decide)]
    rfl

/-- **What a fault does**: it returns and nobody notices, or it panics, and the state tells which. -/
theorem KOk.vmfault_cases (hfault : permits k.vm root va a = false) :
    wp (vmfault i root va)
      (fun r k' => FaultServed k root va r k' ∧ ¬FaultPanics k i root va ∧ Others k i va k')
      (fun _ => FaultPanics k i root va) k := by
  have hf := h.inv.faulting hroot
  have hin : va / pgsize < pagesOf (k.proc i).sz → pgrounddown va < (k.proc i).sz := by
    intro hlt
    rw [pagesOf, pgsize] at hlt
    rw [pgrounddown_eq]
    omega
  refine vmfault_denied hf hfault ⟨?_, ?_, ?_, ?_, ?_, ?_⟩
  · exact fun hlt hmust hv hslot => ⟨hin hlt, Or.inl ⟨hmust, hv, hslot⟩⟩
  · exact fun hlt hval hdry => ⟨hin hlt, Or.inr ⟨hval, hdry⟩⟩
  · exact fun hle => ⟨h.served_self, fun hp => absurd hp.1 (not_lt.mpr hle), fun q _ u _ =>
      ⟨⟨rfl, Or.inl rfl⟩, iff_of_true rfl fun hlt => absurd hlt (not_lt.mpr hle)⟩⟩
  · rintro hlt hF hv
    refine ⟨h.served_self, ?_, fun q _ u _ => ⟨⟨rfl, Or.inl rfl⟩, iff_of_true rfl ?_⟩⟩
    swap
    · rintro - ⟨-, -, f, hf, -⟩
      cases hv.symm.trans hf
    rintro ⟨-, ⟨-, hv', -⟩ | ⟨-, hdry⟩⟩
    · exact hv' hv
    · exact hdry ⟨hF, hv⟩
  · intro hlt habs k' hr
    refine ⟨h.served hroot hr.serviced (fun q hq u hu => (hr.same q hq u hu).1)
      (by rintro ⟨⟩), ?_, fun q hq u hu => ⟨hr.same q (Multiset.mem_cons_of_mem hq) u hu, ?_⟩⟩
    swap
    · rw [hr.gone q hq u hu, Kernel.Spares, imp_iff_right (hin hlt)]
    rintro ⟨-, ⟨hmust, -, hslot⟩ | ⟨hval, -⟩⟩
    · exact slotsUsed_of_freeSlot hslot (hr.room hmust).2
    · change lookup k.vm.kmem.mem root (va / pgsize) = _ at habs
      rw [habs, Pte.has_zero] at hval
      cases hval
  · intro hlt hinv x k' hp
    refine ⟨h.served_pagedIn hroot (hf.user hlt) hp, ?_, fun q hq u hu => ⟨hp.others q hq u hu, ?_⟩⟩
    swap
    · rw [hp.gone q hq u hu, Kernel.Spares, imp_iff_right (hin hlt)]
    rintro ⟨-, ⟨hmust, -, hslot⟩ | ⟨hval, -⟩⟩
    · exact slotsUsed_of_freeSlot hslot (hp.room hmust).2
    · change (lookup k.vm.kmem.mem root (va / pgsize)).has pteV = _ at hinv
      rw [hinv] at hval
      cases hval

end Vmfault

/-- **Demand paging is transparent.** A fault that returns leaves the memory of every process as it
was, and if it returns 1 the page is mapped with what was on it. -/
theorem Reachable.vmfault_transparent (h : Reachable b k)
    (hroot : (k.proc i).pagetable = some root) (hfault : permits k.vm root va a = false) {r : Bool}
    (hrun : vmfault i root va k = .ok (r, k')) : FaultServed k root va r k' :=
  (wp_ok (h.ok.vmfault_cases hroot hfault) hrun).1

/-- The frame table is full, and another page has to go. -/
theorem vmfault_transparent_small : ∃ k k' i root, Reachable .small k ∧ k.framesUsed = maxFrames ∧
    vmfault i root (130 * pgsize) k = .ok (true, k') ∧
    FaultServed k root (130 * pgsize) true k' := by
  obtain ⟨i, root, k, hreach, hf⟩ := filled_by_loads (n := 128) (by decide)
  have hdiv : 130 * pgsize / pgsize = 130 := by decide
  have hinvalid : (lookup k.vm.kmem.mem root 130).has pteV = false := by
    rw [hf.absent (by decide), Pte.has_zero]
  have hdeny : permits k.vm root (130 * pgsize) .load = false := by
    simp [permits, hdiv, hinvalid]
  obtain ⟨_, k', hrun, rfl, -⟩ := exists_of_wp (hf.fault_in (by decide) le_rfl hinvalid hdiv)
  exact ⟨k, k', i, root, hreach.reachable, hf.frames, hrun,
    Reachable.vmfault_transparent hreach.reachable hf.pagetable hdeny hrun⟩

/-- A page of a process whose entry has changed. -/
def EntryMoved (k k' : Kernel) (p : Fin nproc × ℕ) : Prop :=
  ∃ root, (k.proc p.1).pagetable = some root ∧ p.2 < userPages ∧
    lookup k'.vm.kmem.mem root p.2 ≠ lookup k.vm.kmem.mem root p.2

/-- **A fault disturbs one page at most** of all those of the other processes. -/
theorem Reachable.disturbs_one (h : Reachable b k) (hroot : (k.proc i).pagetable = some root)
    (hfault : permits k.vm root va a = false) {r : Bool}
    (hrun : vmfault i root va k = .ok (r, k')) :
    {p : Fin nproc × ℕ | p.1 ≠ i ∧ EntryMoved k k' p}.Subsingleton := by
  have hothers := (wp_ok (h.ok.vmfault_cases hroot hfault) hrun).2.2
  -- it is the page in the frame of the victim
  have hframe : ∀ p : Fin nproc × ℕ, p.1 ≠ i ∧ EntryMoved k k' p →
      ∃ f, k.victim = some f ∧ (Place.frame p.1 p.2).Holds k (k.vm.ftable f).pa := by
    rintro p ⟨hp, root', hroot', hu, hne⟩
    have hev := (not_congr (hothers _ (spaceOf_mem_others hp hroot') p.2 hu).2).mp hne
    obtain ⟨-, hval, f, hf, hpa⟩ := not_not.mp (Classical.not_imp.mp hev).2
    exact ⟨f, hf, hu, root', hroot', hval, hpa⟩
  intro p hp q hq
  obtain ⟨f, hf, hpf⟩ := hframe p hp
  obtain ⟨f', hf', hqf⟩ := hframe q hq
  cases hf.symm.trans hf'
  have heq := hpf.inj h.ok.inv hqf rfl
  rw [Place.frame.injEq] at heq
  exact Prod.ext heq.1 heq.2

theorem disturbs_one_twins : ∃ k k' i root, Reachable .small k ∧
    vmfault i root (130 * pgsize) k = .ok (true, k') ∧
    {p : Fin nproc × ℕ | p.1 ≠ i ∧ EntryMoved k k' p}.Subsingleton := by
  obtain ⟨me, np, root, root', k, hreach, ht⟩ := exists_twins (n := 128) (by decide)
  obtain ⟨hdeny, _, k', hrun, -⟩ := ht.pagedIn (by decide) ht.childTable ht.childSz
    (ht.childUntouched _ le_rfl (by decide))
  exact ⟨k, k', np, root', hreach, hrun, hreach.disturbs_one ht.childTable hdeny hrun⟩

/-! ### Faults on resident pages -/

theorem KOk.vmfault_resident (h : KOk k) (hroot : (k.proc i).pagetable = some root)
    (hva : va < (k.proc i).sz) (hval : (lookup k.vm.kmem.mem root (va / pgsize)).has pteV = true)
    (hfault : permits k.vm root va a = false) :
    wp (vmfault i root va)
      (fun r k' => r = false ∧ k' = k ∧ k.freePages = 0 ∧ k.victim = none)
      (fun e => e ∈ ["mappages: remap", "clock_evict: swap full"] ∧
        ¬(k.freePages = 0 ∧ k.victim = none)) k := by
  refine vmfault_denied (h.inv.faulting hroot) hfault ⟨?_, ?_, ?_, ?_, ?_, ?_⟩
  · exact fun _ _ hv _ => ⟨by decide, fun hdry => hv hdry.2⟩
  · exact fun _ _ hdry => ⟨by decide, hdry⟩
  · intro hle
    rw [pgrounddown] at hle
    exact absurd (Nat.div_mul_le_self va pgsize) (not_le.mpr (hva.trans_le hle))
  · exact fun _ hF hv => ⟨rfl, rfl, hF, hv⟩
  · intro _ habs
    change lookup k.vm.kmem.mem root (va / pgsize) = _ at habs
    rw [habs, Pte.has_zero] at hval
    cases hval
  · intro _ hinv
    cases hinv.symm.trans hval

/-- **A protection fault** is answered with 0 only if no frame can be found. Otherwise the kernel
finds one and panics. -/
theorem Reachable.vmfault_protection (h : Reachable b k)
    (hroot : (k.proc i).pagetable = some root) (hva : va < (k.proc i).sz)
    (hval : (lookup k.vm.kmem.mem root (va / pgsize)).has pteV = true)
    (hfault : permits k.vm root va a = false) :
    ((∃ k', vmfault i root va k = .ok (false, k') ∧ k'.vm = k.vm) ↔
      k.freePages = 0 ∧ k.victim = none) ∧
    (¬(k.freePages = 0 ∧ k.victim = none) →
      ∃ e ∈ ["mappages: remap", "clock_evict: swap full"], vmfault i root va k = .error e) := by
  have hspec := h.ok.vmfault_resident hroot hva hval hfault
  cases hrun : vmfault i root va k with
  | ok r =>
    obtain ⟨hr, hk, hdry⟩ := wp_ok hspec hrun
    refine ⟨iff_of_true ⟨r.2, ?_, by rw [hk]⟩ hdry, fun hn => absurd hdry hn⟩
    rw [← hr]
  | error e =>
    obtain ⟨he, hdry⟩ := wp_error hspec hrun
    refine ⟨iff_of_false ?_ hdry, fun _ => ⟨e, he, rfl⟩⟩
    rintro ⟨k', hk', -⟩
    exact absurd hk' (by simp)

/-- User code may not access the guard page below its stack. -/
theorem Booted.guard_denied (h : Booted i root 0 k) : permits k.vm root 0 .load = false := by
  have hguard : (lookup k.vm.kmem.mem root (0 / pgsize)).has pteU = false := h.guard
  simp only [permits, hguard, Bool.and_false, Bool.false_and]

theorem Booted.guard_below (h : Booted i root 0 k) : 0 < (k.proc i).sz := by
  rw [h.sz]
  decide

theorem vmfault_protection_small : ∃ k i root, Reachable .small k ∧
    ∃ e ∈ ["mappages: remap", "clock_evict: swap full"], vmfault i root 0 k = .error e := by
  obtain ⟨i, root, k, hboot, hb, hfree⟩ := Boot.small_boots
  refine ⟨k, i, root, .boot hboot, (Reachable.vmfault_protection (.boot hboot) hb.pagetable
    hb.guard_below (hb.mapped 0 (by decide)) hb.guard_denied).2 ?_⟩
  rintro ⟨hF, -⟩
  rw [hF] at hfree
  exact absurd hfree (by decide)

/-- **Loading from the guard page** of the first process stops the machine. -/
theorem guard_page_panics : ¬∀ b k, Reachable b k → ∀ i root va a,
    (k.proc i).pagetable = some root → va < (k.proc i).sz →
    (lookup k.vm.kmem.mem root (va / pgsize)).has pteV = true → permits k.vm root va a = false →
    ∃ k', vmfault i root va k = .ok (false, k') ∧ k'.vm = k.vm := by
  intro hall
  obtain ⟨i, root, k, hboot, hb, hfree⟩ := Boot.small_boots
  have hval : (lookup k.vm.kmem.mem root (0 / pgsize)).has pteV = true := hb.mapped 0 (by decide)
  obtain ⟨k', hrun, -⟩ :=
    hall _ _ (.boot hboot) i root 0 .load hb.pagetable hb.guard_below hval hb.guard_denied
  have hok := hb.ok.vmfault_resident hb.pagetable hb.guard_below hval hb.guard_denied
  obtain ⟨-, -, hF, -⟩ := wp_ok hok hrun
  rw [hF] at hfree
  exact absurd hfree (by decide)

/-! ### Exhausting memory -/

/-- **A fault returns** iff the state is not one that panics, and then all is well. -/
theorem Reachable.vmfault_returns (h : Reachable b k)
    (hroot : (k.proc i).pagetable = some root) (hfault : permits k.vm root va a = false) :
    (∃ r k', vmfault i root va k = .ok (r, k') ∧ FaultServed k root va r k') ↔
      ¬FaultPanics k i root va := by
  have hspec := h.ok.vmfault_cases hroot hfault
  cases hrun : vmfault i root va k with
  | ok r =>
    obtain ⟨hserved, hno, -⟩ := wp_ok hspec hrun
    exact iff_of_true ⟨r.1, r.2, rfl, hserved⟩ hno
  | error e =>
    refine iff_of_false ?_ (not_not.mpr (wp_error hspec hrun))
    rintro ⟨r, k', hk', -⟩
    exact absurd hk' (by simp)

theorem vmfault_returns_small : ∃ k i root, Reachable .small k ∧
    ∃ r k', vmfault i root (2 * pgsize) k = .ok (r, k') ∧ FaultServed k root (2 * pgsize) r k' := by
  obtain ⟨i, root, k, hreach, hf⟩ := filled_by_loads (n := 0) (by decide)
  have hinvalid : (lookup k.vm.kmem.mem root (2 * pgsize / pgsize)).has pteV = false := by
    rw [show 2 * pgsize / pgsize = 0 + 2 from by decide, hf.absent (by decide), Pte.has_zero]
  have hdeny : permits k.vm root (2 * pgsize) .load = false := by
    simp [permits, hinvalid]
  refine ⟨k, i, root, hreach.reachable,
    (Reachable.vmfault_returns hreach.reachable hf.pagetable hdeny).mpr ?_⟩
  rintro ⟨-, ⟨hmust, -⟩ | ⟨hval, -⟩⟩
  · exact absurd ((hf.mustEvict (by decide)).mp hmust) (by decide)
  · cases hinvalid.symm.trans hval

/-- **Touching one page too many** stops the machine. One process asks for a thousand pages and loads
from one after the other: the 641st load finds the frame table and the swap area full. -/
theorem memory_exhausted_panics : ¬∀ b k, Reaches b (fun op _ => op.Touches) k → ∀ i root va a,
    (k.proc i).pagetable = some root → permits k.vm root va a = false →
    ∃ r k', vmfault i root va k = .ok (r, k') := by
  intro hall
  obtain ⟨i, root, k, hreach, hf⟩ := filled_by_loads (n := 640) le_rfl
  have hdiv : 642 * pgsize / pgsize = 642 := by decide
  have habs : lookup k.vm.kmem.mem root 642 = 0#64 := hf.untouched 642 le_rfl (by decide)
  have hdeny : permits k.vm root (642 * pgsize) .load = false := by
    have hinvalid : (lookup k.vm.kmem.mem root 642).has pteV = false := by rw [habs, Pte.has_zero]
    simp [permits, hdiv, hinvalid]
  obtain ⟨r, k', hrun⟩ := hall _ _ hreach i root (642 * pgsize) .load hf.pagetable hdeny
  refine (wp_ok (hf.ok.vmfault_cases hf.pagetable hdeny) hrun).2.1 ⟨?_, Or.inl ⟨?_, ?_, ?_⟩⟩
  · rw [hf.sz]
    decide
  · exact (hf.mustEvict le_rfl).mpr (by decide)
  · intro hv
    rw [Kernel.victim_eq_none hf.ok.inv.vm.hand] at hv
    have hzero : k.framesUsed = 0 := Table.count_eq_zero.mpr hv
    rw [hf.frames] at hzero
    exact absurd hzero (by decide)
  · by_contra hslot
    obtain ⟨s, hs⟩ := Option.ne_none_iff_exists'.mp hslot
    have hfull : ∀ s, (k.vm.swapArea s).used = true := Table.count_eq_iff.mp hf.slots
    have hfree := Table.of_first hs
    rw [hfull s] at hfree
    exact absurd hfree (by decide)

/-! ### Flags of a page that comes back -/

/-- The permission bits of an entry. -/
def protection (e : Pte) : Bool × Bool × Bool × Bool :=
  (e.has pteR, e.has pteW, e.has pteX, e.has pteU)

/-- The states that steps lead to. -/
inductive Leads (k : Kernel) : Kernel → Prop where
  | refl : Leads k k
  | step {k₁ k₂ : Kernel} {op : Op} (h : Leads k k₁) (hen : op.Enabled k₁)
      (hrun : op.run k₁ = .ok ((), k₂)) (hpids : k₂.created < 2 ^ 31) : Leads k k₂

theorem Leads.reachable (hl : Leads k k') (h : Reachable b k) : Reachable b k' := by
  induction hl with
  | refl => exact h
  | step _ hen hrun hpids ih => exact .step ih hen hrun hpids

/-- A page in the frame table may be read and written by user code. -/
theorem KInv.protection_registered {extra : Multiset ℕ} (h : KInv extra k) {f : Fin maxFrames}
    (hf : (k.vm.ftable f).used = true) (hm : LiveMapping k (k.vm.ftable f) i root) :
    protection (lookup k.vm.kmem.mem root ((k.vm.ftable f).va / pgsize))
      = (true, true, (lookup k.vm.kmem.mem root ((k.vm.ftable f).va / pgsize)).has pteX, true) := by
  obtain ⟨q, hq, vpn, hd⟩ := h.vm.entries f hf
  obtain ⟨j, hj⟩ := mem_spaces.mp hq
  obtain ⟨root', hroot', rfl⟩ := procSpace_eq_some.mp hj
  obtain rfl : j = i := hm.unique j (h.in_use hroot') hd.pid.symm
  obtain rfl : root' = root := Option.some.inj (hroot'.symm.trans hm.pagetable)
  have hvpn : (k.vm.ftable f).va / pgsize = vpn := by
    rw [hd.va, Nat.mul_div_cancel _ (by decide)]
  have hR : (lookup k.vm.kmem.mem root' vpn).has pteR = true := hd.read
  have hW : (lookup k.vm.kmem.mem root' vpn).has pteW = true := hd.write
  have hU : (lookup k.vm.kmem.mem root' vpn).has pteU = true := hd.access
  rw [hvpn, protection, hR, hW, hU]

theorem protection_faultPerm (x : ℕ) : protection (mkPte x faultPerm) = (true, true, true, true) := by
  rw [protection, Pte.has_mkPte _ _ (by decide), Pte.has_mkPte _ _ (by decide),
    Pte.has_mkPte _ _ (by decide), Pte.has_mkPte _ _ (by decide)]
  rfl

/-- A page that is swapped out comes back with all flags. -/
theorem KOk.vmfault_reload (h : KOk k) (hroot : (k.proc i).pagetable = some root)
    (hv : va / pgsize < userPages)
    (hout : (lookup k.vm.kmem.mem root (va / pgsize)).has pteSwapped = true) :
    wp (vmfault i root va) (fun r k' => r = true →
      protection (lookup k'.vm.kmem.mem root (va / pgsize)) = (true, true, true, true))
      (fun _ => True) k := by
  have hinvalid := (h.inv.ownsSlot hroot (lt_maxVpn hv) hout).invalid
  have hdeny : permits k.vm root va .load = false := by simp [permits, hinvalid]
  have hno : ∀ {P : Prop}, false = true → P := by rintro _ ⟨⟩
  refine vmfault_denied (h.inv.faulting hroot) hdeny ⟨fun _ _ _ _ => trivial, fun _ _ _ => trivial,
    fun _ => hno, fun _ _ _ => hno, fun _ _ _ _ => hno, fun _ _ x k' hp _ => ?_⟩
  have hentry : lookup k'.vm.kmem.mem root (va / pgsize) = mkPte x faultPerm := hp.entry
  rw [hentry]
  exact protection_faultPerm x

/-- **A page comes back executable.** A page of the frame table that is evicted and comes back has the
flags it had iff it was executable. -/
theorem Reachable.reload_protection (h : Reachable b k) {f : Fin maxFrames}
    (hf : (k.vm.ftable f).used = true) (hm : LiveMapping k (k.vm.ftable f) i root)
    {k₁ k₂ : Kernel} (hl : Leads k k₁) (hroot : (k₁.proc i).pagetable = some root)
    (hout : (lookup k₁.vm.kmem.mem root ((k.vm.ftable f).va / pgsize)).has pteSwapped = true)
    (hrun : vmfault i root (k.vm.ftable f).va k₁ = .ok (true, k₂)) :
    protection (lookup k₂.vm.kmem.mem root ((k.vm.ftable f).va / pgsize))
        = protection (lookup k.vm.kmem.mem root ((k.vm.ftable f).va / pgsize)) ↔
      (lookup k.vm.kmem.mem root ((k.vm.ftable f).va / pgsize)).has pteX = true := by
  have hv : (k.vm.ftable f).va / pgsize < userPages :=
    Nat.div_lt_of_lt_mul (by rw [Nat.mul_comm, userPages_mul_pgsize]; exact hm.below)
  have hspec := (hl.reachable h).ok.vmfault_reload hroot hv hout
  rw [wp_ok hspec hrun rfl, h.ok.inv.protection_registered hf hm, Prod.mk.injEq, Prod.mk.injEq,
    Prod.mk.injEq]
  simp only [true_and, and_true]
  exact eq_comm

/-- The state in which the frame table is full, and a step that sends a page to the swap area. -/
theorem exists_evicted : ∃ k k₁ i root f u, Reachable .small k ∧ Leads k k₁ ∧
    (k.vm.ftable f).used = true ∧ LiveMapping k (k.vm.ftable f) i root ∧
    (k.vm.ftable f).va / pgsize = u + 2 ∧ u < 128 ∧
    (lookup k.vm.kmem.mem root (u + 2)).has pteX = false ∧
    (lookup k₁.vm.kmem.mem root (u + 2)).has pteSwapped = true ∧
    Filled copyPerm markedPage i root 129 k₁ := by
  obtain ⟨i, root, k, hreach, hf⟩ := filled_by_copies (n := 128) (by decide)
  obtain ⟨_, k₁, hrun, ht, -⟩ := exists_of_wp (hf.copyout (by decide))
  have hf₁ := hf.next (by decide) ht
  obtain ⟨f, u, hu, hused, hm, hva, hout⟩ := hf.victim_swapped (by decide) le_rfl ht
  have hleads : Leads k k₁ := .step .refl
    (show (Op.copyout i ((128 + 2) * pgsize) [1]).Enabled k from hf.state) hrun
    (by rw [hf₁.created]; decide)
  refine ⟨k, k₁, i, root, f, u, hreach, hleads, hused, hm, hva, hu, ?_, hout, hf₁⟩
  have hval := hm.valid
  rw [hva] at hval
  obtain ⟨-, ⟨x, -, hx⟩ | hs⟩ := hf.touched u hu
  · rw [hx, Pte.has_mkPte _ _ (by decide)]
    rfl
  · have hinvalid := (hf.ok.inv.ownsSlot hf.pagetable
      (lt_maxVpn (Filled.user (by rw [fillPages]; omega))) hs).invalid
    cases hinvalid.symm.trans hval

/-- The page that was evicted can be brought back. -/
theorem Filled.vmfault_swapped {perm : Pte} {pg : Page} {n u : ℕ}
    (h : Filled perm pg i root n k) (hn : n < 640) (hu : u < n) (hva : va / pgsize = u + 2)
    (hout : (lookup k.vm.kmem.mem root (u + 2)).has pteSwapped = true) :
    ∃ k', vmfault i root va k = .ok (true, k') := by
  have hinvalid := (h.ok.inv.ownsSlot h.pagetable
    (lt_maxVpn (Filled.user (by rw [fillPages]; omega))) hout).invalid
  obtain ⟨_, k', hrun, rfl, -⟩ := exists_of_wp (h.fault_in hn hu.le hinvalid hva)
  exact ⟨k', hrun⟩

theorem reload_protection_small : ∃ (k k₂ : Kernel) (root : ℕ) (f : Fin maxFrames),
    Reachable .small k ∧
    (protection (lookup k₂.vm.kmem.mem root ((k.vm.ftable f).va / pgsize))
        = protection (lookup k.vm.kmem.mem root ((k.vm.ftable f).va / pgsize)) ↔
      (lookup k.vm.kmem.mem root ((k.vm.ftable f).va / pgsize)).has pteX = true) := by
  obtain ⟨k, k₁, i, root, f, u, hreach, hl, hused, hm, hva, hu, -, hout, hf₁⟩ := exists_evicted
  obtain ⟨k₂, hrun⟩ := hf₁.vmfault_swapped (by decide) (by omega) hva hout
  rw [← hva] at hout
  exact ⟨k, k₂, root, f, hreach,
    Reachable.reload_protection hreach hused hm hl hf₁.pagetable hout hrun⟩

/-- **A page gains the right to be executed.** It was brought in by a system call, without that
right; it is evicted, and the next fault on it grants the right. -/
theorem reload_gains_execute : ¬∀ b k, Reachable b k → ∀ f i root,
    (k.vm.ftable f).used = true → LiveMapping k (k.vm.ftable f) i root →
    ∀ k₁ k₂, Leads k k₁ → (k₁.proc i).pagetable = some root →
    (lookup k₁.vm.kmem.mem root ((k.vm.ftable f).va / pgsize)).has pteSwapped = true →
    vmfault i root (k.vm.ftable f).va k₁ = .ok (true, k₂) →
    protection (lookup k₂.vm.kmem.mem root ((k.vm.ftable f).va / pgsize))
      = protection (lookup k.vm.kmem.mem root ((k.vm.ftable f).va / pgsize)) := by
  intro hall
  obtain ⟨k, k₁, i, root, f, u, hreach, hl, hused, hm, hva, hu, hX, hout, hf₁⟩ := exists_evicted
  obtain ⟨k₂, hrun⟩ := hf₁.vmfault_swapped (by decide) (by omega) hva hout
  rw [← hva] at hout hX
  have hv : (k.vm.ftable f).va / pgsize < userPages := by
    rw [hva]
    exact Filled.user (by rw [fillPages]; omega)
  have heq := hall _ _ hreach f i root hused hm k₁ k₂ hl hf₁.pagetable hout hrun
  rw [wp_ok (hf₁.ok.vmfault_reload hf₁.pagetable hv hout) hrun rfl,
    hreach.ok.inv.protection_registered hused hm, hX] at heq
  exact absurd heq (by decide)

end Xv6
