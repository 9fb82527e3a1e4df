import Xv6.Evict

/-!
# The fault handlers

What `vmfault` and `vmfault_alloc` do from a state that satisfies the invariant. A fault ends in one
of five ways: the address is beyond the process; memory is exhausted and nothing can be evicted; a
page-table page cannot be allocated; the page is brought in; or the kernel panics. Each of them is
a premise of the specification, with the state it leaves and the memory it used.

The two handlers treat a page that is swapped out differently. `vmfault` reads the slot back;
`vmfault_alloc` maps a page of zeros, and the slot stays in use although no entry names it. They
also count differently: only a page that `vmfault` allocates is counted as resident.
-/

namespace Xv6

open Ledger Prog Function Multiset

variable {S R : Multiset Space} {sp q : Space} {held : Multiset ℕ} {k k₁ k' : Kernel} {v v' : Vm}
  {x vpn : ℕ} {perm : Pte} {pg : Page} {me : Fin nproc} {E : String → Prop}
  {Q : Bool → Kernel → Prop}

/-! ### Registering a frame -/

theorem VmInv.unregistered (h : VmInv S (x ::ₘ held) v) (j : Fin maxFrames)
    (hj : (v.ftable j).used = true) : (v.ftable j).pa ≠ x := by
  intro hpa
  obtain ⟨q, hq, u, hd⟩ := h.entries j hj
  refine h.held_notMem_footprint (mem_cons_self _ _) hq ?_
  rw [← hpa, ← hd.pa]
  exact mem_footprint_of_valid hd.user hd.valid

/-- A frame was registered for address `va` of process `pid`, and `n` frames are counted for it. -/
structure Registered (S : Multiset Space) (held : Multiset ℕ) (pid : ℤ) (va : ℕ) (n : ℤ)
    (v v' : Vm) : Prop where
  inv : VmInv S held v'
  kmem : v'.kmem = v.kmem
  area : v'.swapArea = v.swapArea
  used : frametableUsed v' = frametableUsed v + 1
  registered : v'.registered ⊆ insert (pid, va) v.registered
  tally : ∀ p, tally v' p = tally v p + if p = pid then n else 0

section Register

variable {pa va : ℕ} {pid : ℤ} (h : VmInv S held v) (hq : q ∈ S)
  (hd : Describes v ⟨true, pid, va, pa, true, -1⟩ q vpn)
  (hnew : ∀ j, (v.ftable j).used = true → (v.ftable j).pa ≠ pa)
  (hroom : frametableUsed v < maxFrames)

include h hq hd hnew hroom

/-- With room in the table the frame is registered. -/
theorem frametableAdd_spec :
    wp (frametableAdd pa pid va) (fun _ v' => Registered S held pid va 1 v v') E v := by
  obtain ⟨i, hi⟩ := Table.first_isSome_of_count_lt hroom
  have hfree : (v.ftable i).used = false := by simpa using Table.of_first hi
  rw [frametableAdd, wp_bind, wp_get, hi]
  refine ⟨h.addFrame i hq hd hnew, rfl, rfl, ?_, registered_setFrame v i _, fun p => ?_⟩
  · refine Table.count_succ (i := i) (fun j hj => ?_) ?_ hfree
    · rw [Vm.setFrame_ftable_of_ne v _ hj]
    · rw [Vm.setFrame_ftable_self]
  · have hcount := frameCount_setFrame v i ⟨true, pid, va, pa, true, -1⟩ p
    rw [hfree, Bool.false_and, Bool.true_and, Bool.toNat_false, Nat.add_zero] at hcount
    change (frameCount (v.setFrame i _) p : ℤ) - v.uncounted p
      = frameCount v p - v.uncounted p + _
    rw [hcount]
    split_ifs with hp
    · rw [hp, beq_self_eq_true, Bool.toNat_true]
      omega
    · rw [beq_false_of_ne (Ne.symm hp), Bool.toNat_false]
      omega

theorem frametableAddUncounted_spec :
    wp (frametableAddUncounted pa pid va) (fun _ v' => Registered S held pid va 0 v v') E v := by
  rw [frametableAddUncounted]
  refine wp_seq (frametableAdd_spec h hq hd hnew hroom) fun _ v₁ hreg => ?_
  rw [wp_modify]
  refine ⟨hreg.inv.noteUncounted pid 1, hreg.kmem, hreg.area, hreg.used, hreg.registered,
    fun p => ?_⟩
  have htally := hreg.tally p
  rw [tally] at htally
  change (frameCount v₁ p : ℤ) - update v₁.uncounted pid (v₁.uncounted pid + 1) p = _
  split_ifs at htally ⊢ with hp
  · rw [hp, update_self]
    rw [hp] at htally
    omega
  · rw [update_of_ne hp]
    omega

end Register

/-! ### Results of a fault -/

/-- Process `me` has the space `sp` and may fault. -/
structure Faulting (sp : Space) (R : Multiset Space) (held : Multiset ℕ) (me : Fin nproc)
    (k : Kernel) : Prop where
  inv : VmInv (sp ::ₘ R) held k.vm
  owners : Owners (sp ::ₘ R) k
  owner : Owner k sp me
  live : 0 < sp.pid
  size : sp.npages = pagesOf (k.proc me).sz
  bound : (k.proc me).sz ≤ trapframeVa
  /-- User code does not see the two top pages. -/
  top : sp.tframe.has pteU = false ∧ sp.tramp.has pteU = false

theorem Faulting.paged (h : Faulting sp R held me k) (hp : Paged k k')
    (hinv : VmInv (sp ::ₘ R) held k'.vm) : Faulting sp R held me k' where
  inv := hinv
  owners := h.owners.paged hp
  owner := h.owner.paged hp
  live := h.live
  size := by rw [hp.sz]; exact h.size
  bound := by rw [hp.sz]; exact h.bound
  top := h.top

/-- The pages whose entry a fault in state `k` changes because it has to make room. -/
def Kernel.Evicts (k : Kernel) (e : Pte) : Prop :=
  k.MustEvict ∧ e.has pteV = true ∧ ∃ i, k.victim = some i ∧ pte2pa e = (k.vm.ftable i).pa

/-- A page was brought in: page `vpn` of `sp` is mapped to the frame `x`, which contains `pg`. On
the way another page may have been evicted, and `freed` slots were released. -/
structure PagedIn (sp : Space) (R : Multiset Space) (held : Multiset ℕ) (x vpn : ℕ) (perm : Pte)
    (pg : Page) (freed : ℕ) (k k' : Kernel) : Prop where
  inv : VmInv (sp ::ₘ R) held k'.vm
  paged : Paged k k'
  booked : Booked (sp ::ₘ R) k k'
  sym : k'.vm.kmem.sym = k.vm.kmem.sym
  addr : PageAddr x
  entry : lookup k'.vm.kmem.mem sp.root vpn = mkPte x perm
  data : logical k'.vm sp.root vpn = pg
  rest : ∀ u < userPages, u ≠ vpn → SameAt k.vm k'.vm sp.root u
  others : ∀ q ∈ R, ∀ u < userPages, SameAt k.vm k'.vm q.root u
  gone : ∀ q ∈ R, ∀ u < userPages,
    (lookup k'.vm.kmem.mem q.root u = lookup k.vm.kmem.mem q.root u ↔
      ¬k.Evicts (lookup k.vm.kmem.mem q.root u))
  goneHere : ∀ u < userPages, u ≠ vpn →
    (lookup k'.vm.kmem.mem sp.root u = lookup k.vm.kmem.mem sp.root u ↔
      ¬k.Evicts (lookup k.vm.kmem.mem sp.root u))
  frames : k'.framesUsed = k.framesUsed + if k.MustEvict then 0 else 1
  slots : k'.slotsUsed + freed = k.slotsUsed + if k.MustEvict then 1 else 0
  registered : k'.vm.registered ⊆ insert (sp.pid, vpn * pgsize) k.vm.registered
  room : k.MustEvict → 0 < k.framesUsed ∧ k.slotsUsed < maxSwapSlots
  kept : ∀ s, (k.vm.swapArea s).used = true →
    freed = 0 ∨ lookup k.vm.kmem.mem sp.root vpn ≠ swappedPte s →
    k'.vm.swapArea s = k.vm.swapArea s
  free : k.freePages = k'.freePages + (if k.MustEvict then 0 else 1)
    + missing k.vm.kmem.mem sp.root vpn
  swappedIn : ∀ j, (k.proc j).pagetable = some sp.root → (k.proc j).stats.Sound →
    (freed : ℤ) ≤ (k'.proc j).stats.pagesSwappedIn

/-- A fault has brought in page `vpn` with the contents that it had. -/
abbrev FaultedIn (sp : Space) (R : Multiset Space) (held : Multiset ℕ) (x vpn : ℕ)
    (k k' : Kernel) : Prop :=
  PagedIn sp R held x vpn (pteW ||| pteR ||| pteX ||| pteU) (logical k.vm sp.root vpn)
    ((lookup k.vm.kmem.mem sp.root vpn).has pteSwapped).toNat k k'

/-- Nothing was brought in, because a page-table page could not be allocated. -/
structure Refused (sp : Space) (R : Multiset Space) (held : Multiset ℕ) (vpn : ℕ) (k k' : Kernel) :
    Prop where
  inv : VmInv (sp ::ₘ R) held k'.vm
  paged : Paged k k'
  booked : Booked (sp ::ₘ R) k k'
  sym : k'.vm.kmem.sym = k.vm.kmem.sym
  same : ∀ q ∈ sp ::ₘ R, ∀ u < userPages, SameAt k.vm k'.vm q.root u
  gone : ∀ q ∈ R, ∀ u < userPages,
    (lookup k'.vm.kmem.mem q.root u = lookup k.vm.kmem.mem q.root u ↔
      ¬k.Evicts (lookup k.vm.kmem.mem q.root u))
  room : k.MustEvict → 0 < k.framesUsed ∧ k.slotsUsed < maxSwapSlots
  short : k.freePages < (if k.MustEvict then 0 else 1) + missing k.vm.kmem.mem sp.root vpn

/-- The statistics `f` of bringing a page in count `n` resident pages and at most `b` pages swapped
in. -/
structure Counts (f : VmStats → VmStats) (n : ℤ) (b : ℕ) : Prop where
  sound : ∀ s : VmStats, s.Sound → (f s).Sound
  swappedOut : ∀ s, (f s).pagesSwappedOut = s.pagesSwappedOut
  swappedIn : ∀ s, (f s).pagesSwappedIn ≤ s.pagesSwappedIn + b
  resident : ∀ s, (f s).residentPages = s.residentPages + n

theorem counts_swappedIn : Counts VmStats.swappedIn 0 1 :=
  ⟨fun _ hs => ⟨hs.1, Int.le_add_one hs.2⟩, fun _ => rfl, fun _ => le_rfl, fun _ => (add_zero _).symm⟩

theorem counts_allocated : Counts VmStats.allocated 1 0 :=
  ⟨fun _ hs => hs, fun _ => rfl, fun _ => (add_zero _).ge, fun _ => rfl⟩

theorem counts_id (b : ℕ) : Counts id 0 b :=
  ⟨fun _ hs => hs, fun _ => rfl, fun s => by rw [id]; omega, fun _ => (add_zero _).symm⟩

theorem Kernel.setStats_id (k : Kernel) (i : Fin nproc) : k.setStats i id = k := by
  rw [Kernel.setStats, Kernel.setProc, id, update_eq_self]

/-- What is noted for the reader does not change the result of `kalloc_or_evict`. -/
theorem Obtained.noteLost (hob : Obtained S held x k k₁) {l : Bool}
    (hl : l = false → k₁.vm.lost = false) :
    Obtained S held x k (k₁.setVm { k₁.vm with lost := l }) where
  inv := hob.inv.setNotes hl _
  paged := hob.paged.trans (Paged.setVm k₁ _)
  booked := hob.booked.trans hob.paged (Booked.setVm rfl fun _ _ => le_rfl)
  same := hob.same.trans ⟨rfl, fun q _ u _ => (KeepsAt.of_eq rfl rfl q.root u).sameAt,
    fun _ _ _ => rfl⟩
  room := hob.room
  frames := hob.frames
  slots := hob.slots
  free := hob.free
  registered := hob.registered
  kept := hob.kept
  calm := hob.calm
  gone := hob.gone

section MapIn

variable (hob : Obtained (sp ::ₘ R) held x k k₁) (hv : vpn < userPages)

include hob

/-- Obtaining a page does not change a page that is not resident. -/
theorem Obtained.entry (hv : vpn < userPages)
    (hval : (lookup k.vm.kmem.mem sp.root vpn).has pteV = false) :
    lookup k₁.vm.kmem.mem sp.root vpn = lookup k.vm.kmem.mem sp.root vpn := by
  refine (hob.same.same sp (mem_cons_self sp R) vpn hv).entry_of fun hh => ?_
  rw [hval] at hh
  nomatch hh.1

/-- If a page had to go then there was one, and a slot for it. -/
theorem Obtained.evictable (hmust : k.MustEvict) :
    0 < k.framesUsed ∧ k.slotsUsed < maxSwapSlots := by
  have hfr := hob.frames
  have hs := hob.slots
  have hle : k₁.slotsUsed ≤ maxSwapSlots := Table.count_le _
  rw [if_pos hmust] at hfr hs
  omega

/-- **A page that was obtained, mapped and registered.** -/
theorem Obtained.pagedIn {v₂ v₃ : Vm} {freed : ℕ} {n : ℤ} {f : VmStats → VmStats}
    (ho : Owner k sp me) (hv : vpn < userPages)
    (hval : (lookup k.vm.kmem.mem sp.root vpn).has pteV = false)
    (hmap : Mapped sp R held x vpn perm pg k₁.vm v₂) (hperm : LeafPerm perm)
    (hreg : Registered (sp ::ₘ R) held sp.pid (vpn * pgsize) n v₂ v₃)
    (hf : Counts f n ((lookup k.vm.kmem.mem sp.root vpn).has pteSwapped).toNat)
    (hslots : Table.count (fun i => (v₂.swapArea i).used) + freed = k₁.slotsUsed)
    (hkept : ∀ s : Fin maxSwapSlots, freed = 0 ∨ lookup k.vm.kmem.mem sp.root vpn ≠ swappedPte s →
      v₂.swapArea s = k₁.vm.swapArea s)
    (hlen : k₁.freePages = v₂.kmem.freelist.length + missing k₁.vm.kmem.mem sp.root vpn)
    (hin : ∀ s : VmStats, s.Sound → (freed : ℤ) ≤ (f s).pagesSwappedIn) :
    PagedIn sp R held x vpn perm pg freed k ((k₁.setVm v₃).setStats me f) := by
  have hsp : sp ∈ sp ::ₘ R := mem_cons_self sp R
  have hx : x ∈ x ::ₘ held := mem_cons_self x held
  have hlook : ∀ root u, KeepsAt v₂ v₃ root u := KeepsAt.of_eq hreg.kmem hreg.area
  have hentry : lookup v₃.kmem.mem sp.root vpn = mkPte x perm :=
    (hlook sp.root vpn).1.trans hmap.entry
  have hpaged : Paged k₁ ((k₁.setVm v₃).setStats me f) :=
    (Paged.setVm k₁ v₃).trans (Paged.setStats _ me f)
  have hused : frametableUsed v₃ = k₁.framesUsed + 1 := by
    rw [hreg.used, Kernel.framesUsed, frametableUsed, frametableUsed, hmap.ftable]
  have hslots₃ : Table.count (fun i => (v₃.swapArea i).used) + freed = k₁.slotsUsed := by
    rw [hreg.area]
    exact hslots
  have hbook : Booked (sp ::ₘ R) k₁ ((k₁.setVm v₃).setStats me f) := by
    have hcount : swapCount v₃.kmem.mem sp.root
        + ((lookup k.vm.kmem.mem sp.root vpn).has pteSwapped).toNat
          = swapCount k₁.vm.kmem.mem sp.root + 0 := by
      have hc := swapCount_setLeaf hv
        fun u hu hne => (hlook sp.root u).1.trans (hmap.rest u hu hne).1
      rwa [hentry, (hperm.resident x).unswapped, hob.entry hv hval, Bool.toNat_false] at hc
    have htally : ∀ p, tally v₃ p = tally k₁.vm p + if p = sp.pid then n else 0 := by
      intro p
      rw [hreg.tally, hmap.keeps.tally]
    refine Booked.enter (ho.paged hob.paged) f (fun q hq hne => ?_) (fun p hp => ?_) (fun s => ?_)
      (fun s => ?_) fun s => ?_
    · refine (swapCount_congr fun u hu => ?_).le
      rcases mem_cons.mp hq with rfl | hq
      · exact absurd rfl hne
      · exact (hlook q.root u).1.trans (hmap.keeps.same q hq u hu).1
    · rw [htally, if_neg hp, add_zero]
    · exact hf.sound s
    · have hin := hf.swappedIn s
      rw [hf.swappedOut]
      omega
    · rw [hf.resident, htally, if_pos rfl]
      omega
  have hfr := hob.frames
  have hs := hob.slots
  have hfree := hob.free
  have htables := hob.same.tables sp hsp vpn
  refine ⟨hreg.inv, hob.paged.trans hpaged, hob.booked.trans hob.paged hbook, ?_,
    pageAddr_of_mem (hob.inv.held_managed hx), hentry, (hlook sp.root vpn).2.trans hmap.data,
    ?_, ?_, ?_, ?_, ?_, ?_, ?_, hob.evictable, ?_, ?_, fun j hj hs => ?_⟩
  · rw [Kernel.setStats_vm, Kernel.setVm_vm, hreg.kmem]
    exact hmap.keeps.sym.trans hob.same.sym
  · exact fun u hu hne => (hob.same.same sp hsp u hu).trans
      ((hmap.rest u hu hne).trans (hlook sp.root u)).sameAt
  · exact fun q hq u hu => (hob.same.same q (mem_cons_of_mem hq) u hu).trans
      ((hmap.keeps.same q hq u hu).trans (hlook q.root u)).sameAt
  · intro q hq u hu
    rw [Kernel.setStats_vm, Kernel.setVm_vm, (hlook q.root u).1, (hmap.keeps.same q hq u hu).1]
    exact hob.gone q (mem_cons_of_mem hq) u hu
  · intro u hu hne
    rw [Kernel.setStats_vm, Kernel.setVm_vm, (hlook sp.root u).1, (hmap.rest u hu hne).1]
    exact hob.gone sp hsp u hu
  · rw [Kernel.framesUsed, Kernel.setStats_vm, Kernel.setVm_vm, hused]
    split_ifs at hfr ⊢ <;> omega
  · rw [← hs]
    exact hslots₃
  · have hreg₂ : v₂.registered ⊆ k.vm.registered := by
      rw [Vm.registered, hmap.ftable]
      exact hob.registered
    exact hreg.registered.trans (Set.insert_subset_insert hreg₂)
  · intro s hus hne
    rw [Kernel.setStats_vm, Kernel.setVm_vm, hreg.area, hkept s hne]
    exact hob.kept s hus
  · have hlen₃ : k₁.freePages
        = v₃.kmem.freelist.length + missing k₁.vm.kmem.mem sp.root vpn := by
      rw [hreg.kmem]
      exact hlen
    have hfin : ((k₁.setVm v₃).setStats me f).freePages = v₃.kmem.freelist.length := rfl
    rw [hfree, hlen₃, htables, hfin]
    split_ifs <;> omega
  · obtain rfl := ho.root_unique j hj
    rw [Kernel.setStats_self]
    exact hin _ (hob.booked.sound j hs)

/-- A page that was obtained and could not be mapped. -/
theorem Obtained.refused {v₃ : Vm} (h₃ : VmInv (sp ::ₘ R) held v₃)
    (hkeep : Keeps (sp ::ₘ R) k₁.vm v₃)
    (hshort : k₁.freePages < missing k₁.vm.kmem.mem sp.root vpn) :
    Refused sp R held vpn k (k₁.setVm v₃) := by
  refine ⟨h₃, hob.paged.trans (Paged.setVm k₁ v₃), hob.booked.trans hob.paged hkeep.booked,
    hkeep.sym.trans hob.same.sym, fun q hq u hu => ?_, fun q hq u hu => ?_, hob.evictable, ?_⟩
  · exact (hob.same.same q hq u hu).trans (hkeep.same q hq u hu).sameAt
  · rw [Kernel.setVm_vm, (hkeep.same q (mem_cons_of_mem hq) u hu).1]
    exact hob.gone q (mem_cons_of_mem hq) u hu
  · rw [hob.free, ← hob.same.tables sp (mem_cons_self sp R) vpn]
    split_ifs <;> omega

theorem Obtained.describes {v₂ : Vm} (hmap : Mapped sp R held x vpn perm pg k₁.vm v₂)
    (hv : vpn < userPages) (hperm : LeafPerm perm) (hwrite : perm.has pteW = true)
    (huser : perm.has pteU = true) (hlive : 0 < sp.pid) :
    Describes v₂ ⟨true, sp.pid, vpn * pgsize, x, true, -1⟩ sp vpn := by
  have hpa : PageAddr x := pageAddr_of_mem (hob.inv.held_managed (mem_cons_self x held))
  refine ⟨hlive, rfl, hv, rfl, ?_, ?_, ?_, ?_, ?_⟩
  · rw [hmap.entry]; exact (hperm.resident x).valid
  · rw [hmap.entry]; exact (hperm.resident x).read
  · rw [hmap.entry, Pte.has_mkPte x perm (by decide), hwrite, Bool.true_or]
  · rw [hmap.entry, Pte.has_mkPte x perm (by decide), huser, Bool.true_or]
  · rw [hmap.entry]; exact pte2pa_mkPte hpa hperm.flags

theorem Obtained.mapped_room {v₂ : Vm} (hmap : Mapped sp R held x vpn perm pg k₁.vm v₂) :
    frametableUsed v₂ < maxFrames := by
  rw [frametableUsed, hmap.ftable]
  exact hob.room

theorem Obtained.mapped_new {v₂ : Vm} (hmap : Mapped sp R held x vpn perm pg k₁.vm v₂)
    (j : Fin maxFrames) : (v₂.ftable j).used = true → (v₂.ftable j).pa ≠ x := by
  rw [hmap.ftable]
  exact hob.inv.unregistered j

/-- **Filling and mapping the page that was obtained**, or freeing it again. -/
theorem Obtained.wp_place (hv : vpn < userPages) (hn : vpn < sp.npages) (hperm : LeafPerm perm)
    (hval : (lookup k.vm.kmem.mem sp.root vpn).has pteV = false)
    (hlost : k₁.vm.lost = false → (lookup k.vm.kmem.mem sp.root vpn).has pteSwapped = false)
    (pg : Page) {α : Type} {A B : Prog Kernel α} {Q : α → Kernel → Prop}
    (hA : ∀ v₂, Mapped sp R held x vpn perm pg k₁.vm v₂ → v₂.swapArea = k₁.vm.swapArea →
      k₁.freePages = v₂.kmem.freelist.length + missing k₁.vm.kmem.mem sp.root vpn →
      wp A Q E (k₁.setVm v₂))
    (hB : ∀ k', Refused sp R held vpn k k' → wp B Q E k') :
    wp (do
      onVm (onKmem (writePage x pg))
      if ← onVm (onKmem (mappages sp.root (vpn * pgsize) pgsize x perm)) then A
      else do
        onVm (onKmem (kfree x))
        B) Q E k₁ := by
  have hentry := hob.entry hv hval
  rw [wp_bind, wp_onVm]
  refine wp_imp (placePage_spec (A := fun v₂ => wp A Q E (k₁.setVm v₂))
    (B := fun v₃ => wp B Q E (k₁.setVm v₃)) hob.inv hv hn hperm (by rw [hentry]; exact hval)
    (by rw [hentry]; exact hlost) pg (fun v₂ hmap harea hlen _ => ?_)
    fun v₃ h₃ hkeep _ _ _ hshort _ => ?_) fun _ v₁ hr => ?_
  · exact hA v₂ hmap harea hlen
  · exact hB _ (hob.refused h₃ hkeep hshort)
  · rw [wp_bind, wp_onVm]
    refine wp_imp hr ?_
    rintro (_ | _) v₂ hr'
    · rw [if_neg Bool.false_ne_true] at hr' ⊢
      rw [wp_bind, wp_onVm]
      exact hr'
    · rw [if_pos rfl] at hr' ⊢
      exact hr'

end MapIn

/-! ### `vmfault` -/

theorem leafPerm_user : LeafPerm (pteW ||| pteR ||| pteX ||| pteU) :=
  ⟨by decide, by decide, by decide⟩

section Vmfault

variable (h : Faulting sp R held me k) (hn : vpn < sp.npages)
  (hE : k.MustEvict → k.victim ≠ none → freeSlot k.vm.swapArea = none →
    E "clock_evict: swap full")

include h hn

theorem Faulting.user : vpn < userPages :=
  hn.trans_le (h.inv.spaces sp (mem_cons_self sp R)).bound

include hE

/-- **Lazy allocation** of a page that is not resident and not swapped out. -/
theorem vmfaultLazy_spec (habs : lookup k.vm.kmem.mem sp.root vpn = 0#64)
    (hdry : k.freePages = 0 → k.victim = none → Q false k)
    (hrefused : ∀ k', Refused sp R held vpn k k' → Q false k')
    (hin : ∀ x k', PagedIn sp R held x vpn (pteW ||| pteR ||| pteX ||| pteU) (fill 0) 0 k k' →
      Q true k') :
    wp (vmfaultLazy me sp.root (vpn * pgsize)) Q E k := by
  have hv := h.user hn
  have hval : (lookup k.vm.kmem.mem sp.root vpn).has pteV = false := by rw [habs, Pte.has_zero]
  have hsw : (lookup k.vm.kmem.mem sp.root vpn).has pteSwapped = false := by
    rw [habs, Pte.has_zero]
  rw [vmfaultLazy, wp_bind]
  refine kallocOrEvict_spec h.inv h.owners hE hdry fun x k₁ hob => ?_
  refine hob.wp_place hv hn leafPerm_user hval (fun _ => hsw) (fill 0)
    (fun v₂ hmap harea hlen => ?_) hrefused
  rw [wp_bind, wp_get, wp_bind, wp_onVm, Kernel.setVm_vm, Kernel.setVm_proc,
    hob.paged.pid, h.owner.pid]
  refine wp_imp (frametableAdd_spec hmap.inv (mem_cons_self sp R)
    (hob.describes hmap hv leafPerm_user (by decide) (by decide) h.live)
    (hob.mapped_new hmap) (hob.mapped_room hmap)) fun _ v₃ hreg => ?_
  rw [wp_bind, wp_updateProc, wp_pure]
  exact hin x _ (hob.pagedIn (f := VmStats.allocated) h.owner hv hval hmap leafPerm_user hreg
    (by rw [hsw]; exact counts_allocated) (by rw [harea]; rfl)
    (fun s _ => congrFun harea s) hlen fun _ hs => hs.2)

/-- **A fault on a page that is resident**, and that cannot be evicted: if a page is obtained for it
the kernel panics. -/
theorem vmfaultLazy_remap (hval : (lookup k.vm.kmem.mem sp.root vpn).has pteV = true)
    (hprot : ¬((lookup k.vm.kmem.mem sp.root vpn).has pteR = true ∧
      (lookup k.vm.kmem.mem sp.root vpn).has pteW = true ∧
      (lookup k.vm.kmem.mem sp.root vpn).has pteU = true))
    (hdry : k.freePages = 0 → k.victim = none → Q false k)
    (hremap : ¬(k.freePages = 0 ∧ k.victim = none) → E "mappages: remap") :
    wp (vmfaultLazy me sp.root (vpn * pgsize)) Q E k := by
  have hv := h.user hn
  have hsp : sp ∈ sp ::ₘ R := mem_cons_self sp R
  rw [vmfaultLazy, wp_bind]
  refine kallocOrEvict_spec h.inv h.owners hE hdry fun x k₁ hob => ?_
  have hx : x ∈ x ::ₘ held := mem_cons_self x held
  have hentry := (hob.same.same sp hsp vpn hv).entry_of fun hh => hprot hh.2
  have hmem : lookup (k₁.vm.kmem.setPage x (fill 0)).mem sp.root vpn
      = lookup k.vm.kmem.mem sp.root vpn := by
    rw [← hentry]
    exact congrFun (lookup_congr (update_agree (hob.inv.notMem_tables (Or.inr hx) hsp) _)) vpn
  rw [wp_bind, wp_onVm, wp_onKmem, writePage, wp_modify, wp_bind, wp_onVm, wp_onKmem,
    mappages_page]
  refine mapPage_remap (lt_maxVpn hv) ?_ _ _ (hremap fun hh => ?_)
  · exact (congrArg (Pte.has · pteV) hmem).trans hval
  · have hfree := hob.free
    have hfr := hob.frames
    rw [Kernel.victim_eq_none h.inv.hand] at hh
    have hused : k.framesUsed = 0 := Table.count_eq_zero.mpr hh.2
    have hmust : k.MustEvict := Or.inr hh.1
    rw [if_pos hmust] at hfr
    omega

/-- **A page that is swapped out** is read back into a frame, and its slot is free again. -/
theorem vmfaultSwapped_spec {slot : Fin maxSwapSlots}
    (hsw : lookup k.vm.kmem.mem sp.root vpn = swappedPte slot)
    (hdry : k.freePages = 0 → k.victim = none → Q false k)
    (hin : ∀ x k', PagedIn sp R held x vpn (pteW ||| pteR ||| pteX ||| pteU)
      (k.vm.swapArea slot).data 1 k k' → Q true k') :
    wp (vmfaultSwapped me sp.root (vpn * pgsize) slot) Q E k := by
  have hv := h.user hn
  have hsp : sp ∈ sp ::ₘ R := mem_cons_self sp R
  have hval : (lookup k.vm.kmem.mem sp.root vpn).has pteV = false := by
    rw [hsw, Pte.has_swappedPte_pteV]
  have hswap : (lookup k.vm.kmem.mem sp.root vpn).has pteSwapped = true := by
    rw [hsw, Pte.has_swappedPte_pteSwapped]
  rw [vmfaultSwapped, wp_bind]
  refine kallocOrEvict_spec h.inv h.owners hE hdry fun x k₁ hob => ?_
  have hx : x ∈ x ::ₘ held := mem_cons_self x held
  have hentry : lookup k₁.vm.kmem.mem sp.root vpn = swappedPte slot := (hob.entry hv hval).trans hsw
  -- the slot is still the page's
  obtain ⟨-, hused, -, -⟩ := (hentry ▸ (hob.inv.spaces sp hsp).leaf vpn hv).owner
  have hdata : (k₁.vm.swapArea slot).data = (k.vm.swapArea slot).data := by
    have := (hob.same.same sp hsp vpn hv).1
    rwa [logical, logical, hentry, hsw, contents_swappedPte, contents_swappedPte] at this
  simp only [wp_bind, wp_onVm, swapIn, wp_get, slot.isLt, dif_pos, Fin.eta, hused,
    Bool.not_true, Bool.false_eq_true, if_false, wp_onKmem, writePage, wp_modify, wp_pure,
    if_true, swapFree, Kernel.setVm_vm, Kernel.setVm_setVm]
  obtain ⟨v₁, hv₁⟩ : ∃ v₁, v₁ = k₁.vm.setKmem (k₁.vm.kmem.setPage x (k₁.vm.swapArea slot).data) :=
    ⟨_, rfl⟩
  have h₁ := hob.inv.write hx (k₁.vm.swapArea slot).data
  have hkeep₁ := hob.inv.keeps_write hx (k₁.vm.swapArea slot).data
  have hpg : v₁.kmem.mem x = (k.vm.swapArea slot).data := by
    rw [hv₁, ← hdata]
    exact Kmem.setPage_mem_self _ _ _
  have hmiss : ∀ u, missing v₁.kmem.mem sp.root u = missing k₁.vm.kmem.mem sp.root u := by
    rw [hv₁]
    exact missing_congr (update_agree (hob.inv.notMem_tables (Or.inr hx) hsp) _)
  have hF : v₁.kmem.freelist.length = k₁.freePages := by rw [hv₁]; rfl
  have hft : v₁.ftable = k₁.vm.ftable := by rw [hv₁]; rfl
  have harea : v₁.swapArea = k₁.vm.swapArea := by rw [hv₁]; rfl
  rw [← hv₁] at h₁ hkeep₁ ⊢
  clear hv₁
  have hlook : lookup v₁.kmem.mem sp.root vpn = swappedPte slot :=
    (hkeep₁.same sp hsp vpn hv).1.trans hentry
  obtain ⟨a, ha⟩ : ∃ a, a = update v₁.swapArea slot
      ⟨false, -1, 0, (v₁.swapArea slot).data⟩ := ⟨_, rfl⟩
  have haself : a slot = ⟨false, -1, 0, (v₁.swapArea slot).data⟩ := by
    rw [ha, update_self]
  have haother : ∀ s, s ≠ slot → a s = v₁.swapArea s := fun s hs => by
    rw [ha, update_of_ne hs]
  have hstate : v₁.setSlot slot ⟨false, -1, 0, (v₁.swapArea slot).data⟩
      = { v₁ with swapArea := a } := by rw [ha]; rfl
  rw [hstate]
  refine wp_imp (mappages_spec h₁ hv hn leafPerm_user hlook
    (by rw [Pte.has_swappedPte_pteV]) (a := a) (fun s => ?_) (fun s => ?_) (fun s hs => ?_)
    fun _ s hs => ?_) ?_
  · by_cases hs : s = slot
    · exact Or.inr (by rw [hs])
    · exact Or.inl (haother s hs)
  · by_cases hs : s = slot
    · rw [hs, haself]
    · rw [haother s hs]
  · refine haother s fun heq => ?_
    rw [heq, haself] at hs
    cases hs
  · rw [← swappedPte_inj hs, haself]
  -- the entry names a slot, so its table is there and nothing has to be allocated
  have hnone : missing k₁.vm.kmem.mem sp.root vpn = 0 :=
    missing_of_lookup_ne_zero (by rw [hentry]; exact swappedPte_ne_zero slot)
  rintro (_ | _) k₂ ⟨-, hr⟩
  · rw [if_neg Bool.false_ne_true, hmiss, hnone] at hr
    exact absurd hr.2.2.2 (Nat.not_lt_zero _)
  rw [if_pos rfl, hpg, hmiss, hF] at hr
  obtain ⟨hmap, hlen⟩ := hr
  have hmap' : Mapped sp R held x vpn (pteW ||| pteR ||| pteX ||| pteU)
      (k.vm.swapArea slot).data k₁.vm { v₁ with kmem := k₂, swapArea := a } :=
    ⟨hmap.inv, hkeep₁.tail.trans hmap.keeps, hmap.entry, hmap.data,
      fun u hu hne => (hkeep₁.same sp hsp u hu).trans (hmap.rest u hu hne), hft⟩
  have hslots : Table.count (fun i => (a i).used) + 1 = k₁.slotsUsed := by
    refine (Table.count_succ (i := slot) (fun j hj => ?_) hused ?_).symm
    · rw [haother j hj, harea]
    · rw [haself]
  have hkept : ∀ s : Fin maxSwapSlots, 1 = 0 ∨ lookup k.vm.kmem.mem sp.root vpn ≠ swappedPte s →
      a s = k₁.vm.swapArea s := by
    intro s hs
    rw [← harea]
    refine haother s fun heq => (hs.resolve_left Nat.one_ne_zero) ?_
    rw [heq, hsw]
  rw [if_pos rfl]
  rw [wp_bind, wp_get, wp_bind, wp_onVm, Kernel.setVm_vm, Kernel.setVm_proc,
    hob.paged.pid, h.owner.pid]
  refine wp_imp (frametableAddUncounted_spec hmap'.inv hsp
    (hob.describes hmap' hv leafPerm_user (by decide) (by decide) h.live)
    (hob.mapped_new hmap') (hob.mapped_room hmap')) fun _ v₃ hreg => ?_
  rw [wp_bind, wp_updateProc, wp_pure]
  exact hin x _ (hob.pagedIn (f := VmStats.swappedIn) h.owner hv hval hmap' leafPerm_user hreg
    (by rw [hswap]; exact counts_swappedIn) hslots hkept hlen
    fun _ hs => Int.le_add_of_nonneg_left hs.2)

end Vmfault

/-- An address below the size of a process is on one of its pages. -/
theorem Faulting.page_lt (h : Faulting sp R held me k) {va : ℕ}
    (hva : ¬(k.proc me).sz ≤ pgrounddown va) : va / pgsize < sp.npages := by
  rw [h.size, pagesOf]
  rw [pgrounddown, pgsize] at hva
  rw [pgsize]
  omega

theorem Faulting.leaf (h : Faulting sp R held me k) (hn : vpn < sp.npages) :
    LeafOk k.vm.swapArea sp.pid vpn (lookup k.vm.kmem.mem sp.root vpn) :=
  (h.inv.spaces sp (mem_cons_self sp R)).leaf vpn (h.user hn)

theorem vmfault_range {root va : ℕ} (hva : (k.proc me).sz ≤ pgrounddown va)
    (hQ : Q false k) : wp (vmfault me root va) Q E k := by
  rw [vmfault, wp_bind, wp_get]
  dsimp only
  rw [if_pos hva]
  exact hQ

/-- What has to be shown of a fault: `Q` of every way in which it returns, `E` of its panics. -/
structure FaultPost (sp : Space) (R : Multiset Space) (held : Multiset ℕ) (me : Fin nproc) (va : ℕ)
    (k : Kernel) (Q : Bool → Kernel → Prop) (E : String → Prop) : Prop where
  full : va / pgsize < sp.npages → k.MustEvict → k.victim ≠ none →
    freeSlot k.vm.swapArea = none → E "clock_evict: swap full"
  remap : va / pgsize < sp.npages → (lookup k.vm.kmem.mem sp.root (va / pgsize)).has pteV = true →
    ¬(k.freePages = 0 ∧ k.victim = none) → E "mappages: remap"
  range : (k.proc me).sz ≤ pgrounddown va → Q false k
  dry : va / pgsize < sp.npages → k.freePages = 0 → k.victim = none → Q false k
  refused : va / pgsize < sp.npages → lookup k.vm.kmem.mem sp.root (va / pgsize) = 0#64 →
    ∀ k', Refused sp R held (va / pgsize) k k' → Q false k'
  paged : va / pgsize < sp.npages → (lookup k.vm.kmem.mem sp.root (va / pgsize)).has pteV = false →
    ∀ x k', FaultedIn sp R held x (va / pgsize) k k' → Q true k'

/-- **`vmfault`** at an address that user code may not access. It brings in a page with the contents
that the page had, or leaves everything as it was, or panics. -/
theorem vmfault_spec (h : Faulting sp R held me k) {va : ℕ}
    (hprot : ¬((lookup k.vm.kmem.mem sp.root (va / pgsize)).has pteV = true ∧
      (lookup k.vm.kmem.mem sp.root (va / pgsize)).has pteR = true ∧
      (lookup k.vm.kmem.mem sp.root (va / pgsize)).has pteW = true ∧
      (lookup k.vm.kmem.mem sp.root (va / pgsize)).has pteU = true))
    (hQ : FaultPost sp R held me va k Q E) : wp (vmfault me sp.root va) Q E k := by
  obtain ⟨hE, hremap, hrange, hdry, hrefused, hin⟩ := hQ
  rw [vmfault, wp_bind, wp_get]
  by_cases hva : (k.proc me).sz ≤ pgrounddown va
  · rw [if_pos hva, wp_pure]
    exact hrange hva
  have hn := h.page_lt hva
  have hpage : pgrounddown va = va / pgsize * pgsize := rfl
  generalize va / pgsize = vpn at *
  have hleaf := h.leaf hn
  have hlazy : lookup k.vm.kmem.mem sp.root vpn = 0#64 →
      wp (vmfaultLazy me sp.root (vpn * pgsize)) Q E k := by
    intro habs
    have hval : (lookup k.vm.kmem.mem sp.root vpn).has pteV = false := by rw [habs, Pte.has_zero]
    refine vmfaultLazy_spec h hn (hE hn) habs (hdry hn) (hrefused hn habs) fun x k' hp => ?_
    refine hin hn hval x k' ?_
    rwa [FaultedIn, logical, contents_lazy hval (by rw [habs, Pte.has_zero]), habs, Pte.has_zero]
  rw [if_neg hva, hpage, wp_bind, wp_onVm, wp_onKmem]
  refine walk_spec (lt_maxVpn (h.user hn)) ?_
  cases hl : leafTable k.vm.kmem.mem sp.root (pathOf vpn) with
  | none => exact hlazy (lookup_of_none hl)
  | some t =>
    rw [Option.map_some]
    simp only [wp_bind, wp_onVm, wp_onKmem, wp_readPte, Vm.setKmem_self, Kernel.setVm_self,
      ← lookup_of_some hl]
    rcases hleaf with habs | hres | ⟨slot, hsw, -⟩
    · rw [habs, Pte.has_zero, Pte.has_zero, Bool.and_false, if_neg Bool.false_ne_true]
      exact hlazy habs
    · rw [hres.valid, Bool.not_true, Bool.false_and, if_neg Bool.false_ne_true]
      exact vmfaultLazy_remap h hn (hE hn) hres.valid (fun hh => hprot ⟨hres.valid, hh⟩) (hdry hn)
        (hremap hn hres.valid)
    · have hval : (lookup k.vm.kmem.mem sp.root vpn).has pteV = false := by
        rw [hsw, Pte.has_swappedPte_pteV]
      have hslot : pteSwapSlot (lookup k.vm.kmem.mem sp.root vpn) = slot := by
        rw [hsw, pteSwapSlot_swappedPte (slot.isLt.trans (by decide))]
      have hswap : (lookup k.vm.kmem.mem sp.root vpn).has pteSwapped = true := by
        rw [hsw, Pte.has_swappedPte_pteSwapped]
      rw [hval, hswap, Bool.not_false, Bool.and_self, if_pos rfl, hslot]
      refine vmfaultSwapped_spec h hn (hE hn) hsw (hdry hn) fun x k' hp => hin hn hval x k' ?_
      rw [FaultedIn, hswap, logical, hsw, contents_swappedPte]
      exact hp

/-! ### When a page can be brought in -/

/-- A page can be brought in: if another one has to go there is one and a slot for it, and there is
memory for the frame and the page-table pages. -/
def CanPageIn (k : Kernel) (root vpn : ℕ) : Prop :=
  (k.MustEvict → 0 < k.framesUsed ∧ k.slotsUsed < maxSwapSlots) ∧
    (if k.MustEvict then 0 else 1) + missing k.vm.kmem.mem root vpn ≤ k.freePages

theorem not_canPageIn_of_dry (h : Faulting sp R held me k) (hF : k.freePages = 0)
    (hv : k.victim = none) (vpn : ℕ) : ¬CanPageIn k sp.root vpn := by
  rintro ⟨hroom, -⟩
  have hpos := (hroom (Or.inr hF)).1
  rw [Kernel.victim_eq_none h.inv.hand] at hv
  rw [Kernel.framesUsed, frametableUsed, Table.count_eq_zero.mpr hv] at hpos
  exact absurd hpos (lt_irrefl 0)

theorem slotsUsed_of_freeSlot (h : freeSlot k.vm.swapArea = none) :
    ¬k.slotsUsed < maxSwapSlots := by
  intro hlt
  obtain ⟨i, hi⟩ := Table.first_isSome_of_count_lt hlt
  rw [freeSlot] at h
  rw [h] at hi
  nomatch hi

theorem PagedIn.canPageIn {freed : ℕ} (hp : PagedIn sp R held x vpn perm pg freed k k') :
    CanPageIn k sp.root vpn := by
  refine ⟨hp.room, ?_⟩
  rw [hp.free]
  omega

/-- **A fault that succeeds.** A page that is not resident is brought in if it can be. -/
theorem vmfault_pagedIn (h : Faulting sp R held me k) (va : ℕ) (hvpn : vpn = va / pgsize)
    (hsz : vpn * pgsize < (k.proc me).sz)
    (hval : (lookup k.vm.kmem.mem sp.root vpn).has pteV = false) (hcan : CanPageIn k sp.root vpn)
    (hin : ∀ x k', FaultedIn sp R held x vpn k k' → Q true k') :
    wp (vmfault me sp.root va) Q E k := by
  subst hvpn
  have hinvalid : ∀ {P : Prop}, (lookup k.vm.kmem.mem sp.root (va / pgsize)).has pteV = true → P := by
    intro P hv
    nomatch hv.symm.trans hval
  refine vmfault_spec h (fun hh => hinvalid hh.1) ⟨fun _ hmust _ hslot => ?_,
    fun _ hv _ => hinvalid hv, fun hle => absurd hsz (not_lt.mpr hle), fun _ hF hv => ?_,
    fun _ _ k' hr => ?_, fun _ _ => hin⟩
  · exact absurd (hcan.1 hmust).2 (slotsUsed_of_freeSlot hslot)
  · exact absurd hcan (not_canPageIn_of_dry h hF hv _)
  · exact absurd hcan.2 (not_le.mpr hr.short)

/-! ### `vmfault_alloc` -/

theorem leafPerm_copy : LeafPerm (pteW ||| pteU ||| pteR) := ⟨by decide, by decide, by decide⟩

/-- What has to be shown of a page that is not resident and is asked for by a copy. -/
structure AllocPost (sp : Space) (R : Multiset Space) (held : Multiset ℕ) (vpn : ℕ) (k : Kernel)
    (Q : Option ℕ → Kernel → Prop) (E : String → Prop) : Prop where
  full : vpn < sp.npages → (lookup k.vm.kmem.mem sp.root vpn).has pteV = false →
    k.MustEvict → k.victim ≠ none → freeSlot k.vm.swapArea = none → E "clock_evict: swap full"
  dry : vpn < sp.npages → (lookup k.vm.kmem.mem sp.root vpn).has pteV = false →
    k.freePages = 0 → k.victim = none → Q none k
  refused : vpn < sp.npages → lookup k.vm.kmem.mem sp.root vpn = 0#64 →
    ∀ k', Refused sp R held vpn k k' → Q none k'
  paged : vpn < sp.npages → (lookup k.vm.kmem.mem sp.root vpn).has pteV = false →
    ∀ x k', PagedIn sp R held x vpn (pteW ||| pteU ||| pteR) (fill 0) 0 k k' →
      (¬k.MustEvict → k'.proc = k.proc) → Q (some x) k'

/-- **`vmfault_alloc`** of a page of the process. It maps a page of zeros, also over a page that is
swapped out. -/
theorem vmfaultAlloc_spec (h : Faulting sp R held me k) {Q : Option ℕ → Kernel → Prop}
    (hrange : (k.proc me).sz ≤ vpn * pgsize → Q none k)
    (hmapped : vpn < sp.npages → (lookup k.vm.kmem.mem sp.root vpn).has pteV = true → Q none k)
    (hQ : AllocPost sp R held vpn k Q E) :
    wp (vmfaultAlloc me sp.root (vpn * pgsize)) Q E k := by
  obtain ⟨hE, hdry, hrefused, hin⟩ := hQ
  rw [vmfaultAlloc, wp_bind, wp_get]
  by_cases hva : (k.proc me).sz ≤ vpn * pgsize
  · rw [if_pos hva, wp_pure]
    exact hrange hva
  have hdiv : vpn * pgsize / pgsize = vpn := Nat.mul_div_cancel vpn (by decide)
  have hpage : pgrounddown (vpn * pgsize) = vpn * pgsize := by rw [pgrounddown, hdiv]
  have hn : vpn < sp.npages := by
    have hlt : vpn * pgsize / pgsize < sp.npages := h.page_lt (by rw [hpage]; exact hva)
    rwa [hdiv] at hlt
  have hv := h.user hn
  rw [if_neg hva, hpage, wp_bind, wp_onVm, wp_onKmem]
  refine ismapped_spec (lt_maxVpn hv) ?_
  cases hval : (lookup k.vm.kmem.mem sp.root vpn).has pteV with
  | true =>
    rw [if_pos rfl, wp_pure]
    exact hmapped hn hval
  | false =>
    rw [if_neg Bool.false_ne_true, wp_bind]
    refine kallocOrEvict_spec h.inv h.owners (hE hn hval) (hdry hn hval) fun x k₁ hob => ?_
    have hroot : addrOf (k₁.proc me).pagetable = sp.root := by
      rw [hob.paged.pagetable, h.owner.root]
      rfl
    have hpid : (k₁.proc me).pid = sp.pid := by rw [hob.paged.pid, h.owner.pid]
    rw [wp_bind, wp_get]
    simp only [hroot, hdiv]
    rw [wp_bind, wp_onVm, noteLost, wp_modify]
    -- if the page is swapped out its slot is lost
    have hentry := hob.entry hv hval
    have hob' := hob.noteLost (l := k₁.vm.lost || (lookup k₁.vm.kmem.mem sp.root vpn).has pteSwapped)
      fun hl => (Bool.or_eq_false_iff.mp hl).1
    refine hob'.wp_place hv hn leafPerm_copy hval (fun hl => ?_) (fill 0)
      (fun v₂ hmap harea hlen => ?_) fun k' hr => ?_
    · rw [← hentry]
      exact (Bool.or_eq_false_iff.mp hl).2
    · rw [wp_bind, wp_get, wp_bind, wp_onVm, Kernel.setVm_vm, Kernel.setVm_proc,
        Kernel.setVm_proc, hpid]
      refine wp_imp (frametableAddUncounted_spec hmap.inv (mem_cons_self sp R)
        (hob'.describes hmap hv leafPerm_copy (by decide) (by decide) h.live)
        (hob'.mapped_new hmap) (hob'.mapped_room hmap)) fun _ v₃ hreg => ?_
      have hp : PagedIn sp R held x vpn _ (fill 0) 0 k _ :=
        hob'.pagedIn (f := id) h.owner hv hval hmap leafPerm_copy hreg (counts_id _)
          (by rw [harea]; rfl) (fun s _ => congrFun harea s) hlen fun _ hs => hs.2
      rw [Kernel.setStats_id] at hp
      exact hin hn hval x _ hp hob.calm
    · rw [wp_pure]
      refine hrefused hn ?_ k' hr
      by_contra hne
      have hshort := hr.short
      rw [missing_of_lookup_ne_zero hne] at hshort
      split_ifs at hshort with hmust
      · exact absurd hshort (Nat.not_lt_zero _)
      · exact hmust (Or.inr (Nat.lt_one_iff.mp hshort))

end Xv6
