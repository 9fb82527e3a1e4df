import Xv6.BootSpec

/-!
# What holds in every reachable state

The consequences of the invariant, in the terms of the code: where each page of physical memory
is, what the frame table and the swapped entries say, where a process has pages, and how its
statistics hang together.
-/

namespace Xv6

open Ledger Prog Multiset

variable {b : Boot} {k k' : Kernel} {pa : ℕ}

/-! ### Where pages are -/

/-- A page of a page table: its root, a middle table, or a table of leaf entries. -/
inductive Node where
  | root
  | middle (i : Fin 512)
  | leaf (p : Fin 512 × Fin 512)
  deriving DecidableEq

/-- The address of a page of a page table. -/
def Node.page (m : ℕ → Page) (pagetable : ℕ) : Node → Option ℕ
  | root => some pagetable
  | middle i => child m pagetable i
  | leaf p => leafTable m pagetable p

/-- Where a page of physical memory can be. -/
inductive Place where
  /-- At a position of the free list. -/
  | free (n : ℕ)
  /-- A page of the page table of a process. -/
  | table (i : Fin nproc) (node : Node)
  /-- Mapped at a user page of a process. -/
  | frame (i : Fin nproc) (vpn : ℕ)
  /-- The trapframe of a process. -/
  | trapframe (i : Fin nproc)
  /-- A pipe that an open file refers to. -/
  | pipe
  /-- Allocated at boot. -/
  | boot
  deriving DecidableEq

/-- The page `pa` is at a place. -/
def Place.Holds (k : Kernel) (pa : ℕ) : Place → Prop
  | free n => k.vm.kmem.freelist[n]? = some pa
  | table i node => ∃ root, (k.proc i).pagetable = some root ∧
      node.page k.vm.kmem.mem root = some pa
  | frame i vpn => vpn < userPages ∧ ∃ root, (k.proc i).pagetable = some root ∧
      (lookup k.vm.kmem.mem root vpn).has pteV = true ∧
      pte2pa (lookup k.vm.kmem.mem root vpn) = pa
  | trapframe i => (k.proc i).trapframe = some pa
  | pipe => ∃ f, (k.file f).type = .pipe ∧ (k.file f).pipe = pa
  | boot => pa ∈ k.bootPages

/-- The kinds of place. -/
inductive Place.Kind where
  | free
  | table
  | frame
  | trapframe
  | pipe
  | boot
  deriving DecidableEq

namespace Place

/-- The kind of a place. -/
def kind : Place → Kind
  | .free _ => .free
  | .table _ _ => .table
  | .frame _ _ => .frame
  | .trapframe _ => .trapframe
  | .pipe => .pipe
  | .boot => .boot

/-- The pages at places of one kind. -/
noncomputable def pages (k : Kernel) : Kind → Multiset ℕ
  | .free => k.vm.kmem.freelist
  | .table => ∑ i ∈ all (Fin nproc), (k.proc i).pagetable.elim 0 (tables k.vm.kmem.mem)
  | .frame => ∑ i ∈ all (Fin nproc), (k.proc i).pagetable.elim 0 (frames k.vm.kmem.mem)
  | .trapframe => trapframes k
  | .pipe => (pipePages k).val
  | .boot => k.bootPages

/-- The kinds, once each. -/
def kinds : Finset Kind := {.free, .table, .frame, .trapframe, .pipe, .boot}

theorem mem_kinds (c : Kind) : c ∈ kinds := by
  cases c <;> decide

/-- The footprints of all spaces are the tables and the frames of all processes. -/
theorem sum_footprint (k : Kernel) :
    ((spaces k).map (footprint k.vm.kmem.mem)).sum = pages k .table + pages k .frame := by
  have hhom : ∀ s : Multiset Space, (s.map (footprint k.vm.kmem.mem)).sum
      = (Multiset.sumAddMonoidHom.comp (Multiset.mapAddMonoidHom (footprint k.vm.kmem.mem))) s :=
    fun _ => rfl
  rw [hhom, spaces, map_sum, pages, pages, ← Finset.sum_add_distrib]
  refine Finset.sum_congr rfl fun i _ => ?_
  rw [← hhom, procSpace]
  cases (k.proc i).pagetable with
  | none => rfl
  | some root =>
    rw [Option.map_some, ofOption_some, Multiset.map_singleton, Multiset.sum_singleton]
    rfl

/-- **The ledger by kinds of place.** -/
theorem sum_pages (h : KInv 0 k) : ∑ c ∈ kinds, pages k c = physPages k.vm.kmem.sym := by
  have hsum : ∑ c ∈ kinds, pages k c = pages k .free + (pages k .table + (pages k .frame
      + (pages k .trapframe + (pages k .pipe + pages k .boot)))) := by
    rw [kinds, Finset.sum_insert (by decide), Finset.sum_insert (by decide),
      Finset.sum_insert (by decide), Finset.sum_insert (by decide), Finset.sum_insert (by decide),
      Finset.sum_singleton]
  rw [hsum, ← h.vm.pages, sum_footprint, zero_add, held]
  change _ + (_ + (_ + (trapframes k + ((pipePages k).val + k.bootPages))))
    = pages k .free + _ + _
  abel

theorem mem_tables_of_node {m : ℕ → Page} {root : ℕ} {node : Node}
    (h : node.page m root = some pa) : pa ∈ tables m root := by
  cases node with
  | root => exact Option.some.inj h ▸ root_mem_tables _ _
  | middle j => exact mem_tables_of_child h
  | leaf q => exact mem_tables_of_leafTable h

theorem Holds.mem_tables {i : Fin nproc} {node : Node} (h : (table i node).Holds k pa) :
    pa ∈ (k.proc i).pagetable.elim 0 (tables k.vm.kmem.mem) := by
  obtain ⟨root, hroot, hpage⟩ := h
  rw [hroot, Option.elim_some]
  exact mem_tables_of_node hpage

theorem Holds.mem_frames {i : Fin nproc} {vpn : ℕ} (h : (frame i vpn).Holds k pa) :
    pa ∈ (k.proc i).pagetable.elim 0 (frames k.vm.kmem.mem) := by
  obtain ⟨hv, root, hroot, hval, rfl⟩ := h
  rw [hroot, Option.elim_some]
  exact mem_frames_of_valid hv hval

/-- What is at a place is among the pages of its kind. -/
theorem Holds.mem {p : Place} (h : p.Holds k pa) : pa ∈ pages k p.kind := by
  cases p with
  | free n => exact mem_coe.mpr (List.mem_of_getElem? h)
  | table i node => exact mem_sum_of_mem (mem_all i) h.mem_tables
  | frame i vpn => exact mem_sum_of_mem (mem_all i) h.mem_frames
  | trapframe i => exact mem_sum_of_mem (mem_all i) (mem_ofOption.mpr h)
  | pipe => exact Finset.mem_val.mpr (mem_pipePages.mpr h)
  | boot => exact h

theorem exists_of_mem {c : Kind} (h : pa ∈ pages k c) : ∃ p : Place, p.Holds k pa := by
  cases c with
  | free =>
    obtain ⟨n, hn⟩ := List.getElem?_of_mem (mem_coe.mp h)
    exact ⟨.free n, hn⟩
  | table =>
    obtain ⟨i, -, hi⟩ := mem_sum.mp h
    cases hroot : (k.proc i).pagetable with
    | none =>
      rw [hroot] at hi
      exact absurd hi (notMem_zero pa)
    | some root =>
      rw [hroot, Option.elim_some, tables] at hi
      rcases mem_add.mp hi with hi | hi
      · rcases mem_add.mp hi with hi | hi
        · exact ⟨.table i .root, root, hroot, by rw [mem_singleton.mp hi]; rfl⟩
        · obtain ⟨j, -, hj⟩ := mem_sum.mp hi
          exact ⟨.table i (.middle j), root, hroot, mem_ofOption.mp hj⟩
      · obtain ⟨q, -, hq⟩ := mem_sum.mp hi
        exact ⟨.table i (.leaf q), root, hroot, mem_ofOption.mp hq⟩
  | frame =>
    obtain ⟨i, -, hi⟩ := mem_sum.mp h
    cases hroot : (k.proc i).pagetable with
    | none =>
      rw [hroot] at hi
      exact absurd hi (notMem_zero pa)
    | some root =>
      rw [hroot, Option.elim_some, frames] at hi
      obtain ⟨vpn, hv, hmem⟩ := mem_sum.mp hi
      cases hval : (lookup k.vm.kmem.mem root vpn).has pteV with
      | false =>
        rw [frameOf_invalid hval] at hmem
        exact absurd hmem (notMem_zero pa)
      | true =>
        rw [frameOf_valid hval] at hmem
        exact ⟨.frame i vpn, mem_below.mp hv, root, hroot, hval,
          (mem_singleton.mp hmem).symm⟩
  | trapframe =>
    obtain ⟨i, -, hi⟩ := mem_sum.mp h
    exact ⟨.trapframe i, mem_ofOption.mp hi⟩
  | pipe => exact ⟨.pipe, mem_pipePages.mp (Finset.mem_val.mp h)⟩
  | boot => exact ⟨.boot, h⟩

theorem node_inj {m : ℕ → Page} {root : ℕ} (h : (tables m root).Nodup) {x y : Node}
    (hx : x.page m root = some pa) (hy : y.page m root = some pa) : x = y := by
  rw [tables] at h
  have hmid : ∀ {i}, child m root i = some pa →
      pa ∈ ∑ i ∈ all (Fin 512), ofOption (child m root i) :=
    fun hi => mem_sum_of_mem (mem_all _) (mem_ofOption.mpr hi)
  have hleaf : ∀ {p}, leafTable m root p = some pa →
      pa ∈ ∑ p ∈ all (Fin 512 × Fin 512), ofOption (leafTable m root p) :=
    fun hp => mem_sum_of_mem (mem_all _) (mem_ofOption.mpr hp)
  have hroot : some root = some pa → pa ∈ ({root} : Multiset ℕ) := fun hr =>
    mem_singleton.mpr (Option.some.inj hr).symm
  have hupper : ∀ {q : Multiset ℕ}, pa ∈ q → pa ∈ ({root} : Multiset ℕ) + q := fun hq =>
    mem_add.mpr (Or.inr hq)
  have hrootUp : some root = some pa →
      pa ∈ ({root} : Multiset ℕ) + ∑ i ∈ all (Fin 512), ofOption (child m root i) := fun hr =>
    mem_add.mpr (Or.inl (hroot hr))
  cases x with
  | root =>
    cases y with
    | root => rfl
    | middle i => exact absurd (hmid hy) (not_mem_of_mem_left (nodup_left h) (hroot hx))
    | leaf p => exact absurd (hleaf hy) (not_mem_of_mem_left h (hrootUp hx))
  | middle i =>
    cases y with
    | root => exact absurd (hmid hx) (not_mem_of_mem_left (nodup_left h) (hroot hy))
    | middle j =>
      rw [eq_of_mem_sum (nodup_right (nodup_left h)) (mem_all i) (mem_all j) (mem_ofOption.mpr hx)
        (mem_ofOption.mpr hy)]
    | leaf p => exact absurd (hleaf hy) (not_mem_of_mem_left h (hupper (hmid hx)))
  | leaf p =>
    cases y with
    | root => exact absurd (hleaf hx) (not_mem_of_mem_left h (hrootUp hy))
    | middle j => exact absurd (hleaf hx) (not_mem_of_mem_left h (hupper (hmid hy)))
    | leaf q =>
      rw [eq_of_mem_sum (nodup_right h) (mem_all p) (mem_all q) (mem_ofOption.mpr hx)
        (mem_ofOption.mpr hy)]

theorem nodup_sum_pages (h : KInv 0 k) : (∑ c ∈ kinds, pages k c).Nodup := by
  rw [sum_pages h]
  exact nodup_physPages _

theorem nodup_pages (h : KInv 0 k) (c : Kind) : (pages k c).Nodup := by
  have hnd := nodup_sum_pages h
  rw [← Finset.add_sum_erase _ _ (mem_kinds c)] at hnd
  exact nodup_left hnd

theorem Holds.inj (h : KInv 0 k) {p q : Place} (hp : p.Holds k pa) (hq : q.Holds k pa)
    (hkind : p.kind = q.kind) : p = q := by
  have hnd := nodup_pages h p.kind
  cases p with
  | free n =>
    cases q with
    | free n' =>
      have hlen : n < k.vm.kmem.freelist.length := (List.getElem?_eq_some_iff.mp hp).1
      rw [(List.getElem?_inj hlen (coe_nodup.mp hnd)).mp (Eq.trans hp hq.symm)]
    | _ => exact Kind.noConfusion hkind
  | table i x =>
    cases q with
    | table j y =>
      obtain rfl := eq_of_mem_sum hnd (mem_all i) (mem_all j) hp.mem_tables hq.mem_tables
      obtain ⟨root, hroot, hx⟩ := hp
      obtain ⟨root', hroot', hy⟩ := hq
      obtain rfl : root = root' := Option.some.inj (hroot.symm.trans hroot')
      have htree := (h.vm.spaces _ (spaceOf_mem hroot)).tree
      rw [node_inj htree.nodup hx hy]
    | _ => exact Kind.noConfusion hkind
  | frame i u =>
    cases q with
    | frame j w =>
      obtain rfl := eq_of_mem_sum hnd (mem_all i) (mem_all j) hp.mem_frames hq.mem_frames
      obtain ⟨hu, root, hroot, huval, hupa⟩ := hp
      obtain ⟨hw, root', hroot', hwval, hwpa⟩ := hq
      obtain rfl : root = root' := Option.some.inj (hroot.symm.trans hroot')
      rw [h.vm.frame_inj (spaceOf_mem hroot) hu hw huval
        hwval (hupa.trans hwpa.symm)]
    | _ => exact Kind.noConfusion hkind
  | trapframe i =>
    cases q with
    | trapframe j =>
      rw [eq_of_mem_sum hnd (mem_all i) (mem_all j) (mem_ofOption.mpr hp) (mem_ofOption.mpr hq)]
    | _ => exact Kind.noConfusion hkind
  | pipe =>
    cases q with
    | pipe => rfl
    | _ => exact Kind.noConfusion hkind
  | boot =>
    cases q with
    | boot => rfl
    | _ => exact Kind.noConfusion hkind

end Place

/-- **Physical memory is partitioned.** `kfree` was never called on a free page, and every page
between the end of the kernel and `PHYSTOP` is in exactly one place. -/
theorem Reachable.page_place (h : Reachable b k) :
    k.vm.kmem.refreed = false ∧
      ∀ pa, pa % pgsize = 0 → pgroundup k.vm.kmem.sym.kend ≤ pa → pa < phystop →
        ∃! p : Place, p.Holds k pa := by
  have hinv := h.ok.inv
  refine ⟨hinv.vm.refreed, fun pa halign hlo hhi => ?_⟩
  have hmem : pa ∈ physPages k.vm.kmem.sym := by
    refine mem_physPages.mpr ⟨halign, ?_, hhi⟩
    have hround := firstPage_eq k.vm.kmem.sym
    rw [firstPage] at hround
    omega
  rw [← Place.sum_pages hinv] at hmem
  obtain ⟨c, -, hc⟩ := mem_sum.mp hmem
  obtain ⟨p, hp⟩ := Place.exists_of_mem hc
  refine ⟨p, hp, fun q hq => ?_⟩
  have hkind := eq_of_mem_sum (Place.nodup_sum_pages hinv) (Place.mem_kinds q.kind)
    (Place.mem_kinds p.kind) hq.mem hp.mem
  exact hq.inj hinv hp hkind

theorem page_place_small : ∃ k, Reachable .small k ∧ k.vm.kmem.refreed = false ∧
    ∀ pa, pa % pgsize = 0 → pgroundup k.vm.kmem.sym.kend ≤ pa → pa < phystop →
      ∃! p : Place, p.Holds k pa := by
  obtain ⟨i, root, k, hrun, -, -⟩ := Boot.small_boots
  exact ⟨k, .boot hrun, Reachable.page_place (.boot hrun)⟩

/-! ### The frame table -/

/-- An entry of the frame table describes a live mapping: it is the only one for its page, and
`find_proc` finds the process that has the page. -/
structure LiveMapping (k : Kernel) (e : FrameEntry) (i : Fin nproc) (root : ℕ) : Prop where
  aligned : e.va % pgsize = 0
  live : (k.proc i).state ≠ .unused
  pid : (k.proc i).pid = e.pid
  unique : ∀ j, (k.proc j).state ≠ .unused → (k.proc j).pid = e.pid → j = i
  found : findProc k e.pid = some i
  pagetable : (k.proc i).pagetable = some root
  below : e.va < trapframeVa
  valid : (lookup k.vm.kmem.mem root (e.va / pgsize)).has pteV = true
  pa : pte2pa (lookup k.vm.kmem.mem root (e.va / pgsize)) = e.pa
  unfree : e.pa ∉ k.vm.kmem.freelist

theorem KInv.liveMapping {extra : Multiset ℕ} (h : KInv extra k) {f : Fin maxFrames}
    (hf : (k.vm.ftable f).used = true) : ∃ i root, LiveMapping k (k.vm.ftable f) i root := by
  obtain ⟨sp, hsp, vpn, hd⟩ := h.vm.entries f hf
  obtain ⟨i, hi⟩ := mem_spaces.mp hsp
  obtain ⟨root, hroot, rfl⟩ := procSpace_eq_some.mp hi
  have hdiv : (k.vm.ftable f).va / pgsize = vpn := by
    rw [hd.va]
    exact Nat.mul_div_cancel vpn (by decide)
  have howner := h.owner hroot
  have hpid : (k.proc i).pid = (k.vm.ftable f).pid := hd.pid.symm
  refine ⟨i, root, ?_, h.in_use hroot, hpid, fun j _ hj => howner.pid_unique j (hj.trans hd.pid),
    ?_, hroot, ?_, ?_, ?_, fun hfree => ?_⟩
  · rw [hd.va]
    exact Nat.mul_mod_left _ _
  · rw [hd.pid]
    exact howner.findProc
  · have hlt : vpn * pgsize < userPages * pgsize :=
      Nat.mul_lt_mul_of_pos_right hd.user (by decide)
    rw [hd.va]
    rwa [userPages_mul_pgsize] at hlt
  · rw [hdiv]
    exact hd.valid
  · rw [hdiv]
    exact hd.pa
  · have hmem := VmInv.mem_footprint_of_valid (v := k.vm) hd.user hd.valid
    rw [hd.pa] at hmem
    exact h.vm.free_notMem_footprint hfree hsp hmem

/-! ### Swapped entries -/

/-- A swapped entry of page `vpn` of a process: it is not valid, and it names a slot that holds
this page of this process. -/
structure OwnsSlot (k : Kernel) (i : Fin nproc) (vpn : ℕ) (e : Pte) : Prop where
  user : vpn < userPages
  invalid : e.has pteV = false
  slot : ∃ slot : Fin maxSwapSlots, pteSwapSlot e = slot ∧ (k.vm.swapArea slot).used = true ∧
    (k.vm.swapArea slot).pid = (k.proc i).pid ∧ (k.vm.swapArea slot).va = vpn * pgsize

theorem TopOk.unswapped {e : Pte} (h : TopOk e) : e.has pteSwapped = false := by
  rcases h with rfl | h
  · exact Pte.has_zero _
  · exact h.unswapped

theorem LeafOk.of_swapped {area : Fin maxSwapSlots → SwapSlot} {pid : ℤ} {vpn : ℕ} {e : Pte}
    (h : LeafOk area pid vpn e) (hs : e.has pteSwapped = true) :
    ∃ slot : Fin maxSwapSlots, e = swappedPte slot := by
  rcases h with rfl | h | ⟨slot, he, -⟩
  · rw [Pte.has_zero] at hs
    nomatch hs
  · rw [h.unswapped] at hs
    nomatch hs
  · exact ⟨slot, he⟩

section Entries

variable {extra : Multiset ℕ} {i : Fin nproc} {root vpn : ℕ} (h : KInv extra k)
  (hroot : (k.proc i).pagetable = some root)
include h hroot

theorem KInv.spaceOk : SpaceOk k.vm (spaceOf k i root) :=
  h.vm.spaces _ (spaceOf_mem hroot)

theorem KInv.user_of_swapped (hv : vpn < maxVpn)
    (hs : (lookup k.vm.kmem.mem root vpn).has pteSwapped = true) :
    vpn < userPages := by
  by_contra hge
  have hok := h.spaceOk hroot
  have hcases : vpn = userPages ∨ vpn = userPages + 1 := by
    rw [maxVpn_eq] at hv
    omega
  rcases hcases with rfl | rfl
  · have htop : lookup k.vm.kmem.mem root userPages = (spaceOf k i root).tframe := hok.tframe
    rw [htop, hok.tframeOk.unswapped] at hs
    nomatch hs
  · have htop : lookup k.vm.kmem.mem root (userPages + 1) = (spaceOf k i root).tramp := hok.tramp
    rw [htop, hok.trampOk.unswapped] at hs
    nomatch hs

theorem KInv.ownsSlot (hv : vpn < maxVpn)
    (hs : (lookup k.vm.kmem.mem root vpn).has pteSwapped = true) :
    OwnsSlot k i vpn (lookup k.vm.kmem.mem root vpn) := by
  have hu := h.user_of_swapped hroot hv hs
  have hleaf := (h.spaceOk hroot).leaf vpn hu
  obtain ⟨slot, he⟩ := hleaf.of_swapped hs
  change lookup k.vm.kmem.mem root vpn = swappedPte slot at he
  obtain ⟨-, hused, hpid, hva⟩ := (he ▸ hleaf : LeafOk k.vm.swapArea _ vpn (swappedPte slot)).owner
  refine ⟨hu, ?_, slot, ?_, hused, hpid, hva⟩
  · rw [he, Pte.has_swappedPte_pteV]
  · rw [he, pteSwapSlot_swappedPte (slot.isLt.trans (by decide))]

/-- A fault on a swapped page fails only when there is no memory at all. -/
theorem KInv.vmfault_swapped {va : ℕ} (hva : va / pgsize < maxVpn)
    (hs : (lookup k.vm.kmem.mem root (va / pgsize)).has pteSwapped = true) :
    wp (vmfault i root va) (fun r k' =>
      if r then logical k'.vm root (va / pgsize) = logical k.vm root (va / pgsize)
      else k' = k ∧ k.freePages = 0 ∧ k.victim = none) (· = "clock_evict: swap full") k := by
  have howns := h.ownsSlot hroot hva hs
  have hne : lookup k.vm.kmem.mem root (va / pgsize) ≠ 0#64 := fun h0 => by
    rw [h0, Pte.has_zero] at hs
    nomatch hs
  have hlt : va / pgsize < pagesOf (k.proc i).sz := by
    by_contra hge
    exact hne ((h.spaceOk hroot).beyond _ (Nat.le_of_not_lt hge) howns.user)
  refine vmfault_spec (h.faulting hroot) (fun hp => ?_) ⟨fun _ _ _ _ => by rfl,
    fun _ hval _ => ?_, fun hrange => ?_, fun _ hfree hvic => ?_,
    fun _ h0 => absurd h0 hne, fun _ _ x k' hp => ?_⟩
  · nomatch howns.invalid.symm.trans hp.1
  · nomatch howns.invalid.symm.trans hval
  · rw [pgrounddown_eq] at hrange
    simp only [pagesOf, pgsize] at hlt
    omega
  · exact ⟨rfl, hfree, hvic⟩
  · exact hp.data

/-! ### The layout of user memory -/

/-- Every entry of a page table other than the two top ones is below the size. -/
theorem KInv.below_size (hv : vpn < maxVpn)
    (hne : lookup k.vm.kmem.mem root vpn ≠ 0#64) :
    vpn * pgsize = trapframeVa ∨ vpn * pgsize = trampolineVa ∨
      vpn * pgsize < pgroundup (k.proc i).sz := by
  by_cases hu : vpn < userPages
  · have hlt : vpn < pagesOf (k.proc i).sz := by
      by_contra hge
      exact hne ((h.spaceOk hroot).beyond vpn (Nat.le_of_not_lt hge) hu)
    rw [pgroundup_eq (le_maxva (h.size i))]
    exact Or.inr (Or.inr (Nat.mul_lt_mul_of_pos_right hlt (by decide)))
  · have hcases : vpn = userPages ∨ vpn = userPages + 1 := by
      rw [maxVpn_eq] at hv
      omega
    rcases hcases with rfl | rfl
    · exact Or.inl userPages_mul_pgsize
    · exact Or.inr (Or.inl (by decide))

/-- Unmapping a process up to its size leaves no entry behind, valid or swapped. -/
theorem KInv.unmap_all :
    wp (uvmunmap root 0 (pgroundup (k.proc i).sz / pgsize) true) (fun _ v =>
      ∀ u < userPages, lookup v.kmem.mem root u = 0#64) (fun _ => False) k.vm := by
  have hvm := h.vm
  rw [spaces_cons hroot] at hvm
  have hpages : pgroundup (k.proc i).sz / pgsize = pagesOf (k.proc i).sz := by
    rw [pgroundup_eq (le_maxva (h.size i))]
    exact Nat.mul_div_cancel _ (by decide)
  have hzero : (0 : ℕ) = 0 * pgsize := (Nat.zero_mul _).symm
  rw [hpages, hzero]
  refine wp_imp (uvmunmap_spec hvm 0 (pagesOf (k.proc i).sz) ?_) ?_
  · rw [Nat.zero_add]
    exact pagesOf_le (h.size i)
  · intro _ v htrim u hu
    by_cases hlt : u < pagesOf (k.proc i).sz
    · exact htrim.absent u hu ⟨Nat.zero_le u, by omega⟩
    · exact (htrim.inv.spaces _ (mem_cons_self _ _)).beyond u (Nat.le_of_not_lt hlt) hu

end Entries

/-- **The layout of user memory.** Sizes stay below the trapframe and entries below the size. So
`sbrk` and `exec` do not panic, `fork` only over its open files, and freeing a process does not
panic and leaves no entry behind. -/
theorem Reachable.layout (h : Reachable b k) (i : Fin nproc) :
    (k.proc i).sz ≤ trapframeVa ∧
    (∀ root vpn, (k.proc i).pagetable = some root → vpn < maxVpn →
      lookup k.vm.kmem.mem root vpn ≠ 0#64 →
      vpn * pgsize = trapframeVa ∨ vpn * pgsize = trampolineVa ∨
        vpn * pgsize < pgroundup (k.proc i).sz) ∧
    (∀ n eager e, (k.proc i).state ≠ .unused → sysSbrk i n eager k ≠ .error e) ∧
    (∀ file argv e, (k.proc i).state ≠ .unused → (∀ s ∈ argv, s.length < pgsize) →
      kexec i file argv k ≠ .error e) ∧
    (∀ e, (k.proc i).state ≠ .unused → k.created + 1 < 2 ^ 31 → kfork i k = .error e →
      e = "filedup") ∧
    (∀ e, freeproc i k ≠ .error e) ∧
    ∀ root, (k.proc i).pagetable = some root →
      wp (uvmunmap root 0 (pgroundup (k.proc i).sz / pgsize) true) (fun _ v =>
        ∀ u < userPages, lookup v.kmem.mem root u = 0#64) (fun _ => False) k.vm := by
  have hok := h.ok
  have hinv := hok.inv
  have hmem : (k.proc i).state ≠ .unused → ∃ root tf, (k.proc i).pagetable = some root ∧
      (k.proc i).trapframe = some tf := fun hi => (⟨hinv, hok.complete, hi⟩ : Calling 0 i k).memory
  refine ⟨hinv.size i, fun root vpn hroot hv hne => hinv.below_size hroot hv hne,
    fun n eager e hi he => ?_, fun file argv e hi hargs he => ?_, fun e hi hlt he => ?_,
    fun e he => ?_, fun root hroot => hinv.unmap_all hroot⟩
  · obtain ⟨root, -, hroot, -⟩ := hmem hi
    have hspec : wp (sysSbrk i n eager) (fun _ _ => True) (fun _ => False) k :=
      sysSbrk_spec hinv hok.complete hroot n eager fun _ _ _ _ _ _ => trivial
    exact wp_error hspec he
  · obtain ⟨root, tf, hroot, htf⟩ := hmem hi
    have hspec : wp (kexec i file argv) (fun _ _ => True) (fun _ => False) k :=
      kexec_spec hinv hroot htf hargs (fun _ _ _ => trivial) fun _ _ _ _ _ => trivial
    exact wp_error hspec he
  · obtain ⟨root, -, hroot, -⟩ := hmem hi
    have hspec : wp (kfork i) (fun _ _ => True) (· = "filedup") k :=
      kfork_spec hinv hlt hroot (by exact fun _ _ _ => rfl) (fun _ _ _ => trivial)
        fun _ _ _ _ _ => trivial
    have hmsg := wp_error hspec he
    exact hmsg
  · have hspec : wp (freeproc i) (fun _ _ => True) (fun _ => False) k :=
      freeproc_spec hinv fun _ _ _ _ _ => trivial
    exact wp_error hspec he

theorem layout_small : ∃ k i root, Reachable .small k ∧ (k.proc i).pagetable = some root ∧
    (k.proc i).sz ≤ trapframeVa ∧ (∀ n eager e, sysSbrk i n eager k ≠ .error e) ∧
    (∀ e, freeproc i k ≠ .error e) ∧
    wp (uvmunmap root 0 (pgroundup (k.proc i).sz / pgsize) true)
      (fun _ v => ∀ u < userPages, lookup v.kmem.mem root u = 0#64) (fun _ => False) k.vm := by
  obtain ⟨i, root, k, hrun, hb, -⟩ := Boot.small_boots
  obtain ⟨hsz, -, hsbrk, -, -, hfree, hunmap⟩ := Reachable.layout (.boot hrun) i
  exact ⟨k, i, root, .boot hrun, hb.pagetable, hsz, fun n eager e => hsbrk n eager e hb.live,
    hfree, hunmap root hb.pagetable⟩

/-! ### The pages of the kernel in user page tables -/

/-- **The two top pages.** Every page table in use has the trampoline and the trapframe of its own
process at the top, and user code can access neither. -/
theorem Reachable.top_pages (h : Reachable b k) {i : Fin nproc} (hi : (k.proc i).state ≠ .unused) :
    ∃ root tf, (k.proc i).pagetable = some root ∧ (k.proc i).trapframe = some tf ∧
      lookup k.vm.kmem.mem root (trapframeVa / pgsize) = mkPte tf (pteR ||| pteW) ∧
      lookup k.vm.kmem.mem root (trampolineVa / pgsize)
        = mkPte k.vm.kmem.sym.trampoline (pteR ||| pteX) ∧
      ∀ va a, trapframeVa ≤ va → permits k.vm root va a = false := by
  have hok := h.ok
  obtain ⟨root, tf, hroot, htf⟩ := (⟨hok.inv, hok.complete, hi⟩ : Calling 0 i k).memory
  have hsp := hok.inv.spaceOk hroot
  have htop : lookup k.vm.kmem.mem root (trapframeVa / pgsize) = mkPte tf (pteR ||| pteW) := by
    have := hsp.tframe
    rwa [spaceOf, htf] at this
  have htramp : lookup k.vm.kmem.mem root (trampolineVa / pgsize)
      = mkPte k.vm.kmem.sym.trampoline (pteR ||| pteX) := hsp.tramp
  refine ⟨root, tf, hroot, htf, htop, htramp, fun va a hva => ?_⟩
  by_cases hmax : va < maxva
  · have hdiv : va / pgsize = trapframeVa / pgsize ∨ va / pgsize = trampolineVa / pgsize := by
      simp only [trapframeVa, trampolineVa, maxva, pgsize] at hva hmax ⊢
      omega
    have hflag : ∀ pa, (mkPte pa (pteR ||| pteW)).has pteU = false ∧
        (mkPte pa (pteR ||| pteX)).has pteU = false := fun pa => by
      simp only [Pte.has_mkPte _ _ (show IsFlags pteU by decide)]
      decide
    rcases hdiv with hdiv | hdiv <;> simp [permits, hdiv, htop, htramp, hflag]
  · simp [permits, hmax]

theorem top_pages_small : ∃ k i root, Reachable .small k ∧ (k.proc i).state ≠ .unused ∧
    (k.proc i).pagetable = some root ∧ permits k.vm root trapframeVa .load = false := by
  obtain ⟨i, _, k, hrun, hb, -⟩ := Boot.small_boots
  obtain ⟨root, -, hroot, -, -, -, hdeny⟩ := Reachable.top_pages (.boot hrun) hb.live
  exact ⟨k, i, root, .boot hrun, hb.live, hroot, hdeny _ _ le_rfl⟩

/-! ### Panics -/

/-- **The panics of the kernel.** Whatever a process asks for, the messages that the kernel may stop
with are known, apart from those of the file system, which is not part of these steps of `exec`,
`exit`, `close` and `open`. The ones of `kfree`, `walk`, `uvmunmap`, `freewalk` and `loadseg` are not
among them. -/
theorem Reachable.panics (h : Reachable b k) {op : Op} (hen : op.Enabled k)
    (hpids : k.created + 1 < 2 ^ 31) {e : String} (hrun : op.run k = .error e) : e ∈ op.panics :=
  wp_error (Op.run_spec h.ok hen fun _ _ => hpids) hrun

theorem panics_small : ∃ k i e, Reachable .small k ∧ (Op.exit i 0).run k = .error e ∧
    e ∈ (Op.exit i 0).panics := by
  obtain ⟨i, _, k, hrun, hb, -⟩ := Boot.small_boots
  have hexit : (Op.exit i 0).run k = .error "init exiting" := by
    change (if k.initproc = some i then (Prog.panic "init exiting" : Prog Kernel Unit) else _) k = _
    rw [if_pos hb.initproc]
    rfl
  have hen : (Op.exit i 0).Enabled k := hb.state
  exact ⟨k, i, _, .boot hrun, hexit,
    Reachable.panics (.boot hrun) hen (by rw [hb.created]; decide) hexit⟩

end Xv6
