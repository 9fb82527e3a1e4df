import Mathlib.Data.List.TakeWhile
import Xv6.Copy
import Xv6.FaultSpec

/-!
# Copies between the kernel and user memory

What `copyout`, `copyin` and `copyinstr` do to the paging state. Each iteration of the first two
finds the frame of a page, through `vmfault_alloc` if the page is not resident, and then moves
bytes.
-/

namespace Xv6

open Ledger Prog Multiset

variable {S R : Multiset Space} {sp q : Space} {held : Multiset ℕ} {k k₁ k' k'' : Kernel}
  {v v' : Vm} {x vpn : ℕ} {perm : Pte} {pg : Page} {me : Fin nproc} {E : String → Prop}

/-! ### What faults and copies keep -/

/-- What faults and copies keep: the invariant, everything outside paging, and the books. -/
structure Serviced (S : Multiset Space) (held : Multiset ℕ) (k k' : Kernel) : Prop where
  inv : VmInv S held k'.vm
  paged : Paged k k'
  booked : Booked S k k'
  sym : k'.vm.kmem.sym = k.vm.kmem.sym

theorem Serviced.refl (h : VmInv S held k.vm) : Serviced S held k k :=
  ⟨h, .refl k, .refl S k, rfl⟩

theorem Serviced.trans (h : Serviced S held k k') (h' : Serviced S held k' k'') :
    Serviced S held k k'' :=
  ⟨h'.inv, h.paged.trans h'.paged, h.booked.trans h.paged h'.booked, h'.sym.trans h.sym⟩

theorem PagedIn.serviced {freed : ℕ} (h : PagedIn sp R held x vpn perm pg freed k k') :
    Serviced (sp ::ₘ R) held k k' :=
  ⟨h.inv, h.paged, h.booked, h.sym⟩

theorem Refused.serviced (h : Refused sp R held vpn k k') : Serviced (sp ::ₘ R) held k k' :=
  ⟨h.inv, h.paged, h.booked, h.sym⟩

theorem Faulting.serviced (h : Faulting sp R held me k) (hs : Serviced (sp ::ₘ R) held k k') :
    Faulting sp R held me k' :=
  h.paged hs.paged hs.inv

/-- Code that changes memory outside the page tables. -/
theorem Serviced.ofKmem (h : VmInv S held k.vm) {m : Kmem} (hsym : m.sym = k.vm.kmem.sym)
    (hre : m.refreed = k.vm.kmem.refreed) (hF : m.freelist = k.vm.kmem.freelist)
    (hm : ∀ q ∈ S, ∀ y ∈ tables k.vm.kmem.mem q.root, m.mem y = k.vm.kmem.mem y) :
    Serviced S held k (k.setVm (k.vm.setKmem m)) ∧ SameNotes S k.vm (k.vm.setKmem m) := by
  have hentry : ∀ q ∈ S, ∀ u < userPages, lookup m.mem q.root u = lookup k.vm.kmem.mem q.root u :=
    fun q hq u _ => congrFun (lookup_congr (hm q hq)) u
  exact ⟨⟨h.setKmem hsym (hre.trans h.refreed) (by rw [hF]) hm, Paged.setVm k _,
    Booked.setVm rfl fun q hq => (swapCount_congr (hentry q hq)).le, hsym⟩,
    hsym, fun _ _ => rfl, rfl, fun _ _ => rfl, hentry⟩

theorem Serviced.writeFrame (h : VmInv S held k.vm) (hq : q ∈ S) (hv : vpn < userPages)
    (hval : (lookup k.vm.kmem.mem q.root vpn).has pteV = true) (pg : Page) :
    Serviced S held k (k.setVm (k.vm.setKmem
      (k.vm.kmem.setPage (pte2pa (lookup k.vm.kmem.mem q.root vpn)) pg))) ∧
    SameNotes S k.vm (k.vm.setKmem
      (k.vm.kmem.setPage (pte2pa (lookup k.vm.kmem.mem q.root vpn)) pg)) := by
  refine Serviced.ofKmem h rfl rfl rfl fun p hp => update_agree (fun ht => ?_) pg
  -- the frame belongs to one space, and is no table there
  by_cases hpq : p = q
  · subst hpq
    exact h.frame_notMem_tables hp hv hval ht
  · obtain ⟨R, rfl⟩ := exists_cons_of_mem hq
    have hp' : p ∈ R := (mem_cons.mp hp).resolve_left hpq
    exact h.footprint_apart hp' (VmInv.mem_footprint_of_valid hv hval)
      (VmInv.mem_footprint_of_tables ht)

theorem copyoutMove_spec (h : VmInv S held k.vm) (hq : q ∈ S) (hv : vpn < userPages)
    (hval : (lookup k.vm.kmem.mem q.root vpn).has pteV = true) {off : ℕ} {src : List Byte}
    {Q : Unit → Kernel → Prop} (hQ : ∀ k', Serviced S held k k' → SameNotes S k.vm k'.vm → Q () k') :
    wp (copyoutMove (pte2pa (lookup k.vm.kmem.mem q.root vpn)) off src) Q E k := by
  rw [copyoutMove, wp_onVm, wp_onKmem, wp_modify]
  exact hQ _ (Serviced.writeFrame h hq hv hval _).1 (Serviced.writeFrame h hq hv hval _).2

/-! ### The frame of a page -/

/-- A page number below `MAXVA`, or an address beyond. -/
theorem lt_maxVpn_or (vpn : ℕ) : vpn < maxVpn ∨ maxva ≤ vpn * pgsize := by
  have hmax : maxVpn * pgsize = maxva := by decide
  rcases lt_or_ge vpn maxVpn with h | h
  · exact Or.inl h
  · exact Or.inr (hmax ▸ Nat.mul_le_mul_right pgsize h)

theorem wp_walkaddr_any {root : ℕ} {s : Kmem} {Q : Option ℕ → Kmem → Prop} (hQ : ∀ r, Q r s) :
    wp (walkaddr root (vpn * pgsize)) Q E s := by
  rcases lt_maxVpn_or vpn with hv | hva
  · exact walkaddr_spec hv (hQ _)
  · exact (walkaddr_of_maxva_le hva).mpr (hQ none)

/-- Only pages of the process are accessible to user code. -/
theorem Faulting.of_userPage (h : Faulting sp R held me k) (hv : vpn < maxVpn) {pa : ℕ}
    (hpa : userPage (lookup k.vm.kmem.mem sp.root vpn) = some pa) :
    vpn < sp.npages ∧ (lookup k.vm.kmem.mem sp.root vpn).has pteV = true ∧
      (lookup k.vm.kmem.mem sp.root vpn).has pteU = true ∧
      pte2pa (lookup k.vm.kmem.mem sp.root vpn) = pa := by
  have hok := h.inv.spaces sp (mem_cons_self sp R)
  rw [userPage] at hpa
  split_ifs at hpa with hh
  refine ⟨?_, hh.1, hh.2, Option.some.inj hpa⟩
  by_contra hn
  rcases lt_or_ge vpn userPages with hu | hu
  · have hval := hh.1
    rw [hok.beyond vpn (not_lt.mp hn) hu, Pte.has_zero] at hval
    cases hval
  · have hacc := hh.2
    have hmax : maxVpn = userPages + 2 := by decide
    rw [hmax] at hv
    obtain rfl | rfl : vpn = userPages ∨ vpn = userPages + 1 := by omega
    · rw [hok.tframe, h.top.1] at hacc
      cases hacc
    · rw [hok.tramp, h.top.2] at hacc
      cases hacc

/-- **The frame of a page** for a copy of the kernel. -/
theorem copyFrame_spec (h : Faulting sp R held me k) {Q : Option ℕ → Kernel → Prop}
    (hmapped : vpn < sp.npages → (lookup k.vm.kmem.mem sp.root vpn).has pteV = true →
      (lookup k.vm.kmem.mem sp.root vpn).has pteU = true →
      Q (some (pte2pa (lookup k.vm.kmem.mem sp.root vpn))) k)
    (hnone : (k.proc me).sz ≤ vpn * pgsize ∨
      (lookup k.vm.kmem.mem sp.root vpn).has pteV = true ∧
        (lookup k.vm.kmem.mem sp.root vpn).has pteU = false → Q none k)
    (hQ : AllocPost sp R held vpn k Q E) :
    wp (copyFrame me sp.root (vpn * pgsize)) Q E k := by
  rw [copyFrame, wp_bind, wp_onVm, wp_onKmem]
  rcases lt_maxVpn_or vpn with hv | hva
  · refine walkaddr_spec hv ?_
    cases hpa : userPage (lookup k.vm.kmem.mem sp.root vpn) with
    | some pa =>
      obtain ⟨hn, hval, hacc, rfl⟩ := h.of_userPage hv hpa
      exact hmapped hn hval hacc
    | none =>
      refine vmfaultAlloc_spec h (fun hsz => hnone (Or.inl hsz)) (fun hn hval => ?_) hQ
      refine hnone (Or.inr ⟨hval, ?_⟩)
      by_contra hacc
      rw [Bool.not_eq_false] at hacc
      rw [userPage, if_pos ⟨hval, hacc⟩] at hpa
      exact Option.some_ne_none _ hpa
  · rw [walkaddr_of_maxva_le hva]
    have hsz : (k.proc me).sz ≤ vpn * pgsize :=
      h.bound.trans (le_trans (by decide : trapframeVa ≤ maxva) hva)
    change wp (vmfaultAlloc me sp.root (vpn * pgsize)) Q E k
    rw [vmfaultAlloc, wp_bind, wp_get, if_pos hsz, wp_pure]
    exact hnone (Or.inl hsz)

/-- **A copy that reaches a page that is not resident** brings in zeros if it can. -/
theorem copyFrame_pagedIn (h : Faulting sp R held me k) (hsz : vpn * pgsize < (k.proc me).sz)
    (hval : (lookup k.vm.kmem.mem sp.root vpn).has pteV = false) (hcan : CanPageIn k sp.root vpn)
    {Q : Option ℕ → Kernel → Prop}
    (hin : ∀ x k', PagedIn sp R held x vpn (pteW ||| pteU ||| pteR) (fill 0) 0 k k' →
      (¬k.MustEvict → k'.proc = k.proc) → Q (some x) k') :
    wp (copyFrame me sp.root (vpn * pgsize)) Q E k := by
  have hinvalid : ∀ {P : Prop}, (lookup k.vm.kmem.mem sp.root vpn).has pteV = true → P := by
    intro P hv
    rw [hval] at hv
    nomatch hv
  refine copyFrame_spec h (fun _ hv _ => hinvalid hv) (fun hnone => ?_)
    ⟨fun _ _ hmust _ hslot => ?_, fun _ _ hF hv => ?_, fun _ _ k' hr => ?_, fun _ _ => hin⟩
  · rcases hnone with hle | ⟨hv, -⟩
    · exact absurd hsz (not_lt.mpr hle)
    · exact hinvalid hv
  · exact absurd (hcan.1 hmust).2 (slotsUsed_of_freeSlot hslot)
  · exact absurd hcan (not_canPageIn_of_dry h hF hv vpn)
  · exact absurd hcan.2 (not_le.mpr hr.short)

/-- The frame of a page, as far as the loops below need it. No page is brought in where all are
resident. -/
theorem copyFrame_serviced {B : Prop} (h : Faulting sp R held me k)
    (hE : E "clock_evict: swap full")
    (hB : B → vpn < sp.npages → (lookup k.vm.kmem.mem sp.root vpn).has pteV = true)
    {Q : Option ℕ → Kernel → Prop}
    (hnone : ∀ k', Serviced (sp ::ₘ R) held k k' → (B → k' = k) → Q none k')
    (hsome : ∀ k', Serviced (sp ::ₘ R) held k k' → (B → k' = k) → vpn < sp.npages →
      (lookup k'.vm.kmem.mem sp.root vpn).has pteV = true →
      Q (some (pte2pa (lookup k'.vm.kmem.mem sp.root vpn))) k') :
    wp (copyFrame me sp.root (vpn * pgsize)) Q E k := by
  have hself := Serviced.refl h.inv
  have hno : ∀ k', vpn < sp.npages → (lookup k.vm.kmem.mem sp.root vpn).has pteV = false →
      B → k' = k := fun k' hn hval hb => absurd ((hB hb hn).symm.trans hval) (by decide)
  refine copyFrame_spec h (fun hn hval _ => hsome k hself (fun _ => rfl) hn hval)
    (fun _ => hnone k hself fun _ => rfl) ⟨fun _ _ _ _ _ => hE,
    fun _ _ _ _ => hnone k hself fun _ => rfl, fun hn he k' hr => hnone k' hr.serviced
      (hno k' hn (by rw [he, Pte.has_zero])), fun hn hval x k' hp _ => ?_⟩
  have hframe : pte2pa (lookup k'.vm.kmem.mem sp.root vpn) = x := by
    rw [hp.entry, pte2pa_mkPte hp.addr leafPerm_copy.flags]
  rw [← hframe]
  exact hsome k' hp.serviced (hno k' hn hval) hn (by rw [hp.entry]; exact Pte.has_mkPte_pteV _ _)

/-! ### The loops -/

/-- The check of `copyout` that the page may be written. -/
theorem wp_copyoutCheck {root : ℕ} (hv : vpn < userPages)
    (hval : (lookup k.vm.kmem.mem root vpn).has pteV = true) {A : Prog Kernel Bool}
    {Q : Bool → Kernel → Prop}
    (hQ : if (lookup k.vm.kmem.mem root vpn).has pteW then wp A Q E k else Q false k) :
    wp (do
      match ← onVm (onKmem (walk root (vpn * pgsize) false)) with
      | none => Prog.panic "kerneltrap"
      | some pte => do
        let e ← onVm (onKmem (readPte pte))
        if !e.has pteW then return false else A) Q E k := by
  obtain ⟨t, hl⟩ := exists_leafTable_of_valid hval
  rw [lookup_of_some hl] at hQ
  rw [wp_bind, wp_onVm, wp_onKmem]
  refine walk_spec (lt_maxVpn hv) ?_
  rw [hl, Option.map_some]
  simp only [wp_bind, wp_onVm, wp_onKmem, wp_readPte, Vm.setKmem_self, Kernel.setVm_self]
  cases hw : (entry k.vm.kmem.mem t (slotOf vpn)).has pteW with
  | true =>
    rw [hw, if_pos rfl] at hQ
    exact hQ
  | false =>
    rw [hw, if_neg Bool.false_ne_true] at hQ
    exact hQ

/-- Those of the first `n` pages that meet a range of addresses are resident. -/
def Backed (m : ℕ → Page) (root n va len : ℕ) : Prop :=
  ∀ a, va ≤ a → a < va + len → a / pgsize < n → (lookup m root (a / pgsize)).has pteV = true

/-- What is left of a range after the part on its first page. -/
theorem Backed.next {m m' : ℕ → Page} {root n va len : ℕ} (h : Backed m root n va len)
    (hm : ∀ u < n, lookup m' root u = lookup m root u) :
    Backed m' root n (va / pgsize * pgsize + pgsize)
      (len - min (pgsize - (va - va / pgsize * pgsize)) len) := by
  intro a hlo hhi hn
  rw [hm _ hn]
  simp only [pgsize] at hlo hhi
  exact h a (by omega) (by omega) hn

theorem copyoutFrom_spec (hE : E "clock_evict: swap full") :
    ∀ (fuel dstva : ℕ) (src : List Byte) {k : Kernel}, Faulting sp R held me k →
      wp (copyoutFrom me sp.root fuel dstva src) (fun _ k' => Serviced (sp ::ₘ R) held k k' ∧
        (Backed k.vm.kmem.mem sp.root sp.npages dstva src.length →
          SameNotes (sp ::ₘ R) k.vm k'.vm)) E k := by
  intro fuel
  induction fuel with
  | zero => exact fun dstva src k h => ⟨.refl h.inv, fun _ => .refl _ _⟩
  | succ fuel ih =>
    intro dstva src k h
    have hself := Serviced.refl h.inv
    rw [copyoutFrom]
    dsimp only
    split_ifs with hempty
    · exact ⟨hself, fun _ => .refl _ _⟩
    · exact ⟨hself, fun _ => .refl _ _⟩
    · rw [pgrounddown, wp_bind]
      have hpos : src.length ≠ 0 := fun h0 => hempty (List.isEmpty_iff_length_eq_zero.mpr h0)
      refine copyFrame_serviced h hE (fun hb => hb dstva le_rfl (by omega))
        (fun k' hs hsame => ⟨hs, fun hb => hsame hb ▸ .refl _ _⟩) fun k₁ hs₁ hsame hn hval => ?_
      have h₁ := h.serviced hs₁
      have hv := h₁.user hn
      refine wp_copyoutCheck hv hval ?_
      split_ifs
      · rw [wp_bind]
        refine copyoutMove_spec h₁.inv (mem_cons_self sp R) hv hval fun k₂ hs₂ hn₂ => ?_
        refine wp_imp (ih _ _ (h₁.serviced hs₂)) fun _ k₃ hs₃ =>
          ⟨hs₁.trans (hs₂.trans hs₃.1), fun hb => ?_⟩
        obtain rfl := hsame hb
        refine hn₂.trans (hs₃.2 ?_)
        rw [List.length_drop]
        exact hb.next fun u hu => hn₂.entry sp (mem_cons_self sp R) u (h₁.user hu)
      · exact ⟨hs₁, fun hb => hsame hb ▸ .refl _ _⟩

/-- **`copyout`** to the current process. -/
theorem copyout_spec (h : Faulting sp R held me k) (hE : E "clock_evict: swap full") (dstva : ℕ)
    (src : List Byte) :
    wp (copyout me sp.root dstva src) (fun _ k' => Serviced (sp ::ₘ R) held k k' ∧
      (Backed k.vm.kmem.mem sp.root sp.npages dstva src.length →
        SameNotes (sp ::ₘ R) k.vm k'.vm)) E k :=
  copyoutFrom_spec hE _ _ _ h

/-- A copy within one page that is mapped and writable is one `memmove`. -/
theorem copyout_resident {root dstva : ℕ} {src : List Byte} (hv : dstva / pgsize < userPages)
    (hval : (lookup k.vm.kmem.mem root (dstva / pgsize)).has pteV = true)
    (hU : (lookup k.vm.kmem.mem root (dstva / pgsize)).has pteU = true)
    (hW : (lookup k.vm.kmem.mem root (dstva / pgsize)).has pteW = true)
    (hne : src ≠ []) (hfit : dstva % pgsize + src.length ≤ pgsize) {Q : Bool → Kernel → Prop}
    (hQ : wp (copyoutMove (pte2pa (lookup k.vm.kmem.mem root (dstva / pgsize)))
      (dstva % pgsize) src) (fun _ k' => Q true k') E k) :
    wp (copyout me root dstva src) Q E k := by
  obtain ⟨fuel, hfuel⟩ : ∃ fuel, src.length = fuel + 1 :=
    Nat.exists_eq_succ_of_ne_zero fun h0 => hne (List.length_eq_zero_iff.mp h0)
  have hempty : src.isEmpty = false := by
    rw [List.isEmpty_eq_false_iff]
    exact hne
  have hoff : dstva - dstva / pgsize * pgsize = dstva % pgsize := by
    rw [Nat.mod_eq_sub_mul_div, Nat.mul_comm]
  have hpage : userPage (lookup k.vm.kmem.mem root (dstva / pgsize))
      = some (pte2pa (lookup k.vm.kmem.mem root (dstva / pgsize))) := by
    rw [userPage, if_pos ⟨hval, hU⟩]
  have hmin : min (pgsize - dstva % pgsize) src.length = src.length := by omega
  rw [copyout, hfuel, copyoutFrom]
  dsimp only
  rw [hempty, if_neg Bool.false_ne_true, pgrounddown, if_neg (not_maxva_le (lt_maxVpn hv)),
    wp_bind, copyFrame, wp_bind, wp_onVm, wp_onKmem]
  refine walkaddr_spec (lt_maxVpn hv) ?_
  rw [hpage]
  dsimp only
  rw [wp_pure]
  dsimp only
  simp only [Vm.setKmem_self, Kernel.setVm_self]
  refine wp_copyoutCheck hv hval ?_
  rw [hW, if_pos rfl, hoff, hmin, List.take_length, List.drop_length]
  refine wp_seq hQ fun _ k' hk' => ?_
  -- nothing is left to copy
  cases fuel with
  | zero => exact hk'
  | succ fuel => exact hk'

theorem copyinFrom_spec (hE : E "clock_evict: swap full") :
    ∀ (fuel srcva len : ℕ) {k : Kernel}, Faulting sp R held me k →
      wp (copyinFrom me sp.root fuel srcva len) (fun _ k' => Serviced (sp ::ₘ R) held k k' ∧
        (Backed k.vm.kmem.mem sp.root sp.npages srcva len → k' = k)) E k := by
  intro fuel
  induction fuel with
  | zero => exact fun srcva len k h => ⟨.refl h.inv, fun _ => rfl⟩
  | succ fuel ih =>
    intro srcva len k h
    rw [copyinFrom]
    split_ifs with hlen
    · exact ⟨.refl h.inv, fun _ => rfl⟩
    · rw [pgrounddown, wp_bind]
      refine copyFrame_serviced h hE (fun hb => hb srcva le_rfl (by omega))
        (fun k' hs hsame => ⟨hs, hsame⟩) fun k₁ hs₁ hsame _ _ => ?_
      simp only [copyinMove, wp_bind, wp_get, wp_pure]
      refine wp_imp (ih _ _ (h.serviced hs₁)) fun r k₂ hs₂ => ?_
      have hdone : Serviced (sp ::ₘ R) held k k₂ ∧
          (Backed k.vm.kmem.mem sp.root sp.npages srcva len → k₂ = k) := by
        refine ⟨hs₁.trans hs₂.1, fun hb => ?_⟩
        obtain rfl := hsame hb
        exact hs₂.2 (hb.next fun _ _ => rfl)
      cases r with
      | none => exact hdone
      | some rest => exact hdone

/-- **`copyin`** from the current process. -/
theorem copyin_spec (h : Faulting sp R held me k) (hE : E "clock_evict: swap full")
    (srcva len : ℕ) :
    wp (copyin me sp.root srcva len) (fun _ k' => Serviced (sp ::ₘ R) held k k' ∧
      (Backed k.vm.kmem.mem sp.root sp.npages srcva len → k' = k)) E k :=
  copyinFrom_spec hE _ _ _ h

theorem length_readBytes (pg : Page) (off n : ℕ) : (readBytes pg off n).length = n := by
  rw [readBytes, List.length_map, List.length_range]

theorem length_takeWhile_lt {bytes : List Byte} (h : bytes.contains 0 = true) :
    (bytes.takeWhile (· != 0)).length < bytes.length := by
  refine lt_of_le_of_ne (List.takeWhile_prefix _).length_le fun heq => ?_
  have hall := List.takeWhile_eq_self_iff.mp ((List.takeWhile_prefix _).eq_of_length heq)
  exact absurd (hall 0 (List.contains_iff_mem.mp h)) (by simp)

theorem copyinstrFrom_spec (root : ℕ) :
    ∀ (fuel srcva max : ℕ), wp (copyinstrFrom root fuel srcva max)
      (fun r k' => k' = k ∧ ∀ s, r = some s → s.length < max) E k := by
  intro fuel
  induction fuel with
  | zero => exact fun srcva max => ⟨rfl, fun s hs => nomatch hs⟩
  | succ fuel ih =>
    intro srcva max
    have hnone : ∀ s : List Byte, none = some s → s.length < max :=
      fun s hs => nomatch hs
    rw [copyinstrFrom]
    split_ifs with hmax
    · exact ⟨rfl, hnone⟩
    rw [pgrounddown, wp_bind, wp_onVm, wp_onKmem]
    refine wp_walkaddr_any fun r => ?_
    rw [Vm.setKmem_self, Kernel.setVm_self]
    cases r with
    | none => exact ⟨rfl, hnone⟩
    | some pa0 =>
      obtain ⟨n, hn⟩ : ∃ n, n = min (pgsize - (srcva - srcva / pgsize * pgsize)) max := ⟨_, rfl⟩
      simp only [copyinMove, wp_bind, wp_get, wp_pure, ← hn]
      have hlen := length_readBytes (k.vm.kmem.mem pa0) (srcva - srcva / pgsize * pgsize) n
      generalize readBytes (k.vm.kmem.mem pa0) (srcva - srcva / pgsize * pgsize) n = bytes at hlen ⊢
      have hle : n ≤ max := hn ▸ min_le_right _ _
      split_ifs with hzero
      · refine ⟨rfl, fun s hs => ?_⟩
        have := length_takeWhile_lt hzero
        rw [← Option.some.inj hs]
        omega
      · refine wp_seq (ih _ _) ?_
        rintro (_ | rest) k' ⟨rfl, hrest⟩
        · exact ⟨rfl, hnone⟩
        · refine ⟨rfl, fun s hs => ?_⟩
          have := hrest rest rfl
          rw [← Option.some.inj hs, List.length_append]
          omega

/-- **`copyinstr`** changes nothing, and a string leaves room for its null. -/
theorem copyinstr_spec (root srcva max : ℕ) :
    wp (copyinstr root srcva max)
      (fun r k' => k' = k ∧ ∀ s, r = some s → s.length < max) E k :=
  copyinstrFrom_spec root _ _ _

end Xv6
