import Xv6.UserMemory

/-!
# The life of an address space

`proc_pagetable` makes a space out of a free page and maps the two top pages; `proc_freepagetable`
undoes it, after which every table and every frame of the space is back on the free list. In
between the number of pages a space can have mapped is bounded by the memory there is, which is
what keeps `exec` of a huge file away from the top pages.
-/

namespace Xv6

open Ledger Prog Function Multiset

variable {S R : Multiset Space} {sp q : Space} {held : Multiset ℕ} {v : Vm} {x vpn : ℕ}
  {E : String → Prop}

/-! ### The top pages -/

theorem maxVpn_eq : maxVpn = userPages + 2 := by decide

/-- The spaces with the entry `e` at one of the two top pages. -/
theorem VmInv.putTop (h : VmInv (sp ::ₘ R) held v) {k : Kmem} (hstep : TreeStep sp.root v.kmem k)
    {top : ℕ} (htop : top = userPages ∨ top = userPages + 1) {e : Pte} (he : TopOk e)
    (hself : lookup k.mem sp.root top = e)
    (hother : ∀ u < maxVpn, u ≠ top → lookup k.mem sp.root u = lookup v.kmem.mem sp.root u)
    {tframe tramp : Pte} (htf : tframe = if top = userPages then e else sp.tframe)
    (htr : tramp = if top = userPages + 1 then e else sp.tramp) :
    VmInv ({ sp with tframe := tframe, tramp := tramp } ::ₘ R) held (v.setKmem k) ∧
      Keeps (sp ::ₘ R) v (v.setKmem k) ∧ Untouched R held v (v.setKmem k) := by
  have hok := h.spaces sp (mem_cons_self sp R)
  have hsame : ∀ u < userPages, lookup k.mem sp.root u = lookup v.kmem.mem sp.root u :=
    fun u hu => hother u (lt_maxVpn hu) (by omega)
  refine ⟨h.setTop hstep tframe tramp hsame ?_ ?_ ?_ ?_, h.keeps_self hstep hsame,
    h.untouched_tree hstep rfl⟩
  · rw [htf]
    split_ifs with heq
    · exact heq ▸ hself
    · exact (hother _ (by decide) (fun hh => heq hh.symm)).trans hok.tframe
  · rw [htr]
    split_ifs with heq
    · exact heq ▸ hself
    · exact (hother _ (by decide) (fun hh => heq hh.symm)).trans hok.tramp
  · rw [htf]
    split_ifs
    · exact he
    · exact hok.tframeOk
  · rw [htr]
    split_ifs
    · exact he
    · exact hok.trampOk

section Top

variable (h : VmInv (sp ::ₘ R) held v) {top : ℕ} (htop : top = userPages ∨ top = userPages + 1)
  {tframe tramp : Pte}

include h htop

/-- Unmapping one of the two top pages, which does not free it. -/
theorem unmapTop_spec (htf : tframe = if top = userPages then 0#64 else sp.tframe)
    (htr : tramp = if top = userPages + 1 then 0#64 else sp.tramp) :
    wp (uvmunmap sp.root (top * pgsize) 1 false) (fun _ v' =>
      v'.kmem.freelist = v.kmem.freelist ∧
      VmInv ({ sp with tframe := tframe, tramp := tramp } ::ₘ R) held v' ∧
      Keeps (sp ::ₘ R) v v' ∧ Untouched R held v v') E v := by
  have hok := h.spaces sp (mem_cons_self sp R)
  have htop' : top < maxVpn := by
    rw [maxVpn_eq]
    omega
  have htopOk : TopOk (lookup v.kmem.mem sp.root top) := by
    rcases htop with rfl | rfl
    · rw [hok.tframe]; exact hok.tframeOk
    · rw [hok.tramp]; exact hok.trampOk
  -- an entry that is absent already
  have habsent : lookup v.kmem.mem sp.root top = 0#64 → _ := fun h0 =>
    h.putTop (.refl hok.tree) htop (Or.inl rfl) h0 (fun _ _ _ => rfl) htf htr
  rw [Vm.setKmem_self] at habsent
  rw [uvmunmap, if_neg (not_not.mpr (Nat.mul_mod_left top pgsize))]
  simp only [uvmunmapFrom, unmapPage, wp_bind, wp_onKmem]
  refine walk_spec htop' ?_
  cases hl : leafTable v.kmem.mem sp.root (pathOf top) with
  | none =>
    simp only [Option.map_none, wp_pure]
    exact ⟨rfl, habsent (lookup_of_none hl)⟩
  | some t =>
    obtain ⟨hstep, hself, hother⟩ := setLeaf_step hok.tree htop' hl 0#64
    simp only [Option.map_some, wp_bind, wp_onKmem, wp_readPte, Vm.setKmem_self,
      ← lookup_of_some hl]
    generalize he : lookup v.kmem.mem sp.root top = e at htopOk habsent ⊢
    rcases htopOk with rfl | ⟨hval, hread, -⟩
    · simp only [Pte.has_zero, Bool.not_false, if_true, if_false, Bool.false_eq_true, wp_pure]
      exact ⟨trivial, habsent rfl⟩
    · rw [hval, Bool.not_true, if_neg Bool.false_ne_true, if_neg (pteFlags_ne_pteV hread),
        if_neg Bool.false_ne_true, wp_onKmem, wp_writePte]
      exact ⟨rfl, h.putTop hstep htop (Or.inl rfl) hself hother htf htr⟩

/-- Mapping one of the two top pages, to a page that is not part of the space. -/
theorem mapTop_spec (habs : lookup v.kmem.mem sp.root top = 0#64) {pa : ℕ} {perm : Pte}
    (hperm : LeafPerm perm) (htf : tframe = if top = userPages then mkPte pa perm else sp.tframe)
    (htr : tramp = if top = userPages + 1 then mkPte pa perm else sp.tramp) :
    wp (onKmem (mappages sp.root (top * pgsize) pgsize pa perm)) (fun ok v' =>
      Keeps (sp ::ₘ R) v v' ∧ Untouched R held v v' ∧ v'.ftable = v.ftable ∧
      if ok then VmInv ({ sp with tframe := tframe, tramp := tramp } ::ₘ R) held v' ∧
        v.kmem.freelist.length ≤ v'.kmem.freelist.length + 2
      else VmInv (sp ::ₘ R) held v' ∧ v.kmem.freelist.length < 2) E v := by
  have hmiss := missing_le v.kmem.mem sp.root top
  have htop' : top < maxVpn := by
    rw [maxVpn_eq]
    omega
  rw [wp_onKmem, mappages_page]
  refine wp_imp (mapPage_spec (h.treeReady (mem_cons_self sp R)) htop'
    (by rw [habs, Pte.has_zero]) pa perm) ?_
  rintro (_ | _) k ⟨hstep, hother, hr⟩
  · rw [if_neg Bool.false_ne_true] at hr ⊢
    have hlook : ∀ u < maxVpn, lookup k.mem sp.root u = lookup v.kmem.mem sp.root u := by
      intro u hu
      by_cases heq : u = top
      · rw [heq, hr.1]
      · exact hother u hu heq
    exact ⟨h.keeps_self hstep fun u hu => hlook u (lt_maxVpn hu), h.untouched_tree hstep rfl, rfl,
      h.retree hstep hlook, by omega⟩
  · rw [if_pos rfl] at hr ⊢
    obtain ⟨hinv, hkeep, hmem⟩ :=
      h.putTop hstep htop (Or.inr (hperm.resident pa)) hr.1 hother htf htr
    refine ⟨hkeep, hmem, rfl, hinv, ?_⟩
    rw [Vm.setKmem_kmem]
    omega

end Top

/-! ### Freeing -/

/-- `freewalk` puts the tables of a space that maps nothing on the free list. -/
theorem freewalk_tables (h : VmInv (sp ::ₘ R) held v) (htf : sp.tframe = 0#64)
    (htr : sp.tramp = 0#64) (hempty : ∀ u < userPages, lookup v.kmem.mem sp.root u = 0#64) :
    wp (freewalk levels sp.root) (fun _ k => k.sym = v.kmem.sym ∧
      k.refreed = v.kmem.refreed ∧
      (k.freelist : Multiset ℕ) = tables v.kmem.mem sp.root + v.kmem.freelist ∧
      ∀ x, x ∉ tables v.kmem.mem sp.root → k.mem x = v.kmem.mem x) E v.kmem := by
  have hsp : sp ∈ sp ::ₘ R := mem_cons_self sp R
  have hok := h.spaces sp hsp
  have hready := h.treeReady hsp
  have hsub : subtree v.kmem.mem levels sp.root = tables v.kmem.mem sp.root := by
    rw [levels, tables_eq_subtree]
  have hbare : Bare v.kmem.mem levels sp.root := by
    rw [levels]
    refine hok.tree.bare fun u hu => ?_
    rw [maxVpn_eq] at hu
    rcases (by omega : u < userPages ∨ u = userPages ∨ u = userPages + 1) with hlt | rfl | rfl
    · rw [hempty u hlt, Pte.has_zero]
    · rw [hok.tframe, htf, Pte.has_zero]
    · rw [hok.tramp, htr, Pte.has_zero]
  have hnd : (tables v.kmem.mem sp.root + (v.kmem.freelist : Multiset ℕ)).Nodup :=
    nodup_add.mpr ⟨hok.tree.nodup, coe_nodup.mpr h.nodup_free,
      disjoint_right.mpr fun {y} hy => hready.apart y (mem_coe.mp hy)⟩
  have hspec := freewalk_spec (E := E) hbare (by rw [hsub]; exact hnd) fun y hy =>
    h.footprint_managed hsp (VmInv.mem_footprint_of_tables (by rw [← hsub]; exact hy))
  rw [hsub] at hspec
  exact hspec

/-- A space is gone, with all its pages and slots. -/
structure Freed (root : ℕ) (R : Multiset Space) (held : Multiset ℕ) (v v' : Vm) : Prop where
  inv : VmInv R held v'
  keeps : Keeps R v v'
  room : Roomier v v'
  memory : Untouched R held v v'
  slots : SlotsFreed root (fun _ => True) v v'

/-- Unmapping some pages first. -/
theorem Unmapped.freed {P : ℕ → Prop} {v' v'' : Vm} (h : Unmapped sp R held P v v')
    (h' : Freed sp.root R held v' v'') : Freed sp.root R held v v'' where
  inv := h'.inv
  keeps := h.keeps.trans h'.keeps
  room := Nat.le_trans h.room h'.room
  memory := h.memory.trans h'.memory
  slots u _ hu slot hs := by
    by_cases hP : P u
    · exact h'.keeps.slot_unused (h.slots u hP hu slot hs)
    · exact h'.slots u trivial hu slot ((h.rest u hu hP).1.trans hs)

/-- Freeing the tables of a space that maps nothing. -/
theorem freewalk_space (h : VmInv (sp ::ₘ R) held v) (htf : sp.tframe = 0#64)
    (htr : sp.tramp = 0#64) (hempty : ∀ u < userPages, lookup v.kmem.mem sp.root u = 0#64) :
    wp (onKmem (freewalk levels sp.root)) (fun _ v' => Freed sp.root R held v v') E v := by
  rw [wp_onKmem]
  refine wp_imp (freewalk_tables h htf htr hempty) ?_
  rintro - k ⟨hsym, hre, hF, hm⟩
  refine ⟨h.closeSpace hempty hsym hre hF hm, ?_, ?_, ?_, fun u _ hu slot hs => ?_⟩
  · refine .of_agree (fun q hq => h.spaces q (mem_cons_of_mem hq)) hsym fun q hq y hy => ?_
    exact hm y fun hy' => h.footprint_apart hq (VmInv.mem_footprint_of_tables hy') hy
  · have hcard := congrArg Multiset.card hF
    rw [card_add, coe_card, coe_card] at hcard
    rw [Roomier, Vm.setKmem_kmem]
    omega
  · exact h.untouched fun y hy _ => hm y fun ht => hy (VmInv.mem_footprint_of_tables ht)
  · exact absurd (hs.symm.trans (hempty u hu)) (swappedPte_ne_zero slot)

section Free

variable (h : VmInv (sp ::ₘ R) held v) {sz : ℕ} (hsz : sz ≤ trapframeVa)
  (hbeyond : ∀ u, pagesOf sz ≤ u → u < userPages → lookup v.kmem.mem sp.root u = 0#64)
include h hsz hbeyond

/-- **`uvmfree`** of a space whose top pages are unmapped. -/
theorem uvmfree_spec (htf : sp.tframe = 0#64) (htr : sp.tramp = 0#64) :
    wp (uvmfree sp.root sz) (fun _ v' => Freed sp.root R held v v') E v := by
  rw [uvmfree]
  by_cases hpos : 0 < sz
  · have hcount : pgroundup sz / pgsize = pagesOf sz := by
      rw [pgroundup_eq (le_maxva hsz)]
      exact Nat.mul_div_cancel _ (by decide)
    have hunmap := uvmunmap_spec (E := E) h 0 (pagesOf sz)
      (by have := pagesOf_le hsz; omega)
    rw [Nat.zero_mul] at hunmap
    rw [if_pos hpos, hcount]
    refine wp_seq hunmap fun _ v₁ htrim => ?_
    refine wp_imp (freewalk_space htrim.inv htf htr fun u hu => ?_) fun _ v₂ => htrim.freed
    by_cases hlt : u < pagesOf sz
    · exact htrim.absent u hu (by omega)
    · rw [(htrim.rest u hu (by omega)).1]
      exact hbeyond u (by omega) hu
  · rw [if_neg hpos]
    refine freewalk_space h htf htr fun u hu => hbeyond u ?_ hu
    simp only [pagesOf]
    omega

/-- **`proc_freepagetable`**: the space is gone and all its pages are free. -/
theorem procFreepagetable_spec :
    wp (procFreepagetable sp.root sz) (fun _ v' => Freed sp.root R held v v') E v := by
  have htramp : trampolineVa = (userPages + 1) * pgsize := by decide
  have htframe : trapframeVa = userPages * pgsize := by decide
  rw [procFreepagetable, htramp]
  refine wp_seq (unmapTop_spec h (Or.inr rfl) (by rw [if_neg (by omega)]) (by rw [if_pos rfl])) ?_
  rintro - v₁ ⟨hF₁, h₁, hkeep₁, hmem₁⟩
  rw [htframe]
  refine wp_seq (unmapTop_spec h₁ (Or.inl rfl) (by rw [if_pos rfl]) (by rw [if_neg (by omega)])) ?_
  rintro - v₂ ⟨hF₂, h₂, hkeep₂, hmem₂⟩
  have hlook : ∀ u < userPages, lookup v₂.kmem.mem sp.root u = lookup v.kmem.mem sp.root u :=
    fun u hu => (hkeep₂.same _ (mem_cons_self _ _) u hu).1.trans
      (hkeep₁.same _ (mem_cons_self _ _) u hu).1
  refine wp_imp (uvmfree_spec h₂ hsz (fun u hu hu' => ?_) rfl rfl) fun _ v₃ h₃ => ?_
  · rw [hlook u hu']
    exact hbeyond u hu hu'
  · refine ⟨h₃.inv, hkeep₁.tail.trans (hkeep₂.tail.trans h₃.keeps), ?_,
      hmem₁.trans (hmem₂.trans h₃.memory),
      fun u hu hu' slot hs => h₃.slots u hu hu' slot ((hlook u hu').trans hs)⟩
    rw [Roomier, ← hF₁, ← hF₂]
    exact h₃.room

end Free

/-! ### Making -/

/-- The trapframe entry of a space. -/
def tframePte (trapframe : ℕ) : Pte := mkPte trapframe (pteR ||| pteW)

/-- The trampoline entry of a space. -/
def trampPte (sym : Symbols) : Pte := mkPte sym.trampoline (pteR ||| pteX)

theorem wp_uvmcreate (h : VmInv S held v) {Q : Option ℕ → Vm → Prop}
    (hnone : v.kmem.freelist = [] → Q none v)
    (hsome : ∀ x v', VmInv (⟨x, 0, 0, 0#64, 0#64⟩ ::ₘ S) held v' → Keeps S v v' →
      v.kmem.freelist.length = v'.kmem.freelist.length + 1 → v'.ftable = v.ftable →
      Untouched S held v v' → Q (some x) v') :
    wp (onKmem uvmcreate) Q E v := by
  simp only [uvmcreate, wp_bind, wp_onKmem]
  refine wp_imp kalloc_spec ?_
  rintro (_ | x) k hk
  · obtain ⟨hF, rfl⟩ := hk
    exact hnone hF
  · obtain ⟨next, hF, rfl⟩ := hk
    have hset : ((v.kmem.setFree next).setPage x (fill 5)).setPage x (fill 0)
        = (v.kmem.setFree next).setPage x (fill 0) := by
      simp [Kmem.setPage, Function.update_idem]
    simp only [wp_bind, writePage, wp_modify, wp_pure, hset]
    refine hsome x _ ((h.take hF (fill 0)).openSpace ?_ fun _ _ hpos => absurd hpos (lt_irrefl _))
      (h.keeps_take hF (fill 0)) ?_ rfl fun y hy => update_of_ne (fun heq : y = x => ?_) _ _
    · exact Kmem.setPage_mem_self _ _ _
    · rw [hF]
      rfl
    · exact h.owned_notMem_free hy (by simp [hF, heq])

/-- **`proc_pagetable`**: a new space without user pages, or the memory there was is still there. -/
theorem procPagetable_spec (h : VmInv S held v) (trapframe : ℕ) :
    wp (procPagetable trapframe) (fun r v' => Keeps S v v' ∧ Untouched S held v v' ∧
      match r with
      | none => VmInv S held v' ∧ v.kmem.freelist.length < 5
      | some root =>
        VmInv (⟨root, 0, 0, tframePte trapframe, trampPte v.kmem.sym⟩ ::ₘ S) held v' ∧
          v'.ftable = v.ftable ∧ v.kmem.freelist.length ≤ v'.kmem.freelist.length + 5) E v := by
  have htramp : trampolineVa = (userPages + 1) * pgsize := by decide
  have htframe : trapframeVa = userPages * pgsize := by decide
  rw [procPagetable, wp_bind]
  refine wp_uvmcreate h (fun hF => ?_) fun x v₁ h₁ hkeep₁ hlen₁ hft₁ hmem₁ => ?_
  · rw [wp_pure]
    exact ⟨.refl S v, .refl S held v, h, by simp [hF]⟩
  have hsym₁ := hkeep₁.sym
  -- giving up: the empty space is freed again
  have hgiveUp : ∀ {v' : Vm}, VmInv (⟨x, 0, 0, 0#64, 0#64⟩ ::ₘ S) held v' → Keeps S v v' →
      Untouched S held v v' →
      wp (uvmfree x 0) (fun _ v'' => Keeps S v v'' ∧ Untouched S held v v'' ∧ VmInv S held v'')
        E v' := by
    intro v' h' hkeep' hmem'
    refine wp_imp (uvmfree_spec h' (Nat.zero_le _) (fun u _ hu => ?_) rfl rfl) fun _ v'' h'' =>
      ⟨hkeep'.trans h''.keeps, hmem'.trans h''.memory, h''.inv⟩
    exact (h'.spaces _ (mem_cons_self _ _)).beyond u (Nat.zero_le _) hu
  rw [wp_bind, wp_get, htramp, htframe]
  refine wp_seq (mapTop_spec h₁ (Or.inr rfl) (h₁.spaces _ (mem_cons_self _ _)).tramp
    ⟨by decide, by decide, by decide⟩ (by rw [if_neg (by omega)]) (by rw [if_pos rfl])) ?_
  rintro (_ | _) v₂ ⟨hkeep₂, hmem₂, hft₂, h₂⟩
  · rw [if_neg Bool.false_ne_true] at h₂ ⊢
    refine wp_seq (hgiveUp h₂.1 (hkeep₁.trans hkeep₂.tail) (hmem₁.trans hmem₂)) ?_
    rintro - v₃ ⟨hkeep₃, hmem₃, h₃⟩
    exact ⟨hkeep₃, hmem₃, h₃, by omega⟩
  rw [if_pos rfl] at h₂ ⊢
  obtain ⟨h₂, hlen₂⟩ := h₂
  refine wp_seq (mapTop_spec h₂ (Or.inl rfl) (h₂.spaces _ (mem_cons_self _ _)).tframe
    ⟨by decide, by decide, by decide⟩ (by rw [if_pos rfl]) (by rw [if_neg (by omega)])) ?_
  rintro (_ | _) v₃ ⟨hkeep₃, hmem₃, hft₃, h₃⟩ <;>
    have hkeep := hkeep₁.trans (hkeep₂.tail.trans hkeep₃.tail) <;>
    have hmem := hmem₁.trans (hmem₂.trans hmem₃)
  · rw [if_neg Bool.false_ne_true] at h₃ ⊢
    refine wp_seq (unmapTop_spec h₃.1 (Or.inr rfl) (by rw [if_neg (by omega)])
      (by rw [if_pos rfl])) ?_
    rintro - v₄ ⟨-, h₄, hkeep₄, hmem₄⟩
    refine wp_seq (hgiveUp h₄ (hkeep.trans hkeep₄.tail) (hmem.trans hmem₄)) ?_
    rintro - v₅ ⟨hkeep₅, hmem₅, h₅⟩
    exact ⟨hkeep₅, hmem₅, h₅, by omega⟩
  · rw [if_pos rfl] at h₃ ⊢
    obtain ⟨h₃, hlen₃⟩ := h₃
    rw [wp_pure]
    refine ⟨hkeep, hmem, ?_, hft₃.trans (hft₂.trans hft₁), by omega⟩
    rw [trampPte, ← hsym₁]
    exact h₃

/-! ### Clearing the guard page -/

/-- **`uvmclear`** on a resident page of a space that has no process yet. -/
theorem uvmclear_spec (h : VmInv (sp ::ₘ R) held v) (hpid : sp.pid ≤ 0) (hv : vpn < userPages)
    (hval : (lookup v.kmem.mem sp.root vpn).has pteV = true) (hn : vpn < sp.npages) :
    wp (onKmem (uvmclear sp.root (vpn * pgsize))) (fun _ v' =>
      VmInv (sp ::ₘ R) held v' ∧ Keeps R v v' ∧ Untouched R held v v' ∧
      v'.kmem.freelist = v.kmem.freelist ∧
      lookup v'.kmem.mem sp.root vpn = lookup v.kmem.mem sp.root vpn &&& ~~~pteU ∧
      ∀ u < userPages, u ≠ vpn → KeepsAt v v' sp.root u) E v := by
  have hok := h.spaces sp (mem_cons_self sp R)
  rw [wp_onKmem, uvmclear, wp_bind]
  refine walk_spec (lt_maxVpn hv) ?_
  cases hl : leafTable v.kmem.mem sp.root (pathOf vpn) with
  | none =>
    rw [lookup_of_none hl, Pte.has_zero] at hval
    nomatch hval
  | some t =>
    obtain ⟨hstep, hself, hother⟩ := setLeaf_step hok.tree (lt_maxVpn hv) hl
      (lookup v.kmem.mem sp.root vpn &&& ~~~pteU)
    simp only [Option.map_some, wp_bind, wp_readPte, ← lookup_of_some hl, wp_writePte]
    have hV : (lookup v.kmem.mem sp.root vpn &&& ~~~pteU).has pteV = true := by
      rw [Pte.has_clear (by decide)]
      exact hval
    have hres := (hok.leaf vpn hv).resident hval
    have hR : (lookup v.kmem.mem sp.root vpn &&& ~~~pteU).has pteR = true := by
      rw [Pte.has_clear (by decide)]
      exact hres.read
    have hS : (lookup v.kmem.mem sp.root vpn &&& ~~~pteU).has pteSwapped = false := by
      rw [Pte.has_clear (by decide)]
      exact hres.unswapped
    refine ⟨h.setLeaf (a := v.swapArea) hstep hv hother (fun _ => Or.inl rfl) ?_ ?_ (Or.inl hn) ?_
      fun i _ hd => absurd hd.live (not_lt.mpr hpid),
      h.keeps_tree (a := v.swapArea) hstep (fun _ => rfl) fun _ _ => rfl,
      h.untouched_tree hstep rfl, rfl, hself,
      fun u hu hne => h.keepsAt_tree (a := v.swapArea) hstep (fun _ => rfl) hu
        (hother u (lt_maxVpn hu) hne)⟩
    · rintro - slot hs (hunused | hold)
      · rw [hunused] at hs
        nomatch hs
      · rw [hold, Pte.has_swappedPte_pteV] at hval
        nomatch hval
    · rw [hself]
      exact Or.inr (Or.inl ⟨hV, hR, hS⟩)
    · rw [hself, frameOf_valid hV, frameOf_valid hval, pte2pa_clear (by decide)]

/-! ### How many pages can be mapped -/

theorem pageCount_le (sym : Symbols) : pageCount sym ≤ 32768 := by
  have hfirst := firstPage_eq sym
  have hlo : kernbase ≤ sym.kend := sym.kernbase_le_kend
  have hbase : kernbase = 2147483648 := rfl
  have hstop : phystop = 2281701376 := rfl
  simp only [pageCount, pgsize]
  omega

theorem card_physPages (sym : Symbols) : Multiset.card (physPages sym) = pageCount sym := by
  rw [physPages, Multiset.card_map, below_eq_range]
  exact Finset.card_range _

/-- **Mapped pages and free pages are at most the managed pages.** -/
theorem VmInv.mapped_add_free_le (h : VmInv S held v) (hq : q ∈ S) {n : ℕ} (hn : n ≤ userPages)
    (hval : ∀ u < n, (lookup v.kmem.mem q.root u).has pteV = true) :
    n + v.kmem.freelist.length ≤ 32768 := by
  have hframes : n ≤ Multiset.card (frames v.kmem.mem q.root) := by
    rw [frames, Multiset.card_sum]
    calc n = ∑ _u ∈ below n, 1 := by rw [below_eq_range]; simp
      _ = ∑ u ∈ below n, Multiset.card (frameOf (lookup v.kmem.mem q.root u)) :=
        Finset.sum_congr rfl fun u hu => by
          rw [frameOf_valid (hval u (mem_below.mp hu)), card_singleton]
      _ ≤ _ := Finset.sum_le_sum_of_subset fun u hu =>
        mem_below.mpr ((mem_below.mp hu).trans_le hn)
  obtain ⟨R, rfl⟩ := exists_cons_of_mem hq
  have hcard := congrArg Multiset.card h.pages
  rw [map_cons, sum_cons, card_physPages, footprint] at hcard
  simp only [card_add, coe_card] at hcard
  have := pageCount_le v.kmem.sym
  omega

end Xv6
