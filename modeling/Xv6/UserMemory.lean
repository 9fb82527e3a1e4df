import Xv6.Untouched

/-!
# Building and freeing user memory

Specifications of the functions of `Vm.lean`. Each one keeps the paging invariant, touches one
space, and never panics: the panics of `uvmunmap`, `mappages`, `freewalk` and `kfree` are all
excluded by the invariant.

The failure of an allocation is a result like any other. The specifications say how much memory
was missing when it happened, so that a caller who has enough memory knows that it succeeds.
-/

namespace Xv6

open Ledger Prog Function Multiset

variable {S R : Multiset Space} {sp q : Space} {held : Multiset ℕ} {v : Vm} {x vpn : ℕ}
  {E : String → Prop}

/-! ### Unmapping -/

/-- What unmapping does: the pages of `gone` are absent afterwards and the others are untouched. -/
structure Trimmed (sp : Space) (R : Multiset Space) (held : Multiset ℕ) (gone : ℕ → Prop)
    (v v' : Vm) : Prop where
  inv : VmInv (sp ::ₘ R) held v'
  keeps : Keeps R v v'
  absent : ∀ u < userPages, gone u → lookup v'.kmem.mem sp.root u = 0#64
  rest : ∀ u < userPages, ¬gone u → KeepsAt v v' sp.root u

/-- Memory does not become scarcer. -/
def Roomier (v v' : Vm) : Prop := v.kmem.freelist.length ≤ v'.kmem.freelist.length

/-- What unmapping gives back: the frames and the slots of the pages of `gone`. -/
structure Unmapped (sp : Space) (R : Multiset Space) (held : Multiset ℕ) (gone : ℕ → Prop)
    (v v' : Vm) : Prop extends Trimmed sp R held gone v v' where
  room : Roomier v v'
  memory : Untouched R held v v'
  slots : SlotsFreed sp.root gone v v'

namespace Unmapped

variable {P P' : ℕ → Prop} {v' v'' : Vm}

theorem refl (h : VmInv (sp ::ₘ R) held v)
    (habsent : ∀ u < userPages, P u → lookup v.kmem.mem sp.root u = 0#64) :
    Unmapped sp R held P v v where
  inv := h
  keeps := .refl R v
  absent := habsent
  rest _ _ _ := .refl _ _ _
  room := Nat.le_refl _
  memory := .refl R held v
  slots u hP hu slot hs := absurd (hs.symm.trans (habsent u hu hP)) (swappedPte_ne_zero slot)

theorem trans (h : Unmapped sp R held P v v') (h' : Unmapped sp R held P' v' v'') :
    Unmapped sp R held (fun u => P u ∨ P' u) v v'' where
  inv := h'.inv
  keeps := h.keeps.trans h'.keeps
  absent u hu hgone := by
    by_cases hu' : P' u
    · exact h'.absent u hu hu'
    · exact (h'.rest u hu hu').1.trans (h.absent u hu (hgone.resolve_right hu'))
  rest u hu hgone :=
    (h.rest u hu fun hP => hgone (Or.inl hP)).trans (h'.rest u hu fun hP => hgone (Or.inr hP))
  room := Nat.le_trans h.room h'.room
  memory := h.memory.trans h'.memory
  slots u hgone hu slot hs := by
    by_cases hP : P u
    · exact h'.keeps.slot_unused (h.slots u hP hu slot hs)
    · exact h'.slots u (hgone.resolve_left hP) hu slot ((h.rest u hu hP).1.trans hs)

theorem congr (h : Unmapped sp R held P v v') (hP : ∀ u < userPages, P u ↔ P' u) :
    Unmapped sp R held P' v v' where
  inv := h.inv
  keeps := h.keeps
  absent u hu hgone := h.absent u hu ((hP u hu).mpr hgone)
  rest u hu hgone := h.rest u hu fun hP' => hgone ((hP u hu).mp hP')
  room := h.room
  memory := h.memory
  slots u hgone hu := h.slots u ((hP u hu).mpr hgone) hu

end Unmapped

/-- Freeing a page and writing an entry of another page commute. -/
theorem Kmem.setPte_push (s : Kmem) {p : PtePtr} {pa : ℕ} (hne : p.page ≠ pa) (e : Pte)
    (pg : Page) :
    ((s.setPage pa pg).push pa).setPte p e = ((s.setPte p e).setPage pa pg).push pa := by
  simp only [Kmem.setPte, Kmem.push, Kmem.setPage, update_of_ne hne]
  rw [update_comm hne]
  rfl

/-- Dropping an entry that the statistics do not learn of. -/
theorem tally_dropFrame (v : Vm) {i : Fin maxFrames} (hi : (v.ftable i).used = true) :
    tally ((v.setFrame i .free).noteUncounted (v.ftable i).pid (-1)) = tally v := by
  funext pid
  have hcount := frameCount_setFrame v i .free pid
  rw [hi, Bool.true_and, FrameEntry.free, Bool.false_and, Bool.toNat_false] at hcount
  change (frameCount (v.setFrame i .free) pid : ℤ)
    - update v.uncounted (v.ftable i).pid (v.uncounted (v.ftable i).pid + -1) pid
      = frameCount v pid - v.uncounted pid
  rw [FrameEntry.free]
  by_cases hpid : pid = (v.ftable i).pid
  · subst hpid
    rw [beq_self_eq_true, Bool.toNat_true] at hcount
    rw [update_self]
    omega
  · rw [beq_false_of_ne (Ne.symm hpid), Bool.toNat_false] at hcount
    rw [update_of_ne hpid]
    omega

theorem frametableRemove_spec (h : VmInv S held v) (pa : ℕ) :
    wp (frametableRemove pa) (fun _ v' => VmInv S held v' ∧ v'.kmem = v.kmem ∧
      v'.swapArea = v.swapArea ∧ v'.clockHand = v.clockHand ∧
      (∀ i, (v'.ftable i).used = true → v'.ftable i = v.ftable i) ∧
      (∀ i, (v'.ftable i).used = true → (v'.ftable i).pa ≠ pa) ∧ tally v' = tally v ∧
      v'.lost = v.lost ∧ ∀ pid, (∀ i, (v.ftable i).used = true → (v.ftable i).pa = pa →
        pid ≠ (v.ftable i).pid) → v'.uncounted pid = v.uncounted pid) E v := by
  simp only [frametableRemove, wp_bind, wp_get]
  cases hf : Table.first fun i =>
      (v.ftable i).used && (v.ftable i).pa == pa with
  | none =>
    refine ⟨h, rfl, rfl, rfl, fun _ _ => rfl, fun i hi hpa => ?_, rfl, rfl, fun _ _ => rfl⟩
    have := Table.first_eq_none.mp hf i
    simp [hi, hpa] at this
  | some i =>
    obtain ⟨hi, hpa⟩ : (v.ftable i).used = true ∧ (v.ftable i).pa = pa := by
      simpa using Table.of_first hf
    have hfree : ∀ j, ((v.setFrame i .free).ftable j).used = true →
        j ≠ i ∧ (v.setFrame i .free).ftable j = v.ftable j := by
      intro j hj
      have hne : j ≠ i := by
        rintro rfl
        simp [FrameEntry.free] at hj
      exact ⟨hne, Vm.setFrame_ftable_of_ne v _ hne⟩
    simp only [wp_modify]
    refine ⟨(h.dropFrame i).noteUncounted _ _, rfl, rfl, rfl, fun j hj => (hfree j hj).2,
      fun j hj hpa' => ?_, tally_dropFrame v hi, rfl,
      fun pid hpid => update_of_ne (hpid i hi hpa) _ _⟩
    obtain ⟨hne, heq⟩ := hfree j hj
    rw [Vm.noteUncounted_ftable, heq] at hj hpa'
    exact hne (h.distinct j i hj hi (hpa'.trans hpa.symm))

theorem pteFlags_ne_pteV {e : Pte} (h : e.has pteR = true) : pteFlags e ≠ pteV := by
  intro heq
  have hR := Pte.has_pteFlags e (f := pteR) (by decide)
  rw [heq, h] at hR
  exact absurd hR (by decide)

theorem lt_maxVpn (hv : vpn < userPages) : vpn < maxVpn := by
  have := userPages_lt_maxVpn
  omega

/-- Clearing the entry of a resident page and freeing its frame. -/
theorem Unmapped.ofResident {v' : Vm} (h : VmInv (sp ::ₘ R) held v) (hv : vpn < userPages) {t : ℕ}
    {e : Pte} (hl : leafTable v.kmem.mem sp.root (pathOf vpn) = some t)
    (he : lookup v.kmem.mem sp.root vpn = e) (hval : e.has pteV = true)
    (hnone : ∀ i, (v.ftable i).used = true → (v.ftable i).pa ≠ pte2pa e) (pg : Page)
    (hv' : v' = v.setKmem
      (((v.kmem.setPte ⟨t, slotOf vpn⟩ 0#64).setPage (pte2pa e) pg).push (pte2pa e))) :
    Unmapped sp R held (· = vpn) v v' := by
  have hsp : sp ∈ sp ::ₘ R := mem_cons_self sp R
  have hframe : pte2pa e ∈ footprint v.kmem.mem sp :=
    he ▸ VmInv.mem_footprint_of_valid hv (he ▸ hval)
  have hmem : Untouched R held v v' := h.untouched fun y hy _ => by
    have hyt : y ≠ t := fun heq =>
      hy (VmInv.mem_footprint_of_tables (heq ▸ mem_tables_of_leafTable hl))
    have hyf : y ≠ pte2pa e := fun heq => hy (heq ▸ hframe)
    rw [hv']
    change update (update v.kmem.mem t _) (pte2pa e) pg y = _
    rw [update_of_ne hyf, update_of_ne hyt]
  obtain ⟨v₁, hv₁⟩ : ∃ v₁, v₁ = v.setKmem (v.kmem.setPte ⟨t, slotOf vpn⟩ 0#64) := ⟨_, rfl⟩
  have hlen : Roomier v v' := by
    rw [hv']
    exact Nat.le_succ _
  have hv₁' : v' = v₁.setKmem ((v₁.kmem.setPage (pte2pa e) pg).push (pte2pa e)) := by
    rw [hv', hv₁]
    rfl
  clear hv'
  obtain ⟨h₁, hkeep, hzero, hrest⟩ := h.clearLeaf (a := v.swapArea) hv hl
    (fun _ => Or.inl rfl) (fun _ => rfl) (fun _ _ => rfl) (fun slot hs => by
      rw [← he, hs, Pte.has_swappedPte_pteV] at hval
      nomatch hval)
    (fun i hi hd => hnone i hi (by rw [← hd.pa, he])) hv₁
  rw [he, frameOf_valid hval, singleton_add] at h₁
  have hkeep' := h₁.keeps_give (mem_cons_self _ _) pg
  have hinv := h₁.give pg
  rw [← hv₁'] at hkeep' hinv
  refine ⟨⟨hinv, hkeep.trans hkeep'.tail, ?_, ?_⟩, hlen, hmem, ?_⟩
  · rintro u hu rfl
    exact (hkeep'.same sp hsp u hu).1.trans hzero
  · exact fun u hu hgone => (hrest u hu hgone).trans (hkeep'.same sp hsp u hu)
  · rintro u rfl - slot hs
    rw [← he, hs, Pte.has_swappedPte_pteV] at hval
    nomatch hval

/-- Clearing the entry of a swapped-out page and releasing its slot. -/
theorem Unmapped.ofSwapped {v' : Vm} (h : VmInv (sp ::ₘ R) held v) (hv : vpn < userPages) {t : ℕ}
    {slot : Fin maxSwapSlots} (hl : leafTable v.kmem.mem sp.root (pathOf vpn) = some t)
    (he : lookup v.kmem.mem sp.root vpn = swappedPte slot)
    (hv' : v' = (v.setSlot slot ⟨false, -1, 0, (v.swapArea slot).data⟩).setKmem
      (v.kmem.setPte ⟨t, slotOf vpn⟩ 0#64)) :
    Unmapped sp R held (· = vpn) v v' := by
  have htree := (h.spaces sp (mem_cons_self sp R)).tree
  have hmem : Untouched R held v v' :=
    h.untouched_tree (setLeaf_step htree (lt_maxVpn hv) hl 0#64).1 (by rw [hv']; rfl)
  have hfreed : (v'.swapArea slot).used = false := by
    rw [hv']
    exact congrArg SwapSlot.used (Vm.setSlot_swapArea_self v slot _)
  have hlen : Roomier v v' := by rw [hv']; exact Nat.le_refl _
  have hne : ∀ i, i ≠ slot → (v.setSlot slot ⟨false, -1, 0, (v.swapArea slot).data⟩).swapArea i
      = v.swapArea i := fun i hi => Vm.setSlot_swapArea_of_ne v _ hi
  have harea : ∀ i, i = slot ∨ i ≠ slot := fun i => em _
  obtain ⟨h₁, hkeep, hzero, hrest⟩ := h.clearLeaf hv hl
    (a := (v.setSlot slot ⟨false, -1, 0, (v.swapArea slot).data⟩).swapArea)
    (fun i => (harea i).elim (fun hi => Or.inr (hi ▸ he)) fun hi => Or.inl (hne i hi))
    (fun i => (harea i).elim (fun hi => by rw [hi, Vm.setSlot_swapArea_self])
      fun hi => by rw [hne i hi])
    (fun i hused => (harea i).elim (fun hi => by simp [hi] at hused) fun hi => hne i hi)
    (fun i hi => by rw [swappedPte_inj (hi.symm.trans he), Vm.setSlot_swapArea_self])
    (fun i hi hd => by
      have hval := hd.valid
      rw [he, Pte.has_swappedPte_pteV] at hval
      exact Bool.false_ne_true hval) hv'
  rw [he, frameOf_invalid (Pte.has_swappedPte_pteV _), zero_add] at h₁
  refine ⟨⟨h₁, hkeep, fun u _ hu => hu ▸ hzero, hrest⟩, hlen, hmem, ?_⟩
  rintro u rfl - i hi
  rw [swappedPte_inj (hi.symm.trans he)]
  exact hfreed

/-- **One iteration of `uvmunmap`.** -/
theorem unmapPage_spec (h : VmInv (sp ::ₘ R) held v) (hv : vpn < userPages) :
    wp (unmapPage sp.root (vpn * pgsize) true)
      (fun _ v' => Unmapped sp R held (· = vpn) v v') E v := by
  have hsp : sp ∈ sp ::ₘ R := mem_cons_self sp R
  have hleaf := (h.spaces sp hsp).leaf vpn hv
  simp only [unmapPage, wp_bind, wp_onKmem]
  refine walk_spec (lt_maxVpn hv) ?_
  cases hl : leafTable v.kmem.mem sp.root (pathOf vpn) with
  | none =>
    simp only [Option.map_none, wp_pure]
    refine Unmapped.refl h fun u _ hu => ?_
    rw [hu, lookup_of_none hl]
  | some t =>
    simp only [Option.map_some, wp_bind, wp_onKmem, wp_readPte, Vm.setKmem_self,
      ← lookup_of_some hl]
    generalize he : lookup v.kmem.mem sp.root vpn = e at hleaf ⊢
    rcases hleaf with rfl | ⟨hval, hread, -⟩ | ⟨slot, rfl, -, -, -, -⟩
    · simp only [Pte.has_zero, Bool.not_false, if_true, if_false, Bool.false_eq_true,
        wp_pure]
      exact Unmapped.refl h fun u _ hu => by rw [hu, he]
    · -- the entry could as well be cleared before the frame is freed
      have hval' : (lookup v.kmem.mem sp.root vpn).has pteV = true := by rw [he]; exact hval
      have hframe := h.frame_notMem_tables hsp hv hval'
      have hmanaged := h.footprint_managed hsp (VmInv.mem_footprint_of_valid hv hval')
      rw [he] at hframe hmanaged
      have hne : t ≠ pte2pa e := by
        rintro rfl
        exact hframe (mem_tables_of_leafTable hl)
      rw [hval, Bool.not_true, if_neg Bool.false_ne_true, if_neg (pteFlags_ne_pteV hread),
        if_pos trivial, wp_bind]
      refine wp_imp (frametableRemove_spec h _) ?_
      rintro - v₁ ⟨h₁, hk, ha, hhand, hframes, hnone, htally, hlost, hnoted⟩
      have hkeep : Keeps R v v₁ := by
        refine ⟨by rw [hk], hhand, hframes, fun i _ => by rw [ha],
          fun q _ u _ => .of_eq hk ha q.root u, htally, hlost, fun q hq => hnoted _ ?_⟩
        -- a frame of this space is no frame of another
        intro i hi hpa hpid
        obtain ⟨sp', hsp', u, hd⟩ := h.entries i hi
        obtain rfl := h.pids sp' hsp' q (mem_cons_of_mem hq) hd.live (hd.pid.symm.trans hpid.symm)
        refine h.footprint_apart hq (VmInv.mem_footprint_of_valid hv hval') ?_
        rw [he, ← hpa, ← hd.pa]
        exact VmInv.mem_footprint_of_valid hd.user hd.valid
      rw [wp_bind, wp_onKmem]
      refine wp_imp (kfree_spec (by rw [hk]; exact hmanaged)) ?_
      rintro - k rfl
      rw [wp_onKmem, wp_writePte, Vm.setKmem_kmem,
        Kmem.setPte_push v₁.kmem (p := ⟨t, slotOf vpn⟩) hne, Vm.setKmem_setKmem]
      have htrim := Unmapped.ofResident h₁ hv (by rw [hk]; exact hl) (by rw [hk]; exact he) hval
        hnone (fill 1) rfl
      refine ⟨⟨htrim.inv, hkeep.trans htrim.keeps, htrim.absent, fun u hu hgone => ?_⟩, ?_, ?_, ?_⟩
      · exact (KeepsAt.of_eq hk ha sp.root u).trans (htrim.rest u hu hgone)
      · rw [Roomier, ← hk]
        exact htrim.room
      · have hmem₁ : Untouched R held v v₁ := fun y _ => by rw [hk]
        exact hmem₁.trans htrim.memory
      · exact fun u hgone hu slot hs => htrim.slots u hgone hu slot (by rw [hk]; exact hs)
    · have hslot : pteSwapSlot (swappedPte slot) = slot :=
        pteSwapSlot_swappedPte (slot.isLt.trans (by decide))
      simp only [Pte.has_swappedPte_pteV, Pte.has_swappedPte_pteSwapped, Bool.not_false, if_true,
        wp_bind, hslot, swapFree, slot.isLt, dif_pos, wp_modify, wp_onKmem, wp_writePte,
        Vm.setSlot_kmem]
      exact Unmapped.ofSwapped h hv hl he rfl

/-- **The loop of `uvmunmap`.** -/
theorem uvmunmapFrom_spec : ∀ (n lo : ℕ) {v : Vm}, VmInv (sp ::ₘ R) held v → lo + n ≤ userPages →
    wp (uvmunmapFrom sp.root true (lo * pgsize) n)
      (fun _ v' => Unmapped sp R held (fun u => lo ≤ u ∧ u < lo + n) v v') E v := by
  intro n
  induction n with
  | zero =>
    intro lo v h _
    rw [uvmunmapFrom, wp_pure]
    exact Unmapped.refl h fun u _ hu => by omega
  | succ n ih =>
    intro lo v h hlo
    rw [uvmunmapFrom]
    refine wp_seq (unmapPage_spec h (by omega)) ?_
    intro _ v₁ h₁
    rw [← Nat.succ_mul]
    exact wp_imp (ih (lo + 1) h₁.inv (by omega)) fun _ v₂ h₂ =>
      (h₁.trans h₂).congr fun u _ => by omega

theorem uvmunmap_spec (h : VmInv (sp ::ₘ R) held v) (lo n : ℕ) (hn : lo + n ≤ userPages) :
    wp (uvmunmap sp.root (lo * pgsize) n true)
      (fun _ v' => Unmapped sp R held (fun u => lo ≤ u ∧ u < lo + n) v v') E v := by
  rw [uvmunmap, if_neg (not_not.mpr (Nat.mul_mod_left lo pgsize))]
  exact uvmunmapFrom_spec n lo h hn

theorem userPages_mul_pgsize : userPages * pgsize = trapframeVa := by decide

/-- A size below the trapframe covers user pages only. -/
theorem pagesOf_le {sz : ℕ} (h : sz ≤ trapframeVa) : pagesOf sz ≤ userPages := by
  rw [← userPages_mul_pgsize] at h
  have := pagesOf_mul userPages
  simp only [pagesOf] at this ⊢
  omega

theorem le_maxva {sz : ℕ} (h : sz ≤ trapframeVa) : sz ≤ maxva := h.trans (by decide)

/-- **`uvmdealloc`** unmaps the pages between the two sizes. -/
theorem uvmdealloc_spec (h : VmInv (sp ::ₘ R) held v) {oldsz newsz : ℕ} (hold : oldsz ≤ trapframeVa) :
    wp (uvmdealloc sp.root oldsz newsz) (fun r v' => r = min oldsz newsz ∧
      Unmapped sp R held (fun u => pagesOf newsz ≤ u ∧ u < pagesOf oldsz) v v') E v := by
  rw [uvmdealloc]
  by_cases hle : oldsz ≤ newsz
  · rw [if_pos hle, wp_pure]
    refine ⟨(min_eq_left hle).symm, Unmapped.refl h fun u _ hu => ?_⟩
    simp only [pagesOf] at hu
    omega
  · have hnew : newsz ≤ oldsz := (not_le.mp hle).le
    have hmin : newsz = min oldsz newsz := (min_eq_right hnew).symm
    rw [if_neg hle, pgroundup_eq (le_maxva hold), pgroundup_eq (le_maxva (hnew.trans hold))]
    by_cases hlt : pagesOf newsz * pgsize < pagesOf oldsz * pgsize
    · have hlt' : pagesOf newsz < pagesOf oldsz := Nat.lt_of_mul_lt_mul_right hlt
      have hcount : (pagesOf oldsz * pgsize - pagesOf newsz * pgsize) / pgsize
          = pagesOf oldsz - pagesOf newsz := by
        rw [← Nat.sub_mul]
        exact Nat.mul_div_cancel _ (by decide)
      have hbound := pagesOf_le hold
      rw [if_pos hlt, hcount]
      refine wp_seq (uvmunmap_spec h _ _ (by omega)) ?_
      exact fun _ v' htrim => ⟨hmin, htrim.congr fun u _ => by omega⟩
    · rw [if_neg hlt, wp_pure]
      refine ⟨hmin, Unmapped.refl h fun u _ hu => ?_⟩
      exact absurd (Nat.mul_lt_mul_of_pos_right (hu.1.trans_lt hu.2) (by decide)) hlt

/-! ### Mapping a page in hand -/

/-- The page-table pages that mapping a page would need are the same. -/
def SameTables (S : Multiset Space) (v v' : Vm) : Prop :=
  ∀ q ∈ S, ∀ u, missing v'.kmem.mem q.root u = missing v.kmem.mem q.root u

theorem wp_kalloc (h : VmInv S held v) {Q : Option ℕ → Vm → Prop}
    (hnone : v.kmem.freelist = [] → Q none v)
    (hsome : ∀ x v', VmInv S (x ::ₘ held) v' → Keeps S v v' → x ∈ v.kmem.freelist →
      v.kmem.freelist.length = v'.kmem.freelist.length + 1 → v'.ftable = v.ftable →
      v'.swapArea = v.swapArea → SameTables S v v' → Untouched S held v v' → Q (some x) v') :
    wp (onKmem kalloc) Q E v := by
  rw [wp_onKmem]
  refine wp_imp kalloc_spec ?_
  rintro (_ | x) k hk
  · obtain ⟨hF, rfl⟩ := hk
    exact hnone hF
  · obtain ⟨next, hF, rfl⟩ := hk
    have hx : x ∈ v.kmem.freelist := by simp [hF]
    exact hsome x _ (h.take hF _) (h.keeps_take hF _) hx (by simp [hF]) rfl rfl
      (fun q hq u => missing_congr (update_agree (h.notMem_tables (Or.inl hx) hq) _) u)
      fun y hy => update_of_ne (fun heq : y = x => h.owned_notMem_free hy (heq ▸ hx)) _ _

theorem wp_kfree (h : VmInv S (x ::ₘ held) v) {Q : Unit → Vm → Prop}
    (hQ : ∀ v', VmInv S held v' → Keeps S v v' →
      v'.kmem.freelist.length = v.kmem.freelist.length + 1 → v'.ftable = v.ftable →
      v'.swapArea = v.swapArea → SameTables S v v' → Untouched S held v v' → Q () v') :
    wp (onKmem (kfree x)) Q E v := by
  have hx : x ∈ x ::ₘ held := mem_cons_self x held
  rw [wp_onKmem]
  refine wp_imp (kfree_spec (h.held_managed hx)) ?_
  intro _ k hk
  rw [hk]
  exact hQ _ (h.give _) (h.keeps_give hx _) rfl rfl rfl
    (fun q hq u => missing_congr (update_agree (h.notMem_tables (Or.inr hx) hq) _) u)
    (h.untouched_hand _ rfl)

/-- What mapping the page `x` at `vpn` does; `pg` is what the page contains afterwards. -/
structure Mapped (sp : Space) (R : Multiset Space) (held : Multiset ℕ) (x vpn : ℕ) (perm : Pte)
    (pg : Page) (v v' : Vm) : Prop where
  inv : VmInv (sp ::ₘ R) held v'
  keeps : Keeps R v v'
  entry : lookup v'.kmem.mem sp.root vpn = mkPte x perm
  data : logical v' sp.root vpn = pg
  rest : ∀ u < userPages, u ≠ vpn → KeepsAt v v' sp.root u
  ftable : v'.ftable = v.ftable

/-- Permissions of a leaf entry: flags that include reading and do not mark the page as swapped
out. -/
structure LeafPerm (perm : Pte) : Prop where
  flags : IsFlags perm
  read : perm.has pteR = true
  unswapped : perm.has pteSwapped = false

theorem LeafPerm.resident {perm : Pte} (h : LeafPerm perm) (pa : ℕ) : Resident (mkPte pa perm) where
  valid := Pte.has_mkPte_pteV pa perm
  read := by rw [Pte.has_mkPte pa perm (by decide), h.read, Bool.true_or]
  unswapped := by
    rw [Pte.has_mkPte pa perm (by decide), h.unswapped]
    decide

theorem Resident.leafPerm {e : Pte} (h : Resident e) : LeafPerm (pteFlags e) where
  flags := isFlags_pteFlags e
  read := by
    rw [Pte.has_pteFlags _ (by decide)]
    exact h.read
  unswapped := by
    rw [Pte.has_pteFlags _ (by decide)]
    exact h.unswapped

section MapPages

variable (h : VmInv (sp ::ₘ R) (x ::ₘ held) v) (hv : vpn < userPages) (hn : vpn < sp.npages)
  {perm : Pte} (hperm : LeafPerm perm)

include h hv hn hperm

/-- **`mappages` of a page in hand** at a page that is not resident. The slot of the page may have
been released already. -/
theorem mappages_spec {e : Pte} (he : lookup v.kmem.mem sp.root vpn = e)
    (hval : e.has pteV = false) {a : Fin maxSwapSlots → SwapSlot}
    (harea : ∀ slot : Fin maxSwapSlots, a slot = v.swapArea slot ∨ e = swappedPte slot)
    (hdata : ∀ slot, (a slot).data = (v.swapArea slot).data)
    (hused : ∀ slot, (a slot).used = true → a slot = v.swapArea slot)
    (hrel : v.lost = false → ∀ slot : Fin maxSwapSlots, e = swappedPte slot →
      (a slot).used = false) :
    wp (mappages sp.root (vpn * pgsize) pgsize x perm) (fun ok k =>
      Untouched R (x ::ₘ held) v (v.setKmem k) ∧
      if ok then Mapped sp R held x vpn perm (v.kmem.mem x) v
          { v with kmem := k, swapArea := a } ∧
        v.kmem.freelist.length = k.freelist.length + missing v.kmem.mem sp.root vpn
      else VmInv (sp ::ₘ R) (x ::ₘ held) (v.setKmem k) ∧ Keeps (sp ::ₘ R) v (v.setKmem k) ∧
        k.freelist = [] ∧ v.kmem.freelist.length < missing v.kmem.mem sp.root vpn)
      E v.kmem := by
  have hsp : sp ∈ sp ::ₘ R := mem_cons_self sp R
  have hx : x ∈ x ::ₘ held := mem_cons_self x held
  have hpa : PageAddr x := pageAddr_of_mem (h.held_managed hx)
  have hready := h.treeReady hsp
  rw [mappages_page]
  refine wp_imp (mapPage_spec hready (lt_maxVpn hv) (he ▸ hval) x perm) ?_
  rintro (_ | _) k ⟨hstep, hother, hr⟩ <;> refine ⟨h.untouched_tree hstep rfl, ?_⟩
  · obtain ⟨hsame, hlen, hnil⟩ := hr
    have hlook : ∀ u < maxVpn, lookup k.mem sp.root u = lookup v.kmem.mem sp.root u := by
      intro u hu
      by_cases huv : u = vpn
      · rw [huv, hsame]
      · exact hother u hu huv
    exact ⟨h.retree hstep hlook, h.keeps_self hstep fun u hu => hlook u (lt_maxVpn hu), hnil, hlen⟩
  · obtain ⟨hself, hlen⟩ := hr
    have hmk : (mkPte x perm).has pteV = true := Pte.has_mkPte_pteV x perm
    have hframe : k.mem x = v.kmem.mem x :=
      hstep.frame x (h.notMem_tables (Or.inr hx) hsp) (h.held_notMem_free hx)
    refine ⟨⟨h.setLeaf hstep hv hother (fun slot => he ▸ (harea slot).imp_right Or.inr) ?_ ?_
      (Or.inl hn) ?_ ?_, h.keeps_tree hstep hdata hused, hself, ?_, ?_, rfl⟩, hlen⟩
    · rintro hlost slot hs (hunused | hold)
      · rw [hused slot hs, hunused] at hs
        nomatch hs
      · rw [hrel hlost slot (he.symm.trans hold)] at hs
        nomatch hs
    · rw [hself]
      exact Or.inr (Or.inl (hperm.resident x))
    · rw [hself, he, frameOf_valid hmk, frameOf_invalid hval, pte2pa_mkPte hpa hperm.flags, add_zero,
        add_comm, singleton_add]
    · intro i _ hd
      have := hd.valid
      rw [he, hval] at this
      nomatch this
    · change contents _ (lookup k.mem sp.root vpn) = v.kmem.mem x
      rw [hself, contents_valid hmk, pte2pa_mkPte hpa hperm.flags]
      exact hframe
    · exact fun u hu hne => h.keepsAt_tree hstep hdata hu (hother u (lt_maxVpn hu) hne)

/-- **Filling and mapping a page in hand**, the way every caller does it: if the page cannot be
mapped it is freed. -/
theorem placePage_spec (habs : (lookup v.kmem.mem sp.root vpn).has pteV = false)
    (hlost : v.lost = false → (lookup v.kmem.mem sp.root vpn).has pteSwapped = false) (pg : Page)
    {A B : Vm → Prop}
    (hok : ∀ v', Mapped sp R held x vpn perm pg v v' → v'.swapArea = v.swapArea →
      v.kmem.freelist.length = v'.kmem.freelist.length + missing v.kmem.mem sp.root vpn →
      Untouched R held v v' → A v')
    (hfail : ∀ v', VmInv (sp ::ₘ R) held v' → Keeps (sp ::ₘ R) v v' → v'.ftable = v.ftable →
      v'.swapArea = v.swapArea → v'.kmem.freelist.length = 1 →
      v.kmem.freelist.length < missing v.kmem.mem sp.root vpn → Untouched R held v v' → B v') :
    wp (onKmem (writePage x pg)) (fun _ v₁ =>
      wp (onKmem (mappages sp.root (vpn * pgsize) pgsize x perm)) (fun ok v₂ =>
        if ok then A v₂ else wp (onKmem (kfree x)) (fun _ v₃ => B v₃) E v₂) E v₁) E v := by
  have hsp : sp ∈ sp ::ₘ R := mem_cons_self sp R
  have hx : x ∈ x ::ₘ held := mem_cons_self x held
  rw [wp_onKmem, writePage, wp_modify]
  obtain ⟨v₁, hv₁⟩ : ∃ v₁, v₁ = v.setKmem (v.kmem.setPage x pg) := ⟨_, rfl⟩
  have h₁ := h.write hx pg
  have hkeep₁ := h.keeps_write hx pg
  have hmem₁ : Untouched R held v v₁ := (h.untouched_hand pg (by rw [hv₁]; rfl)).tail
  have hpg : v₁.kmem.mem x = pg := by rw [hv₁]; exact Kmem.setPage_mem_self _ _ _
  have hmiss : missing v₁.kmem.mem sp.root vpn = missing v.kmem.mem sp.root vpn := by
    rw [hv₁]
    exact missing_congr (update_agree (h.notMem_tables (Or.inr hx) hsp) pg) vpn
  have hF : v₁.kmem.freelist = v.kmem.freelist := by rw [hv₁]; rfl
  have hft : v₁.ftable = v.ftable := by rw [hv₁]; rfl
  have harea : v₁.swapArea = v.swapArea := by rw [hv₁]; rfl
  have hlost₁ : v₁.lost = v.lost := by rw [hv₁]; rfl
  rw [← hv₁] at h₁ hkeep₁ ⊢
  clear hv₁
  have hlook := (hkeep₁.same sp hsp vpn hv).1
  rw [wp_onKmem]
  have hrel : v₁.lost = false → ∀ slot : Fin maxSwapSlots,
      lookup v.kmem.mem sp.root vpn = swappedPte slot → (v₁.swapArea slot).used = false := by
    intro hl slot hs
    have hsw := hlost (hlost₁ ▸ hl)
    rw [hs, Pte.has_swappedPte_pteSwapped] at hsw
    cases hsw.symm
  refine wp_imp (mappages_spec h₁ hv hn hperm hlook habs (a := v₁.swapArea)
    (fun _ => Or.inl rfl) (fun _ => rfl) (fun _ _ => rfl) hrel) ?_
  rintro (_ | _) k ⟨hmem₂, hr⟩
  · rw [if_neg Bool.false_ne_true, hmiss, hF] at hr
    obtain ⟨h₂, hkeep₂, hnil, hshort⟩ := hr
    rw [if_neg Bool.false_ne_true]
    refine wp_kfree h₂ fun v₃ h₃ hkeep₃ hlen₃ hft₃ harea₃ _ hmem₃ => ?_
    refine hfail v₃ h₃ (hkeep₁.trans (hkeep₂.trans hkeep₃)) (hft₃.trans hft)
      (harea₃.trans harea) ?_ hshort (hmem₁.trans (hmem₂.rest.trans hmem₃.tail))
    rw [hlen₃, Vm.setKmem_kmem, hnil, List.length_nil]
  · rw [if_pos rfl, hpg, hmiss, hF] at hr
    obtain ⟨hmap, hlen⟩ := hr
    rw [if_pos rfl]
    refine hok _ ⟨hmap.inv, hkeep₁.tail.trans hmap.keeps, hmap.entry, hmap.data, ?_, hft⟩ harea hlen
      (hmem₁.trans hmem₂.rest)
    exact fun u hu hne => (hkeep₁.same sp hsp u hu).trans (hmap.rest u hu hne)

/-- The rule for a program that fills and maps a page. -/
theorem wp_placePage {α : Type} (habs : lookup v.kmem.mem sp.root vpn = 0#64) (pg : Page)
    {A B : Prog Vm α} {Q : α → Vm → Prop}
    (hok : ∀ v', Mapped sp R held x vpn perm pg v v' → v'.swapArea = v.swapArea →
      v.kmem.freelist.length = v'.kmem.freelist.length + missing v.kmem.mem sp.root vpn →
      Untouched R held v v' → wp A Q E v')
    (hfail : ∀ v', VmInv (sp ::ₘ R) held v' → Keeps (sp ::ₘ R) v v' → v'.ftable = v.ftable →
      v'.swapArea = v.swapArea → v'.kmem.freelist.length = 1 →
      v.kmem.freelist.length < missing v.kmem.mem sp.root vpn → Untouched R held v v' →
      wp B Q E v') :
    wp (do
      onKmem (writePage x pg)
      if ← onKmem (mappages sp.root (vpn * pgsize) pgsize x perm) then A
      else do
        onKmem (kfree x)
        B) Q E v := by
  refine wp_seq (placePage_spec h hv hn hperm (by rw [habs, Pte.has_zero])
    (fun _ => by rw [habs, Pte.has_zero]) pg hok hfail) fun _ v₁ hr => ?_
  refine wp_seq hr ?_
  rintro (_ | _) v₂ hr'
  · rw [if_neg Bool.false_ne_true] at hr' ⊢
    rw [wp_bind]
    exact hr'
  · rw [if_pos rfl] at hr' ⊢
    exact hr'

end MapPages

/-! ### Growing -/

/-- What growing does: the pages from `lo` to `hi` are mapped with `perm` and zero. -/
structure Grown (sp : Space) (R : Multiset Space) (held : Multiset ℕ) (perm : Pte) (lo hi : ℕ)
    (v v' : Vm) : Prop where
  inv : VmInv (sp ::ₘ R) held v'
  keeps : Keeps R v v'
  mapped : ∀ u, lo ≤ u → u < hi → ∃ x, PageAddr x ∧ lookup v'.kmem.mem sp.root u = mkPte x perm
  zero : ∀ u, lo ≤ u → u < hi → logical v' sp.root u = fill 0
  rest : ∀ u < userPages, ¬(lo ≤ u ∧ u < hi) → KeepsAt v v' sp.root u

/-- Going back from page `c`, when the pages from there on are absent. -/
theorem uvmdealloc_undo {v₀ : Vm} {start c hi : ℕ} (h : VmInv (sp ::ₘ R) held v)
    (hkeep : Keeps (sp ::ₘ R) v₀ v) (hmem : Untouched R held v₀ v) (hc : c ≤ hi)
    (hhi : hi ≤ userPages) (habs : ∀ u, c ≤ u → u < hi → lookup v₀.kmem.mem sp.root u = 0#64) :
    wp (uvmdealloc sp.root (c * pgsize) (start * pgsize)) (fun _ v' => Untouched R held v₀ v' ∧
      Trimmed sp R held (fun u => start ≤ u ∧ u < hi) v₀ v') E v := by
  have hsp : sp ∈ sp ::ₘ R := mem_cons_self sp R
  have hcp : c * pgsize ≤ trapframeVa := by
    rw [← userPages_mul_pgsize]
    exact Nat.mul_le_mul_right _ (by omega)
  refine wp_imp (uvmdealloc_spec h hcp) ?_
  rintro - v' ⟨-, htrim⟩
  rw [pagesOf_mul, pagesOf_mul] at htrim
  refine ⟨hmem.trans htrim.memory, htrim.inv, hkeep.tail.trans htrim.keeps,
    fun u hu hgone => ?_, fun u hu hgone => ?_⟩
  · by_cases hcu : u < c
    · exact htrim.absent u hu ⟨hgone.1, hcu⟩
    · rw [(htrim.rest u hu fun hlt => hcu hlt.2).1, (hkeep.same sp hsp u hu).1]
      exact habs u (by omega) hgone.2
  · exact (hkeep.same sp hsp u hu).trans (htrim.rest u hu fun hlt => hgone (by omega))

/-- **The loop of `uvmalloc`**, which started at page `start` and is at page `c`. The space has to
claim as many pages as there is memory for, not as many as were asked for. -/
theorem uvmallocFrom_spec {xperm : Pte} (hperm : LeafPerm (pteR ||| pteU ||| xperm)) {start : ℕ} :
    ∀ (n c : ℕ) {v : Vm}, VmInv (sp ::ₘ R) held v → start ≤ c →
    c + min n v.kmem.freelist.length ≤ sp.npages →
    (∀ u, c ≤ u → u < sp.npages → lookup v.kmem.mem sp.root u = 0#64) →
    wp (uvmallocFrom sp.root (start * pgsize) xperm (c * pgsize) n) (fun ok v' =>
      Untouched R held v v' ∧
      if ok then Grown sp R held (pteR ||| pteU ||| xperm) c (c + n) v v' ∧ c + n ≤ sp.npages ∧
        v.kmem.freelist.length ≤ v'.kmem.freelist.length + 3 * n
      else Trimmed sp R held (fun u => start ≤ u ∧ u < sp.npages) v v' ∧
        v.kmem.freelist.length < 3 * n) E v := by
  intro n
  induction n with
  | zero =>
    intro c v h _ _ _
    rw [uvmallocFrom, wp_pure, if_pos rfl]
    exact ⟨.refl R held v, ⟨h, .refl R v, fun u _ _ => by omega, fun u _ _ => by omega,
      fun _ _ _ => .refl _ _ _⟩, by omega, by omega⟩
  | succ n ih =>
    intro c v h hc hn habs
    have hsp : sp ∈ sp ::ₘ R := mem_cons_self sp R
    have hnp := (h.spaces sp hsp).bound
    rw [uvmallocFrom, wp_bind]
    refine wp_kalloc h (fun hF => ?_) fun x v₁ h₁ hkeep₁ hxF hlen₁ _ _ _ hmem₁ => ?_
    · refine wp_seq (uvmdealloc_undo h (.refl _ v) (.refl R held v) (by omega) (by omega) habs) ?_
      rintro _ v' ⟨hmem, htrim⟩
      rw [wp_pure, if_neg Bool.false_ne_true, hF]
      exact ⟨hmem, htrim, by simp⟩
    · have hc1 : lookup v₁.kmem.mem sp.root c = 0#64 :=
        (hkeep₁.same sp hsp c (by omega)).1.trans (habs c le_rfl (by omega))
      have hmiss := missing_le v₁.kmem.mem sp.root c
      refine wp_placePage h₁ (by omega) (by omega) hperm hc1 (fill 0)
        (fun v₂ hmap _ hlen₂ hmem₂ => ?_) fun v₂ h₂ hkeep₂ _ _ _ hshort hmem₂ => ?_
      · have hRkeep : Keeps R v v₂ := hkeep₁.tail.trans hmap.keeps
        have hother : ∀ u < userPages, u ≠ c → KeepsAt v v₂ sp.root u := fun u hu hne =>
          (hkeep₁.same sp hsp u hu).trans (hmap.rest u hu hne)
        rw [← Nat.succ_mul]
        refine wp_imp (ih (c + 1) hmap.inv (by omega) (by omega) fun u hu hu' => ?_) ?_
        · rw [(hother u (by omega) (by omega)).1]
          exact habs u (by omega) (by omega)
        · rintro (_ | _) v₃ ⟨hmem₃, hr⟩ <;>
            refine ⟨hmem₁.tail.trans (hmem₂.trans hmem₃), ?_⟩
          · rw [if_neg Bool.false_ne_true] at hr ⊢
            obtain ⟨htrim, hshort⟩ := hr
            refine ⟨⟨htrim.inv, hRkeep.trans htrim.keeps, fun u hu hgone => ?_,
              fun u hu hgone => ?_⟩, by omega⟩
            · exact htrim.absent u hu (by omega)
            · exact (hother u hu (by omega)).trans (htrim.rest u hu (by omega))
          · rw [if_pos rfl] at hr ⊢
            obtain ⟨hgrown, hnp', hlen₃⟩ := hr
            have hpa : PageAddr x := pageAddr_of_mem (h.free_managed hxF)
            have hself := hgrown.rest c (by omega) (by omega)
            refine ⟨⟨hgrown.inv, hRkeep.trans hgrown.keeps, fun u hu hu' => ?_,
              fun u hu hu' => ?_, fun u hu hgone => ?_⟩, by omega, by omega⟩
            · rcases Nat.eq_or_lt_of_le hu with rfl | hlt
              · exact ⟨x, hpa, hself.1.trans hmap.entry⟩
              · exact hgrown.mapped u hlt (by omega)
            · rcases Nat.eq_or_lt_of_le hu with rfl | hlt
              · exact hself.2.trans hmap.data
              · exact hgrown.zero u hlt (by omega)
            · exact (hother u hu (by omega)).trans (hgrown.rest u hu (by omega))
      · refine wp_seq (uvmdealloc_undo h₂ (hkeep₁.trans hkeep₂) (hmem₁.tail.trans hmem₂) (by omega)
          (by omega) habs) ?_
        rintro _ v' ⟨hmem, htrim⟩
        rw [wp_pure, if_neg Bool.false_ne_true]
        exact ⟨hmem, htrim, by omega⟩

/-- **`uvmalloc`** from a page boundary on: the pages between the sizes are zero, or the code's 0 is
returned and they are absent. -/
theorem uvmalloc_spec (h : VmInv (sp ::ₘ R) held v) {oldsz newsz : ℕ} {xperm : Pte}
    (hx : LeafPerm (pteR ||| pteU ||| xperm)) (hold : oldsz ≤ trapframeVa) (hle : oldsz ≤ newsz)
    (hn : pagesOf oldsz + min (pagesOf newsz - pagesOf oldsz) v.kmem.freelist.length ≤ sp.npages)
    (habs : ∀ u, pagesOf oldsz ≤ u → u < sp.npages → lookup v.kmem.mem sp.root u = 0#64) :
    wp (uvmalloc sp.root oldsz newsz xperm) (fun r v' => Untouched R held v v' ∧
      ((r = newsz ∧ pagesOf newsz ≤ sp.npages ∧
        Grown sp R held (pteR ||| pteU ||| xperm) (pagesOf oldsz) (pagesOf newsz) v v' ∧
        v.kmem.freelist.length
          ≤ v'.kmem.freelist.length + 3 * (pagesOf newsz - pagesOf oldsz)) ∨
      (r = 0 ∧ Trimmed sp R held (fun u => pagesOf oldsz ≤ u ∧ u < sp.npages) v v' ∧
        v.kmem.freelist.length < 3 * (pagesOf newsz - pagesOf oldsz)))) E v := by
  have hcount : (newsz - pagesOf oldsz * pgsize + pgsize - 1) / pgsize
      = pagesOf newsz - pagesOf oldsz := by
    simp only [pagesOf, pgsize]
    omega
  have hpages : pagesOf oldsz ≤ pagesOf newsz := by
    simp only [pagesOf]
    omega
  simp only [uvmalloc, if_neg (not_lt.mpr hle), pgroundup_eq (le_maxva hold), hcount, wp_bind]
  refine wp_imp (uvmallocFrom_spec hx _ _ h le_rfl hn habs) ?_
  rintro (_ | _) v' ⟨hmem, hr⟩
  · rw [if_neg Bool.false_ne_true] at hr
    rw [if_neg Bool.false_ne_true, wp_pure]
    exact ⟨hmem, Or.inr ⟨rfl, hr⟩⟩
  · rw [if_pos rfl, Nat.add_sub_cancel' hpages] at hr
    rw [if_pos rfl, wp_pure]
    exact ⟨hmem, Or.inl ⟨rfl, hr.2.1, hr.1, hr.2.2⟩⟩

theorem uvmalloc_of_lt {pagetable oldsz newsz : ℕ} {xperm : Pte} (hlt : newsz < oldsz)
    {Q : ℕ → Vm → Prop} (hQ : Q oldsz v) : wp (uvmalloc pagetable oldsz newsz xperm) Q E v := by
  rw [uvmalloc, if_pos hlt, wp_pure]
  exact hQ

/-! ### Copying -/

/-- What copying does: the pages of `op` from `lo` to `hi` that are resident have a copy in `sp`,
with the same flags, and the others are absent. -/
structure Copied (op sp : Space) (R : Multiset Space) (held : Multiset ℕ) (lo hi : ℕ)
    (v v' : Vm) : Prop where
  inv : VmInv (sp ::ₘ R) held v'
  keeps : Keeps R v v'
  copied : ∀ u, lo ≤ u → u < hi → (lookup v.kmem.mem op.root u).has pteV = true →
    (∃ x, PageAddr x ∧
      lookup v'.kmem.mem sp.root u = mkPte x (pteFlags (lookup v.kmem.mem op.root u))) ∧
    logical v' sp.root u = logical v op.root u
  skipped : ∀ u, lo ≤ u → u < hi → (lookup v.kmem.mem op.root u).has pteV = false →
    lookup v'.kmem.mem sp.root u = 0#64
  rest : ∀ u < userPages, ¬(lo ≤ u ∧ u < hi) → KeepsAt v v' sp.root u

/-- A page of the parent that is not resident is skipped. -/
theorem Copied.skip {op : Space} {c hi : ℕ} {v' : Vm} (h : Copied op sp R held (c + 1) hi v v')
    (hc : c < userPages) (hval : (lookup v.kmem.mem op.root c).has pteV = false)
    (habs : lookup v.kmem.mem sp.root c = 0#64) : Copied op sp R held c hi v v' := by
  have hself := h.rest c hc (by omega)
  refine ⟨h.inv, h.keeps, fun u hu hu' huv => ?_, fun u hu hu' huv => ?_,
    fun u hu hgone => h.rest u hu (by omega)⟩
  · rcases Nat.eq_or_lt_of_le hu with rfl | hlt
    · rw [hval] at huv
      nomatch huv
    · exact h.copied u hlt hu' huv
  · rcases Nat.eq_or_lt_of_le hu with rfl | hlt
    · exact hself.1.trans habs
    · exact h.skipped u hlt hu' huv

/-- A resident page of the parent is copied to a new page. -/
theorem Copied.copy {op : Space} {c hi : ℕ} {v₁ v' : Vm} (hop : op ∈ R)
    (h : Copied op sp R held (c + 1) hi v₁ v') (hhi : hi ≤ userPages) (hc : c < hi)
    (hval : (lookup v.kmem.mem op.root c).has pteV = true) (hpa : PageAddr x)
    (hkeep : Keeps R v v₁)
    (hentry : lookup v₁.kmem.mem sp.root c = mkPte x (pteFlags (lookup v.kmem.mem op.root c)))
    (hdata : logical v₁ sp.root c = logical v op.root c)
    (hother : ∀ u < userPages, u ≠ c → KeepsAt v v₁ sp.root u) :
    Copied op sp R held c hi v v' := by
  have hself := h.rest c (by omega) (by omega)
  have hpar : ∀ u < userPages, KeepsAt v v₁ op.root u := hkeep.same op hop
  refine ⟨h.inv, hkeep.trans h.keeps, fun u hu hu' huv => ?_, fun u hu hu' huv => ?_,
    fun u hu hgone => (hother u hu (by omega)).trans (h.rest u hu (by omega))⟩
  · rcases Nat.eq_or_lt_of_le hu with rfl | hlt
    · exact ⟨⟨x, hpa, hself.1.trans hentry⟩, hself.2.trans hdata⟩
    · have hsame := hpar u (by omega)
      rw [← hsame.1] at huv ⊢
      rw [← hsame.2]
      exact h.copied u hlt hu' huv
  · rcases Nat.eq_or_lt_of_le hu with rfl | hlt
    · rw [hval] at huv
      nomatch huv.symm
    · rw [← (hpar u (by omega)).1] at huv
      exact h.skipped u hlt hu' huv

theorem uvmunmap_undo {v₀ : Vm} {c : ℕ} (h : VmInv (sp ::ₘ R) held v)
    (hkeep : Keeps (sp ::ₘ R) v₀ v) (hmem : Untouched R held v₀ v) (hc : c ≤ userPages)
    (habs : ∀ u, c ≤ u → u < userPages → lookup v₀.kmem.mem sp.root u = 0#64) :
    wp (uvmunmap sp.root 0 (c * pgsize / pgsize) true) (fun _ v' => Untouched R held v₀ v' ∧
      Trimmed sp R held (fun _ => True) v₀ v') E v := by
  have hsp : sp ∈ sp ::ₘ R := mem_cons_self sp R
  have hspec := uvmunmap_spec (E := E) h 0 c (by omega)
  rw [Nat.zero_mul] at hspec
  rw [Nat.mul_div_cancel c (by decide)]
  refine wp_imp hspec ?_
  intro _ v' htrim
  refine ⟨hmem.trans htrim.memory, htrim.inv, hkeep.tail.trans htrim.keeps,
    fun u hu _ => ?_, fun u hu hgone => absurd trivial hgone⟩
  by_cases hcu : u < c
  · exact htrim.absent u hu (by omega)
  · rw [(htrim.rest u hu (by omega)).1, (hkeep.same sp hsp u hu).1]
    exact habs u (by omega) hu

/-- **The loop of `uvmcopy`**, at page `c` with `n` pages to go. -/
theorem uvmcopyFrom_spec {op : Space} (hop : op ∈ R) :
    ∀ (n c : ℕ) {v : Vm}, VmInv (sp ::ₘ R) held v → c + n ≤ sp.npages →
    (∀ u, c ≤ u → u < userPages → lookup v.kmem.mem sp.root u = 0#64) →
    wp (uvmcopyFrom op.root sp.root (c * pgsize) n) (fun ok v' => Untouched R held v v' ∧
      if ok then Copied op sp R held c (c + n) v v' ∧ v'.ftable = v.ftable ∧
        v.kmem.freelist.length ≤ v'.kmem.freelist.length + 3 * n
      else Trimmed sp R held (fun _ => True) v v' ∧ v.kmem.freelist.length < 3 * n) E v := by
  intro n
  induction n with
  | zero =>
    intro c v h _ _
    rw [uvmcopyFrom, wp_pure, if_pos rfl]
    exact ⟨.refl R held v, ⟨h, .refl R v, fun u _ _ => by omega, fun u _ _ => by omega,
      fun _ _ _ => .refl _ _ _⟩, rfl, by omega⟩
  | succ n ih =>
    intro c v h hn habs
    have hsp : sp ∈ sp ::ₘ R := mem_cons_self sp R
    have hop' : op ∈ sp ::ₘ R := mem_cons_of_mem hop
    have hnp := (h.spaces sp hsp).bound
    have hleaf := (h.spaces op hop').leaf c (by omega)
    have hc0 := habs c le_rfl (by omega)
    have hskip : (lookup v.kmem.mem op.root c).has pteV = false →
        wp (uvmcopyFrom op.root sp.root (c * pgsize + pgsize) n) (fun ok v' =>
          Untouched R held v v' ∧
          if ok then Copied op sp R held c (c + (n + 1)) v v' ∧ v'.ftable = v.ftable ∧
            v.kmem.freelist.length ≤ v'.kmem.freelist.length + 3 * (n + 1)
          else Trimmed sp R held (fun _ => True) v v' ∧
            v.kmem.freelist.length < 3 * (n + 1)) E v := by
      intro hval
      rw [← Nat.succ_mul]
      refine wp_imp (ih (c + 1) h (by omega) fun u hu => habs u (by omega)) ?_
      rintro (_ | _) v' ⟨hmem, hr⟩
      · rw [if_neg Bool.false_ne_true] at hr ⊢
        exact ⟨hmem, hr.1, by omega⟩
      · rw [if_pos rfl, Nat.add_right_comm] at hr
        rw [if_pos rfl]
        exact ⟨hmem, hr.1.skip (by omega) hval hc0, hr.2.1, by omega⟩
    rw [uvmcopyFrom, wp_bind, wp_onKmem]
    refine walk_spec (lt_maxVpn (by omega)) ?_
    cases hl : leafTable v.kmem.mem op.root (pathOf c) with
    | none => exact hskip (by rw [lookup_of_none hl, Pte.has_zero])
    | some t =>
      simp only [Option.map_some, wp_bind, wp_onKmem, wp_readPte, Vm.setKmem_self,
        ← lookup_of_some hl]
      cases hval : (lookup v.kmem.mem op.root c).has pteV with
      | false =>
        rw [Bool.not_false, if_pos rfl]
        exact hskip hval
      | true =>
        rw [Bool.not_true, if_neg Bool.false_ne_true, wp_bind]
        refine wp_kalloc h (fun hF => ?_) fun x v₁ h₁ hkeep₁ hxF hlen₁ hft₁ _ _ hmem₁ => ?_
        · refine wp_seq (uvmunmap_undo h (.refl _ v) (.refl R held v) (by omega) habs) ?_
          rintro _ v' ⟨hmem, htrim⟩
          rw [wp_pure, if_neg Bool.false_ne_true, hF]
          exact ⟨hmem, htrim, by simp⟩
        · have hperm : LeafPerm (pteFlags (lookup v.kmem.mem op.root c)) :=
            (hleaf.resident hval).leafPerm
          have hc1 : lookup v₁.kmem.mem sp.root c = 0#64 :=
            (hkeep₁.same sp hsp c (by omega)).1.trans hc0
          have hpar := hkeep₁.same op hop' c (by omega)
          -- the parent's frame still has the parent's data
          have hdata : v₁.kmem.mem (pte2pa (lookup v.kmem.mem op.root c))
              = logical v op.root c := by
            rw [← hpar.2, logical, hpar.1, contents_valid hval]
          have hmiss := missing_le v₁.kmem.mem sp.root c
          rw [wp_bind, wp_get, hdata]
          refine wp_placePage h₁ (by omega) (by omega) hperm hc1 _
            (fun v₂ hmap _ hlen₂ hmem₂ => ?_) fun v₂ h₂ hkeep₂ _ _ _ hshort hmem₂ => ?_
          · have hRkeep : Keeps R v v₂ := hkeep₁.tail.trans hmap.keeps
            have hother : ∀ u < userPages, u ≠ c → KeepsAt v v₂ sp.root u := fun u hu hne =>
              (hkeep₁.same sp hsp u hu).trans (hmap.rest u hu hne)
            rw [← Nat.succ_mul]
            refine wp_imp (ih (c + 1) hmap.inv (by omega) fun u hu hu' => ?_) ?_
            · rw [(hother u hu' (by omega)).1]
              exact habs u (by omega) hu'
            · rintro (_ | _) v₃ ⟨hmem₃, hr⟩ <;>
                refine ⟨hmem₁.tail.trans (hmem₂.trans hmem₃), ?_⟩
              · rw [if_neg Bool.false_ne_true] at hr ⊢
                obtain ⟨htrim, hshort⟩ := hr
                exact ⟨⟨htrim.inv, hRkeep.trans htrim.keeps, htrim.absent,
                  fun u _ hgone => absurd trivial hgone⟩, by omega⟩
              · rw [if_pos rfl, Nat.add_right_comm] at hr
                rw [if_pos rfl]
                have hpa : PageAddr x := pageAddr_of_mem (h.free_managed hxF)
                exact ⟨hr.1.copy hop (by omega) (by omega) hval hpa hRkeep hmap.entry hmap.data
                  hother, hr.2.1.trans (hmap.ftable.trans hft₁), by omega⟩
          · refine wp_seq (uvmunmap_undo h₂ (hkeep₁.trans hkeep₂) (hmem₁.tail.trans hmem₂)
              (by omega) habs) ?_
            rintro _ v' ⟨hmem, htrim⟩
            rw [wp_pure, if_neg Bool.false_ne_true]
            exact ⟨hmem, htrim, by omega⟩

/-- **`uvmcopy`** of the first `sz` bytes into an empty space. -/
theorem uvmcopy_spec {op : Space} (hop : op ∈ R) (h : VmInv (sp ::ₘ R) held v) {sz : ℕ}
    (hn : pagesOf sz ≤ sp.npages)
    (habs : ∀ u < userPages, lookup v.kmem.mem sp.root u = 0#64) :
    wp (uvmcopy op.root sp.root sz) (fun ok v' => Untouched R held v v' ∧
      if ok then Copied op sp R held 0 (pagesOf sz) v v' ∧ v'.ftable = v.ftable ∧
        v.kmem.freelist.length ≤ v'.kmem.freelist.length + 3 * pagesOf sz
      else Trimmed sp R held (fun _ => True) v v' ∧
        v.kmem.freelist.length < 3 * pagesOf sz) E v := by
  have hspec := uvmcopyFrom_spec (E := E) hop (pagesOf sz) 0 h (by omega) fun u _ => habs u
  rw [Nat.zero_mul, Nat.zero_add] at hspec
  exact hspec

end Xv6
