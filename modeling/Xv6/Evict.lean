import Xv6.Books
import Xv6.Clock
import Xv6.UserMemory

/-!
# Eviction

`clock_evict` moves a page from its frame to a swap slot. Seen from the processes nothing happens:
the entry of one page changes, and its contents are found in the slot instead of the frame. What
changes for the kernel is counted: one frame-table entry less, one swap slot more, one free page
more.

The owner of the victim is looked up by process number and its page table is walked. Both succeed
because the frame table describes mapped pages of live processes (`VmInv.entries`, `Owners`).
-/

namespace Xv6

open Ledger Prog Function Multiset

/-- An entry of a page that user code may read and write has become the entry of a slot. -/
structure Unloaded (e e' : Pte) : Prop where
  slot : ∃ slot : Fin maxSwapSlots, e' = swappedPte slot
  valid : e.has pteV = true
  read : e.has pteR = true
  write : e.has pteW = true
  access : e.has pteU = true

/-- A page with the same contents, which may have been swapped out. -/
def SameAt (v v' : Vm) (root vpn : ℕ) : Prop :=
  logical v' root vpn = logical v root vpn ∧
    (lookup v'.kmem.mem root vpn = lookup v.kmem.mem root vpn ∨
      Unloaded (lookup v.kmem.mem root vpn) (lookup v'.kmem.mem root vpn))

theorem KeepsAt.sameAt {v v' : Vm} {root vpn : ℕ} (h : KeepsAt v v' root vpn) :
    SameAt v v' root vpn :=
  ⟨h.2, Or.inl h.1⟩

theorem SameAt.trans {v v' v'' : Vm} {root vpn : ℕ} (h : SameAt v v' root vpn)
    (h' : SameAt v' v'' root vpn) : SameAt v v'' root vpn := by
  refine ⟨h'.1.trans h.1, ?_⟩
  rcases h.2 with heq | hout
  · rw [← heq]
    exact h'.2
  · obtain ⟨slot, hs⟩ := hout.slot
    rcases h'.2 with heq' | hout'
    · exact Or.inr ⟨⟨slot, heq'.trans hs⟩, hout.valid, hout.read, hout.write, hout.access⟩
    · have hval := hout'.valid
      rw [hs, Pte.has_swappedPte_pteV] at hval
      nomatch hval

/-- A page that user code may not read and write, or that is not resident, keeps its entry. -/
theorem SameAt.entry_of {v v' : Vm} {root vpn : ℕ} (h : SameAt v v' root vpn)
    (hn : ¬((lookup v.kmem.mem root vpn).has pteV = true ∧
      (lookup v.kmem.mem root vpn).has pteR = true ∧
      (lookup v.kmem.mem root vpn).has pteW = true ∧
      (lookup v.kmem.mem root vpn).has pteU = true)) :
    lookup v'.kmem.mem root vpn = lookup v.kmem.mem root vpn :=
  h.2.resolve_right fun hout => hn ⟨hout.valid, hout.read, hout.write, hout.access⟩

/-- Logical memory is the same, and so are the page-table pages. -/
structure SameMemory (S : Multiset Space) (v v' : Vm) : Prop where
  sym : v'.kmem.sym = v.kmem.sym
  same : ∀ q ∈ S, ∀ u < userPages, SameAt v v' q.root u
  tables : SameTables S v v'

theorem SameMemory.trans {S : Multiset Space} {v v' v'' : Vm} (h : SameMemory S v v')
    (h' : SameMemory S v' v'') : SameMemory S v v'' where
  sym := h'.sym.trans h.sym
  same q hq u hu := (h.same q hq u hu).trans (h'.same q hq u hu)
  tables q hq u := (h'.tables q hq u).trans (h.tables q hq u)

theorem missing_setPte {s : Kmem} {root vpn t : ℕ} (h : Tree s.mem root)
    (hl : leafTable s.mem root (pathOf vpn) = some t) (e : Pte) (u : ℕ) :
    missing (s.setPte ⟨t, slotOf vpn⟩ e).mem root u = missing s.mem root u := by
  have hc := h.child_root_setLeaf (e := e) hl
  have hlt := h.leafTable_setLeaf (e := e) hl
  rw [missing, missing]
  change (if (child (setEntry s.mem t (slotOf vpn) e) root _).isNone then _ else
    if (leafTable (setEntry s.mem t (slotOf vpn) e) root _).isNone then _ else _) = _
  rw [hc, hlt]

section Evict

variable {S R : Multiset Space} {sp q : Space} {held : Multiset ℕ} {k k' : Kernel} {v v' : Vm}
  {i : Fin maxFrames} {vpn : ℕ} {E : String → Prop} {ft : Fin maxFrames → FrameEntry}
  {slot : Fin maxSwapSlots}

/-! ### Moving a page to a slot -/

/-- The state after the first two steps of an eviction: the entry of the victim is free and its
contents are in a slot that no page names yet. -/
def Vm.saveFrame (v : Vm) (i : Fin maxFrames) (ft : Fin maxFrames → FrameEntry) (hand : ℕ)
    (slot : Fin maxSwapSlots) : Vm :=
  ({ v with ftable := update ft i .free, clockHand := hand } : Vm).setSlot slot
    ⟨true, (v.ftable i).pid, (v.ftable i).va, v.kmem.mem (v.ftable i).pa⟩

section SaveFrame

variable {hand : ℕ}

/-- Dropping the victim from the table, with any reference bits. -/
theorem VmInv.dropVictim (h : VmInv S held v) (hft : SameFrames v.ftable ft)
    (hhand : hand < maxFrames) :
    VmInv S held { v with ftable := update ft i .free, clockHand := hand } := by
  refine h.setClock (fun j hj => ?_) hhand
  have hne : j ≠ i := by
    rintro rfl
    simp [FrameEntry.free] at hj
  rw [update_of_ne hne] at hj ⊢
  exact ⟨by rw [← hft.used j]; exact hj, hft.pid j, hft.va j, hft.pa j⟩

/-- The frame of the victim is no longer registered. -/
theorem VmInv.not_describes_victim (h : VmInv S held v) (hft : SameFrames v.ftable ft)
    (hi : (v.ftable i).used = true) (hd : Describes v (v.ftable i) q vpn) (hk : v'.kmem = v.kmem)
    (hft' : v'.ftable = update ft i .free) (j : Fin maxFrames)
    (hj : (v'.ftable j).used = true) : ¬Describes v' (v'.ftable j) q vpn := by
  intro hd'
  have hpa := hd'.pa
  rw [hk] at hpa
  rw [hft'] at hj hpa
  have hne : j ≠ i := by
    rintro rfl
    simp [FrameEntry.free] at hj
  rw [update_of_ne hne] at hj hpa
  rw [hft.used] at hj
  rw [hft.pa] at hpa
  exact hne (h.distinct j i hj hi (hpa.symm.trans hd.pa))

/-- **Rewriting the victim's entry.** The page is now in the slot and its frame is in hand. -/
theorem VmInv.swapLeaf (h : VmInv (q ::ₘ R) held v) (hft : SameFrames v.ftable ft)
    (hhand : hand < maxFrames) (hslot : (v.swapArea slot).used = false)
    (hi : (v.ftable i).used = true) (hd : Describes v (v.ftable i) q vpn) {t : ℕ}
    (hl : leafTable v.kmem.mem q.root (pathOf vpn) = some t)
    (hv' : v' = (v.saveFrame i ft hand slot).setKmem
      (v.kmem.setPte ⟨t, slotOf vpn⟩ (swappedPte slot))) :
    VmInv (q ::ₘ R) ((v.ftable i).pa ::ₘ held) v' ∧
      lookup v'.kmem.mem q.root vpn = swappedPte slot ∧
      logical v' q.root vpn = logical v q.root vpn ∧
      (∀ u < userPages, u ≠ vpn → KeepsAt v v' q.root u) ∧
      ∀ sp ∈ R, ∀ u < userPages, KeepsAt v v' sp.root u := by
  -- the slot is filled at the moment the entry is rewritten
  obtain ⟨v₁, hv₁⟩ : ∃ v₁ : Vm,
      v₁ = { v with ftable := update ft i .free, clockHand := hand } := ⟨_, rfl⟩
  obtain ⟨a, ha⟩ : ∃ a, a = update v.swapArea slot
      ⟨true, (v.ftable i).pid, (v.ftable i).va, v.kmem.mem (v.ftable i).pa⟩ := ⟨_, rfl⟩
  have hq : q ∈ q ::ₘ R := mem_cons_self q R
  have h₁ := h.dropVictim (i := i) hft hhand
  rw [← hv₁] at h₁
  have hk : v₁.kmem = v.kmem := by rw [hv₁]
  have harea : v₁.swapArea = v.swapArea := by rw [hv₁]
  have hnot := h.not_describes_victim hft hi hd hk (by rw [hv₁])
  have hv₂ : v' = { v₁ with
      kmem := v₁.kmem.setPte ⟨t, slotOf vpn⟩ (swappedPte slot), swapArea := a } := by
    rw [hv', hv₁, ha]
    rfl
  clear hv' hv₁
  have ha' : ∀ s, s ≠ slot → a s = v₁.swapArea s := fun s hs => by
    rw [ha, harea, update_of_ne hs]
  have haslot : a slot
      = ⟨true, (v.ftable i).pid, (v.ftable i).va, v.kmem.mem (v.ftable i).pa⟩ := by
    rw [ha, update_self]
  have hunused : (v₁.swapArea slot).used = false := by rw [harea]; exact hslot
  rw [← hk] at hl
  have hok := h₁.spaces q hq
  obtain ⟨hstep, hself, hother⟩ := setLeaf_step hok.tree (lt_maxVpn hd.user) hl (swappedPte slot)
  -- no page names the slot before
  have hdata : ∀ {sp : Space} {u : ℕ}, sp ∈ q ::ₘ R → u < userPages →
      ∀ s : Fin maxSwapSlots, lookup v₁.kmem.mem sp.root u = swappedPte s →
      (a s).data = (v.swapArea s).data := by
    intro sp u hsp hu s hs
    rw [ha', harea]
    rintro rfl
    exact h₁.slot_unnamed hsp hu hunused hs
  have hkeep : ∀ {sp : Space} {u : ℕ}, sp ∈ q ::ₘ R → u < userPages →
      lookup v'.kmem.mem sp.root u = lookup v.kmem.mem sp.root u →
      ((lookup v.kmem.mem sp.root u).has pteV = true →
        v'.kmem.mem (pte2pa (lookup v.kmem.mem sp.root u))
          = v.kmem.mem (pte2pa (lookup v.kmem.mem sp.root u))) → KeepsAt v v' sp.root u := by
    intro sp u hsp hu hlook hmem
    refine (h.spaces sp hsp).keepsAt hu hlook hmem fun s hs => ?_
    have : v'.swapArea = a := by rw [hv₂]
    rw [this]
    exact hdata hsp hu s (by rw [hk]; exact hs)
  have hk' : v'.kmem = v₁.kmem.setPte ⟨t, slotOf vpn⟩ (swappedPte slot) := by rw [hv₂]
  have hframe : ∀ {sp : Space} {u : ℕ}, sp ∈ q ::ₘ R → u < userPages →
      (lookup v.kmem.mem sp.root u).has pteV = true →
      v'.kmem.mem (pte2pa (lookup v.kmem.mem sp.root u))
        = v.kmem.mem (pte2pa (lookup v.kmem.mem sp.root u)) := by
    intro sp u hsp hu hval
    rw [← hk] at hval ⊢
    rw [hk']
    refine hstep.frame _ (fun hmem => ?_) fun hfree => ?_
    · rcases mem_cons.mp hsp with rfl | hsp'
      · exact h₁.frame_notMem_tables hsp hu hval hmem
      · exact h₁.footprint_apart hsp' (mem_footprint_of_tables hmem)
          (mem_footprint_of_valid hu hval)
    · exact h₁.free_notMem_footprint hfree hsp (mem_footprint_of_valid hu hval)
  have hlook : lookup v'.kmem.mem q.root vpn = swappedPte slot := by rw [hk']; exact hself
  refine ⟨?_, hlook, ?_, fun u hu hne => ?_, fun sp hsp u hu => ?_⟩
  · have hval : (lookup v₁.kmem.mem q.root vpn).has pteV = true := by rw [hk]; exact hd.valid
    have hpa : pte2pa (lookup v₁.kmem.mem q.root vpn) = (v.ftable i).pa := by rw [hk]; exact hd.pa
    rw [hv₂]
    refine h₁.setLeaf hstep hd.user hother (fun s => ?_) ?_ ?_ ?_ ?_ hnot
    · by_cases hs : s = slot
      · exact Or.inr (Or.inl (by rw [hs]; exact hunused))
      · exact Or.inl (ha' s hs)
    · rintro - s hs (hs' | hs')
      · by_cases heq : s = slot
        · rw [heq]
          exact hself
        · rw [ha' s heq, hs'] at hs
          nomatch hs
      · rw [hs', Pte.has_swappedPte_pteV] at hval
        nomatch hval
    · rw [hself]
      refine Or.inr (Or.inr ⟨slot, rfl, hd.live, ?_⟩)
      rw [haslot]
      exact ⟨rfl, hd.pid, hd.va⟩
    · refine Or.inl (not_le.mp fun hle => ?_)
      rw [hok.beyond vpn hle hd.user, Pte.has_zero] at hval
      nomatch hval
    · rw [hself, frameOf_invalid (Pte.has_swappedPte_pteV _), frameOf_valid hval, hpa, add_zero,
        add_comm, singleton_add]
  · have harea' : v'.swapArea slot = a slot := by rw [hv₂]
    rw [logical, hlook, contents_swappedPte, harea', haslot, logical, contents_valid hd.valid, hd.pa]
  · refine hkeep hq hu ?_ (hframe hq hu)
    rw [hk', hother u (lt_maxVpn hu) hne, hk]
  · have hsp' : sp ∈ q ::ₘ R := mem_cons_of_mem hsp
    refine hkeep hsp' hu ?_ (hframe hsp' hu)
    rw [hk', ← hk]
    refine congrFun (lookup_congr fun y hy => hstep.frame y (fun hy' => ?_) fun hy' => ?_) u
    · exact h₁.footprint_apart hsp (mem_footprint_of_tables hy') (mem_footprint_of_tables hy)
    · exact h₁.free_notMem_footprint hy' hsp' (mem_footprint_of_tables hy)

theorem VmInv.missing_swapLeaf (h : VmInv (q ::ₘ R) held v) {t : ℕ} (e : Pte)
    (hl : leafTable v.kmem.mem q.root (pathOf vpn) = some t) (hsp : sp ∈ q ::ₘ R) (u : ℕ) :
    missing (v.kmem.setPte ⟨t, slotOf vpn⟩ e).mem sp.root u
      = missing v.kmem.mem sp.root u := by
  have hq : q ∈ q ::ₘ R := mem_cons_self q R
  rcases mem_cons.mp hsp with rfl | hsp'
  · exact missing_setPte (h.spaces _ hsp).tree hl e u
  · refine missing_congr (update_agree (fun ht => ?_) _) u
    exact h.footprint_apart hsp' (mem_footprint_of_tables (mem_tables_of_leafTable hl))
      (mem_footprint_of_tables ht)

end SaveFrame

/-- Moving the page of entry `i` to a slot, seen from the processes. -/
theorem sameMemory_of_swap (h : VmInv (q ::ₘ R) held v)
    (hd : Describes v (v.ftable i) q vpn)
    (hsym : v'.kmem.sym = v.kmem.sym) (hself : lookup v'.kmem.mem q.root vpn = swappedPte slot)
    (hlog : logical v' q.root vpn = logical v q.root vpn)
    (hrest : ∀ u < userPages, u ≠ vpn → KeepsAt v v' q.root u)
    (hother : ∀ sp ∈ R, ∀ u < userPages, KeepsAt v v' sp.root u)
    (htables : SameTables (q ::ₘ R) v v') :
    SameMemory (q ::ₘ R) v v' ∧
      ∀ sp ∈ q ::ₘ R, ∀ u < userPages,
        (lookup v'.kmem.mem sp.root u = lookup v.kmem.mem sp.root u ↔
          ¬((lookup v.kmem.mem sp.root u).has pteV = true ∧
            pte2pa (lookup v.kmem.mem sp.root u) = (v.ftable i).pa)) := by
  have hq : q ∈ q ::ₘ R := mem_cons_self q R
  -- a page is the one that moved, or it is untouched and its frame is another one
  have hcases : ∀ sp ∈ q ::ₘ R, ∀ u < userPages, (sp = q ∧ u = vpn) ∨
      (KeepsAt v v' sp.root u ∧ ¬((lookup v.kmem.mem sp.root u).has pteV = true ∧
        pte2pa (lookup v.kmem.mem sp.root u) = (v.ftable i).pa)) := by
    intro sp hsp u hu
    rcases mem_cons.mp hsp with rfl | hsp'
    · by_cases huv : u = vpn
      · exact Or.inl ⟨rfl, huv⟩
      · refine Or.inr ⟨hrest u hu huv, fun hval => huv ?_⟩
        exact h.frame_inj hq hu hd.user hval.1 hd.valid (hval.2.trans hd.pa.symm)
    · refine Or.inr ⟨hother sp hsp' u hu, fun hval => ?_⟩
      refine h.footprint_apart hsp' (VmInv.mem_footprint_of_valid hd.user hd.valid) ?_
      rw [hd.pa, ← hval.2]
      exact VmInv.mem_footprint_of_valid hu hval.1
  refine ⟨⟨hsym, fun sp hsp u hu => ?_, htables⟩, fun sp hsp u hu => ?_⟩
  · rcases hcases sp hsp u hu with ⟨rfl, rfl⟩ | ⟨hk, -⟩
    · exact ⟨hlog, Or.inr ⟨⟨slot, hself⟩, hd.valid, hd.read, hd.write, hd.access⟩⟩
    · exact hk.sameAt
  · rcases hcases sp hsp u hu with ⟨rfl, rfl⟩ | ⟨hk, hne⟩
    · refine iff_of_false (fun heq => ?_) (not_not.mpr ⟨hd.valid, hd.pa⟩)
      have hval := hd.valid
      rw [← heq, hself, Pte.has_swappedPte_pteV] at hval
      nomatch hval
    · exact iff_of_true hk.1 hne

/-! ### `clock_evict` -/

/-- The result of evicting the page of frame-table entry `i`. -/
structure Evicted (S : Multiset Space) (held : Multiset ℕ) (i : Fin maxFrames) (k k' : Kernel) :
    Prop where
  inv : VmInv S held k'.vm
  paged : Paged k k'
  booked : Booked S k k'
  same : SameMemory S k.vm k'.vm
  frames : k.framesUsed = k'.framesUsed + 1
  slots : k'.slotsUsed = k.slotsUsed + 1
  free : k'.freePages = k.freePages + 1
  registered : k'.vm.registered ⊆ k.vm.registered
  /-- A slot that was in use is not written. -/
  kept : ∀ s, (k.vm.swapArea s).used = true → k'.vm.swapArea s = k.vm.swapArea s
  /-- Only the page of the victim's frame has a new entry. -/
  gone : ∀ q ∈ S, ∀ u < userPages,
    (lookup k'.vm.kmem.mem q.root u = lookup k.vm.kmem.mem q.root u ↔
      ¬((lookup k.vm.kmem.mem q.root u).has pteV = true ∧
        pte2pa (lookup k.vm.kmem.mem q.root u) = (k.vm.ftable i).pa))

/-- The third step of `clock_evict`, when the owner is found and the entry is valid. -/
theorem wp_evictRewrite {saved : FrameEntry} {slot root t : ℕ} {j : Fin nproc}
    (hj : findProc k saved.pid = some j) (hroot : (k.proc j).pagetable = some root)
    (hva : saved.va = vpn * pgsize) (hv : vpn < maxVpn)
    (hl : leafTable k.vm.kmem.mem root (pathOf vpn) = some t)
    (hval : (lookup k.vm.kmem.mem root vpn).has pteV = true) {Q : Unit → Kernel → Prop}
    (hQ : ∀ k₁ : Kernel, k₁ = k.setVm (k.vm.setKmem
        (k.vm.kmem.setPte ⟨t, slotOf vpn⟩ (swappedPte slot))) →
      Q () (k₁.setStats j VmStats.unloaded)) :
    wp (evictRewrite saved slot) Q E k := by
  simp only [evictRewrite, wp_bind, wp_get, hj, hroot, addrOf, Option.getD_some, hva,
    wp_onVm, wp_onKmem]
  refine walk_spec hv ?_
  rw [lookup_of_some hl] at hval
  rw [hl, Option.map_some]
  simp only [wp_bind, wp_onVm, wp_onKmem, wp_readPte, Vm.setKmem_self,
    Kernel.setVm_self]
  rw [hval, if_pos rfl]
  simp only [wp_bind, wp_onVm, wp_onKmem, wp_writePte, wp_updateProc]
  exact hQ _ rfl

theorem tally_saveFrame (hand : ℕ) (slot : Fin maxSwapSlots)
    (hft : SameFrames v.ftable ft) (hi : (v.ftable i).used = true) (pid : ℤ) :
    tally v pid = tally (v.saveFrame i ft hand slot) pid
      + if pid = (v.ftable i).pid then 1 else 0 := by
  have hcount : frameCount v pid + (false && (-1 : ℤ) == pid).toNat
      = frameCount (v.saveFrame i ft hand slot) pid
        + ((v.ftable i).used && (v.ftable i).pid == pid).toNat := by
    have h := Table.count_add (i := i)
      (p := fun j => (v.ftable j).used && (v.ftable j).pid == pid)
      (q := fun j => ((v.saveFrame i ft hand slot).ftable j).used
        && ((v.saveFrame i ft hand slot).ftable j).pid == pid) fun j hj => by
      change _ = ((update ft i FrameEntry.free j).used
        && (update ft i FrameEntry.free j).pid == pid)
      rw [update_of_ne hj, hft.used, hft.pid]
    have hfree : (v.saveFrame i ft hand slot).ftable i = .free := by
      change update ft i FrameEntry.free i = _
      rw [update_self]
    rwa [hfree] at h
  rw [hi, Bool.true_and, Bool.false_and, Bool.toNat_false] at hcount
  change (frameCount v pid : ℤ) - v.uncounted pid
    = frameCount (v.saveFrame i ft hand slot) pid - v.uncounted pid + _
  split_ifs with hpid
  · rw [hpid, beq_self_eq_true, Bool.toNat_true] at hcount
    rw [hpid]
    omega
  · rw [beq_false_of_ne (Ne.symm hpid), Bool.toNat_false] at hcount
    omega

theorem framesUsed_saveFrame (hand : ℕ)
    (slot : Fin maxSwapSlots) (hft : SameFrames v.ftable ft) (hi : (v.ftable i).used = true) :
    frametableUsed v = frametableUsed (v.saveFrame i ft hand slot) + 1 := by
  refine Table.count_succ (i := i) (fun j hj => ?_) hi ?_
  · change _ = (update ft i FrameEntry.free j).used
    rw [update_of_ne hj, hft.used]
  · change (update ft i FrameEntry.free i).used = false
    rw [update_self]
    rfl

theorem slotsUsed_saveFrame (ft : Fin maxFrames → FrameEntry) (hand : ℕ)
    (hslot : (v.swapArea slot).used = false) :
    Table.count (fun j => ((v.saveFrame i ft hand slot).swapArea j).used)
      = Table.count (fun j => (v.swapArea j).used) + 1 := by
  refine Table.count_succ (i := slot) (fun j hj => ?_) ?_ hslot
  · rw [Vm.saveFrame, Vm.setSlot_swapArea_of_ne _ _ hj]
  · rw [Vm.saveFrame, Vm.setSlot_swapArea_self]

theorem registered_saveFrame (hand : ℕ) (slot : Fin maxSwapSlots)
    (hft : SameFrames v.ftable ft) : (v.saveFrame i ft hand slot).registered ⊆ v.registered := by
  rintro p ⟨f, hf⟩
  change (update ft i FrameEntry.free f).used = true ∧ _ at hf
  by_cases hfi : f = i
  · rw [hfi, update_self] at hf
    nomatch hf.1
  · refine ⟨f, ?_⟩
    change _ ∧ (update ft i FrameEntry.free f).pid = _ ∧
      (update ft i FrameEntry.free f).va = _ at hf
    rwa [update_of_ne hfi, hft.used, hft.pid, hft.va] at hf

/-- An eviction in the books: the owner counts one page less as resident and one more as swapped
out. -/
theorem booked_unload {j : Fin nproc} (h : VmInv (q ::ₘ R) held k.vm)
    (hj : Owner k q j) (hv : vpn < userPages)
    (hval : (lookup k.vm.kmem.mem q.root vpn).has pteV = true)
    (htally : ∀ pid, tally k.vm pid = tally v pid + if pid = q.pid then 1 else 0)
    (hself : lookup v.kmem.mem q.root vpn = swappedPte slot)
    (hrest : ∀ u < userPages, u ≠ vpn →
      lookup v.kmem.mem q.root u = lookup k.vm.kmem.mem q.root u)
    (hother : ∀ sp ∈ R, ∀ u < userPages,
      lookup v.kmem.mem sp.root u = lookup k.vm.kmem.mem sp.root u) :
    Booked (q ::ₘ R) k ((k.setVm v).setStats j VmStats.unloaded) := by
  have hcount := swapCount_setLeaf hv hrest
  have hres := ((h.spaces q (mem_cons_self q R)).leaf vpn hv).resident hval
  rw [hself, Pte.has_swappedPte_pteSwapped, hres.unswapped, Bool.toNat_true, Bool.toNat_false]
    at hcount
  have hpid := htally q.pid
  rw [if_pos rfl] at hpid
  refine Booked.enter hj _ (fun sp hsp hne => ?_) (fun pid hne => ?_) (fun s hs => ?_)
    (fun s => ?_) fun s => ?_
  · refine (swapCount_congr fun u hu => ?_).le
    rcases mem_cons.mp hsp with rfl | hsp
    · exact absurd rfl hne
    · exact hother sp hsp u hu
  · rw [htally pid, if_neg hne, add_zero]
  · exact ⟨by rw [VmStats.unloaded, hs.1], hs.2⟩
  all_goals
    simp only [VmStats.unloaded]
    omega

/-- **`clock_evict`.** It returns 0 only if no frame is registered, and then nothing has changed; it
panics only if a frame is registered and no swap slot is free. -/
theorem clockEvict_spec (h : VmInv S held k.vm) (ho : Owners S k)
    (hE : k.victim ≠ none → freeSlot k.vm.swapArea = none → E "clock_evict: swap full")
    {Q : ℕ → Kernel → Prop} (hnone : k.victim = none → Q 0 k)
    (hsome : ∀ i k', k.victim = some i → 0 < (k.vm.ftable i).pa → Evicted S held i k k' →
      Q (k.vm.ftable i).pa k') :
    wp clockEvict Q E k := by
  rw [clockEvict, wp_bind]
  refine clockSelect_spec h.hand (fun hvic => ?_) fun i ft hand hvic hft hhand => ?_
  · rw [wp_pure]
    exact hnone hvic
  have hi := Kernel.victim_used h.hand hvic
  simp only [wp_bind]
  obtain ⟨q, hq, vpn, hd⟩ := h.entries i hi
  obtain ⟨R, rfl⟩ := exists_cons_of_mem hq
  obtain ⟨j, hj⟩ := ho q hq hd.live
  obtain ⟨t, hl⟩ := exists_leafTable_of_valid hd.valid
  simp only [wp_bind, wp_onVm, swapOut, wp_get, Kernel.setVm_vm]
  cases hslot : freeSlot k.vm.swapArea with
  | none =>
    simp only [wp_pure, wp_panic]
    exact hE (by rw [hvic]; exact Option.some_ne_none i) hslot
  | some slot =>
    have hunused : (k.vm.swapArea slot).used = false := by
      simpa using Table.of_first hslot
    simp only [wp_bind, wp_modify, wp_pure, hft.pid, hft.va, hft.pa]
    change wp (evictRewrite (ft i) slot) _ E (k.setVm (k.vm.saveFrame i ft hand slot))
    have hj' : findProc (k.setVm (k.vm.saveFrame i ft hand slot)) (ft i).pid = some j := by
      rw [hft.pid, hd.pid]
      exact hj.findProc
    refine wp_evictRewrite hj' hj.root ((hft.va i).trans hd.va) (lt_maxVpn hd.user) hl hd.valid
      fun k₁ hk₁ => ?_
    obtain ⟨hinv, hself, hlog, hrest, hother⟩ :=
      h.swapLeaf hft hhand hunused hi hd hl (congrArg Kernel.vm hk₁)
    have htables : SameTables (q ::ₘ R) k.vm k₁.vm := by
      intro sp hsp u
      rw [hk₁]
      exact h.missing_swapLeaf (swappedPte slot) hl hsp u
    have hframes : k.framesUsed = k₁.framesUsed + 1 := by
      rw [hk₁]
      exact framesUsed_saveFrame hand slot hft hi
    have hslots : k₁.slotsUsed = k.slotsUsed + 1 := by
      rw [hk₁]
      exact slotsUsed_saveFrame (i := i) ft hand hunused
    have hfree : k₁.freePages = k.freePages := by rw [hk₁]; rfl
    have hpaged : Paged k k₁ := by rw [hk₁]; exact Paged.setVm k _
    have hsym : k₁.vm.kmem.sym = k.vm.kmem.sym := by rw [hk₁]; rfl
    have hpa : 0 < (k.vm.ftable i).pa :=
      pos_of_mem_physPages (hinv.held_managed (mem_cons_self _ _))
    have htally : ∀ pid, tally k.vm pid = tally k₁.vm pid + if pid = q.pid then 1 else 0 := by
      intro pid
      rw [hk₁, ← hd.pid]
      exact tally_saveFrame hand slot hft hi pid
    rw [wp_onVm, Kernel.setStats_vm]
    refine wp_kfree hinv fun v₂ h₂ hkeep₂ hlen₂ hft₂ harea₂ htables₂ _ => ?_
    have hkeep : ∀ {sp : Space} {u : ℕ}, sp ∈ q ::ₘ R → u < userPages →
        KeepsAt k.vm k₁.vm sp.root u → KeepsAt k.vm v₂ sp.root u :=
      fun hsp hu hk => hk.trans (hkeep₂.same _ hsp _ hu)
    obtain ⟨hsame, hgone⟩ := sameMemory_of_swap h hd (hkeep₂.sym.trans hsym)
      ((hkeep₂.same q hq vpn hd.user).1.trans hself)
      ((hkeep₂.same q hq vpn hd.user).2.trans hlog)
      (fun u hu hne => hkeep hq hu (hrest u hu hne))
      (fun sp hsp u hu => hkeep (mem_cons_of_mem hsp) hu (hother sp hsp u hu))
      fun sp hsp u => (htables₂ sp hsp u).trans (htables sp hsp u)
    refine hsome i _ hvic hpa ⟨h₂, ?_, ?_, hsame, ?_, ?_, ?_, ?_, fun s hs => ?_, hgone⟩
    · exact hpaged.trans ((Paged.setStats k₁ j _).trans (Paged.setVm _ v₂))
    · have heq : (k₁.setStats j VmStats.unloaded).setVm v₂
          = (k.setVm v₂).setStats j VmStats.unloaded := by rw [hk₁]; rfl
      rw [heq]
      exact booked_unload h hj hd.user hd.valid (hkeep₂.tally ▸ htally)
        ((hkeep₂.same q hq vpn hd.user).1.trans hself)
        (fun u hu hne => (hkeep hq hu (hrest u hu hne)).1)
        fun sp hsp u hu => (hkeep (mem_cons_of_mem hsp) hu (hother sp hsp u hu)).1
    · rw [hframes, Kernel.framesUsed, Kernel.framesUsed, frametableUsed, frametableUsed, ← hft₂]
      rfl
    · rw [← hslots, Kernel.slotsUsed, Kernel.slotsUsed, ← harea₂]
      rfl
    · rw [← hfree]
      exact hlen₂
    · have hreg : k₁.vm.registered ⊆ k.vm.registered := by
        rw [hk₁]
        exact registered_saveFrame hand slot hft
      rw [Kernel.setVm_vm, Vm.registered, hft₂]
      exact hreg
    · have hne : s ≠ slot := by
        rintro rfl
        rw [hunused] at hs
        cases hs
      have hkept : k₁.vm.swapArea s = k.vm.swapArea s := by
        rw [hk₁]
        exact Vm.setSlot_swapArea_of_ne _ _ hne
      rw [← hkept]
      exact congrFun harea₂ s

/-! ### Making room -/

/-- `kalloc_or_evict` has to evict: the frame table is full or memory is exhausted. -/
def Kernel.MustEvict (k : Kernel) : Prop := k.framesUsed = maxFrames ∨ k.freePages = 0

instance (k : Kernel) : Decidable k.MustEvict := inferInstanceAs (Decidable (_ ∨ _))

/-- The result of `kalloc_or_evict` when it finds the page `x`. -/
structure Obtained (S : Multiset Space) (held : Multiset ℕ) (x : ℕ) (k k' : Kernel) : Prop where
  inv : VmInv S (x ::ₘ held) k'.vm
  paged : Paged k k'
  booked : Booked S k k'
  same : SameMemory S k.vm k'.vm
  room : k'.framesUsed < maxFrames
  frames : k.framesUsed = k'.framesUsed + if k.MustEvict then 1 else 0
  slots : k'.slotsUsed = k.slotsUsed + if k.MustEvict then 1 else 0
  free : k.freePages = k'.freePages + if k.MustEvict then 0 else 1
  registered : k'.vm.registered ⊆ k.vm.registered
  kept : ∀ s, (k.vm.swapArea s).used = true → k'.vm.swapArea s = k.vm.swapArea s
  /-- Without an eviction no process is touched. -/
  calm : ¬k.MustEvict → k'.proc = k.proc
  gone : ∀ q ∈ S, ∀ u < userPages,
    (lookup k'.vm.kmem.mem q.root u = lookup k.vm.kmem.mem q.root u ↔
      ¬(k.MustEvict ∧ (lookup k.vm.kmem.mem q.root u).has pteV = true ∧
        ∃ i, k.victim = some i ∧
          pte2pa (lookup k.vm.kmem.mem q.root u) = (k.vm.ftable i).pa))

/-- Allocating a page keeps everything but the free list. -/
theorem wp_kalloc_kernel (h : VmInv S held k.vm) {Q : Option ℕ → Kernel → Prop}
    (hnone : k.freePages = 0 → Q none k)
    (hsome : ∀ x k', VmInv S (x ::ₘ held) k'.vm → Paged k k' → Booked S k k' →
      Keeps S k.vm k'.vm →
      SameMemory S k.vm k'.vm → k'.vm.ftable = k.vm.ftable →
      k'.vm.swapArea = k.vm.swapArea → k'.proc = k.proc →
      k.freePages = k'.freePages + 1 → Q (some x) k') :
    wp (onVm (onKmem kalloc)) Q E k := by
  rw [wp_onVm]
  refine wp_kalloc h (fun hF => ?_) fun x v' h' hkeep _ hlen hft harea htables _ => ?_
  · exact hnone (by rw [Kernel.freePages, hF, List.length_nil])
  · refine hsome x _ h' (Paged.setVm k v') hkeep.booked hkeep ⟨hkeep.sym, fun q hq u hu =>
      (hkeep.same q hq u hu).sameAt, htables⟩ hft harea rfl hlen

theorem Evicted.wp_kalloc {k₁ : Kernel} (he : Evicted S held i k k₁) (hmust : k.MustEvict)
    (hvic : k.victim = some i) {Q : Option ℕ → Kernel → Prop}
    (hsome : ∀ x k', Obtained S held x k k' → Q (some x) k') :
    wp (onVm (onKmem kalloc)) Q E k₁ := by
  refine wp_kalloc_kernel he.inv (fun hF => ?_)
    fun x k₂ h₂ hpaged hbook hkeep hsame hft harea hproc hfree => ?_
  · rw [he.free] at hF
    exact absurd hF (Nat.succ_ne_zero _)
  · have h1 := he.frames
    have h2 := he.slots
    have h3 := he.free
    have hle : k.framesUsed ≤ maxFrames := Table.count_le _
    have hframes := Kernel.framesUsed_congr hft
    have hslots := Kernel.slotsUsed_congr harea
    refine hsome x k₂ ⟨h₂, he.paged.trans hpaged, he.booked.trans he.paged hbook,
      he.same.trans hsame, by omega, ?_, ?_, ?_, ?_, fun s hs => ?_, fun hn => absurd hmust hn, ?_⟩
    · rw [if_pos hmust]
      omega
    · rw [if_pos hmust]
      omega
    · rw [if_pos hmust]
      omega
    · rw [Vm.registered, hft]
      exact he.registered
    · rw [harea]
      exact he.kept s hs
    · intro q hq u hu
      rw [(hkeep.same q hq u hu).1, he.gone q hq u hu, not_iff_not]
      constructor
      · rintro ⟨hval, hpa⟩
        exact ⟨hmust, hval, i, hvic, hpa⟩
      · rintro ⟨-, hval, i', hvic', hpa⟩
        rw [hvic] at hvic'
        exact ⟨hval, (Option.some.inj hvic') ▸ hpa⟩

/-- **`kalloc_or_evict`.** It fails only if memory is exhausted and nothing can be evicted, and then
nothing has changed. -/
theorem kallocOrEvict_spec (h : VmInv S held k.vm) (ho : Owners S k)
    (hE : k.MustEvict → k.victim ≠ none → freeSlot k.vm.swapArea = none →
      E "clock_evict: swap full")
    {Q : Option ℕ → Kernel → Prop}
    (hnone : k.freePages = 0 → k.victim = none → Q none k)
    (hsome : ∀ x k', Obtained S held x k k' → Q (some x) k') :
    wp kallocOrEvict Q E k := by
  rw [kallocOrEvict, wp_bind, wp_get]
  by_cases hfull : maxFrames ≤ frametableUsed k.vm
  · have hmust : k.MustEvict := Or.inl (le_antisymm (Table.count_le _) hfull)
    have hvic : k.victim ≠ none := by
      rw [Ne, Kernel.victim_eq_none h.hand]
      intro hunused
      have : frametableUsed k.vm = 0 := Table.count_eq_zero.mpr hunused
      rw [this] at hfull
      exact absurd hfull (by decide)
    rw [if_pos hfull, wp_bind]
    refine clockEvict_spec h ho (hE hmust) (fun hv => absurd hv hvic) fun i k₁ hi hpos he => ?_
    rw [if_neg (Nat.pos_iff_ne_zero.mp hpos), kallocElseEvict, wp_bind]
    refine he.wp_kalloc hmust hi fun x k₂ hob => ?_
    rw [wp_pure]
    exact hsome x k₂ hob
  · rw [if_neg hfull, kallocElseEvict, wp_bind]
    refine wp_kalloc_kernel h (fun hF => ?_)
      fun x k₁ h₁ hpaged hbook hkeep hsame hft harea hproc hfree => ?_
    · have hmust : k.MustEvict := Or.inr hF
      rw [wp_bind]
      refine clockEvict_spec h ho (hE hmust) (fun hv => ?_) fun i k₁ hi hpos he => ?_
      · rw [if_pos rfl, wp_pure]
        exact hnone hF hv
      · rw [if_neg (Nat.pos_iff_ne_zero.mp hpos)]
        exact he.wp_kalloc hmust hi hsome
    · have hmust : ¬k.MustEvict := by
        rintro (hu | hF)
        · exact hfull hu.ge
        · omega
      rw [wp_pure]
      have hframes := Kernel.framesUsed_congr hft
      have hslots := Kernel.slotsUsed_congr harea
      have hreg : k₁.vm.registered ⊆ k.vm.registered := by rw [Vm.registered, hft]; exact subset_rfl
      refine hsome x k₁ ⟨h₁, hpaged, hbook, hsame, ?_, ?_, ?_, ?_, hreg,
        fun s _ => congrFun harea s, fun _ => hproc, fun q hq u hu => ?_⟩
      · rw [hframes]
        exact not_le.mp hfull
      · rw [if_neg hmust, hframes, Nat.add_zero]
      · rw [if_neg hmust, hslots, Nat.add_zero]
      · rw [if_neg hmust, hfree]
      · exact iff_of_true (hkeep.same q hq u hu).1 fun hh => hmust hh.1

end Evict

end Xv6
