import Xv6.Filling

/-!
# Evictions in steps

`clock_evict` holds `ftlock` only while it chooses the victim. The copy of the page to a slot, the
change of the owner's entry and the release of the frame come after it, one by one, and the owner
may be running on another CPU. This file cuts `clock_evict` there and lets the owner store to its
memory between any two steps.

## The window

Until the entry is rewritten the owner's stores go to the frame. After the rewrite its page is what
the slot has, and that is what the frame had when it was copied. So a store between the copy and
the rewrite is lost, unless it leaves the page as it was; stores at any other time are kept.
-/

namespace Xv6

open Prog Function

/-! ### The steps -/

/-- Where an eviction stands. -/
inductive EvictPc where
  /-- About to choose the victim, under `ftlock`. -/
  | select
  /-- About to copy the page to a slot. -/
  | save (saved : FrameEntry)
  /-- About to rewrite the owner's entry. -/
  | rewrite (saved : FrameEntry) (slot : Fin maxSwapSlots)
  /-- About to free the frame. -/
  | free (saved : FrameEntry)
  /-- `clock_evict` returns. -/
  | done (freed : ℕ)

/-- **One step of `clock_evict`.** -/
def evictStep : EvictPc → Prog Kernel EvictPc
  | .select => do
    match ← clockSelect with
    | none => return .done 0
    | some saved => return .save saved
  | .save saved => do
    match ← onVm (swapOut saved.pa saved.pid saved.va) with
    | none => Prog.panic "clock_evict: swap full"
    | some slot => return .rewrite saved slot
  | .rewrite saved slot => do
    evictRewrite saved slot
    return .free saved
  | .free saved => do
    onVm (onKmem (kfree saved.pa))
    return .done saved.pa
  | .done freed => return .done freed

/-- The owner's entry is rewritten, or there is no victim. -/
def EvictPc.late : EvictPc → Bool
  | .free _ | .done _ => true
  | _ => false

/-! ### The owner -/

/-- The kernel after a byte of a frame is written. -/
def Kernel.poke (k : Kernel) (pa off : ℕ) (b : Byte) : Kernel :=
  k.setVm (k.vm.setKmem (k.vm.kmem.setPage pa (writeBytes (k.vm.kmem.mem pa) off [b])))

/-- A store of user code; `false` if the process traps. -/
def tryStore (me : Fin nproc) (va : ℕ) (b : Byte) : Prog Kernel Bool := do
  let k ← Prog.get
  let pagetable := addrOf (k.proc me).pagetable
  if permits k.vm pagetable va .store then do
    copyoutMove (pte2pa (lookup k.vm.kmem.mem pagetable (va / pgsize))) (va % pgsize) [b]
    return true
  else return false

/-- An eviction, and a process that stores to its memory meanwhile. -/
structure Race where
  kernel : Kernel
  pc : EvictPc
  /-- What the completed stores have made of the memory of the process. No code reads it. -/
  memory : ℕ → Page

/-- A completed store. -/
def storeByte (memory : ℕ → Page) (va : ℕ) (b : Byte) : ℕ → Page :=
  update memory (va / pgsize) (writeBytes (memory (va / pgsize)) (va % pgsize) [b])

/-- One step of the eviction, or a store of process `me`, which completes or traps. -/
inductive RaceStep (me : Fin nproc) (s : Race) : Race → Prop where
  | evict {p : EvictPc} {k : Kernel} (h : evictStep s.pc s.kernel = .ok (p, k)) :
      RaceStep me s { s with kernel := k, pc := p }
  | store {va : ℕ} {b : Byte} {k : Kernel} (h : tryStore me va b s.kernel = .ok (true, k)) :
      RaceStep me s { s with kernel := k, memory := storeByte s.memory va b }
  | trap {va : ℕ} {b : Byte} {k : Kernel} (h : tryStore me va b s.kernel = .ok (false, k)) :
      RaceStep me s { s with kernel := k }

/-- The eviction and the stores in any order. -/
def Races (me : Fin nproc) : Race → Race → Prop := Relation.ReflTransGen (RaceStep me)

/-- An eviction begins. -/
def raceStart (k : Kernel) (root : ℕ) : Race := ⟨k, .select, logical k.vm root⟩

/-- The process has every store it completed. -/
def Race.Kept (root : ℕ) (s : Race) : Prop :=
  ∀ u < userPages, logical s.kernel.vm root u = s.memory u

section Race

variable {sp q : Space} {R : Multiset Space} {held : Multiset ℕ} {me : Fin nproc} {k k' : Kernel}
  {s s' : Race} {saved : FrameEntry} {slot : Fin maxSwapSlots} {vpn : ℕ}

/-! ### What holds until the entry is rewritten -/

/-- Entry `saved` was in the table. -/
def WasRegistered (k : Kernel) (saved : FrameEntry) : Prop :=
  ∃ i ft, (k.vm.ftable i).used = true ∧ SameFrames k.vm.ftable ft ∧ saved = ft i

/-- What the eviction has done so far to the kernel `k` it began with, besides what the stores have
done to memory. -/
def EvictPc.Progress (k : Kernel) (v : Vm) : EvictPc → Prop
  | .select => v.ftable = k.vm.ftable ∧ v.clockHand = k.vm.clockHand ∧
      v.swapArea = k.vm.swapArea
  | .save saved => WasRegistered k saved ∧ v.swapArea = k.vm.swapArea
  | .rewrite saved slot => WasRegistered k saved ∧ (k.vm.swapArea slot).used = false ∧
      ∀ i, i ≠ slot → v.swapArea i = k.vm.swapArea i
  | .free _ | .done _ => False

/-- The invariant of the first half of the race. With the tables of the eviction as they were in
`k`, the kernel satisfies its own invariant, and the process has all it stored. -/
structure Race.Early (sp : Space) (R : Multiset Space) (held : Multiset ℕ) (k : Kernel)
    (s : Race) : Prop where
  procs : s.kernel = k.setVm s.kernel.vm
  inv : VmInv (sp ::ₘ R) held (k.vm.setKmem s.kernel.vm.kmem)
  entry : ∀ q ∈ sp ::ₘ R, ∀ u < userPages,
    lookup s.kernel.vm.kmem.mem q.root u = lookup k.vm.kmem.mem q.root u
  memory : ∀ u < userPages, logical (k.vm.setKmem s.kernel.vm.kmem) sp.root u = s.memory u
  progress : s.pc.Progress k s.kernel.vm

theorem Race.Early.evict {p : EvictPc} (h : s.Early sp R held k)
    (hrun : evictStep s.pc s.kernel = .ok (p, k')) :
    p.late = true ∨ Race.Early sp R held k { s with kernel := k', pc := p } := by
  have hstep : wp (evictStep s.pc) (fun p k' => p.late = true ∨ k' = s.kernel.setVm k'.vm ∧
      k'.vm.kmem = s.kernel.vm.kmem ∧ p.Progress k k'.vm) (fun _ => True) s.kernel := by
    have hprog := h.progress
    cases hpc : s.pc with
    | select =>
      rw [hpc] at hprog
      obtain ⟨hft, hclock, harea⟩ := hprog
      have hhand : s.kernel.vm.clockHand < maxFrames := hclock ▸ h.inv.hand
      rw [evictStep, wp_bind]
      refine clockSelect_spec hhand (fun _ => Or.inl rfl) fun i ft hand hvic hsame _ =>
        Or.inr ⟨rfl, rfl, ⟨i, ft, ?_, hft ▸ hsame, rfl⟩, harea⟩
      rw [← hft]
      exact Kernel.victim_used hhand hvic
    | save saved =>
      rw [hpc] at hprog
      obtain ⟨hreg, harea⟩ := hprog
      rw [evictStep, wp_bind, wp_onVm, swapOut, wp_bind, wp_get]
      cases hslot : freeSlot s.kernel.vm.swapArea with
      | none => exact trivial
      | some slot =>
        have hunused : (s.kernel.vm.swapArea slot).used = false := by
          simpa using Table.of_first hslot
        rw [wp_bind, wp_modify, wp_pure]
        refine Or.inr ⟨rfl, rfl, hreg, harea ▸ hunused, fun i hi => ?_⟩
        exact (Vm.setSlot_swapArea_of_ne _ _ hi).trans (congrFun harea i)
    | rewrite saved slot =>
      rw [evictStep, wp_bind]
      exact wp_of_forall fun _ _ => Or.inl rfl
    | free saved => exact (hpc ▸ hprog : EvictPc.Progress k _ (.free saved)).elim
    | done freed => exact (hpc ▸ hprog : EvictPc.Progress k _ (.done freed)).elim
  rcases wp_ok hstep hrun with hlate | ⟨hk, hkmem, hprog⟩
  · exact Or.inl hlate
  · refine Or.inr ⟨?_, ?_, ?_, ?_, hprog⟩
    · rw [hk, h.procs]
      rfl
    · rw [hkmem]
      exact h.inv
    · rw [hkmem]
      exact h.entry
    · rw [hkmem]
      exact h.memory

theorem tryStore_eq {va : ℕ} {b : Byte} (hroot : (k.proc me).pagetable = some sp.root) :
    tryStore me va b k = .ok (if permits k.vm sp.root va .store then
      (true, k.poke (pte2pa (lookup k.vm.kmem.mem sp.root (va / pgsize))) (va % pgsize) b)
      else (false, k)) := by
  have haddr : addrOf (k.proc me).pagetable = sp.root := by rw [hroot]; rfl
  rw [← haddr]
  change (if permits k.vm (addrOf (k.proc me).pagetable) va .store then _ else _ :
    Prog Kernel Bool) k = _
  split_ifs
  · rfl
  · rfl

theorem Race.Early.store {va : ℕ} {b : Byte} (h : s.Early sp R held k)
    (hf : Faulting sp R held me k) (hrun : tryStore me va b s.kernel = .ok (true, k')) :
    Race.Early sp R held k { s with kernel := k', memory := storeByte s.memory va b } := by
  have hroot : (s.kernel.proc me).pagetable = some sp.root := by
    rw [h.procs]
    exact hf.owner.root
  rw [tryStore_eq hroot] at hrun
  split_ifs at hrun with hperm
  · obtain rfl := (Prod.mk.inj (Except.ok.inj hrun)).2
    -- the same store, with the tables of the eviction as they were
    have hf' : Faulting sp R held me (k.setVm (k.vm.setKmem s.kernel.vm.kmem)) :=
      hf.paged (Paged.setVm k _) h.inv
    obtain ⟨hn, hval⟩ := hf'.of_permits (a := .store) hperm
    have hst := Stored.of_write hf'.inv (hf'.user hn) hval (writeBytes (s.kernel.vm.kmem.mem
      (pte2pa (lookup s.kernel.vm.kmem.mem sp.root (va / pgsize)))) (va % pgsize) [b])
    refine ⟨?_, hst.serviced.inv, fun q hq u hu => ?_, fun u hu => ?_, ?_⟩
    · rw [h.procs]
      rfl
    · rw [← h.entry q hq u hu]
      rcases Multiset.mem_cons.mp hq with rfl | hq'
      · by_cases huv : u = va / pgsize
        · rw [huv]
          exact hst.entry
        · exact (hst.rest u hu huv).1
      · exact (hst.others q hq' u hu).1
    · by_cases huv : u = va / pgsize
      · subst huv
        change _ = storeByte _ _ _ _
        rw [storeByte, update_self, ← h.memory _ hu]
        have hpage : logical (k.vm.setKmem s.kernel.vm.kmem) sp.root (va / pgsize)
            = s.kernel.vm.kmem.mem _ := contents_valid hval
        rw [hpage]
        exact hst.data
      · change _ = storeByte _ _ _ _
        rw [storeByte, update_of_ne huv, ← h.memory u hu]
        exact (hst.rest u hu huv).2
    · have hprog := h.progress
      revert hprog
      cases s.pc with
      | _ => exact id
  · nomatch (Prod.mk.inj (Except.ok.inj hrun)).1

/-- **A step of the race** before the entry is rewritten. -/
theorem Race.Early.step (h : s.Early sp R held k) (hf : Faulting sp R held me k)
    (hs : RaceStep me s s') : s'.pc.late = true ∨ s'.Early sp R held k := by
  cases hs with
  | evict hrun => exact h.evict hrun
  | store hrun => exact Or.inr (h.store hf hrun)
  | trap hrun =>
    have hroot : (s.kernel.proc me).pagetable = some sp.root := by
      rw [h.procs]
      exact hf.owner.root
    rw [tryStore_eq hroot] at hrun
    split_ifs at hrun
    · nomatch (Prod.mk.inj (Except.ok.inj hrun)).1
    · obtain rfl := (Prod.mk.inj (Except.ok.inj hrun)).2
      exact Or.inr h

theorem late_step (h : s.pc.late = true) (hs : RaceStep me s s') : s'.pc.late = true := by
  cases hs with
  | store _ => exact h
  | trap _ => exact h
  | evict hrun =>
    refine wp_ok (Q := fun p _ => p.late = true) (E := fun _ => True) ?_ hrun
    cases hpc : s.pc with
    | free saved =>
      rw [evictStep, wp_bind]
      exact wp_of_forall fun _ _ => rfl
    | done freed => exact rfl
    | _ =>
      rw [hpc] at h
      nomatch h

theorem Race.Early.run (h : s.Early sp R held k) (hf : Faulting sp R held me k)
    (hs : Races me s s') : s'.pc.late = true ∨ s'.Early sp R held k := by
  induction hs with
  | refl => exact Or.inr h
  | tail _ hlast ih =>
    rcases ih with hlate | hearly
    · exact Or.inl (late_step hlate hlast)
    · exact hearly.step hf hlast

theorem Faulting.early (h : Faulting sp R held me k) :
    (raceStart k sp.root).Early sp R held k :=
  ⟨rfl, h.inv, fun _ _ _ _ => rfl, fun _ _ => rfl, rfl, rfl, rfl⟩

/-! ### The rewrite -/

theorem Faulting.eq_of_pid (h : Faulting sp R held me k) (hq : q ∈ sp ::ₘ R)
    (hpid : (k.proc me).pid = q.pid) (hlive : 0 < q.pid) : q = sp := by
  rcases Multiset.mem_cons.mp hq with hq' | hq'
  · exact hq'
  · obtain ⟨j, hj⟩ := h.owners q hq hlive
    have hroot := hj.root
    rw [← hj.pid_unique me hpid, h.owner.root] at hroot
    refine absurd (VmInv.mem_footprint_of_tables (root_mem_tables k.vm.kmem.mem q.root))
      (h.inv.footprint_apart hq' ?_)
    rw [← Option.some.inj hroot]
    exact VmInv.mem_footprint_of_tables (root_mem_tables _ _)

/-- The frame is what the completed stores have made of the page. -/
theorem Race.Early.page (h : s.Early sp R held k) (hf : Faulting sp R held me k)
    (hpc : s.pc = .rewrite saved slot) (hown : saved.pid = (k.proc me).pid) :
    s.memory (saved.va / pgsize) = s.kernel.vm.kmem.mem saved.pa := by
  have hprog := h.progress
  rw [hpc] at hprog
  obtain ⟨⟨i, ft, hused, hft, rfl⟩, -⟩ := hprog
  obtain ⟨q, hq, vpn, hd⟩ := h.inv.entries i hused
  obtain rfl : q = sp := hf.eq_of_pid hq (by rw [← hown, hft.pid]; exact hd.pid) hd.live
  have hva : (ft i).va / pgsize = vpn := by
    rw [(hft.va i).trans hd.va]
    exact Nat.mul_div_cancel _ (by decide)
  rw [hva, ← h.memory vpn hd.user, logical, contents_valid hd.valid, hd.pa, hft.pa]
  rfl

/-- **The third step.** The page is now what was copied to the slot; all other pages are what the
process has stored. -/
theorem Race.Early.rewrite (h : s.Early sp R held k) (hf : Faulting sp R held me k)
    (hpc : s.pc = .rewrite saved slot) (hown : saved.pid = (k.proc me).pid) :
    wp (evictRewrite saved slot) (fun _ k' =>
      (∀ u < userPages, logical k'.vm sp.root u = s.memory u) ↔
        (s.kernel.vm.swapArea slot).data = s.kernel.vm.kmem.mem saved.pa)
      (fun _ => False) s.kernel := by
  have hprog := h.progress
  rw [hpc] at hprog
  obtain ⟨⟨i, ft, hused, hft, rfl⟩, hunused, harea⟩ := hprog
  obtain ⟨q, hq, vpn, hd⟩ := h.inv.entries i hused
  obtain rfl : q = sp := hf.eq_of_pid hq (by rw [← hown, hft.pid]; exact hd.pid) hd.live
  obtain ⟨t, hl⟩ := exists_leafTable_of_valid hd.valid
  have hproc : s.kernel.proc = k.proc := by rw [h.procs]; rfl
  have hj : findProc s.kernel (ft i).pid = some me := by
    rw [hown, hf.owner.pid, h.procs]
    exact hf.owner.findProc
  refine wp_evictRewrite hj (by rw [hproc]; exact hf.owner.root) ((hft.va i).trans hd.va)
    (lt_maxVpn hd.user) hl hd.valid fun k₁ hk₁ => ?_
  -- the same rewrite with an up-to-date slot is that of an undisturbed eviction
  obtain ⟨v, hv⟩ : ∃ v : Vm, v = ((k.vm.setKmem s.kernel.vm.kmem).saveFrame i k.vm.ftable
      k.vm.clockHand slot).setKmem (s.kernel.vm.kmem.setPte ⟨t, slotOf vpn⟩ (swappedPte slot)) :=
    ⟨_, rfl⟩
  obtain ⟨hinv, hself, -, hrest, -⟩ :=
    h.inv.swapLeaf (.refl _) h.inv.hand hunused hused hd hl hv
  have hkmem : k₁.vm.kmem = v.kmem := by rw [hk₁, hv]; rfl
  have hpage : logical k₁.vm q.root vpn = (s.kernel.vm.swapArea slot).data := by
    rw [logical, hkmem, hself, contents_swappedPte, hk₁]
    rfl
  have hother : ∀ u < userPages, u ≠ vpn → logical k₁.vm q.root u = s.memory u := by
    intro u hu hne
    rw [← h.memory u hu, ← (hrest u hu hne).2]
    refine ((hinv.spaces q (Multiset.mem_cons_self q R)).keepsAt hu (by rw [hkmem])
      (fun _ => by rw [hkmem]) fun i hi => ?_).2
    have hni : i ≠ slot := by
      rintro rfl
      exact hne (hinv.slot_inj (Multiset.mem_cons_self q R) (Multiset.mem_cons_self q R) hu
        hd.user hi hself).2
    rw [hk₁, hv, Vm.saveFrame]
    change (s.kernel.vm.swapArea i).data = ((Vm.setSlot _ slot _).swapArea i).data
    rw [Vm.setSlot_swapArea_of_ne _ _ hni, harea i hni]
    rfl
  have hmem : s.memory vpn = s.kernel.vm.kmem.mem (ft i).pa := by
    rw [← h.memory vpn hd.user, logical, contents_valid hd.valid, hd.pa, hft.pa]
    rfl
  rw [← hmem, ← hpage]
  refine ⟨fun hall => hall vpn hd.user, fun hone u hu => ?_⟩
  by_cases hne : u = vpn
  · rw [hne]
    exact hone
  · exact hother u hu hne

/-! ### Stores that are kept and stores that are lost -/

variable {extra : Multiset ℕ} {root : ℕ}

theorem Faulting.race_rewrite (hf : Faulting sp R held me k)
    (hrun : Races me (raceStart k sp.root) s) (hpc : s.pc = .rewrite saved slot)
    (hown : saved.pid = (k.proc me).pid) :
    ∃ k', evictStep s.pc s.kernel = .ok (.free saved, k') ∧
      (Race.Kept sp.root ⟨k', .free saved, s.memory⟩ ↔
        (s.kernel.vm.swapArea slot).data = s.kernel.vm.kmem.mem saved.pa) := by
  rcases hf.early.run hf hrun with hlate | hearly
  · rw [hpc] at hlate
    nomatch hlate
  · obtain ⟨_, k', hk', hiff⟩ := exists_of_wp (hearly.rewrite hf hpc hown)
    refine ⟨k', ?_, hiff⟩
    rw [hpc]
    exact bind_of_ok hk'

/-- **Stores during an eviction.** Whatever the owner has stored and whenever, the third step
succeeds, and the owner has all its stores after it exactly if the frame is still what was copied to
the slot. -/
theorem KInv.stores_kept_iff (h : KInv extra k) (hroot : (k.proc me).pagetable = some root)
    (hrun : Races me (raceStart k root) s) (hpc : s.pc = .rewrite saved slot)
    (hown : saved.pid = (k.proc me).pid) :
    ∃ k', evictStep s.pc s.kernel = .ok (.free saved, k') ∧
      (Race.Kept root ⟨k', .free saved, s.memory⟩ ↔
        (s.kernel.vm.swapArea slot).data = s.kernel.vm.kmem.mem saved.pa) :=
  (h.faulting hroot).race_rewrite hrun hpc hown

/-- The kernel after the page of `saved` is copied to a slot. -/
def Kernel.copied (k : Kernel) (saved : FrameEntry) (slot : Fin maxSwapSlots) : Kernel :=
  k.setVm (k.vm.setSlot slot ⟨true, saved.pid, saved.va, k.vm.kmem.mem saved.pa⟩)

theorem Kernel.copied_data (k : Kernel) (saved : FrameEntry) (slot : Fin maxSwapSlots) :
    ((k.copied saved slot).vm.swapArea slot).data = k.vm.kmem.mem saved.pa := by
  rw [Kernel.copied, Kernel.setVm_vm, Vm.setSlot_swapArea_self]

theorem evictStep_save (hslot : freeSlot k.vm.swapArea = some slot) :
    evictStep (.save saved) k = .ok (.rewrite saved slot, k.copied saved slot) := by
  obtain ⟨p, k', hrun, rfl, rfl⟩ := exists_of_wp (x := evictStep (.save saved)) (s := k)
    (Q := fun p k' => p = .rewrite saved slot ∧ k' = k.copied saved slot) (by
      rw [evictStep, wp_bind, wp_onVm, swapOut, wp_bind, wp_get, hslot]
      exact ⟨rfl, rfl⟩)
  exact hrun

/-- Until the entry is rewritten the slot is left alone. -/
theorem RaceStep.slot_kept (hs : RaceStep me s s') (hpc : s.pc = .rewrite saved slot) :
    s'.pc.late = true ∨
      s'.pc = .rewrite saved slot ∧ s'.kernel.vm.swapArea = s.kernel.vm.swapArea := by
  have hstore : ∀ {va b r k'}, tryStore me va b s.kernel = .ok (r, k') →
      k'.vm.swapArea = s.kernel.vm.swapArea := fun {va b r k'} hrun => by
    refine (wp_of_ok (Q := fun _ k' => k'.vm.swapArea = _) (E := fun _ => True) hrun).mp ?_
    rw [tryStore, wp_bind, wp_get]
    refine wp_ite (fun _ => rfl) fun _ => rfl
  cases hs with
  | store hrun | trap hrun => exact Or.inr ⟨hpc, hstore hrun⟩
  | evict hrun =>
    rw [hpc] at hrun
    obtain ⟨_, _, -, heq⟩ := bind_ok_iff.mp hrun
    obtain ⟨rfl, -⟩ := Prod.mk.inj (Except.ok.inj heq)
    exact Or.inl rfl

/-- **A schedule that keeps all stores.** If no store completes to the page of the victim between
its copy and the rewrite of its entry, so that the page is what it was, the owner has all its
stores. -/
theorem KInv.stores_kept_of_spared (h : KInv extra k) (hroot : (k.proc me).pagetable = some root)
    (hrun : Races me (raceStart k root) s) (hpc : s.pc = .save saved)
    (hown : saved.pid = (k.proc me).pid) (hslot : freeSlot s.kernel.vm.swapArea = some slot)
    (hrest : Races me ⟨s.kernel.copied saved slot, .rewrite saved slot, s.memory⟩ s')
    (hpc' : s'.pc = .rewrite saved slot)
    (hspared : s'.memory (saved.va / pgsize) = s.memory (saved.va / pgsize)) :
    ∃ k', evictStep s'.pc s'.kernel = .ok (.free saved, k') ∧
      Race.Kept root ⟨k', .free saved, s'.memory⟩ := by
  have hf := h.faulting hroot
  have hfirst : Races me (raceStart k root)
      ⟨s.kernel.copied saved slot, .rewrite saved slot, s.memory⟩ :=
    hrun.tail (.evict (by rw [hpc]; exact evictStep_save hslot))
  have hpage : ∀ {t : Race}, Races me (raceStart k root) t → t.pc = .rewrite saved slot →
      t.memory (saved.va / pgsize) = t.kernel.vm.kmem.mem saved.pa := fun ht hpc => by
    rcases hf.early.run hf ht with hlate | hearly
    · rw [hpc] at hlate
      nomatch hlate
    · exact hearly.page hf hpc hown
  have harea : s'.pc.late = true ∨ s'.pc = .rewrite saved slot ∧
      s'.kernel.vm.swapArea = (s.kernel.copied saved slot).vm.swapArea := by
    clear hpc' hspared
    induction hrest with
    | refl => exact Or.inr ⟨rfl, rfl⟩
    | tail _ hlast ih =>
      rcases ih with hlate | ⟨hpc, harea⟩
      · exact Or.inl (late_step hlate hlast)
      · exact (hlast.slot_kept hpc).imp_right fun hkept => ⟨hkept.1, hkept.2.trans harea⟩
  obtain ⟨k', hk', hiff⟩ := h.stores_kept_iff hroot (hfirst.trans hrest) hpc' hown
  refine ⟨k', hk', hiff.mpr ?_⟩
  rw [hpc'] at harea
  rw [(harea.resolve_left Bool.noConfusion).2, ← hpage (hfirst.trans hrest) hpc', hspared,
    hpage hfirst rfl, Kernel.copied_data]
  rfl

/-- Wherever an eviction is possible, the owner can store to the page after it is copied: `f` says
what becomes of its first byte. -/
theorem KInv.exists_race (h : KInv extra k) (hvic : k.victim ≠ none)
    (hfree : freeSlot k.vm.swapArea ≠ none) (f : Byte → Byte) :
    ∃ me root saved slot s, (k.proc me).pagetable = some root ∧
      Races me (raceStart k root) s ∧ s.pc = .rewrite saved slot ∧
      saved.pid = (k.proc me).pid ∧ s.kernel.vm.kmem.mem saved.pa
        = writeBytes (s.kernel.vm.swapArea slot).data 0
          [f (byteAt (s.kernel.vm.swapArea slot).data 0)] := by
  obtain ⟨slot, hslot⟩ := Option.ne_none_iff_exists'.mp hfree
  -- the victim is chosen
  obtain ⟨p, k₁, hselect, i, ft, hand, hused, hft, rfl, rfl⟩ := exists_of_wp
    (x := evictStep .select) (s := k) (Q := fun p k' => ∃ i ft hand, (k.vm.ftable i).used = true ∧
      SameFrames k.vm.ftable ft ∧ p = .save (ft i) ∧
      k' = k.setVm { k.vm with ftable := update ft i .free, clockHand := hand }) (by
    rw [evictStep, wp_bind]
    exact clockSelect_spec h.vm.hand (fun hnone => absurd hnone hvic) fun i ft hand hi hft _ =>
      ⟨i, ft, hand, Kernel.victim_used h.vm.hand hi, hft, rfl, rfl⟩)
  obtain ⟨k₁, hk₁⟩ : ∃ k₁, k₁ = k.setVm { k.vm with
    ftable := update ft i .free, clockHand := hand } := ⟨_, rfl⟩
  rw [← hk₁] at hselect
  have hkmem : k₁.vm.kmem = k.vm.kmem := by rw [hk₁]; rfl
  have hsave : evictStep (.save (ft i)) k₁
      = .ok (.rewrite (ft i) slot, k₁.copied (ft i) slot) :=
    evictStep_save (by rw [hk₁]; exact hslot)
  -- the owner stores
  obtain ⟨q, hq, vpn, hd⟩ := h.vm.entries i hused
  obtain ⟨me, hme⟩ := h.owners q hq hd.live
  have hroot : ((k₁.copied (ft i) slot).proc me).pagetable = some q.root := by
    rw [hk₁]
    exact hme.root
  obtain ⟨va, hdiv, hmod, hmax⟩ : ∃ va, va / pgsize = vpn ∧ va % pgsize = 0 ∧ va < maxva :=
    ⟨vpn * pgsize, Nat.mul_div_cancel _ (by decide), Nat.mul_mod_left _ _,
      (Nat.mul_lt_mul_of_pos_right (lt_maxVpn hd.user) (by decide)).trans_eq (by decide)⟩
  have hlook : lookup (k₁.copied (ft i) slot).vm.kmem.mem q.root (va / pgsize)
      = lookup k.vm.kmem.mem q.root vpn := by
    rw [hdiv, ← hkmem]
    rfl
  have hperm : permits (k₁.copied (ft i) slot).vm q.root va .store = true := by
    simp only [permits, hlook, Bool.and_eq_true, decide_eq_true_eq]
    exact ⟨⟨⟨hmax, hd.valid⟩, hd.access⟩, hd.write⟩
  have hstore := @tryStore_eq _ _ _ va (f (byteAt (k₁.vm.kmem.mem (ft i).pa) 0)) hroot
  rw [if_pos hperm, hlook, hd.pa, ← hft.pa, hmod] at hstore
  refine ⟨me, q.root, ft i, slot, _, hme.root,
    .tail (.tail (.single (.evict hselect)) (.evict hsave)) (.store hstore), rfl, ?_, ?_⟩
  · rw [hft.pid, hd.pid, hme.pid]
  · change (Kernel.poke _ _ _ _).vm.kmem.mem _ = writeBytes ((k₁.copied _ _).vm.swapArea slot).data
      0 [f (byteAt ((k₁.copied _ _).vm.swapArea slot).data 0)]
    rw [Kernel.copied_data]
    exact Kmem.setPage_mem_self _ _ _

end Race

/-- A state in which one page is resident. -/
theorem exists_evictable : ∃ k, Reachable .small k ∧ k.victim ≠ none ∧
    freeSlot k.vm.swapArea ≠ none := by
  obtain ⟨i, root, k, hreach, hf⟩ := filled_by_loads (n := 1) (by decide)
  refine ⟨k, hreach.reachable, fun hnone => ?_, ?_⟩
  · have hzero : k.framesUsed = 0 :=
      Table.count_eq_zero.mpr ((Kernel.victim_eq_none hf.ok.inv.vm.hand).mp hnone)
    rw [hf.frames] at hzero
    nomatch hzero
  · have hlt : k.slotsUsed < maxSwapSlots := hf.slots.trans_lt (by decide)
    exact Option.ne_none_iff_exists'.mpr (Table.first_isSome_of_count_lt hlt)

theorem writeBytes_self (pg : Page) : writeBytes pg 0 [byteAt pg 0] = pg := by
  funext i
  rw [writeBytes]
  split_ifs with hi
  · obtain rfl : i = 0 := Fin.ext (Nat.lt_one_iff.mp hi.2)
    rfl
  · rfl

theorem stores_kept_undisturbed : ∃ k me root s, Reachable .small k ∧
    (k.proc me).pagetable = some root ∧ Races me (raceStart k root) s ∧ s.pc.late = true ∧
    s.Kept root := by
  obtain ⟨k, hreach, hvic, hfree⟩ := exists_evictable
  obtain ⟨me, root, saved, slot, s, hroot, hrun, hpc, hown, hmem⟩ :=
    hreach.ok.inv.exists_race hvic hfree id
  obtain ⟨k', hk', hiff⟩ := hreach.ok.inv.stores_kept_iff hroot hrun hpc hown
  refine ⟨k, me, root, _, hreach, hroot, hrun.tail (.evict hk'), rfl, hiff.mpr ?_⟩
  rw [hmem]
  exact (writeBytes_self _).symm

/-- **Stores are lost.** -/
theorem stores_lost : ¬∀ (b : Boot) (k : Kernel) (me : Fin nproc) (root : ℕ) (saved : FrameEntry)
    (s : Race), Reachable b k → (k.proc me).pagetable = some root →
    saved.pid = (k.proc me).pid → Races me (raceStart k root) s → s.pc = .free saved →
    s.Kept root := by
  intro hall
  obtain ⟨k, hreach, hvic, hfree⟩ := exists_evictable
  obtain ⟨me, root, saved, slot, s, hroot, hrun, hpc, hown, hmem⟩ :=
    hreach.ok.inv.exists_race hvic hfree (· + 1)
  obtain ⟨k', hk', hiff⟩ := (hreach.ok.inv.faulting hroot).race_rewrite hrun hpc hown
  have hkept := hall _ k me root saved ⟨k', .free saved, s.memory⟩ hreach hroot hown
    (hrun.tail (.evict hk')) rfl
  have hbyte : (s.kernel.vm.swapArea slot).data 0 = (s.kernel.vm.swapArea slot).data 0 + 1 :=
    congrFun ((hiff.mp hkept).trans hmem) 0
  have hne : ∀ x : Byte, x ≠ x + 1 := by decide
  exact hne _ hbyte

end Xv6
