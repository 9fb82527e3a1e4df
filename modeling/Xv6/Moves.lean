import Xv6.Space

/-!
# Moves that keep the paging invariant

Each step of the paging code moves a page, changes one leaf entry, or updates one of the two
tables. This file has one lemma for each kind of move; the functions of `Vm.lean` are sequences of
them.

A move of a page table changes one space and leaves the others alone, so the lemmas speak about an
invariant `VmInv (sp ::ₘ R) held v` in which the space being changed is in front.
-/

namespace Xv6

open Ledger Function Multiset

/-- Memory changes outside the footprints of some spaces. -/
theorem Keeps.of_agree {S : Multiset Space} {v : Vm} {k : Kmem} (hok : ∀ q ∈ S, SpaceOk v q)
    (hsym : k.sym = v.kmem.sym)
    (hm : ∀ q ∈ S, ∀ y ∈ footprint v.kmem.mem q, k.mem y = v.kmem.mem y) :
    Keeps S v (v.setKmem k) where
  sym := hsym
  hand := rfl
  frames _ _ := rfl
  slots _ _ := rfl
  same q hq u hu := by
    refine (hok q hq).keepsAt hu ?_ (fun hval => ?_) fun _ _ => rfl
    · exact congrFun (lookup_congr fun y hy => hm q hq y (VmInv.mem_footprint_of_tables hy)) u
    · exact hm q hq _ (VmInv.mem_footprint_of_valid hu hval)
  tally := rfl
  lost := rfl
  uncounted _ _ := rfl

namespace VmInv

variable {S R : Multiset Space} {sp sp' q : Space} {held held' : Multiset ℕ} {v v' : Vm}
  {k : Kmem} {x vpn : ℕ} {a : Fin maxSwapSlots → SwapSlot}

/-! ### Pages in hand -/

/-- A change of memory that leaves every page table alone. -/
theorem setKmem (h : VmInv S held v) (hsym : k.sym = v.kmem.sym) (hre : k.refreed = false)
    (hpages : (k.freelist : Multiset ℕ) + held' = v.kmem.freelist + held)
    (hm : ∀ q ∈ S, ∀ y ∈ tables v.kmem.mem q.root, k.mem y = v.kmem.mem y) :
    VmInv S held' (v.setKmem k) where
  refreed := hre
  pages := by
    have hmap : S.map (footprint k.mem) = S.map (footprint v.kmem.mem) :=
      map_congr rfl fun q hq => footprint_congr (hm q hq)
    rw [Vm.setKmem_kmem, hpages, hmap, hsym]
    exact h.pages
  spaces q hq := (h.spaces q hq).congr rfl (hm q hq)
  pids := h.pids
  entries i hi := by
    obtain ⟨q, hq, u, hd⟩ := h.entries i hi
    exact ⟨q, hq, u, hd.congr (congrFun (lookup_congr (hm q hq)) u)⟩
  distinct := h.distinct
  hand := h.hand
  named hlost slot hused := by
    obtain ⟨q, hq, u, hu, he⟩ := h.named hlost slot hused
    exact ⟨q, hq, u, hu, (congrFun (lookup_congr (hm q hq)) u).trans he⟩

/-- A page that is on the free list or in hand is not a table. -/
theorem notMem_tables (h : VmInv S held v) (hx : x ∈ v.kmem.freelist ∨ x ∈ held) (hq : q ∈ S) :
    x ∉ tables v.kmem.mem q.root := by
  intro hx'
  rcases hx with hx | hx
  · exact h.free_notMem_footprint hx hq (mem_footprint_of_tables hx')
  · exact h.held_notMem_footprint hx hq (mem_footprint_of_tables hx')

theorem take (h : VmInv S held v) {next : List ℕ} (hF : v.kmem.freelist = x :: next)
    (pg : Page) : VmInv S (x ::ₘ held) (v.setKmem ((v.kmem.setFree next).setPage x pg)) := by
  refine h.setKmem rfl h.refreed ?_ fun q hq => update_agree (h.notMem_tables ?_ hq) pg
  · rw [hF, ← cons_coe, cons_add, add_cons]
    rfl
  · exact Or.inl (by simp [hF])

theorem write (h : VmInv S held v) (hx : x ∈ held) (pg : Page) :
    VmInv S held (v.setKmem (v.kmem.setPage x pg)) :=
  h.setKmem rfl h.refreed rfl fun _ hq => update_agree (h.notMem_tables (Or.inr hx) hq) pg

theorem give (h : VmInv S (x ::ₘ held) v) (pg : Page) :
    VmInv S held (v.setKmem ((v.kmem.setPage x pg).push x)) := by
  have hx : x ∈ x ::ₘ held := mem_cons_self x held
  refine h.setKmem rfl ?_ ?_ fun q hq => update_agree (h.notMem_tables (Or.inr hx) hq) pg
  · exact (Kmem.push_refreed (s := v.kmem.setPage x pg) (h.held_notMem_free hx)).trans h.refreed
  · rw [Kmem.push_freelist, Kmem.setPage_freelist, ← cons_coe, cons_add,
      add_cons]

/-! ### Entries of a page table -/

/-- A change of one page table, in general. The space may change its description, but not its root
and its process. -/
theorem setTree (h : VmInv (sp ::ₘ R) held v) (hstep : TreeStep sp.root v.kmem k)
    (hroot : sp'.root = sp.root) (hpid : sp'.pid = sp.pid)
    (hok : SpaceOk { v with kmem := k, swapArea := a } sp')
    (hleaf : ∀ q ∈ R, ∀ u < userPages, LeafOk v.swapArea q.pid u (lookup v.kmem.mem q.root u) →
      LeafOk a q.pid u (lookup v.kmem.mem q.root u))
    (hheld : held' + frames k.mem sp.root = held + frames v.kmem.mem sp.root)
    (hft : ∀ i u, (v.ftable i).used = true → Describes v (v.ftable i) sp u →
      lookup k.mem sp.root u = lookup v.kmem.mem sp.root u)
    (hnamed : v.lost = false → ∀ slot, (a slot).used = true →
      (∃ u < userPages, lookup k.mem sp.root u = swappedPte slot) ∨
      ((v.swapArea slot).used = true ∧
        ∀ u < userPages, lookup v.kmem.mem sp.root u ≠ swappedPte slot)) :
    VmInv (sp' ::ₘ R) held' { v with kmem := k, swapArea := a } := by
  have hsp : sp ∈ sp ::ₘ R := mem_cons_self sp R
  -- the tables of the other spaces are neither tables of this one nor free
  have hm : ∀ q ∈ R, ∀ y ∈ tables v.kmem.mem q.root, k.mem y = v.kmem.mem y := by
    intro q hq y hy
    have hy' := mem_footprint_of_tables hy
    refine hstep.frame y (fun hy'' => ?_) fun hy'' => ?_
    · exact h.footprint_apart hq (mem_footprint_of_tables hy'') hy'
    · exact h.free_notMem_footprint hy'' (mem_cons_of_mem hq) hy'
  refine ⟨hstep.refreed.trans h.refreed, ?_, ?_, ?_, ?_, h.distinct, h.hand, ?_⟩
  · have hmap : R.map (footprint k.mem) = R.map (footprint v.kmem.mem) :=
      map_congr rfl fun q hq => footprint_congr (hm q hq)
    have hpages := h.pages
    rw [map_cons, sum_cons] at hpages ⊢
    rw [hstep.sym, ← hpages, hmap, footprint, footprint, hroot]
    calc (k.freelist : Multiset ℕ) + held'
          + (tables k.mem sp.root + frames k.mem sp.root + (R.map (footprint v.kmem.mem)).sum)
        = (tables k.mem sp.root + k.freelist) + (held' + frames k.mem sp.root)
          + (R.map (footprint v.kmem.mem)).sum := by abel
      _ = _ := by rw [hstep.pages, hheld]; abel
  · intro q hq
    rcases mem_cons.mp hq with rfl | hq
    · exact hok
    · have hq' := h.spaces q (mem_cons_of_mem hq)
      have hl := lookup_congr (hm q hq)
      exact ⟨hq'.tree.congr (hm q hq), hq'.bound, by rw [hl]; exact hq'.beyond,
        fun u hu => by rw [hl]; exact hleaf q hq u hu (hq'.leaf u hu), by rw [hl]; exact hq'.tframe,
        by rw [hl]; exact hq'.tramp, hq'.tframeOk, hq'.trampOk⟩
  · intro a ha b hb hpos hab
    rcases mem_cons.mp ha with rfl | ha'
    · rcases mem_cons.mp hb with rfl | hb'
      · rfl
      · have hdup := h.pids sp hsp b (mem_cons_of_mem hb') (hpid ▸ hpos)
          (hpid.symm.trans hab)
        exact absurd (hdup ▸ hb') h.notMem_rest
    · rcases mem_cons.mp hb with rfl | hb'
      · have hdup := h.pids sp hsp a (mem_cons_of_mem ha') (hpid ▸ hab ▸ hpos)
          (hpid.symm.trans hab.symm)
        exact absurd (hdup ▸ ha') h.notMem_rest
      · exact h.pids a (mem_cons_of_mem ha') b (mem_cons_of_mem hb') hpos hab
  · intro i hi
    obtain ⟨q, hq, u, hd⟩ := h.entries i hi
    rcases mem_cons.mp hq with rfl | hq
    · refine ⟨sp', mem_cons_self _ _, u, ?_⟩
      have hl : lookup k.mem sp'.root u = lookup v.kmem.mem q.root u := by
        rw [hroot]
        exact hft i u hi hd
      exact ⟨hpid ▸ hd.live, hpid ▸ hd.pid, hd.user, hd.va, by rw [hl]; exact hd.valid,
        by rw [hl]; exact hd.read, by rw [hl]; exact hd.write, by rw [hl]; exact hd.access,
        by rw [hl]; exact hd.pa⟩
    · exact ⟨q, mem_cons_of_mem hq, u, hd.congr (congrFun (lookup_congr (hm q hq)) u)⟩
  · intro hlost slot hused
    rcases hnamed hlost slot hused with ⟨u, hu, he⟩ | ⟨hused', hnot⟩
    · exact ⟨sp', mem_cons_self _ _, u, hu, by rw [hroot]; exact he⟩
    · obtain ⟨q, hq, u, hu, he⟩ := h.named hlost slot hused'
      rcases mem_cons.mp hq with rfl | hq
      · exact absurd he (hnot u hu)
      · exact ⟨q, mem_cons_of_mem hq, u, hu,
          (congrFun (lookup_congr (hm q hq)) u).trans he⟩

theorem slot_unnamed (h : VmInv S held v) (hq : q ∈ S) (hv : vpn < userPages)
    {i : Fin maxSwapSlots} (hi : (v.swapArea i).used = false) :
    lookup v.kmem.mem q.root vpn ≠ swappedPte i := by
  intro heq
  have hused := (heq ▸ (h.spaces q hq).leaf vpn hv).owner.2.1
  rw [hi] at hused
  nomatch hused

/-- **Changing the entry of one user page.** At the same time the slot that the old entry names may
be released, and slots that were free may be filled. -/
theorem setLeaf (h : VmInv (sp ::ₘ R) held v) (hstep : TreeStep sp.root v.kmem k)
    (hv : vpn < userPages)
    (hother : ∀ u < maxVpn, u ≠ vpn → lookup k.mem sp.root u = lookup v.kmem.mem sp.root u)
    (harea : ∀ slot : Fin maxSwapSlots, a slot = v.swapArea slot ∨
      (v.swapArea slot).used = false ∨ lookup v.kmem.mem sp.root vpn = swappedPte slot)
    (hnamed : v.lost = false → ∀ slot : Fin maxSwapSlots, (a slot).used = true →
      (v.swapArea slot).used = false ∨ lookup v.kmem.mem sp.root vpn = swappedPte slot →
      lookup k.mem sp.root vpn = swappedPte slot)
    (hleaf : LeafOk a sp.pid vpn (lookup k.mem sp.root vpn))
    (hbound : vpn < sp.npages ∨ lookup k.mem sp.root vpn = 0#64)
    (hheld : held' + frameOf (lookup k.mem sp.root vpn)
      = held + frameOf (lookup v.kmem.mem sp.root vpn))
    (hft : ∀ i, (v.ftable i).used = true → ¬Describes v (v.ftable i) sp vpn) :
    VmInv (sp ::ₘ R) held' { v with kmem := k, swapArea := a } := by
  have hsp : sp ∈ sp ::ₘ R := mem_cons_self sp R
  have hold := h.spaces sp hsp
  have hlt : ∀ u < userPages, u < maxVpn := fun u hu => by
    have := userPages_lt_maxVpn
    omega
  -- an entry that names a slot names one that is in use
  have hsame : ∀ {q : Space}, q ∈ sp ::ₘ R → ∀ {u : ℕ}, u < userPages → (q = sp → u ≠ vpn) →
      ∀ slot : Fin maxSwapSlots, lookup v.kmem.mem q.root u = swappedPte slot →
      a slot = v.swapArea slot := by
    intro q hq u hu hne slot hs
    rcases harea slot with heq | hunused | hs'
    · exact heq
    · exact absurd hs (h.slot_unnamed hq hu hunused)
    · obtain ⟨hqsp, huv⟩ := h.slot_inj hq hsp hu hv hs hs'
      exact absurd huv (hne hqsp)
  refine h.setTree hstep rfl rfl ⟨hstep.tree, hold.bound, ?_, ?_, ?_, ?_, hold.tframeOk,
    hold.trampOk⟩ ?_ ?_ ?_ ?_
  · intro u hu hu'
    by_cases huv : u = vpn
    · subst huv
      exact hbound.resolve_left (not_lt.mpr hu)
    · exact (hother u (hlt u hu') huv).trans (hold.beyond u hu hu')
  · intro u hu
    by_cases huv : u = vpn
    · subst huv
      exact hleaf
    · change LeafOk a sp.pid u (lookup k.mem sp.root u)
      rw [hother u (hlt u hu) huv]
      exact (hold.leaf u hu).congr fun slot hs => hsame hsp hu (fun _ => huv) slot hs
  · have hne : userPages ≠ vpn := fun heq => lt_irrefl _ (heq ▸ hv)
    exact (hother _ (by decide) hne).trans hold.tframe
  · have hne : userPages + 1 ≠ vpn := fun heq => by omega
    exact (hother _ (by decide) hne).trans hold.tramp
  · intro q hq u hu hq'
    refine hq'.congr fun slot hs => hsame (mem_cons_of_mem hq) hu (fun hqsp => ?_) slot hs
    exact absurd (hqsp ▸ hq) h.notMem_rest
  · have hframes := frames_setLeaf hv
      fun u hu hne => hother u (hlt u hu) hne
    refine add_right_cancel (b := frameOf (lookup v.kmem.mem sp.root vpn)) ?_
    calc held' + frames k.mem sp.root + frameOf (lookup v.kmem.mem sp.root vpn)
        = held' + frameOf (lookup k.mem sp.root vpn) + frames v.kmem.mem sp.root := by
          rw [add_assoc, hframes]; abel
      _ = _ := by rw [hheld]; abel
  · intro i u hi hd
    refine hother u (hlt u hd.user) fun huv => ?_
    exact hft i hi (huv ▸ hd)
  · intro hlost slot hused
    by_cases hnew : lookup k.mem sp.root vpn = swappedPte slot
    · exact Or.inl ⟨vpn, hv, hnew⟩
    · have hold' := fun hh => hnew (hnamed hlost slot hused hh)
      have hused' : (v.swapArea slot).used = true := by
        rw [← Bool.not_eq_false]
        exact fun hh => hold' (Or.inl hh)
      by_cases hex : ∃ u < userPages, lookup v.kmem.mem sp.root u = swappedPte slot
      · obtain ⟨u, hu, he⟩ := hex
        have huv : u ≠ vpn := fun huv => hold' (Or.inr (huv ▸ he))
        exact Or.inl ⟨u, hu, (hother u (hlt u hu) huv).trans he⟩
      · exact Or.inr ⟨hused', fun u hu he => hex ⟨u, hu, he⟩⟩

/-- What a change that leaves user pages and slots alone does to names. -/
theorem named_of_same
    (hother : ∀ u < userPages, lookup k.mem sp.root u = lookup v.kmem.mem sp.root u)
    (slot : Fin maxSwapSlots) (hused : (v.swapArea slot).used = true) :
    (∃ u < userPages, lookup k.mem sp.root u = swappedPte slot) ∨
      ((v.swapArea slot).used = true ∧
        ∀ u < userPages, lookup v.kmem.mem sp.root u ≠ swappedPte slot) := by
  by_cases hex : ∃ u < userPages, lookup v.kmem.mem sp.root u = swappedPte slot
  · obtain ⟨u, hu, he⟩ := hex
    exact Or.inl ⟨u, hu, (hother u hu).trans he⟩
  · exact Or.inr ⟨hused, fun u hu he => hex ⟨u, hu, he⟩⟩

theorem setTop (h : VmInv (sp ::ₘ R) held v) (hstep : TreeStep sp.root v.kmem k)
    (tframe tramp : Pte)
    (hother : ∀ u < userPages, lookup k.mem sp.root u = lookup v.kmem.mem sp.root u)
    (htframe : lookup k.mem sp.root userPages = tframe)
    (htramp : lookup k.mem sp.root (userPages + 1) = tramp)
    (htframeOk : TopOk tframe) (htrampOk : TopOk tramp) :
    VmInv ({ sp with tframe := tframe, tramp := tramp } ::ₘ R) held (v.setKmem k) := by
  have hold := h.spaces sp (mem_cons_self sp R)
  refine h.setTree (a := v.swapArea) hstep rfl rfl ⟨hstep.tree, hold.bound, ?_, ?_, htframe,
    htramp, htframeOk, htrampOk⟩ (fun _ _ _ _ hq => hq) ?_ ?_
    fun _ => named_of_same hother
  · exact fun u hu hu' => (hother u hu').trans (hold.beyond u hu hu')
  · intro u hu
    change LeafOk v.swapArea sp.pid u (lookup k.mem sp.root u)
    rw [hother u hu]
    exact hold.leaf u hu
  · rw [frames_congr hother]
  · exact fun i u _ hd => hother u hd.user

theorem retree (h : VmInv (sp ::ₘ R) held v) (hstep : TreeStep sp.root v.kmem k)
    (hlook : ∀ u < maxVpn, lookup k.mem sp.root u = lookup v.kmem.mem sp.root u) :
    VmInv (sp ::ₘ R) held (v.setKmem k) := by
  have hold := h.spaces sp (mem_cons_self sp R)
  refine h.setTop hstep sp.tframe sp.tramp (fun u hu => hlook u ?_) ?_ ?_ hold.tframeOk
    hold.trampOk
  · have := userPages_lt_maxVpn
    omega
  · exact (hlook _ (by decide)).trans hold.tframe
  · exact (hlook _ (by decide)).trans hold.tramp

/-- A space may claim more pages, or fewer if the others are absent. -/
theorem resize (h : VmInv (sp ::ₘ R) held v) {n : ℕ} (hn : n ≤ userPages)
    (hbeyond : ∀ u, n ≤ u → u < userPages → lookup v.kmem.mem sp.root u = 0#64) :
    VmInv ({ sp with npages := n } ::ₘ R) held v := by
  have hold := h.spaces sp (mem_cons_self sp R)
  exact h.setTree (a := v.swapArea) (.refl hold.tree) rfl rfl
    ⟨hold.tree, hn, hbeyond, hold.leaf, hold.tframe, hold.tramp, hold.tframeOk, hold.trampOk⟩
    (fun _ _ _ _ hq => hq) rfl (fun _ _ _ _ => rfl) fun _ => named_of_same fun _ _ => rfl

/-! ### The two tables -/

/-- Frame-table entries may be dropped, and their reference bits and the hand may change. -/
theorem setClock (h : VmInv S held v) {ft : Fin maxFrames → FrameEntry} {hand : ℕ}
    (hft : ∀ i, (ft i).used = true → (v.ftable i).used = true ∧ (ft i).pid = (v.ftable i).pid ∧
      (ft i).va = (v.ftable i).va ∧ (ft i).pa = (v.ftable i).pa)
    (hhand : hand < maxFrames) :
    VmInv S held { v with ftable := ft, clockHand := hand } where
  refreed := h.refreed
  pages := h.pages
  spaces q hq := (h.spaces q hq).congr rfl fun _ _ => rfl
  pids := h.pids
  entries i hi := by
    obtain ⟨hi', hpid, hva, hpa⟩ := hft i hi
    obtain ⟨q, hq, u, hd⟩ := h.entries i hi'
    exact ⟨q, hq, u, hd.live, hpid.trans hd.pid, hd.user, hva.trans hd.va, hd.valid, hd.read,
      hd.write, hd.access, hd.pa.trans hpa.symm⟩
  distinct i j hi hj heq := by
    obtain ⟨hi', -, -, hpa⟩ := hft i hi
    obtain ⟨hj', -, -, hpa'⟩ := hft j hj
    exact h.distinct i j hi' hj' (hpa.symm.trans (heq.trans hpa'))
  hand := hhand
  named := h.named

theorem dropFrame (h : VmInv S held v) (i : Fin maxFrames) : VmInv S held (v.setFrame i .free) := by
  refine h.setClock (fun j hj => ?_) h.hand
  have hne : j ≠ i := by
    rintro rfl
    simp [FrameEntry.free] at hj
  rw [update_of_ne hne] at hj ⊢
  exact ⟨hj, rfl, rfl, rfl⟩

/-- What the state notes for the reader only may change, except that a slot once lost stays so. -/
theorem setNotes (h : VmInv S held v) {l : Bool} (hl : l = false → v.lost = false) (c : ℤ → ℤ) :
    VmInv S held { v with lost := l, uncounted := c } where
  refreed := h.refreed
  pages := h.pages
  spaces q hq := (h.spaces q hq).congr rfl fun _ _ => rfl
  pids := h.pids
  entries i hi := by
    obtain ⟨q, hq, u, hd⟩ := h.entries i hi
    exact ⟨q, hq, u, hd.congr rfl⟩
  distinct := h.distinct
  hand := h.hand
  named hlost := h.named (hl hlost)

theorem noteUncounted (h : VmInv S held v) (pid n : ℤ) :
    VmInv S held (v.noteUncounted pid n) :=
  h.setNotes id _

/-- Registering a mapped page whose frame is not registered yet. -/
theorem addFrame (h : VmInv S held v) (i : Fin maxFrames) {e : FrameEntry} (hq : q ∈ S)
    (hd : Describes v e q vpn) (hnew : ∀ j, (v.ftable j).used = true → (v.ftable j).pa ≠ e.pa) :
    VmInv S held (v.setFrame i e) where
  refreed := h.refreed
  pages := h.pages
  spaces q hq := (h.spaces q hq).congr rfl fun _ _ => rfl
  pids := h.pids
  entries j hj := by
    by_cases hji : j = i
    · subst hji
      rw [Vm.setFrame_ftable_self]
      exact ⟨q, hq, vpn, hd.congr rfl⟩
    · rw [Vm.setFrame_ftable_of_ne v e hji] at hj ⊢
      obtain ⟨q', hq', u, hd'⟩ := h.entries j hj
      exact ⟨q', hq', u, hd'.congr rfl⟩
  distinct j l hj hl heq := by
    by_cases hji : j = i
    · by_cases hli : l = i
      · exact hji.trans hli.symm
      · subst hji
        rw [Vm.setFrame_ftable_of_ne v e hli] at hl heq
        rw [Vm.setFrame_ftable_self] at heq
        exact absurd heq.symm (hnew l hl)
    · rw [Vm.setFrame_ftable_of_ne v e hji] at hj heq
      by_cases hli : l = i
      · subst hli
        rw [Vm.setFrame_ftable_self] at heq
        exact absurd heq (hnew j hj)
      · rw [Vm.setFrame_ftable_of_ne v e hli] at hl heq
        exact h.distinct j l hj hl heq
  hand := h.hand
  named := h.named

/-! ### Spaces come and go -/

/-- A cleared page in hand becomes an empty space. -/
theorem openSpace (h : VmInv S (x ::ₘ held) v) (hclear : v.kmem.mem x = fill 0) {pid : ℤ}
    (hpid : ∀ q ∈ S, 0 < pid → q.pid ≠ pid) :
    VmInv (⟨x, pid, 0, 0#64, 0#64⟩ ::ₘ S) held v where
  refreed := h.refreed
  pages := by
    have hframes : frames v.kmem.mem x = 0 :=
      Finset.sum_eq_zero fun u _ => by rw [lookup_of_cleared hclear, frameOf_zero]
    rw [map_cons, sum_cons, footprint, tables_of_cleared hclear, hframes,
      add_zero, ← h.pages, singleton_add, add_cons, add_cons,
      cons_add]
  spaces q hq := by
    rcases mem_cons.mp hq with rfl | hq
    · exact ⟨.of_cleared hclear, Nat.zero_le _, fun u _ _ => lookup_of_cleared hclear u,
        fun u _ => Or.inl (lookup_of_cleared hclear u), lookup_of_cleared hclear _,
        lookup_of_cleared hclear _, Or.inl rfl, Or.inl rfl⟩
    · exact h.spaces q hq
  pids a ha b hb hpos hab := by
    rcases mem_cons.mp ha with rfl | ha'
    · rcases mem_cons.mp hb with rfl | hb'
      · rfl
      · exact absurd hab.symm (hpid b hb' hpos)
    · rcases mem_cons.mp hb with rfl | hb'
      · exact absurd hab (hpid a ha' (by rw [hab] at hpos; exact hpos))
      · exact h.pids a ha' b hb' hpos hab
  entries i hi := by
    obtain ⟨q, hq, u, hd⟩ := h.entries i hi
    exact ⟨q, mem_cons_of_mem hq, u, hd⟩
  distinct := h.distinct
  hand := h.hand
  named hlost slot hused := by
    obtain ⟨q, hq, u, hu, he⟩ := h.named hlost slot hused
    exact ⟨q, mem_cons_of_mem hq, u, hu, he⟩

/-- A space with no page left gives its tables back. -/
theorem closeSpace (h : VmInv (sp ::ₘ R) held v)
    (hempty : ∀ u < userPages, lookup v.kmem.mem sp.root u = 0#64)
    (hsym : k.sym = v.kmem.sym) (hre : k.refreed = v.kmem.refreed)
    (hF : (k.freelist : Multiset ℕ) = tables v.kmem.mem sp.root + v.kmem.freelist)
    (hm : ∀ y, y ∉ tables v.kmem.mem sp.root → k.mem y = v.kmem.mem y) :
    VmInv R held (v.setKmem k) := by
  have hm' : ∀ q ∈ R, ∀ y ∈ tables v.kmem.mem q.root, k.mem y = v.kmem.mem y :=
    fun q hq y hy => hm y fun hy' =>
      h.footprint_apart hq (mem_footprint_of_tables hy') (mem_footprint_of_tables hy)
  refine ⟨hre.trans h.refreed, ?_, fun q hq => ?_, fun a ha b hb => ?_, fun i hi => ?_,
    h.distinct, h.hand, fun hlost slot hused => ?_⟩
  · have hframes : frames v.kmem.mem sp.root = 0 :=
      Finset.sum_eq_zero fun u hu => by rw [hempty u (mem_below.mp hu), frameOf_zero]
    have hmap : R.map (footprint k.mem) = R.map (footprint v.kmem.mem) :=
      map_congr rfl fun q hq => footprint_congr (hm' q hq)
    have hpages := h.pages
    rw [map_cons, sum_cons, footprint, hframes, add_zero] at hpages
    rw [Vm.setKmem_kmem, hmap, hsym, hF, ← hpages]
    abel
  · exact (h.spaces q (mem_cons_of_mem hq)).congr rfl (hm' q hq)
  · exact h.pids a (mem_cons_of_mem ha) b (mem_cons_of_mem hb)
  · obtain ⟨q, hq, u, hd⟩ := h.entries i hi
    rcases mem_cons.mp hq with rfl | hq
    · have hval := hd.valid
      rw [hempty u hd.user, Pte.has_zero] at hval
      cases hval
    · exact ⟨q, hq, u, hd.congr (congrFun (lookup_congr (hm' q hq)) u)⟩
  · obtain ⟨q, hq, u, hu, he⟩ := h.named hlost slot hused
    rcases mem_cons.mp hq with rfl | hq
    · have hs := Pte.has_swappedPte_pteSwapped slot
      rw [← he, hempty u hu, Pte.has_zero] at hs
      cases hs
    · exact ⟨q, hq, u, hu, (congrFun (lookup_congr (hm' q hq)) u).trans he⟩

/-- A space that belongs to no process is given to one. -/
theorem relabel (h : VmInv (sp ::ₘ R) held v) (hsp : sp.pid ≤ 0) {pid : ℤ}
    (hpid : ∀ q ∈ R, q.pid ≠ pid) : VmInv ({ sp with pid := pid } ::ₘ R) held v where
  refreed := h.refreed
  pages := by
    rw [← h.pages, map_cons, map_cons]
    rfl
  spaces q hq := by
    rcases mem_cons.mp hq with rfl | hq
    · have hold := h.spaces sp (mem_cons_self sp R)
      refine ⟨hold.tree, hold.bound, hold.beyond, fun u hu => ?_, hold.tframe, hold.tramp,
        hold.tframeOk, hold.trampOk⟩
      rcases hold.leaf u hu with hl | hl | ⟨_, _, hpos, _⟩
      · exact Or.inl hl
      · exact Or.inr (Or.inl hl)
      · exact absurd hpos (not_lt.mpr hsp)
    · exact h.spaces q (mem_cons_of_mem hq)
  pids a ha b hb hpos hab := by
    rcases mem_cons.mp ha with rfl | ha'
    · rcases mem_cons.mp hb with rfl | hb'
      · rfl
      · exact absurd hab.symm (hpid b hb')
    · rcases mem_cons.mp hb with rfl | hb'
      · exact absurd hab (hpid a ha')
      · exact h.pids a (mem_cons_of_mem ha') b (mem_cons_of_mem hb') hpos hab
  entries i hi := by
    obtain ⟨q, hq, u, hd⟩ := h.entries i hi
    rcases mem_cons.mp hq with rfl | hq
    · exact absurd hd.live (not_lt.mpr hsp)
    · exact ⟨q, mem_cons_of_mem hq, u, hd⟩
  distinct := h.distinct
  hand := h.hand
  named hlost slot hused := by
    obtain ⟨q, hq, u, hu, he⟩ := h.named hlost slot hused
    rcases mem_cons.mp hq with rfl | hq
    · exact ⟨_, mem_cons_self _ _, u, hu, he⟩
    · exact ⟨q, mem_cons_of_mem hq, u, hu, he⟩

/-! ### What a move keeps -/

/-- A change of memory outside the spaces keeps them. -/
theorem keeps (h : VmInv S held v) (hsym : k.sym = v.kmem.sym)
    (hm : ∀ q ∈ S, ∀ y ∈ footprint v.kmem.mem q, k.mem y = v.kmem.mem y) :
    Keeps S v (v.setKmem k) :=
  .of_agree h.spaces hsym hm

/-- Writing the frame of one space keeps the others. -/
theorem keeps_frame (h : VmInv (sp ::ₘ R) held v) (hv : vpn < userPages)
    (hval : (lookup v.kmem.mem sp.root vpn).has pteV = true) (pg : Page) :
    Keeps R v (v.setKmem (v.kmem.setPage (pte2pa (lookup v.kmem.mem sp.root vpn)) pg)) := by
  refine .of_agree (fun q hq => h.spaces q (mem_cons_of_mem hq)) rfl fun q hq y hy => ?_
  refine update_of_ne ?_ _ _
  rintro rfl
  exact h.footprint_apart hq (mem_footprint_of_valid hv hval) hy

/-- A page that is on the free list or in hand is not a page of a space. -/
theorem agree_of_page (h : VmInv S held v) (hx : x ∈ v.kmem.freelist ∨ x ∈ held) (pg : Page) :
    ∀ q ∈ S, ∀ y ∈ footprint v.kmem.mem q,
      update v.kmem.mem x pg y = v.kmem.mem y := by
  intro q hq y hy
  refine update_of_ne ?_ _ _
  rintro rfl
  rcases hx with hx | hx
  · exact h.free_notMem_footprint hx hq hy
  · exact h.held_notMem_footprint hx hq hy

section Tree

variable (h : VmInv (sp ::ₘ R) held v) (hstep : TreeStep sp.root v.kmem k)
include h hstep

/-- Page-table code on one space keeps the others. -/
theorem keeps_tree (hdata : ∀ slot, (a slot).data = (v.swapArea slot).data)
    (hused : ∀ slot, (a slot).used = true → a slot = v.swapArea slot) :
    Keeps R v { v with kmem := k, swapArea := a } where
  sym := hstep.sym
  hand := rfl
  frames _ _ := rfl
  slots := hused
  same q hq u hu := by
    have hq' : q ∈ sp ::ₘ R := mem_cons_of_mem hq
    have hm : ∀ y ∈ footprint v.kmem.mem q, k.mem y = v.kmem.mem y := fun y hy =>
      hstep.frame y (fun hy' => h.footprint_apart hq (mem_footprint_of_tables hy') hy)
        fun hy' => h.free_notMem_footprint hy' hq' hy
    refine (h.spaces q hq').keepsAt hu ?_ (fun hval => ?_) fun slot _ => hdata slot
    · exact congrFun (lookup_congr fun y hy => hm y (mem_footprint_of_tables hy)) u
    · exact hm _ (mem_footprint_of_valid hu hval)
  tally := rfl
  lost := rfl
  uncounted _ _ := rfl

/-- Page-table code keeps the pages of its own space whose entries it leaves alone. -/
theorem keepsAt_tree (hdata : ∀ slot, (a slot).data = (v.swapArea slot).data) {u : ℕ}
    (hu : u < userPages) (hl : lookup k.mem sp.root u = lookup v.kmem.mem sp.root u) :
    KeepsAt v { v with kmem := k, swapArea := a } sp.root u := by
  have hsp : sp ∈ sp ::ₘ R := mem_cons_self sp R
  refine (h.spaces sp hsp).keepsAt hu hl (fun hval => ?_) fun slot _ => hdata slot
  exact hstep.frame _ (h.frame_notMem_tables hsp hu hval) fun hfree =>
    h.free_notMem_footprint hfree hsp (mem_footprint_of_valid hu hval)

/-- Page-table code that leaves the user pages of its space alone keeps that space too. -/
theorem keeps_self (hsame : ∀ u < userPages, lookup k.mem sp.root u = lookup v.kmem.mem sp.root u) :
    Keeps (sp ::ₘ R) v (v.setKmem k) := by
  have hkeep := h.keeps_tree (a := v.swapArea) hstep (fun _ => rfl) fun _ _ => rfl
  refine ⟨hkeep.sym, hkeep.hand, hkeep.frames, hkeep.slots, fun q hq u hu => ?_, hkeep.tally,
    hkeep.lost, fun _ _ => rfl⟩
  rcases mem_cons.mp hq with rfl | hq
  · exact h.keepsAt_tree (a := v.swapArea) hstep (fun _ => rfl) hu (hsame u hu)
  · exact hkeep.same q hq u hu

end Tree

/-- Taking, writing and freeing a page in hand keep every space. -/
theorem keeps_take (h : VmInv S held v) {next : List ℕ} (hF : v.kmem.freelist = x :: next)
    (pg : Page) : Keeps S v (v.setKmem ((v.kmem.setFree next).setPage x pg)) :=
  h.keeps rfl (h.agree_of_page (Or.inl (by simp [hF])) pg)

theorem keeps_write (h : VmInv S held v) (hx : x ∈ held) (pg : Page) :
    Keeps S v (v.setKmem (v.kmem.setPage x pg)) :=
  h.keeps rfl (h.agree_of_page (Or.inr hx) pg)

theorem keeps_give (h : VmInv S held v) (hx : x ∈ held) (pg : Page) :
    Keeps S v (v.setKmem ((v.kmem.setPage x pg).push x)) :=
  h.keeps rfl (h.agree_of_page (Or.inr hx) pg)

/-- Clearing the entry of a user page puts its frame in hand; its slot may be released. -/
theorem clearLeaf (h : VmInv (sp ::ₘ R) held v) (hv : vpn < userPages) {t : ℕ}
    (hl : leafTable v.kmem.mem sp.root (pathOf vpn) = some t)
    (harea : ∀ slot : Fin maxSwapSlots,
      a slot = v.swapArea slot ∨ lookup v.kmem.mem sp.root vpn = swappedPte slot)
    (hdata : ∀ slot, (a slot).data = (v.swapArea slot).data)
    (hused : ∀ slot, (a slot).used = true → a slot = v.swapArea slot)
    (hrel : ∀ slot : Fin maxSwapSlots,
      lookup v.kmem.mem sp.root vpn = swappedPte slot → (a slot).used = false)
    (hft : ∀ i, (v.ftable i).used = true → ¬Describes v (v.ftable i) sp vpn)
    (hv' : v' = { v with kmem := v.kmem.setPte ⟨t, slotOf vpn⟩ 0#64, swapArea := a }) :
    VmInv (sp ::ₘ R) (frameOf (lookup v.kmem.mem sp.root vpn) + held) v' ∧ Keeps R v v' ∧
      lookup v'.kmem.mem sp.root vpn = 0#64 ∧
      ∀ u < userPages, u ≠ vpn → KeepsAt v v' sp.root u := by
  subst hv'
  have hlt : ∀ u < userPages, u < maxVpn := fun u hu => by
    have := userPages_lt_maxVpn
    omega
  have hok := h.spaces sp (mem_cons_self sp R)
  obtain ⟨hstep, hself, hother⟩ := setLeaf_step hok.tree (hlt vpn hv) hl 0#64
  have hnamed : ∀ slot : Fin maxSwapSlots, (a slot).used = true →
      ¬((v.swapArea slot).used = false ∨ lookup v.kmem.mem sp.root vpn = swappedPte slot) := by
    rintro slot hs (hunused | he)
    · rw [hused slot hs, hunused] at hs
      nomatch hs
    · rw [hrel slot he] at hs
      nomatch hs
  refine ⟨h.setLeaf hstep hv hother (fun slot => (harea slot).imp_right Or.inr)
    (fun _ slot hs hh => absurd hh (hnamed slot hs)) (Or.inl hself) (Or.inr hself) ?_ hft,
    h.keeps_tree hstep hdata hused, hself,
    fun u hu hne => h.keepsAt_tree hstep hdata hu (hother u (hlt u hu) hne)⟩
  rw [hself, frameOf_zero, add_zero, add_comm]

end VmInv

end Xv6
