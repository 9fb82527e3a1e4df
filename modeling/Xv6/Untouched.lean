import Xv6.Moves

/-!
# What the paging code does not write

The code that builds and frees an address space works on the pages of that space and on free pages.
The specifications say what is kept of other spaces, page by page. Here the point is the memory
itself: no page that somebody else owns is written. So their tables are the same pages with the same
entries, and when an address space has come and gone, the pages that are free are the ones that were
free before.
-/

namespace Xv6

open Function Multiset

variable {S R : Multiset Space} {sp q : Space} {held held' : Multiset ℕ}
  {v v' v'' : Vm} {x y vpn : ℕ}

/-- The pages of the spaces `R`, and the pages `held`. -/
noncomputable def owned (R : Multiset Space) (held : Multiset ℕ) (v : Vm) : Multiset ℕ :=
  held + (R.map (footprint v.kmem.mem)).sum

theorem mem_owned : y ∈ owned R held v ↔ y ∈ held ∨ ∃ q ∈ R, y ∈ footprint v.kmem.mem q := by
  rw [owned, mem_add]
  refine or_congr Iff.rfl ⟨fun hy => ?_, fun ⟨q, hq, hy⟩ => VmInv.mem_sum hq hy⟩
  obtain ⟨m, hm, hym⟩ := Multiset.mem_join.mp hy
  obtain ⟨q, hq, rfl⟩ := mem_map.mp hm
  exact ⟨q, hq, hym⟩

theorem mem_owned_of_footprint (hq : q ∈ R) (hy : y ∈ footprint v.kmem.mem q) :
    y ∈ owned R held v :=
  mem_owned.mpr (Or.inr ⟨q, hq, hy⟩)

/-- No page that the spaces `R` or the holders of `held` own is written. -/
def Untouched (R : Multiset Space) (held : Multiset ℕ) (v v' : Vm) : Prop :=
  ∀ y ∈ owned R held v, v'.kmem.mem y = v.kmem.mem y

namespace Untouched

theorem refl (R : Multiset Space) (held : Multiset ℕ) (v : Vm) : Untouched R held v v :=
  fun _ _ => rfl

theorem footprint_eq (h : Untouched R held v v') (hq : q ∈ R) :
    footprint v'.kmem.mem q = footprint v.kmem.mem q :=
  footprint_congr fun x hx => h x (mem_owned_of_footprint hq (VmInv.mem_footprint_of_tables hx))

theorem owned_eq (h : Untouched R held v v') : owned R held v' = owned R held v := by
  rw [owned, owned, map_congr rfl fun q hq => h.footprint_eq hq]

theorem trans (h : Untouched R held v v') (h' : Untouched R held v' v'') :
    Untouched R held v v'' := fun y hy => by
  rw [h' y (h.owned_eq ▸ hy), h y hy]

theorem mono (h : Untouched S held v v') (hsub : ∀ q ∈ R, q ∈ S) (hheld : ∀ y ∈ held', y ∈ held) :
    Untouched R held' v v' := by
  intro y hy
  rcases mem_owned.mp hy with hy | ⟨q, hq, hy⟩
  · exact h y (mem_owned.mpr (Or.inl (hheld y hy)))
  · exact h y (mem_owned_of_footprint (hsub q hq) hy)

theorem tail (h : Untouched (sp ::ₘ R) held v v') : Untouched R held v v' :=
  h.mono (fun _ hq => mem_cons_of_mem hq) fun _ hy => hy

theorem rest (h : Untouched R (x ::ₘ held) v v') : Untouched R held v v' :=
  h.mono (fun _ hq => hq) fun _ hy => mem_cons_of_mem hy

theorem free_eq (h : Untouched S held v v') (hv : VmInv S held v) (hv' : VmInv S held v')
    (hsym : v'.kmem.sym = v.kmem.sym) :
    (v'.kmem.freelist : Multiset ℕ) = v.kmem.freelist := by
  have hpages := hv'.pages
  rw [hsym, ← hv.pages, add_assoc, add_assoc] at hpages
  have howned := h.owned_eq
  rw [owned, owned] at howned
  rw [howned] at hpages
  exact add_right_cancel hpages

end Untouched

theorem VmInv.owned_notMem_free (h : VmInv S held v) (hy : y ∈ owned S held v) :
    y ∉ v.kmem.freelist := fun hfree => by
  have hnd := h.nodup
  rw [add_assoc] at hnd
  exact disjoint_left.mp (nodup_add.mp hnd).2.2 (mem_coe.mpr hfree) hy

theorem VmInv.owned_notMem_footprint (h : VmInv (sp ::ₘ R) held v) (hy : y ∈ owned R held v) :
    y ∉ footprint v.kmem.mem sp := fun hsp => by
  rcases mem_owned.mp hy with hy | ⟨q, hq, hy⟩
  · exact h.held_notMem_footprint hy (mem_cons_self sp R) hsp
  · exact h.footprint_apart hq hsp hy

theorem VmInv.owned_cons (h : VmInv S (x ::ₘ held) v) (hy : y ∈ owned S held v) : y ≠ x := by
  rintro rfl
  have hnd := h.nodup
  rw [add_assoc] at hnd
  have hrest := (nodup_add.mp hnd).2.1
  rw [cons_add] at hrest
  exact (nodup_cons.mp hrest).1 hy

theorem mem_owned_cons (hy : y ∈ owned R held v) : y ∈ owned (sp ::ₘ R) held v := by
  rcases mem_owned.mp hy with hy | ⟨q, hq, hy⟩
  · exact mem_owned.mpr (Or.inl hy)
  · exact mem_owned_of_footprint (mem_cons_of_mem hq) hy

/-- Writing pages of one space and free pages. -/
theorem VmInv.untouched (h : VmInv (sp ::ₘ R) held v)
    (hm : ∀ y ∉ footprint v.kmem.mem sp, y ∉ v.kmem.freelist → v'.kmem.mem y = v.kmem.mem y) :
    Untouched R held v v' := fun y hy =>
  hm y (h.owned_notMem_footprint hy) (h.owned_notMem_free (mem_owned_cons hy))

theorem VmInv.untouched_tree (h : VmInv (sp ::ₘ R) held v) {k : Kmem}
    (hstep : TreeStep sp.root v.kmem k) (hk : v'.kmem = k) : Untouched R held v v' :=
  h.untouched fun y hy hfree => by
    rw [hk]
    exact hstep.frame y (fun ht => hy (mem_footprint_of_tables ht)) hfree

theorem VmInv.untouched_frame (h : VmInv (sp ::ₘ R) held v) (hv : vpn < userPages)
    (hval : (lookup v.kmem.mem sp.root vpn).has pteV = true) (pg : Page) :
    Untouched R held v (v.setKmem (v.kmem.setPage (pte2pa (lookup v.kmem.mem sp.root vpn)) pg)) :=
  h.untouched fun y hy _ => update_of_ne
    (fun heq : y = _ => hy (heq ▸ mem_footprint_of_valid hv hval)) _ _

/-- Writing a page in hand. -/
theorem VmInv.untouched_hand (h : VmInv S (x ::ₘ held) v) (pg : Page)
    (hm : v'.kmem.mem = update v.kmem.mem x pg) : Untouched S held v v' := fun y hy => by
  rw [hm, update_of_ne (h.owned_cons hy)]

/-! ### What is given back -/

/-- A space that is gone has given back all its pages. -/
theorem Untouched.gone (hR : Untouched R held v v') (h : VmInv (sp ::ₘ R) held v)
    (h' : VmInv R held v') (hsym : v'.kmem.sym = v.kmem.sym) :
    (v'.kmem.freelist : Multiset ℕ) = v.kmem.freelist + footprint v.kmem.mem sp := by
  have hothers : R.map (footprint v'.kmem.mem) = R.map (footprint v.kmem.mem) :=
    map_congr rfl fun q hq => hR.footprint_eq hq
  have hpages := h'.pages
  rw [hsym, ← h.pages, map_cons, sum_cons, hothers] at hpages
  refine add_right_cancel (b := held + (R.map (footprint v.kmem.mem)).sum) ?_
  calc _ = (v'.kmem.freelist : Multiset ℕ) + held + (R.map (footprint v.kmem.mem)).sum := by abel
    _ = _ := hpages
    _ = _ := by abel

/-- The slots that the pages `vpn` with `P` of a space have been swapped out to are free. -/
def SlotsFreed (root : ℕ) (P : ℕ → Prop) (v v' : Vm) : Prop :=
  ∀ u, P u → u < userPages → ∀ slot : Fin maxSwapSlots,
    lookup v.kmem.mem root u = swappedPte slot → (v'.swapArea slot).used = false

theorem Keeps.slot_unused (h : Keeps S v v') {slot : Fin maxSwapSlots}
    (hs : (v.swapArea slot).used = false) : (v'.swapArea slot).used = false := by
  by_contra hne
  have hused : (v'.swapArea slot).used = true := by simpa using hne
  rw [h.slots slot hused, hs] at hused
  nomatch hused

end Xv6
