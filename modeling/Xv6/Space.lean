import Mathlib.Algebra.BigOperators.Group.Multiset.Basic
import Xv6.Freewalk
import Xv6.Vm

/-!
# Address spaces

The invariant of the paging code. It is stated for a multiset of
address spaces and a multiset of *held* pages: pages that are neither free nor part of a space,
such as trapframes, pipe buffers, or a frame that a function has allocated and not mapped yet.
Every page the allocator manages is on the free list, held, a table of one space, or a frame of
one space; `VmInv.pages` is that ledger. A function of the kernel is then a sequence of moves: a
page goes from the free list to the caller's hand, from there into a page table, and so on.

Nothing here mentions processes. The in-flight page table of `exec` is a space like any other,
with process number zero.
-/

namespace Xv6

open Ledger Multiset

/-- `TRAPFRAME / PGSIZE`: user pages are below this page number. -/
def userPages : ℕ := trapframeVa / pgsize

theorem userPages_eq : userPages = 2 ^ 26 - 2 := by decide

theorem userPages_lt_maxVpn : userPages + 1 < maxVpn := by decide

/-- The frame a leaf entry refers to. -/
def frameOf (e : Pte) : Multiset ℕ := if e.has pteV then {pte2pa e} else 0

theorem frameOf_valid {e : Pte} (h : e.has pteV = true) : frameOf e = {pte2pa e} := by
  rw [frameOf, if_pos h]

theorem frameOf_invalid {e : Pte} (h : e.has pteV = false) : frameOf e = 0 := by
  rw [frameOf, h, if_neg Bool.false_ne_true]

@[simp] theorem frameOf_zero : frameOf 0#64 = 0 := frameOf_invalid (Pte.has_zero _)

/-- The frames of the user pages of a page table. -/
noncomputable def frames (m : ℕ → Page) (root : ℕ) : Multiset ℕ :=
  ∑ vpn ∈ below userPages, frameOf (lookup m root vpn)

/-- The data of a swap slot, by number. -/
def slotData (area : Fin maxSwapSlots → SwapSlot) (slot : ℕ) : Page :=
  if h : slot < maxSwapSlots then (area ⟨slot, h⟩).data else fill 0

/-- What a page with leaf entry `e` contains: the frame if it is resident, the swap slot if it is
swapped out, zeros if it was never touched. -/
def contents (v : Vm) (e : Pte) : Page :=
  if e.has pteV then v.kmem.mem (pte2pa e)
  else if e.has pteSwapped then slotData v.swapArea (pteSwapSlot e)
  else fill 0

theorem contents_valid {v : Vm} {e : Pte} (h : e.has pteV = true) :
    contents v e = v.kmem.mem (pte2pa e) := by
  rw [contents, if_pos h]

theorem contents_lazy {v : Vm} {e : Pte} (h : e.has pteV = false)
    (h' : e.has pteSwapped = false) : contents v e = fill 0 := by
  rw [contents, h, h', if_neg Bool.false_ne_true, if_neg Bool.false_ne_true]

/-- **Logical memory.** What page `vpn` of a page table contains. -/
def logical (v : Vm) (root vpn : ℕ) : Page := contents v (lookup v.kmem.mem root vpn)

theorem slotData_swappedPte (area : Fin maxSwapSlots → SwapSlot) (slot : Fin maxSwapSlots) :
    slotData area (pteSwapSlot (swappedPte slot)) = (area slot).data := by
  have hlt : (slot : ℕ) < 2 ^ 18 := slot.isLt.trans (by decide)
  rw [pteSwapSlot_swappedPte hlt, slotData, dif_pos slot.isLt]

theorem contents_swappedPte (v : Vm) (slot : Fin maxSwapSlots) :
    contents v (swappedPte slot) = (v.swapArea slot).data := by
  rw [contents, if_neg, if_pos (Pte.has_swappedPte_pteSwapped _), slotData_swappedPte]
  rw [Pte.has_swappedPte_pteV]
  exact Bool.false_ne_true

/-- An address space: a page table, the process it belongs to (0 for none), a bound on its user
pages, and its two top entries. -/
structure Space where
  root : ℕ
  pid : ℤ
  npages : ℕ
  tframe : Pte
  tramp : Pte

/-- An entry of a resident page: valid, readable, and not marked as swapped out. -/
structure Resident (e : Pte) : Prop where
  valid : e.has pteV = true
  read : e.has pteR = true
  unswapped : e.has pteSwapped = false

/-- A leaf entry of a user page: absent, a readable frame, or a slot that the page owns. -/
def LeafOk (area : Fin maxSwapSlots → SwapSlot) (pid : ℤ) (vpn : ℕ) (e : Pte) : Prop :=
  e = 0#64 ∨ Resident e ∨
    ∃ slot : Fin maxSwapSlots, e = swappedPte slot ∧ 0 < pid ∧ (area slot).used = true ∧
      (area slot).pid = pid ∧ (area slot).va = vpn * pgsize

theorem swappedPte_inj {a b : Fin maxSwapSlots} (h : swappedPte a = swappedPte b) : a = b := by
  have hlt : ∀ s : Fin maxSwapSlots, (s : ℕ) < 2 ^ 18 := fun s => s.isLt.trans (by decide)
  refine Fin.ext ?_
  rw [← pteSwapSlot_swappedPte (hlt a), h, pteSwapSlot_swappedPte (hlt b)]

theorem swappedPte_ne_zero (slot : ℕ) : swappedPte slot ≠ 0#64 := by
  intro h0
  have := Pte.has_swappedPte_pteSwapped slot
  rw [h0, Pte.has_zero] at this
  nomatch this

section LeafOk

variable {area area' : Fin maxSwapSlots → SwapSlot} {pid : ℤ} {vpn : ℕ} {e : Pte}

/-- The only entry that is neither absent nor valid is the one of a slot. -/
theorem LeafOk.swapped (h : LeafOk area pid vpn e) (hv : e.has pteV = false) (hne : e ≠ 0#64) :
    ∃ slot : Fin maxSwapSlots, e = swappedPte slot ∧ 0 < pid ∧ (area slot).used = true ∧
      (area slot).pid = pid ∧ (area slot).va = vpn * pgsize := by
  rcases h with rfl | ⟨hv', -, -⟩ | h
  · exact absurd rfl hne
  · rw [hv] at hv'
    nomatch hv'
  · exact h

theorem LeafOk.resident (h : LeafOk area pid vpn e) (hv : e.has pteV = true) : Resident e := by
  rcases h with rfl | hr | ⟨slot, rfl, -⟩
  · rw [Pte.has_zero] at hv
    nomatch hv
  · exact hr
  · rw [Pte.has_swappedPte_pteV] at hv
    nomatch hv

theorem LeafOk.owner {slot : Fin maxSwapSlots} (h : LeafOk area pid vpn (swappedPte slot)) :
    0 < pid ∧ (area slot).used = true ∧ (area slot).pid = pid ∧
      (area slot).va = vpn * pgsize := by
  obtain ⟨slot', heq, h'⟩ := h.swapped (Pte.has_swappedPte_pteV slot) (swappedPte_ne_zero slot)
  rw [swappedPte_inj heq]
  exact h'

theorem LeafOk.congr (h : LeafOk area pid vpn e)
    (heq : ∀ slot : Fin maxSwapSlots, e = swappedPte slot → area' slot = area slot) :
    LeafOk area' pid vpn e := by
  rcases h with h | h | ⟨slot, he, h⟩
  · exact Or.inl h
  · exact Or.inr (Or.inl h)
  · refine Or.inr (Or.inr ⟨slot, he, ?_⟩)
    rw [heq slot he]
    exact h

end LeafOk

/-- One of the two top entries: absent, or a readable frame. -/
def TopOk (e : Pte) : Prop := e = 0#64 ∨ Resident e

/-- What holds of each address space. -/
structure SpaceOk (v : Vm) (sp : Space) : Prop where
  tree : Tree v.kmem.mem sp.root
  bound : sp.npages ≤ userPages
  beyond : ∀ vpn, sp.npages ≤ vpn → vpn < userPages → lookup v.kmem.mem sp.root vpn = 0#64
  leaf : ∀ vpn < userPages, LeafOk v.swapArea sp.pid vpn (lookup v.kmem.mem sp.root vpn)
  tframe : lookup v.kmem.mem sp.root userPages = sp.tframe
  tramp : lookup v.kmem.mem sp.root (userPages + 1) = sp.tramp
  tframeOk : TopOk sp.tframe
  trampOk : TopOk sp.tramp

/-- A frame-table entry describes page `vpn` of a space, and the page is readable and writable by
its user. -/
structure Describes (v : Vm) (f : FrameEntry) (sp : Space) (vpn : ℕ) : Prop where
  live : 0 < sp.pid
  pid : f.pid = sp.pid
  user : vpn < userPages
  va : f.va = vpn * pgsize
  valid : (lookup v.kmem.mem sp.root vpn).has pteV = true
  read : (lookup v.kmem.mem sp.root vpn).has pteR = true
  write : (lookup v.kmem.mem sp.root vpn).has pteW = true
  access : (lookup v.kmem.mem sp.root vpn).has pteU = true
  pa : pte2pa (lookup v.kmem.mem sp.root vpn) = f.pa

theorem Describes.congr {v v' : Vm} {q : Space} {vpn : ℕ} {f : FrameEntry} (h : Describes v f q vpn)
    (hl : lookup v'.kmem.mem q.root vpn = lookup v.kmem.mem q.root vpn) :
    Describes v' f q vpn where
  live := h.live
  pid := h.pid
  user := h.user
  va := h.va
  valid := by rw [hl]; exact h.valid
  read := by rw [hl]; exact h.read
  write := by rw [hl]; exact h.write
  access := by rw [hl]; exact h.access
  pa := by rw [hl]; exact h.pa

/-- The pages of a space: its tables and its frames. -/
noncomputable def footprint (m : ℕ → Page) (sp : Space) : Multiset ℕ :=
  tables m sp.root + frames m sp.root

/-- **The invariant of the paging code.** -/
structure VmInv (S : Multiset Space) (held : Multiset ℕ) (v : Vm) : Prop where
  refreed : v.kmem.refreed = false
  /-- Every managed page is in one place. -/
  pages : (v.kmem.freelist : Multiset ℕ) + held + (S.map (footprint v.kmem.mem)).sum
    = physPages v.kmem.sym
  spaces : ∀ sp ∈ S, SpaceOk v sp
  /-- Process numbers identify spaces. -/
  pids : ∀ sp ∈ S, ∀ sp' ∈ S, 0 < sp.pid → sp.pid = sp'.pid → sp = sp'
  /-- Used frame-table entries describe pages. -/
  entries : ∀ i, (v.ftable i).used = true → ∃ sp ∈ S, ∃ vpn, Describes v (v.ftable i) sp vpn
  /-- No two used entries share a frame. -/
  distinct : ∀ i j, (v.ftable i).used = true → (v.ftable j).used = true →
    (v.ftable i).pa = (v.ftable j).pa → i = j
  hand : v.clockHand < maxFrames
  /-- Unless a slot was lost, every used slot is named by a page. -/
  named : v.lost = false → ∀ slot, (v.swapArea slot).used = true →
    ∃ sp ∈ S, ∃ u < userPages, lookup v.kmem.mem sp.root u = swappedPte slot

/-- A page of a space that did not change: neither its entry nor its contents. -/
def KeepsAt (v v' : Vm) (root vpn : ℕ) : Prop :=
  lookup v'.kmem.mem root vpn = lookup v.kmem.mem root vpn ∧ logical v' root vpn = logical v root vpn

theorem KeepsAt.refl (v : Vm) (root vpn : ℕ) : KeepsAt v v root vpn := ⟨rfl, rfl⟩

theorem KeepsAt.trans {v v' v'' : Vm} {root vpn : ℕ} (h : KeepsAt v v' root vpn)
    (h' : KeepsAt v' v'' root vpn) : KeepsAt v v'' root vpn :=
  ⟨h'.1.trans h.1, h'.2.trans h.2⟩

theorem KeepsAt.of_eq {v v' : Vm} (hk : v'.kmem = v.kmem) (ha : v'.swapArea = v.swapArea)
    (root u : ℕ) : KeepsAt v v' root u := by
  refine ⟨by rw [hk], ?_⟩
  rw [logical, logical, contents, contents, hk, ha]

/-- What the code that builds and frees user memory keeps: the spaces of `S`, the hand, and every
table entry that is still in use afterwards. No frame is counted as resident or discounted, and no
frame of these spaces is dropped. -/
structure Keeps (S : Multiset Space) (v v' : Vm) : Prop where
  sym : v'.kmem.sym = v.kmem.sym
  hand : v'.clockHand = v.clockHand
  frames : ∀ i, (v'.ftable i).used = true → v'.ftable i = v.ftable i
  slots : ∀ i, (v'.swapArea i).used = true → v'.swapArea i = v.swapArea i
  same : ∀ q ∈ S, ∀ u < userPages, KeepsAt v v' q.root u
  tally : tally v' = tally v
  lost : v'.lost = v.lost
  uncounted : ∀ q ∈ S, v'.uncounted q.pid = v.uncounted q.pid

theorem Keeps.refl (S : Multiset Space) (v : Vm) : Keeps S v v where
  sym := rfl
  hand := rfl
  frames _ _ := rfl
  slots _ _ := rfl
  same _ _ _ _ := .refl _ _ _
  tally := rfl
  lost := rfl
  uncounted _ _ := rfl

theorem Keeps.trans {S : Multiset Space} {v v' v'' : Vm} (h : Keeps S v v')
    (h' : Keeps S v' v'') : Keeps S v v'' where
  sym := h'.sym.trans h.sym
  hand := h'.hand.trans h.hand
  frames i hi := (h'.frames i hi).trans (h.frames i (h'.frames i hi ▸ hi))
  slots i hi := (h'.slots i hi).trans (h.slots i (h'.slots i hi ▸ hi))
  same q hq u hu := (h.same q hq u hu).trans (h'.same q hq u hu)
  tally := h'.tally.trans h.tally
  lost := h'.lost.trans h.lost
  uncounted q hq := (h'.uncounted q hq).trans (h.uncounted q hq)

theorem Keeps.mono {S R : Multiset Space} {v v' : Vm} (h : Keeps S v v')
    (hsub : ∀ q ∈ R, q ∈ S) : Keeps R v v' where
  sym := h.sym
  hand := h.hand
  frames := h.frames
  slots := h.slots
  same q hq := h.same q (hsub q hq)
  tally := h.tally
  lost := h.lost
  uncounted q hq := h.uncounted q (hsub q hq)

theorem Keeps.tail {R : Multiset Space} {sp : Space} {v v' : Vm} (h : Keeps (sp ::ₘ R) v v') :
    Keeps R v v' :=
  h.mono fun _ hq => Multiset.mem_cons_of_mem hq

/-- The entries of some spaces are the same, and what is noted about them. No frame is new. -/
structure SameNotes (S : Multiset Space) (v v' : Vm) : Prop where
  sym : v'.kmem.sym = v.kmem.sym
  frames : ∀ i, (v'.ftable i).used = true → v'.ftable i = v.ftable i
  lost : v'.lost = v.lost
  uncounted : ∀ q ∈ S, v'.uncounted q.pid = v.uncounted q.pid
  entry : ∀ q ∈ S, ∀ u < userPages, lookup v'.kmem.mem q.root u = lookup v.kmem.mem q.root u

theorem SameNotes.refl (S : Multiset Space) (v : Vm) : SameNotes S v v :=
  ⟨rfl, fun _ _ => rfl, rfl, fun _ _ => rfl, fun _ _ _ _ => rfl⟩

theorem SameNotes.trans {S : Multiset Space} {v v' v'' : Vm} (h : SameNotes S v v')
    (h' : SameNotes S v' v'') : SameNotes S v v'' :=
  ⟨h'.sym.trans h.sym, fun i hi => (h'.frames i hi).trans (h.frames i (h'.frames i hi ▸ hi)),
    h'.lost.trans h.lost, fun q hq => (h'.uncounted q hq).trans (h.uncounted q hq),
    fun q hq u hu => (h'.entry q hq u hu).trans (h.entry q hq u hu)⟩

theorem Keeps.sameNotes {S : Multiset Space} {v v' : Vm} (h : Keeps S v v') : SameNotes S v v' :=
  ⟨h.sym, h.frames, h.lost, h.uncounted, fun q hq u hu => (h.same q hq u hu).1⟩

theorem SameNotes.frameCount_le {S : Multiset Space} {v v' : Vm} (h : SameNotes S v v') (pid : ℤ) :
    frameCount v' pid ≤ frameCount v pid :=
  Table.count_mono fun i hi => by
    rw [Bool.and_eq_true] at hi ⊢
    rw [← h.frames i hi.1]
    exact hi

/-! ### Frames -/

section Frames

variable {m m' : ℕ → Page} {root vpn : ℕ}

theorem mem_frames_of_valid (hv : vpn < userPages) (h : (lookup m root vpn).has pteV = true) :
    pte2pa (lookup m root vpn) ∈ frames m root := by
  refine mem_sum_of_mem (mem_below.mpr hv) ?_
  rw [frameOf_valid h]
  exact mem_singleton_self _

theorem frames_congr (h : ∀ u < userPages, lookup m' root u = lookup m root u) :
    frames m' root = frames m root :=
  Finset.sum_congr rfl fun u hu => by rw [h u (mem_below.mp hu)]

/-- Changing one leaf entry changes the frames by what the two entries refer to. -/
theorem frames_setLeaf (hv : vpn < userPages)
    (h : ∀ u < userPages, u ≠ vpn → lookup m' root u = lookup m root u) :
    frames m' root + frameOf (lookup m root vpn) = frames m root + frameOf (lookup m' root vpn) :=
  sum_add_eq_of_agree (f := fun u => frameOf (lookup m' root u))
    (g := fun u => frameOf (lookup m root u)) (mem_below.mpr hv) fun u hu hne => by
      rw [h u (mem_below.mp hu) hne]

end Frames

/-! ### Reading the ledger -/

namespace VmInv

variable {S R : Multiset Space} {sp q : Space} {held : Multiset ℕ} {v v' : Vm} {x vpn : ℕ}

theorem nodup (h : VmInv S held v) :
    ((v.kmem.freelist : Multiset ℕ) + held + (S.map (footprint v.kmem.mem)).sum).Nodup := by
  rw [h.pages]
  exact nodup_physPages _

theorem mem_sum (hq : q ∈ S) (hx : x ∈ footprint v.kmem.mem q) :
    x ∈ (S.map (footprint v.kmem.mem)).sum := by
  obtain ⟨R, rfl⟩ := exists_cons_of_mem hq
  rw [map_cons, sum_cons]
  exact mem_add.mpr (Or.inl hx)

section

variable (h : VmInv S held v)
include h

theorem free_managed (hx : x ∈ v.kmem.freelist) :
    x ∈ physPages v.kmem.sym := by
  rw [← h.pages]
  exact mem_add.mpr (Or.inl (mem_add.mpr (Or.inl (mem_coe.mpr hx))))

theorem held_managed (hx : x ∈ held) : x ∈ physPages v.kmem.sym := by
  rw [← h.pages]
  exact mem_add.mpr (Or.inl (mem_add.mpr (Or.inr hx)))

theorem footprint_managed (hq : q ∈ S)
    (hx : x ∈ footprint v.kmem.mem q) : x ∈ physPages v.kmem.sym := by
  rw [← h.pages]
  exact mem_add.mpr (Or.inr (mem_sum hq hx))

theorem free_notMem_held (hx : x ∈ v.kmem.freelist) : x ∉ held :=
  not_mem_of_mem_left (nodup_left h.nodup) (mem_coe.mpr hx)

theorem held_notMem_free (hx : x ∈ held) : x ∉ v.kmem.freelist :=
  fun hx' => h.free_notMem_held hx' hx

theorem free_notMem_footprint (hx : x ∈ v.kmem.freelist) (hq : q ∈ S) :
    x ∉ footprint v.kmem.mem q := fun hx' =>
  not_mem_of_mem_left h.nodup (mem_add.mpr (Or.inl (mem_coe.mpr hx)))
    (mem_sum hq hx')

theorem held_notMem_footprint (hx : x ∈ held) (hq : q ∈ S) :
    x ∉ footprint v.kmem.mem q := fun hx' =>
  not_mem_of_mem_left h.nodup (mem_add.mpr (Or.inr hx)) (mem_sum hq hx')

theorem nodup_free : v.kmem.freelist.Nodup :=
  coe_nodup.mp (nodup_left (nodup_left h.nodup))

theorem nodup_footprint (hq : q ∈ S) :
    (footprint v.kmem.mem q).Nodup := by
  obtain ⟨R, rfl⟩ := exists_cons_of_mem hq
  have hnd := nodup_right h.nodup
  rw [map_cons, sum_cons] at hnd
  exact nodup_left hnd

end

theorem footprint_apart (h : VmInv (sp ::ₘ R) held v) (hq : q ∈ R)
    (hx : x ∈ footprint v.kmem.mem sp) : x ∉ footprint v.kmem.mem q := by
  have hnd := nodup_right h.nodup
  rw [map_cons, sum_cons] at hnd
  exact fun hx' => not_mem_of_mem_left hnd hx (mem_sum hq hx')

theorem notMem_rest (h : VmInv (sp ::ₘ R) held v) : sp ∉ R := fun hsp =>
  h.footprint_apart hsp (mem_add.mpr (Or.inl (root_mem_tables _ _)))
    (mem_add.mpr (Or.inl (root_mem_tables _ _)))

theorem mem_footprint_of_tables (hx : x ∈ tables v.kmem.mem q.root) :
    x ∈ footprint v.kmem.mem q :=
  mem_add.mpr (Or.inl hx)

/-- The frame of a valid page belongs to its space. -/
theorem mem_footprint_of_valid (hv : vpn < userPages)
    (hval : (lookup v.kmem.mem q.root vpn).has pteV = true) :
    pte2pa (lookup v.kmem.mem q.root vpn) ∈ footprint v.kmem.mem q :=
  mem_add.mpr (Or.inr (mem_frames_of_valid hv hval))

theorem frame_notMem_tables (h : VmInv S held v) (hq : q ∈ S) (hv : vpn < userPages)
    (hval : (lookup v.kmem.mem q.root vpn).has pteV = true) :
    pte2pa (lookup v.kmem.mem q.root vpn) ∉ tables v.kmem.mem q.root :=
  not_mem_of_mem_right (h.nodup_footprint hq) (mem_frames_of_valid hv hval)

theorem frame_inj (h : VmInv S held v) (hq : q ∈ S) {u w : ℕ} (hu : u < userPages)
    (hw : w < userPages) (hu' : (lookup v.kmem.mem q.root u).has pteV = true)
    (hw' : (lookup v.kmem.mem q.root w).has pteV = true)
    (heq : pte2pa (lookup v.kmem.mem q.root u) = pte2pa (lookup v.kmem.mem q.root w)) :
    u = w := by
  refine eq_of_mem_sum (nodup_right (h.nodup_footprint hq)) (mem_below.mpr hu)
    (mem_below.mpr hw) (x := pte2pa (lookup v.kmem.mem q.root u)) ?_ ?_
  · rw [frameOf_valid hu']
    exact mem_singleton_self _
  · rw [frameOf_valid hw', heq]
    exact mem_singleton_self _

theorem slot_inj (h : VmInv S held v) (hq : q ∈ S) (hsp : sp ∈ S) {u w : ℕ} (hu : u < userPages)
    (hw : w < userPages) {slot : Fin maxSwapSlots}
    (heu : lookup v.kmem.mem q.root u = swappedPte slot)
    (hew : lookup v.kmem.mem sp.root w = swappedPte slot) : q = sp ∧ u = w := by
  obtain ⟨hpos, -, hpid, hva⟩ := (heu ▸ (h.spaces q hq).leaf u hu).owner
  obtain ⟨-, -, hpid', hva'⟩ := (hew ▸ (h.spaces sp hsp).leaf w hw).owner
  refine ⟨h.pids q hq sp hsp hpos (hpid.symm.trans hpid'), ?_⟩
  exact Nat.eq_of_mul_eq_mul_right (by decide) (hva.symm.trans hva')

theorem treeReady (h : VmInv S held v) (hq : q ∈ S) : TreeReady q.root v.kmem where
  tree := (h.spaces q hq).tree
  apart _ hx hx' := h.free_notMem_footprint hx hq (mem_footprint_of_tables hx')
  free := h.nodup_free
  addr _ hx := pageAddr_of_mem (h.free_managed hx)

end VmInv

/-! ### What an operation leaves alone -/

section Keeps

variable {v v' : Vm} {q : Space} {vpn : ℕ}

/-- The contents of a page depend on its frame or its slot. -/
theorem LeafOk.contents_eq {pid : ℤ} {e : Pte} (h : LeafOk v.swapArea pid vpn e)
    (hm : e.has pteV = true → v'.kmem.mem (pte2pa e) = v.kmem.mem (pte2pa e))
    (hd : ∀ slot : Fin maxSwapSlots, e = swappedPte slot →
      (v'.swapArea slot).data = (v.swapArea slot).data) : contents v' e = contents v e := by
  rcases h with rfl | ⟨hval, -, -⟩ | ⟨slot, rfl, -⟩
  · rw [contents_lazy (Pte.has_zero _) (Pte.has_zero _),
      contents_lazy (Pte.has_zero _) (Pte.has_zero _)]
  · rw [contents_valid hval, contents_valid hval, hm hval]
  · rw [contents_swappedPte, contents_swappedPte, hd slot rfl]

/-- A page keeps its contents if its entry, its frame and its slot do. -/
theorem SpaceOk.keepsAt (h : SpaceOk v q) (hv : vpn < userPages)
    (hl : lookup v'.kmem.mem q.root vpn = lookup v.kmem.mem q.root vpn)
    (hm : (lookup v.kmem.mem q.root vpn).has pteV = true →
      v'.kmem.mem (pte2pa (lookup v.kmem.mem q.root vpn))
        = v.kmem.mem (pte2pa (lookup v.kmem.mem q.root vpn)))
    (hd : ∀ slot : Fin maxSwapSlots, lookup v.kmem.mem q.root vpn = swappedPte slot →
      (v'.swapArea slot).data = (v.swapArea slot).data) : KeepsAt v v' q.root vpn := by
  refine ⟨hl, ?_⟩
  rw [logical, logical, hl]
  exact (h.leaf vpn hv).contents_eq hm hd

theorem footprint_congr {m m' : ℕ → Page} (h : ∀ x ∈ tables m q.root, m' x = m x) :
    footprint m' q = footprint m q := by
  have hframes : frames m' q.root = frames m q.root :=
    frames_congr fun u _ => congrFun (lookup_congr h) u
  rw [footprint, footprint, tables_congr h, hframes]

theorem SpaceOk.congr (h : SpaceOk v q) (hs : v'.swapArea = v.swapArea)
    (hm : ∀ x ∈ tables v.kmem.mem q.root, v'.kmem.mem x = v.kmem.mem x) : SpaceOk v' q where
  tree := h.tree.congr hm
  bound := h.bound
  beyond := by rw [lookup_congr hm]; exact h.beyond
  leaf := by rw [lookup_congr hm, hs]; exact h.leaf
  tframe := by rw [lookup_congr hm]; exact h.tframe
  tramp := by rw [lookup_congr hm]; exact h.tramp
  tframeOk := h.tframeOk
  trampOk := h.trampOk

end Keeps

end Xv6
