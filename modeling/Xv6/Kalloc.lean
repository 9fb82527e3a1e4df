import Mathlib.Data.Multiset.UnionInter
import Xv6.Lib.Prog
import Xv6.Lib.Ledger
import Xv6.Riscv

/-!
# The physical page allocator

`kalloc.c`. Physical memory is a function from page addresses to page contents, and `kmem.freelist`
is the list of the pages threaded through the free pages; the link word of a free page is that
list and is not stored a second time.

`kfree` is where a page can be freed twice. The state carries one bit that no code reads,
`refreed`, which records whether `kfree` was ever given a page that was already on the list.
-/

namespace Xv6

open Prog Multiset

/-- The linker's symbols: `end`, the first address after the kernel, and `trampoline`, a page of
kernel text. The kernel is loaded at `KERNBASE` and fits below `PHYSTOP`. -/
structure Symbols where
  /-- `end`. -/
  kend : ℕ
  /-- `trampoline`. -/
  trampoline : ℕ
  kernbase_le_kend : kernbase ≤ kend
  kend_le_phystop : kend ≤ phystop
  kernbase_le_trampoline : kernbase ≤ trampoline
  trampoline_lt_kend : trampoline + pgsize ≤ kend
  trampoline_aligned : trampoline % pgsize = 0

/-- A kernel image of two pages. -/
def Symbols.small : Symbols where
  kend := kernbase + 2 * pgsize
  trampoline := kernbase
  kernbase_le_kend := by decide
  kend_le_phystop := by decide
  kernbase_le_trampoline := by decide
  trampoline_lt_kend := by decide
  trampoline_aligned := by decide

/-- Physical memory and its allocator. -/
structure Kmem where
  /-- The linker's symbols. -/
  sym : Symbols
  /-- The contents of the page at each page address. -/
  mem : ℕ → Page
  /-- `kmem.freelist`. -/
  freelist : List ℕ
  /-- Whether `kfree` was ever called on a page of the free list. No code reads this. -/
  refreed : Bool

namespace Kmem

/-- Overwrite a page. -/
def setPage (s : Kmem) (pa : ℕ) (pg : Page) : Kmem :=
  { s with mem := Function.update s.mem pa pg }

@[simp] theorem setPage_freelist (s : Kmem) (pa : ℕ) (pg : Page) :
    (s.setPage pa pg).freelist = s.freelist := rfl

@[simp] theorem setPage_mem_self (s : Kmem) (pa : ℕ) (pg : Page) :
    (s.setPage pa pg).mem pa = pg := by
  simp [setPage]

theorem setPage_mem_of_ne (s : Kmem) {pa x : ℕ} (pg : Page) (h : x ≠ pa) :
    (s.setPage pa pg).mem x = s.mem x := by
  simp [setPage, h]

/-- Replace the free list. -/
def setFree (s : Kmem) (l : List ℕ) : Kmem := { s with freelist := l }

@[simp] theorem setFree_mem (s : Kmem) (l : List ℕ) : (s.setFree l).mem = s.mem := rfl

@[simp] theorem setFree_freelist (s : Kmem) (l : List ℕ) : (s.setFree l).freelist = l := rfl

/-- Push a page on the free list, noting whether it is there already. -/
def push (s : Kmem) (pa : ℕ) : Kmem :=
  { s with freelist := pa :: s.freelist, refreed := s.refreed || decide (pa ∈ s.freelist) }

@[simp] theorem push_mem (s : Kmem) (pa : ℕ) : (s.push pa).mem = s.mem := rfl

@[simp] theorem push_freelist (s : Kmem) (pa : ℕ) :
    (s.push pa).freelist = pa :: s.freelist := rfl

theorem push_refreed {s : Kmem} {pa : ℕ} (h : pa ∉ s.freelist) :
    (s.push pa).refreed = s.refreed := by
  simp [push, h]

end Kmem

/-- `memset(pa, c, PGSIZE)`, or any other write of a whole page. -/
def writePage (pa : ℕ) (pg : Page) : Prog Kmem Unit := Prog.modify fun s => s.setPage pa pg

/-- Allocate one page; `none` when memory is exhausted. The page is filled with junk. -/
def kalloc : Prog Kmem (Option ℕ) := do
  let s ← Prog.get
  match s.freelist with
  | [] => return none
  | r :: next => do
    Prog.modify fun s => s.setFree next
    writePage r (fill 5)
    return some r

/-- Free one page. -/
def kfree (pa : ℕ) : Prog Kmem Unit := do
  let s ← Prog.get
  if pa % pgsize ≠ 0 ∨ pa < s.sym.kend ∨ phystop ≤ pa then Prog.panic "kfree"
  else do
    writePage pa (fill 1)
    Prog.modify fun s => s.push pa

/-- The loop of `freerange`: free `n` pages from `p` on. -/
def freerangeFrom (p : ℕ) : ℕ → Prog Kmem Unit
  | 0 => pure ()
  | n + 1 => do
    kfree p
    freerangeFrom (p + pgsize) n

/-- Free every whole page of `[pa_start, pa_end)`. -/
def freerange (paStart paEnd : ℕ) : Prog Kmem Unit :=
  freerangeFrom (pgroundup paStart) ((paEnd - pgroundup paStart) / pgsize)

/-- Put all of the memory after the kernel on the free list. -/
def kinit : Prog Kmem Unit := do
  let s ← Prog.get
  freerange s.sym.kend phystop

/-! ### The managed pages -/

/-- The first managed page. -/
def firstPage (sym : Symbols) : ℕ := pgroundup sym.kend

/-- How many pages are managed. -/
def pageCount (sym : Symbols) : ℕ := (phystop - firstPage sym) / pgsize

/-- The pages of `[PGROUNDUP(end), PHYSTOP)`, each once. -/
noncomputable def physPages (sym : Symbols) : Multiset ℕ :=
  (Ledger.below (pageCount sym)).val.map fun i => firstPage sym + i * pgsize

theorem firstPage_eq (sym : Symbols) : firstPage sym = (sym.kend + 4095) / 4096 * 4096 := by
  have h : sym.kend ≤ phystop := sym.kend_le_phystop
  exact pgroundup_of_le (h.trans (by decide))

theorem nodup_physPages (sym : Symbols) : (physPages sym).Nodup := by
  refine Multiset.Nodup.map (fun i j h => ?_) (Finset.nodup _)
  simp only [pgsize] at h
  omega

theorem mem_physPages {sym : Symbols} {pa : ℕ} :
    pa ∈ physPages sym ↔ pa % 4096 = 0 ∧ sym.kend ≤ pa ∧ pa < phystop := by
  have hfirst := firstPage_eq sym
  have hstop : phystop = 2281701376 := rfl
  have hend := sym.kend_le_phystop
  simp only [physPages, pageCount, mem_map, Finset.mem_val, Ledger.mem_below, pgsize]
  constructor
  · rintro ⟨i, hi, rfl⟩
    omega
  · rintro ⟨hal, hlo, hhi⟩
    exact ⟨(pa - firstPage sym) / 4096, by omega, by omega⟩

theorem pageAddr_of_mem {sym : Symbols} {pa : ℕ} (h : pa ∈ physPages sym) : PageAddr pa := by
  obtain ⟨hal, -, hhi⟩ := mem_physPages.mp h
  exact ⟨hal, hhi.trans (by decide)⟩

theorem pos_of_mem_physPages {sym : Symbols} {pa : ℕ} (h : pa ∈ physPages sym) : 0 < pa := by
  obtain ⟨-, hlo, -⟩ := mem_physPages.mp h
  have hk : kernbase ≤ sym.kend := sym.kernbase_le_kend
  have hk' : 0 < kernbase := by decide
  omega

/-! ### What the allocator does -/

variable {E : String → Prop} {s : Kmem}

theorem kalloc_spec :
    wp kalloc (fun r s' =>
      match r with
      | none => s.freelist = [] ∧ s' = s
      | some pa => ∃ next, s.freelist = pa :: next ∧
          s' = (s.setFree next).setPage pa (fill 5)) E s := by
  simp only [kalloc, wp_bind, wp_get]
  cases hF : s.freelist with
  | nil => simp only [wp_pure]; exact ⟨trivial, trivial⟩
  | cons r next =>
    simp only [wp_bind, wp_modify, writePage, wp_pure]
    exact ⟨next, rfl, rfl⟩

theorem kfree_spec {pa : ℕ} (h : pa ∈ physPages s.sym) :
    wp (kfree pa) (fun _ s' => s' = (s.setPage pa (fill 1)).push pa) E s := by
  obtain ⟨hal, hlo, hhi⟩ := mem_physPages.mp h
  have hcheck : ¬(pa % pgsize ≠ 0 ∨ pa < s.sym.kend ∨ phystop ≤ pa) := by
    simp only [pgsize]
    omega
  simp only [kfree, wp_bind, wp_get, hcheck, if_false, writePage, wp_modify]

/-- The loop of `freerange` puts its pages on the list, each of them for the first time. -/
theorem freerangeFrom_spec : ∀ (n p : ℕ) {s : Kmem},
    (∀ i < n, p + i * pgsize ∈ physPages s.sym) → (∀ x ∈ s.freelist, x < p) →
    wp (freerangeFrom p n) (fun _ s' => s'.sym = s.sym ∧ s'.refreed = s.refreed ∧
      (s'.freelist : Multiset ℕ)
        = s.freelist + (Multiset.range n).map fun i => p + i * pgsize) E s := by
  intro n
  induction n with
  | zero => intro p s _ _; simp [freerangeFrom]
  | succ n ih =>
    intro p s hmem hlt
    have hp : p ∈ physPages s.sym := by simpa using hmem 0 (Nat.succ_pos n)
    have hnew : p ∉ s.freelist := fun hp' => lt_irrefl p (hlt p hp')
    rw [freerangeFrom]
    refine wp_seq (kfree_spec hp) ?_
    rintro - s₁ rfl
    refine wp_imp (ih (p + pgsize) ?_ ?_) ?_
    · intro i hi
      rw [Nat.add_assoc, Nat.add_comm pgsize, ← Nat.succ_mul]
      exact hmem (i + 1) (Nat.succ_lt_succ hi)
    · intro x hx
      simp only [Kmem.push_freelist, Kmem.setPage_freelist, List.mem_cons] at hx
      rcases hx with rfl | hx
      · exact Nat.lt_add_of_pos_right (by decide)
      · exact (hlt x hx).trans (Nat.lt_add_of_pos_right (by decide))
    · rintro - s' ⟨hsym, hre, hF⟩
      refine ⟨hsym, hre.trans (Kmem.push_refreed hnew), ?_⟩
      rw [hF, Kmem.push_freelist, Kmem.setPage_freelist]
      have hshift : (Multiset.range (n + 1)).map (fun i => p + i * pgsize)
          = p ::ₘ (Multiset.range n).map (fun i => p + pgsize + i * pgsize) := by
        rw [show Multiset.range (n + 1) = 0 ::ₘ (Multiset.range n).map (· + 1) from ?_]
        · simp [Multiset.map_map, Nat.succ_mul, Nat.add_assoc, Nat.add_comm pgsize]
        · simp only [Multiset.range, Multiset.map_coe, cons_coe, List.range_succ_eq_map]
      rw [hshift, ← cons_coe]
      rw [cons_add, add_cons]

/-- **After `kinit` the free list is the managed pages, each once.** -/
theorem kinit_spec (hF : s.freelist = []) :
    wp kinit (fun _ s' => s'.sym = s.sym ∧ s'.refreed = s.refreed ∧
      (s'.freelist : Multiset ℕ) = physPages s.sym) E s := by
  simp only [kinit, freerange, wp_bind, wp_get]
  refine wp_imp (freerangeFrom_spec _ _ (fun i hi => ?_) (by simp [hF])) ?_
  · exact mem_map.mpr ⟨i, Ledger.mem_below.mpr hi, rfl⟩
  · rintro - s' ⟨hsym, hre, hl⟩
    refine ⟨hsym, hre, ?_⟩
    rw [hl, hF, physPages, Ledger.below_eq_range]
    exact zero_add _

end Xv6
