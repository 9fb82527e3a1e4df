import Mathlib.Tactic.NormNum
import Xv6.Lib.Word

/-!
# Addresses, page-table entries and their bits

The constants and macros of `riscv.h` and `memlayout.h`. Addresses are natural numbers and
`uint64` arithmetic is reduced modulo `2 ^ 64` where it can wrap; page-table entries are 64-bit
vectors, because the code tests and combines their bits.

## The two kinds of entry

A valid entry is `PA2PTE(pa) | perm | PTE_V` (`mkPte`), and an evicted page leaves
`(slot << 10) | PTE_SWAPPED` behind (`swappedPte`). The lemmas below say what each test of the
code sees on either kind, so that no later proof looks at bits again.
-/

namespace Xv6

/-! ### Pages and addresses -/

/-- `PGSIZE`. -/
def pgsize : ℕ := 4096

/-- `MAXVA`: one beyond the highest virtual address the kernel uses. -/
def maxva : ℕ := 2 ^ 38

/-- `TRAMPOLINE`. -/
def trampolineVa : ℕ := maxva - pgsize

/-- `TRAPFRAME`. -/
def trapframeVa : ℕ := trampolineVa - pgsize

/-- `KERNBASE`. -/
def kernbase : ℕ := 0x80000000

/-- `PHYSTOP`. -/
def phystop : ℕ := kernbase + 128 * 1024 * 1024

/-- Reduction of an arithmetic result to `uint64`. -/
def u64 (x : ℕ) : ℕ := x % 2 ^ 64

/-- `PGROUNDUP`, on `uint64`. -/
def pgroundup (sz : ℕ) : ℕ := u64 (sz + pgsize - 1) / pgsize * pgsize

/-- `PGROUNDDOWN`. -/
def pgrounddown (a : ℕ) : ℕ := a / pgsize * pgsize

instance neZero512 : NeZero 512 := ⟨by decide⟩

/-- `PX(level, va)`: the nine bits of `va` that index the page table of that level. -/
def px (level va : ℕ) : Fin 512 := Fin.ofNat 512 (va >>> (12 + 9 * level))

/-- A page of physical memory. -/
abbrev Page : Type := Fin (8 * 512) → Byte

/-- `memset(pa, c, PGSIZE)`. -/
def fill (c : Byte) : Page := fun _ => c

theorem pgroundup_of_le {sz : ℕ} (h : sz ≤ maxva) :
    pgroundup sz = (sz + 4095) / 4096 * 4096 := by
  simp only [maxva] at h
  rw [pgroundup, u64, pgsize, Nat.mod_eq_of_lt (by omega)]
  omega

/-- The number of pages a size covers. -/
def pagesOf (sz : ℕ) : ℕ := (sz + 4095) / 4096

theorem pgroundup_eq {sz : ℕ} (h : sz ≤ maxva) : pgroundup sz = pagesOf sz * pgsize :=
  pgroundup_of_le h

theorem pagesOf_mul (n : ℕ) : pagesOf (n * pgsize) = n := by
  simp only [pagesOf, pgsize]
  omega

theorem pgrounddown_eq (a : ℕ) : pgrounddown a = a / 4096 * 4096 := rfl

/-! ### Page-table entries -/

/-- `pte_t`. -/
abbrev Pte : Type := BitVec 64

/-- `PTE_V`. -/
def pteV : Pte := 1#64

/-- `PTE_R`. -/
def pteR : Pte := 2#64

/-- `PTE_W`. -/
def pteW : Pte := 4#64

/-- `PTE_X`. -/
def pteX : Pte := 8#64

/-- `PTE_U`. -/
def pteU : Pte := 16#64

/-- `PTE_SWAPPED`. -/
def pteSwapped : Pte := 256#64

/-- The test `pte & flags`. -/
def Pte.has (pte flags : Pte) : Bool := pte &&& flags != 0#64

/-- `PA2PTE`. -/
def pa2pte (pa : ℕ) : Pte := (BitVec.ofNat 64 pa >>> 12) <<< 10

/-- `PTE2PA`. -/
def pte2pa (pte : Pte) : ℕ := ((pte >>> 10) <<< 12).toNat

/-- `PTE_FLAGS`. -/
def pteFlags (pte : Pte) : Pte := pte &&& 0x3FF#64

/-- `PTE_SWAP_SLOT`. -/
def pteSwapSlot (pte : Pte) : ℕ := ((pte >>> 10) &&& 0x3FFFF#64).toNat

/-- The entry `mappages` writes: `PA2PTE(pa) | perm | PTE_V`. -/
def mkPte (pa : ℕ) (perm : Pte) : Pte := pa2pte pa ||| perm ||| pteV

/-- The entry `clock_evict` writes: `(slot << 10) | PTE_SWAPPED`. -/
def swappedPte (slot : ℕ) : Pte := (BitVec.ofNat 64 slot <<< 10) ||| pteSwapped

/-- A physical page address: page aligned and small enough for an entry to hold. -/
def PageAddr (pa : ℕ) : Prop := pa % 4096 = 0 ∧ pa < 2 ^ 56

/-- Flag bits: the low ten bits of an entry. -/
def IsFlags (f : Pte) : Prop := f.toNat < 1024

instance (f : Pte) : Decidable (IsFlags f) := inferInstanceAs (Decidable (_ < _))

/-! ### What the tests see -/

theorem Pte.has_or (a b f : Pte) : Pte.has (a ||| b) f = (Pte.has a f || Pte.has b f) := by
  simp only [Pte.has, BitVec.and_or_distrib_right]
  grind

@[simp] theorem Pte.has_zero (f : Pte) : Pte.has 0#64 f = false := by
  simp [Pte.has]

theorem Pte.has_shiftLeft {a f : Pte} (hf : IsFlags f) : Pte.has (a <<< 10) f = false := by
  have hzero : (a <<< 10) &&& f = 0#64 := by
    refine BitVec.eq_of_getLsbD_eq fun i hi => ?_
    rw [BitVec.getLsbD_and, BitVec.getLsbD_shiftLeft]
    by_cases h10 : i < 10
    · simp [h10]
    · have hbit : f.getLsbD i = false := by
        refine Nat.testBit_lt_two_pow (lt_of_lt_of_le hf ?_)
        calc 1024 = 2 ^ 10 := rfl
          _ ≤ 2 ^ i := Nat.pow_le_pow_right (by norm_num) (by omega)
      simp [hbit]
  simp [Pte.has, hzero]

/-- What a flag test sees on an entry `mappages` wrote. -/
theorem Pte.has_mkPte (pa : ℕ) (perm : Pte) {f : Pte} (hf : IsFlags f) :
    Pte.has (mkPte pa perm) f = (Pte.has perm f || Pte.has pteV f) := by
  rw [mkPte, Pte.has_or, Pte.has_or, pa2pte, Pte.has_shiftLeft hf, Bool.false_or]

theorem isFlags_pteV : IsFlags pteV := by decide

@[simp] theorem Pte.has_mkPte_pteV (pa : ℕ) (perm : Pte) : Pte.has (mkPte pa perm) pteV = true := by
  rw [Pte.has_mkPte pa perm isFlags_pteV, show Pte.has pteV pteV = true from by decide,
    Bool.or_true]

theorem or_lt_of_isFlags {f g : Pte} (hf : IsFlags f) (hg : IsFlags g) : IsFlags (f ||| g) := by
  rw [IsFlags, BitVec.toNat_or]
  exact Nat.or_lt_two_pow (n := 10) hf hg

theorem toNat_pa2pte {pa : ℕ} (h : PageAddr pa) : (pa2pte pa).toNat = pa / 4096 * 1024 := by
  obtain ⟨-, hlt⟩ := h
  rw [pa2pte, BitVec.toNat_shiftLeft, BitVec.toNat_ushiftRight, BitVec.toNat_ofNat,
    Nat.shiftLeft_eq, Nat.shiftRight_eq_div_pow]
  omega

theorem toNat_or_flags {x : ℕ} {a f : Pte} (ha : a.toNat = x * 1024) (hf : IsFlags f) :
    (a ||| f).toNat = x * 1024 + f.toNat := by
  rw [BitVec.toNat_or, ha, show x * 1024 = 2 ^ 10 * x from Nat.mul_comm x 1024,
    ← Nat.two_pow_add_eq_or_of_lt hf]

theorem toNat_mkPte {pa : ℕ} {perm : Pte} (h : PageAddr pa) (hperm : IsFlags perm) :
    (mkPte pa perm).toNat = pa / 4096 * 1024 + (perm ||| pteV).toNat := by
  rw [mkPte, BitVec.or_assoc]
  exact toNat_or_flags (toNat_pa2pte h) (or_lt_of_isFlags hperm isFlags_pteV)

/-- `PTE2PA` recovers the address an entry was made from. -/
theorem pte2pa_mkPte {pa : ℕ} {perm : Pte} (h : PageAddr pa) (hperm : IsFlags perm) :
    pte2pa (mkPte pa perm) = pa := by
  have hflags : (perm ||| pteV).toNat < 1024 := or_lt_of_isFlags hperm isFlags_pteV
  obtain ⟨hal, hlt⟩ := h
  rw [pte2pa, BitVec.toNat_shiftLeft, BitVec.toNat_ushiftRight, toNat_mkPte ⟨hal, hlt⟩ hperm,
    Nat.shiftLeft_eq, Nat.shiftRight_eq_div_pow]
  omega

theorem isFlags_pteFlags (pte : Pte) : IsFlags (pteFlags pte) := by
  rw [IsFlags, pteFlags, BitVec.toNat_and]
  exact lt_of_le_of_lt Nat.and_le_right (by decide)

/-- Copying an entry's flags copies every flag test. -/
theorem Pte.has_pteFlags (pte : Pte) {f : Pte} (hf : IsFlags f) :
    Pte.has (pteFlags pte) f = Pte.has pte f := by
  have hmask : 0x3FF#64 &&& f = f := by
    refine BitVec.eq_of_toNat_eq ?_
    rw [BitVec.toNat_and, Nat.and_comm, show (0x3FF#64).toNat = 2 ^ 10 - 1 from rfl,
      Nat.and_two_pow_sub_one_eq_mod]
    exact Nat.mod_eq_of_lt hf
  rw [Pte.has, Pte.has, pteFlags, BitVec.and_assoc, hmask]

/-! ### Evicted entries -/

theorem Pte.has_swappedPte (slot : ℕ) {f : Pte} (hf : IsFlags f) :
    Pte.has (swappedPte slot) f = Pte.has pteSwapped f := by
  rw [swappedPte, Pte.has_or, Pte.has_shiftLeft hf, Bool.false_or]

@[simp] theorem Pte.has_swappedPte_pteV (slot : ℕ) : Pte.has (swappedPte slot) pteV = false := by
  rw [Pte.has_swappedPte slot isFlags_pteV]; decide

@[simp] theorem Pte.has_swappedPte_pteSwapped (slot : ℕ) :
    Pte.has (swappedPte slot) pteSwapped = true := by
  rw [Pte.has_swappedPte slot (by decide)]; decide

theorem pteSwapSlot_swappedPte {slot : ℕ} (h : slot < 2 ^ 18) :
    pteSwapSlot (swappedPte slot) = slot := by
  have hbody : (BitVec.ofNat 64 slot <<< 10).toNat = slot * 1024 := by
    rw [BitVec.toNat_shiftLeft, BitVec.toNat_ofNat, Nat.shiftLeft_eq]
    omega
  have hval : (swappedPte slot).toNat = slot * 1024 + 256 :=
    toNat_or_flags hbody (by decide)
  rw [pteSwapSlot, BitVec.toNat_and, BitVec.toNat_ushiftRight, hval, Nat.shiftRight_eq_div_pow,
    show (0x3FFFF#64).toNat = 2 ^ 18 - 1 from rfl, Nat.and_two_pow_sub_one_eq_mod]
  omega

/-! ### Clearing a flag -/

/-- `*pte &= ~f` leaves every test of other flags alone. -/
theorem Pte.has_clear {pte f g : Pte} (h : ~~~f &&& g = g) :
    Pte.has (pte &&& ~~~f) g = Pte.has pte g := by
  rw [Pte.has, Pte.has, BitVec.and_assoc, h]

theorem Pte.has_clear_self (pte f : Pte) : Pte.has (pte &&& ~~~f) f = false := by
  rw [Pte.has, BitVec.and_assoc, BitVec.and_comm (~~~f) f]; simp

theorem pte2pa_clear {pte f : Pte} (hf : IsFlags f) : pte2pa (pte &&& ~~~f) = pte2pa pte := by
  have hbits : (pte &&& ~~~f) >>> 10 = pte >>> 10 := by
    refine BitVec.eq_of_getLsbD_eq fun i hi => ?_
    have hbit : f.getLsbD (10 + i) = false := by
      refine Nat.testBit_lt_two_pow (lt_of_lt_of_le hf ?_)
      calc 1024 = 2 ^ 10 := rfl
        _ ≤ 2 ^ (10 + i) := Nat.pow_le_pow_right (by norm_num) (by omega)
    rw [BitVec.getLsbD_ushiftRight, BitVec.getLsbD_ushiftRight, BitVec.getLsbD_and,
      BitVec.getLsbD_not, hbit]
    by_cases h : 10 + i < 64
    · simp [h]
    · simp [h, BitVec.getLsbD_of_ge pte (10 + i) (by omega)]
  rw [pte2pa, pte2pa, hbits]

-- from here on entries are known by the lemmas above
attribute [irreducible] pa2pte pte2pa pteFlags pteSwapSlot mkPte swappedPte

end Xv6
