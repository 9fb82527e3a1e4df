import Mathlib.Data.Nat.Init
import Mathlib.Logic.Function.Basic
import Xv6.Lib.Word

/-!
# Moving memory

`memmove` of the kernel and `memmove` of the user library, on the memory of a machine with 64-bit
addresses. The two choose the direction of the copy by different tests. The kernel copies from the
highest byte on only if the destination starts inside the source; the library does so whenever it
does not start below it.

A copy from the lowest byte on is right as long as the destination does not start at a later byte of
the source, and a copy from the highest byte on as long as the source does not start at a later byte
of the destination. Both are conditions on the distance of the two addresses. If the ranges do not
wrap around then either test makes sure of the one it needs.
-/

namespace Xv6

open Function

/-- An address of the machine. -/
abbrev Addr : Type := BitVec 64

/-- The bytes of a memory. -/
abbrev Memory : Type := Addr → Byte

/-! ### The two functions -/

/-- `while(n-- > 0) *d++ = *s++;` -/
def copyUp (m : Memory) (d s : Addr) : ℕ → Memory
  | 0 => m
  | n + 1 => copyUp (update m d (m s)) (d + 1) (s + 1) n

/-- `while(n-- > 0) *--d = *--s;` -/
def copyDown (m : Memory) (d s : Addr) : ℕ → Memory
  | 0 => m
  | n + 1 => copyDown (update m (d - 1) (m (s - 1))) (d - 1) (s - 1) n

/-- `memmove` of `string.c`, whose length is an `uint`: the memory after it and what it returns. -/
def InKernel.memmove (m : Memory) (dst src : Addr) (n : BitVec 32) : Memory × Addr :=
  if n = 0 then (m, dst)
  else if src < dst ∧ src + n.setWidth 64 > dst then
    (copyDown m (dst + n.setWidth 64) (src + n.setWidth 64) n.toNat, dst)
  else (copyUp m dst src n.toNat, dst)

/-- `memmove` of `ulib.c`, whose length is an `int`: the memory after it and what it returns. The
loops do nothing if the length is negative. -/
def InUser.memmove (m : Memory) (vdst vsrc : Addr) (n : BitVec 32) : Memory × Addr :=
  if vsrc > vdst then (copyUp m vdst vsrc n.toInt.toNat, vdst)
  else (copyDown m (vdst + n.signExtend 64) (vsrc + n.signExtend 64) n.toInt.toNat, vdst)

/-! ### What a move is -/

/-- `m'` is `m` with the `n` bytes that were at `src` at `dst`. -/
structure Moved (m m' : Memory) (dst src : Addr) (n : ℕ) : Prop where
  inside : ∀ i < n, m' (dst + BitVec.ofNat 64 i) = m (src + BitVec.ofNat 64 i)
  outside : ∀ a, (∀ i < n, a ≠ dst + BitVec.ofNat 64 i) → m' a = m a

variable {m m' : Memory} {dst src d s : Addr} {n : ℕ}

theorem Moved.refl (m : Memory) (dst src : Addr) : Moved m m dst src 0 :=
  ⟨fun i hi => absurd hi (Nat.not_lt_zero i), fun _ _ => rfl⟩

theorem Moved.unique {m'' : Memory} (h : Moved m m' dst src n) (h' : Moved m m'' dst src n) :
    m' = m'' := by
  funext a
  by_cases ha : ∃ i < n, a = dst + BitVec.ofNat 64 i
  · obtain ⟨i, hi, rfl⟩ := ha
    rw [h.inside i hi, h'.inside i hi]
  · have hout : ∀ i < n, a ≠ dst + BitVec.ofNat 64 i := fun i hi heq => ha ⟨i, hi, heq⟩
    rw [h.outside a hout, h'.outside a hout]

theorem ofNat_succ_eq (a : Addr) (i : ℕ) :
    a + BitVec.ofNat 64 (i + 1) = a + 1 + BitVec.ofNat 64 i := by
  rw [BitVec.ofNat_add, BitVec.add_assoc, BitVec.add_comm (BitVec.ofNat 64 i)]
  rfl

/-- One byte more below, moved before the others. -/
theorem Moved.up (h : Moved (update m dst (m src)) m' (dst + 1) (src + 1) n)
    (hread : ∀ i < n, src + 1 + BitVec.ofNat 64 i ≠ dst)
    (hstay : ∀ i < n, dst ≠ dst + 1 + BitVec.ofNat 64 i) : Moved m m' dst src (n + 1) where
  inside i hi := by
    cases i with
    | zero =>
      rw [BitVec.add_zero, BitVec.add_zero, h.outside dst hstay, update_self]
    | succ i =>
      have hi' : i < n := Nat.lt_of_succ_lt_succ hi
      rw [ofNat_succ_eq, ofNat_succ_eq, h.inside i hi', update_of_ne (hread i hi')]
  outside a ha := by
    have hne : a ≠ dst := by
      have hfirst := ha 0 n.succ_pos
      rwa [BitVec.add_zero] at hfirst
    rw [h.outside a fun i hi => ofNat_succ_eq dst i ▸ ha (i + 1) (Nat.succ_lt_succ hi),
      update_of_ne hne]

/-- One byte more above, moved before the others. -/
theorem Moved.down
    (h : Moved (update m (dst + BitVec.ofNat 64 n) (m (src + BitVec.ofNat 64 n))) m' dst src n)
    (hread : ∀ i < n, src + BitVec.ofNat 64 i ≠ dst + BitVec.ofNat 64 n)
    (hstay : ∀ i < n, dst + BitVec.ofNat 64 n ≠ dst + BitVec.ofNat 64 i) :
    Moved m m' dst src (n + 1) where
  inside i hi := by
    rcases Nat.lt_succ_iff_lt_or_eq.mp hi with hi' | rfl
    · rw [h.inside i hi', update_of_ne (hread i hi')]
    · rw [h.outside _ hstay, update_self]
  outside a ha := by
    rw [h.outside a fun i hi => ha i (Nat.lt_succ_of_lt hi), update_of_ne (ha n n.lt_succ_self)]

/-! ### The two directions -/

/-- The destination does not start at a later byte of the source. -/
theorem copyUp_moved (hn : n ≤ 2 ^ 64) (hdist : dst = src ∨ n ≤ (dst - src).toNat) :
    Moved m (copyUp m dst src n) dst src n := by
  induction n generalizing m dst src with
  | zero => exact Moved.refl m dst src
  | succ n ih =>
    refine Moved.up (ih (Nat.le_of_succ_le hn) ?_) (fun i hi => ?_) fun i hi => ?_
    · exact hdist.imp (congrArg (· + 1)) fun h => by bv_omega
    · bv_omega
    · bv_omega

theorem copyDown_moved (hn : n ≤ 2 ^ 64) (hdist : dst = src ∨ n ≤ (src - dst).toNat) :
    Moved m (copyDown m (dst + BitVec.ofNat 64 n) (src + BitVec.ofNat 64 n) n) dst src n := by
  induction n generalizing m with
  | zero => exact Moved.refl m dst src
  | succ n ih =>
    have hlast : ∀ a : Addr, a + BitVec.ofNat 64 (n + 1) - 1 = a + BitVec.ofNat 64 n := by
      intro a
      bv_omega
    rw [copyDown, hlast, hlast]
    refine Moved.down (ih (Nat.le_of_succ_le hn) ?_) (fun i hi => ?_) fun i hi => ?_
    · exact hdist.imp_right Nat.le_of_succ_le
    · bv_omega
    · bv_omega

/-! ### Both functions -/

/-- The `n` bytes from `a` on do not go beyond the last address. -/
def NoWrap (a : Addr) (n : ℕ) : Prop := a.toNat + n ≤ 2 ^ 64

theorem InKernel.memmove_moved {n : BitVec 32} (hdst : NoWrap dst n.toNat)
    (hsrc : NoWrap src n.toNat) :
    ∃ m', memmove m dst src n = (m', dst) ∧ Moved m m' dst src n.toNat := by
  have hlen : n.setWidth 64 = BitVec.ofNat 64 n.toNat := by bv_omega
  have hn : n.toNat ≤ 2 ^ 64 := by bv_omega
  rw [NoWrap] at hdst hsrc
  rw [memmove, hlen]
  split_ifs with hzero hover
  · subst hzero
    exact ⟨m, rfl, Moved.refl m dst src⟩
  · exact ⟨_, rfl, copyDown_moved hn (Or.inr (by bv_omega))⟩
  · refine ⟨_, rfl, copyUp_moved hn ?_⟩
    rw [not_and_or] at hover
    bv_omega

theorem toNat_toInt {n : BitVec 32} (h : 0 ≤ n.toInt) : n.toInt.toNat = n.toNat := by
  have := BitVec.toInt_eq_toNat_cond n
  omega

theorem InUser.memmove_moved {n : BitVec 32} (hdst : NoWrap dst n.toInt.toNat)
    (hsrc : NoWrap src n.toInt.toNat) :
    ∃ m', memmove m dst src n = (m', dst) ∧ Moved m m' dst src n.toInt.toNat := by
  have hn : n.toInt.toNat ≤ 2 ^ 64 := by
    have := BitVec.toInt_lt (x := n)
    omega
  rw [NoWrap] at hdst hsrc
  rw [memmove]
  split_ifs with hbelow
  · exact ⟨_, rfl, copyUp_moved hn (Or.inr (by bv_omega))⟩
  · by_cases hneg : 0 ≤ n.toInt
    · have hmsb : n.msb = false := by
        rw [BitVec.msb_eq_toInt]
        exact decide_eq_false (not_lt.mpr hneg)
      rw [BitVec.signExtend_eq_setWidth_of_msb_false hmsb, ← BitVec.ofNat_toNat,
        ← toNat_toInt hneg]
      refine ⟨_, rfl, copyDown_moved hn ?_⟩
      bv_omega
    · have hzero : n.toInt.toNat = 0 := by omega
      rw [hzero]
      exact ⟨m, rfl, Moved.refl m dst src⟩

/-- **A move is right for every overlap, and both functions agree.** A length is a value of the type
of the parameter: below `2 ^ 32` in the kernel, and below `2 ^ 31` in the library, where nothing
happens if it is negative. -/
theorem memmove_right (m : Memory) (dst src : Addr) (n : BitVec 32) :
    (NoWrap dst n.toNat → NoWrap src n.toNat →
      (InKernel.memmove m dst src n).2 = dst ∧
      Moved m (InKernel.memmove m dst src n).1 dst src n.toNat) ∧
    (NoWrap dst n.toInt.toNat → NoWrap src n.toInt.toNat →
      (InUser.memmove m dst src n).2 = dst ∧
      Moved m (InUser.memmove m dst src n).1 dst src n.toInt.toNat) ∧
    (NoWrap dst n.toNat → NoWrap src n.toNat → 0 ≤ n.toInt →
      InUser.memmove m dst src n = InKernel.memmove m dst src n) := by
  refine ⟨fun hdst hsrc => ?_, fun hdst hsrc => ?_, fun hdst hsrc hn => ?_⟩
  · obtain ⟨m', hrun, hmoved⟩ := InKernel.memmove_moved (m := m) hdst hsrc
    rw [hrun]
    exact ⟨rfl, hmoved⟩
  · obtain ⟨m', hrun, hmoved⟩ := InUser.memmove_moved (m := m) hdst hsrc
    rw [hrun]
    exact ⟨rfl, hmoved⟩
  · obtain ⟨m₁, hrun₁, hmoved₁⟩ := InKernel.memmove_moved (m := m) hdst hsrc
    rw [← toNat_toInt hn] at hdst hsrc hmoved₁
    obtain ⟨m₂, hrun₂, hmoved₂⟩ := InUser.memmove_moved (m := m) hdst hsrc
    rw [hrun₁, hrun₂, hmoved₁.unique hmoved₂]

theorem memmove_right_overlap :
    Moved (fun a => a.setWidth 8) (InKernel.memmove (fun a => a.setWidth 8) 1 0 2).1 1 0 2 ∧
    InUser.memmove (fun a => a.setWidth 8) 1 0 2 = InKernel.memmove (fun a => a.setWidth 8) 1 0 2 :=
  ⟨((memmove_right (fun a => a.setWidth 8) 1 0 2).1 (by rw [NoWrap]; decide)
      (by rw [NoWrap]; decide)).2,
    (memmove_right (fun a => a.setWidth 8) 1 0 2).2.2 (by rw [NoWrap]; decide)
      (by rw [NoWrap]; decide) (by decide)⟩

end Xv6
