import Mathlib.Algebra.BigOperators.Fin
import Mathlib.Tactic.NormNum

/-!
# Words in byte arrays

A block of `8 * n` bytes read as `n` little-endian 64-bit words. Page tables, data pages and
structures all live in the same bytes, so the byte view is the primitive one and a word is
computed from it.
-/

namespace Xv6

/-- A byte. -/
abbrev Byte : Type := BitVec 8

variable {n : ℕ}

/-- The place of byte `k` of word `i`. -/
def byteIndex (i : Fin n) (k : Fin 8) : Fin (8 * n) := ⟨8 * i + k, by omega⟩

/-- Word `i` of a block of bytes, little-endian. -/
def word (b : Fin (8 * n) → Byte) (i : Fin n) : BitVec 64 :=
  BitVec.ofNat 64 (∑ k : Fin 8, (b (byteIndex i k)).toNat * 256 ^ (k : ℕ))

/-- Overwrite word `i` of a block of bytes. -/
def setWord (b : Fin (8 * n) → Byte) (i : Fin n) (w : BitVec 64) : Fin (8 * n) → Byte := fun o =>
  if (o : ℕ) / 8 = i then w.extractLsb' (8 * ((o : ℕ) % 8)) 8 else b o

theorem setWord_byteIndex (b : Fin (8 * n) → Byte) (i : Fin n) (w : BitVec 64) (k : Fin 8) :
    setWord b i w (byteIndex i k) = w.extractLsb' (8 * (k : ℕ)) 8 := by
  have hdiv : (8 * (i : ℕ) + k) / 8 = i := by omega
  have hmod : (8 * (i : ℕ) + k) % 8 = k := by omega
  simp [setWord, byteIndex, hdiv, hmod]

theorem setWord_of_ne (b : Fin (8 * n) → Byte) {i j : Fin n} (w : BitVec 64) (h : j ≠ i)
    (k : Fin 8) : setWord b i w (byteIndex j k) = b (byteIndex j k) := by
  have hdiv : (8 * (j : ℕ) + k) / 8 = j := by omega
  have hne : (j : ℕ) ≠ i := fun hh => h (Fin.ext hh)
  simp [setWord, byteIndex, hdiv, hne]

/-- The eight base-256 digits of a 64-bit number give it back. -/
theorem sum_digits_eq {x : ℕ} (hx : x < 2 ^ 64) :
    ∑ k : Fin 8, x / 2 ^ (8 * (k : ℕ)) % 2 ^ 8 * 256 ^ (k : ℕ) = x := by
  simp only [Fin.sum_univ_eight, Fin.val_zero, Fin.val_one, Fin.val_two]
  norm_num
  omega

/-- **Read after write.** -/
@[simp] theorem word_setWord_self (b : Fin (8 * n) → Byte) (i : Fin n) (w : BitVec 64) :
    word (setWord b i w) i = w := by
  have hsum : ∑ k : Fin 8, (setWord b i w (byteIndex i k)).toNat * 256 ^ (k : ℕ) = w.toNat := by
    calc ∑ k : Fin 8, (setWord b i w (byteIndex i k)).toNat * 256 ^ (k : ℕ)
        = ∑ k : Fin 8, w.toNat / 2 ^ (8 * (k : ℕ)) % 2 ^ 8 * 256 ^ (k : ℕ) :=
          Finset.sum_congr rfl fun k _ => by
            rw [setWord_byteIndex, BitVec.extractLsb'_toNat, Nat.shiftRight_eq_div_pow]
      _ = w.toNat := sum_digits_eq w.isLt
  rw [word, hsum, BitVec.ofNat_toNat, BitVec.setWidth_eq]

/-- **Read another word.** -/
theorem word_setWord_of_ne (b : Fin (8 * n) → Byte) {i j : Fin n} (w : BitVec 64) (h : j ≠ i) :
    word (setWord b i w) j = word b j := by
  rw [word, word]
  exact congrArg _ (Finset.sum_congr rfl fun k _ => by rw [setWord_of_ne b w h])

/-- A cleared block holds zero words. -/
@[simp] theorem word_zero (i : Fin n) : word (fun _ : Fin (8 * n) => (0 : Byte)) i = 0 := by
  simp [word]

end Xv6
