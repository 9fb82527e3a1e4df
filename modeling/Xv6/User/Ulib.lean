import Xv6.Lib.Buffer

/-!
# Functions of `ulib.c`

The functions on strings and memory that the programs use, on an array of bytes. A pointer into the
array is an offset. `memmove` copies from below or from above, so that it never reads a byte that it
has overwritten.
-/

namespace Xv6

namespace Ulib

open Bytes

variable {n : ℕ}

/-! ### Finding a byte -/

/-- The loop of `strchr`, for at most `k` bytes. -/
def strchrFrom (b : Fin n → Byte) (x : Byte) : ℕ → ℕ → Option ℕ
  | 0, _ => none
  | k + 1, s =>
    if get b s = 0 then none else if get b s = x then some s else strchrFrom b x k (s + 1)

/-- The first `x` in the string at `s`. -/
def strchr (b : Fin n → Byte) (s : ℕ) (x : Byte) : Option ℕ := strchrFrom b x (n - s) s

variable {b : Fin n → Byte} {x : Byte} {k s q : ℕ} {l : List Byte}

theorem strchrFrom_mem (h : strchrFrom b x k s = some q) : s ≤ q ∧ q < s + k := by
  induction k generalizing s with
  | zero => nomatch h
  | succ k ih =>
    rw [strchrFrom] at h
    split_ifs at h
    · obtain rfl := Option.some.inj h
      omega
    · have := ih h
      omega

theorem strchr_mem (h : strchr b s x = some q) : s ≤ q ∧ q < n := by
  have := strchrFrom_mem h
  omega

/-- The string goes on to `y`, which ends it or is what is looked for. -/
theorem strchr_eq {y : Byte} (h : Holds b s (l ++ [y])) (hx : x ∉ l) (hnull : (0 : Byte) ∉ l)
    (hy : y = 0 ∨ y = x) (hfit : s + l.length < n) :
    strchr b s x = if y = 0 then none else some (s + l.length) := by
  have hfuel : l.length < n - s := by omega
  rw [strchr]
  generalize n - s = k at hfuel
  clear hfit
  induction l generalizing s k with
  | nil =>
    obtain ⟨k, rfl⟩ := Nat.exists_eq_succ_of_ne_zero (Nat.ne_of_gt hfuel)
    have hs : get b s = y := h.1
    rw [strchrFrom, hs]
    rcases hy with rfl | rfl
    · rfl
    · rw [if_pos rfl]
      rfl
  | cons z l ih =>
    obtain ⟨k, rfl⟩ := Nat.exists_eq_succ_of_ne_zero (Nat.ne_of_gt (Nat.zero_lt_of_lt hfuel))
    have hz : get b s = z := h.1
    rw [List.mem_cons, not_or] at hx hnull
    rw [strchrFrom, hz, if_neg (Ne.symm hnull.1), if_neg (Ne.symm hx.1), ih h.2 hx.2 hnull.2 _
      (Nat.lt_of_succ_lt_succ hfuel), List.length_cons, Nat.add_assoc, Nat.add_comm 1]

/-! ### Moving bytes -/

/-- The loop of `memmove` from the lowest byte on. -/
def moveUp (b : Fin n → Byte) (dst src : ℕ) : ℕ → Fin n → Byte
  | 0 => b
  | k + 1 => moveUp (put b dst (get b src)) (dst + 1) (src + 1) k

/-- The loop of `memmove` from the highest byte on. -/
def moveDown (b : Fin n → Byte) (dst src : ℕ) : ℕ → Fin n → Byte
  | 0 => b
  | k + 1 => moveDown (put b (dst + k) (get b (src + k))) dst src k

/-- Move `k` bytes from `src` to `dst`. -/
def memmove (b : Fin n → Byte) (dst src k : ℕ) : Fin n → Byte :=
  if src > dst then moveUp b dst src k else moveDown b dst src k

variable {dst src : ℕ}

theorem get_moveUp {i : ℕ} (hi : i < dst) : get (moveUp b dst src k) i = get b i := by
  induction k generalizing b dst src with
  | zero => rfl
  | succ k ih => rw [moveUp, ih (by omega), get_put_of_ne (by omega)]

theorem holds_moveUp (h : Holds b src l) (hle : dst ≤ src) (hfit : dst + l.length ≤ n) :
    Holds (moveUp b dst src l.length) dst l := by
  induction l generalizing b dst src with
  | nil => trivial
  | cons y l ih =>
    rw [List.length_cons] at hfit
    have hy : get b src = y := h.1
    rw [List.length_cons, moveUp, hy]
    refine ⟨?_, ih (h.2.put (Or.inl (by omega))) (by omega) (by omega)⟩
    rw [get_moveUp (by omega), get_put_self (by omega)]

theorem get_moveDown {i : ℕ} (hi : dst + k ≤ i) : get (moveDown b dst src k) i = get b i := by
  induction k generalizing b with
  | zero => rfl
  | succ k ih => rw [moveDown, ih (by omega), get_put_of_ne (by omega)]

theorem holds_moveDown (h : Holds b src l) (hle : src ≤ dst) (hfit : dst + l.length ≤ n) :
    Holds (moveDown b dst src l.length) dst l := by
  induction l using List.reverseRecOn generalizing b with
  | nil => trivial
  | append_singleton l y ih =>
    rw [List.length_append, List.length_singleton] at hfit ⊢
    obtain ⟨hl, hy, -⟩ := holds_append.mp h
    rw [moveDown, hy]
    refine holds_append.mpr ⟨ih (hl.put (Or.inr (by omega))) (by omega), ?_, trivial⟩
    rw [get_moveDown le_rfl, get_put_self (by omega)]

/-- **The bytes are at their new place**, also if that and the old one have bytes in common. -/
theorem holds_memmove (h : Holds b src l) (hfit : dst + l.length ≤ n) :
    Holds (memmove b dst src l.length) dst l := by
  rw [memmove]
  split_ifs with hlt
  · exact holds_moveUp h (Nat.le_of_lt hlt) hfit
  · exact holds_moveDown h (Nat.le_of_not_lt hlt) hfit

end Ulib

end Xv6
